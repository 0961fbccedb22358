import GoQuant.Book.Indexed
import Mathlib.Data.List.Flatten

/-!
# What the matching loops fill

In an indexed book, and for an incoming order whose id no resting order has, `fillFrom`
executes the greedy fills of the queue it is given: one trade each, fully used makers leave,
the last maker keeps the rest of its quantity, nothing else that rests changes. The outer
loops make at most one pass, because a pass that leaves a remainder has emptied the orders
in reach.

## Main definitions

* `tradesOf` — the trades that report a list of fills.
* `Acceptable` — a book and an incoming order that `processOrder` matches as it should.
* `Matching.Fills` — one matching state is another with a list of fills executed.
* `takes` — the fills of an incoming order: the greedy ones, or none for a FOK order that
  they do not fill.

## Main results

* `fillFrom_fills` — the `for` loop executes the greedy fills of its snapshot.
* `processOrder_fills` — `processOrder` returns, with exactly `takes` executed.
-/

namespace GoQuant

open MatchingAlgorithm

/-- The trade that reports one fill; `n` trades were made before it. -/
def tradeOf (feeModel : Option FeeModel) (taker : Order) (n : ℕ) (maker : Order) (quantity : ℚ) :
    Trade where
  tradeId := "TRD" ++ toString (n + 1)
  symbol := maker.symbol
  price := maker.price
  quantity := quantity
  makerFee := (fees feeModel maker.symbol maker.price quantity).1
  takerFee := (fees feeModel maker.symbol maker.price quantity).2
  makerOrderId := maker.id
  takerOrderId := taker.id
  aggressorSide := taker.side
  seqNum := 0

/-- The trades that report a list of fills. -/
def tradesOf (feeModel : Option FeeModel) (taker : Order) : ℕ → List (Order × ℚ) → List Trade
  | _, [] => []
  | n, p :: fs => tradeOf feeModel taker n p.1 p.2 :: tradesOf feeModel taker (n + 1) fs

theorem tradesOf_append (feeModel : Option FeeModel) (taker : Order) (n : ℕ)
    (fs gs : List (Order × ℚ)) :
    tradesOf feeModel taker n (fs ++ gs) =
      tradesOf feeModel taker n fs ++ tradesOf feeModel taker (n + fs.length) gs := by
  induction fs generalizing n with
  | nil => rfl
  | cons p fs ih =>
    simp only [List.cons_append, tradesOf, ih, List.length_cons]
    grind

section Trades

variable {feeModel : Option FeeModel} {taker : Order} {n : ℕ} {fs : List (Order × ℚ)}

theorem map_tradesOf {α : Type*} (f : Trade → α) (g : Order × ℚ → α)
    (hfg : ∀ n p, f (tradeOf feeModel taker n p.1 p.2) = g p) (n : ℕ) (fs : List (Order × ℚ)) :
    (tradesOf feeModel taker n fs).map f = fs.map g := by
  induction fs generalizing n with
  | nil => rfl
  | cons p fs ih => simp [tradesOf, hfg, ih]

@[simp] theorem length_tradesOf : (tradesOf feeModel taker n fs).length = fs.length := by
  induction fs generalizing n with
  | nil => rfl
  | cons p fs ih => simp [tradesOf, ih]

/-- Of the taker a trade shows its id and its side. -/
theorem tradesOf_congr {taker' : Order} (hid : taker'.id = taker.id)
    (hside : taker'.side = taker.side) :
    tradesOf feeModel taker' n fs = tradesOf feeModel taker n fs := by
  induction fs generalizing n with
  | nil => rfl
  | cons p fs ih => simp only [tradesOf, tradeOf, ih, hid, hside]

theorem mem_tradesOf {t : Trade} (ht : t ∈ tradesOf feeModel taker n fs) :
    ∃ n, ∃ p ∈ fs, t = tradeOf feeModel taker n p.1 p.2 := by
  induction fs generalizing n with
  | nil => simp [tradesOf] at ht
  | cons p fs ih =>
    rcases List.mem_cons.mp ht with rfl | ht
    · exact ⟨n, p, List.mem_cons_self, rfl⟩
    · obtain ⟨n', p', hp', rfl⟩ := ih ht
      exact ⟨n', p', List.mem_cons_of_mem p hp', rfl⟩

end Trades

/-- A fresh order object and an indexed book of quantities that are not negative. -/
structure Prepared (mem : Memory) (b : OrderBook) (order : Ref) : Prop where
  indexed : Indexed mem b
  nonneg : NonNeg mem b
  fresh : Fresh mem b order

/-- No resting order has the order's id. -/
structure Ready (mem : Memory) (b : OrderBook) (order : Ref) : Prop
    extends Prepared mem b order where
  stranger : ∀ r, b.Rests r → (mem.order r).id ≠ (mem.order order).id

/-- A resting order with the order's id is the first one in reach and will be used up. -/
structure Acceptable (mem : Memory) (b : OrderBook) (order : Ref) : Prop
    extends Prepared mem b order where
  first : ∀ r, b.Rests r → (mem.order r).id = (mem.order order).id →
    (b.reachRefs (mem.order order)).head? = some r ∧
      (mem.order r).quantity ≤ (mem.order order).quantity

theorem Ready.acceptable {mem : Memory} {b : OrderBook} {order : Ref} (h : Ready mem b order) :
    Acceptable mem b order :=
  ⟨h.toPrepared, fun r hr heq => absurd heq (h.stranger r hr)⟩

/-- `t` is `s` with a list of fills executed against an incoming order. -/
structure Matching.Fills (feeModel : Option FeeModel) (order : Ref) (fs : List (Ref × ℚ))
    (s t : Matching) : Prop where
  queues : ∀ side, t.book.queues side =
    Ladder.retain (fun r => decide ((r, (s.mem.order r).quantity) ∉ fs)) (s.book.queues side)
  makers : ∀ r, s.book.Rests r → (r, (s.mem.order r).quantity) ∉ fs → t.mem.order r =
    { s.mem.order r with quantity := (s.mem.order r).quantity - Fill.given fs r }
  taker : t.mem.order order = s.mem.order order
  trades : t.trades = s.trades ++ tradesOf feeModel (s.mem.order order) s.mem.tradeCounter
    (fs.map fun p => (s.mem.order p.1, p.2))
  remaining : t.remainingQty = s.remainingQty - (fs.map Prod.snd).sum
  counter : t.mem.tradeCounter = s.mem.tradeCounter + fs.length

section Decrease

variable {mem : Memory} {b : OrderBook} {r : Ref} {id : String} {a : ℚ}

@[simp] theorem OrderBook.decreaseOrderQuantity_tradeCounter (mem : Memory) (b : OrderBook)
    (id : String) (a : ℚ) :
    (b.decreaseOrderQuantity mem id a).2.1.tradeCounter = mem.tradeCounter := by
  unfold decreaseOrderQuantity
  split
  · rfl
  · dsimp only
    split_ifs <;> rfl

/-- A decrease under an id that no resting order has leaves the resting orders alone. -/
theorem Indexed.decrease_idle (h : Indexed mem b)
    (hid : ∀ r, b.Rests r → (mem.order r).id ≠ id) :
    (∀ t, (b.decreaseOrderQuantity mem id a).2.2.queues t = b.queues t) ∧
      ∀ r, b.Rests r → (b.decreaseOrderQuantity mem id a).2.1.order r = mem.order r := by
  cases hlook : b.orderMap.lookup id with
  | none => simp [OrderBook.decreaseOrderQuantity, hlook]
  | some d =>
    have hidle : ∀ r, b.Rests r → r ≠ d := by
      intro r hr heq
      exact hid r hr (heq ▸ h.named id d hlook)
    rcases le_or_gt (mem.order d).quantity a with ha | ha
    · obtain ⟨hmem, -, hq⟩ := h.decrease_gone hlook ha
      refine ⟨fun t => ?_, fun r _ => by rw [hmem]⟩
      rw [hq, Ladder.retain_eq_self h.items_ne_nil]
      exact fun r hr => decide_eq_true (hidle r (OrderBook.rests_iff.mpr ⟨t, hr⟩))
    · obtain ⟨hmem, -, hq⟩ := h.toSane.decrease_stays hlook ha
      refine ⟨hq, fun r hr => ?_⟩
      rw [hmem, Memory.modifyQuantity_order_of_ne mem _ _ _ (hidle r hr)]

/-- A decrease of a resting order by at most its quantity. -/
theorem Indexed.decrease_resting (h : Indexed mem b) (hr : b.Rests r)
    (ha : a ≤ (mem.order r).quantity) :
    (∀ t, (b.decreaseOrderQuantity mem (mem.order r).id a).2.2.queues t =
      Ladder.retain (fun r' => decide ((r', (mem.order r').quantity) ∉ [(r, a)]))
        (b.queues t)) ∧
    ∀ r', (r', (mem.order r').quantity) ∉ [(r, a)] →
      (b.decreaseOrderQuantity mem (mem.order r).id a).2.1.order r' =
        { mem.order r' with
          quantity := (mem.order r').quantity - Fill.given [(r, a)] r' } := by
  have hother : ∀ r', r' ≠ r → Fill.given [(r, a)] r' = 0 := by
    intro r' hne
    exact Fill.given_eq_zero (by simpa using hne)
  rcases ha.eq_or_lt with rfl | ha
  · obtain ⟨hmem, -, hq⟩ := h.decrease_gone (h.found r hr) le_rfl
    refine ⟨fun t => ?_, fun r' hr' => ?_⟩
    · rw [hq]
      refine Ladder.retain_congr fun r' _ => ?_
      by_cases heq : r' = r <;> simp [heq]
    · have hne : r' ≠ r := fun heq => hr' (by simp [heq])
      rw [hmem, hother r' hne, sub_zero]
  · obtain ⟨hmem, -, hq⟩ := h.toSane.decrease_stays (h.found r hr) ha
    refine ⟨fun t => ?_, fun r' hr' => ?_⟩
    · rw [hq, Ladder.retain_eq_self h.items_ne_nil]
      intro r' _
      simp only [List.mem_singleton, Prod.mk.injEq, decide_eq_true_eq, not_and]
      rintro rfl
      exact ha.ne'
    · rw [hmem, Memory.modifyQuantity_order]
      by_cases heq : r' = r
      · subst heq; simp
      · simp [heq, hother r' heq]

end Decrease

namespace Matching.Fills

variable {feeModel : Option FeeModel} {order : Ref} {s t u : Matching} {fs gs : List (Ref × ℚ)}

theorem refl (feeModel : Option FeeModel) (order : Ref) (h : Sane s.mem s.book) :
    s.Fills feeModel order [] s where
  queues side := (Ladder.retain_eq_self h.items_ne_nil fun _ _ => by simp).symm
  makers r _ _ := by simp [Fill.given]
  taker := rfl
  trades := by simp [tradesOf]
  remaining := by simp
  counter := rfl

theorem rests_iff (h : s.Fills feeModel order fs t) {r : Ref} :
    t.book.Rests r ↔ s.book.Rests r ∧ (r, (s.mem.order r).quantity) ∉ fs := by
  rw [OrderBook.rests_of_queues h.queues, decide_eq_true_eq]

/-- An order that gave nothing is unchanged. -/
theorem order_of_not_mem (h : s.Fills feeModel order fs t) {r : Ref} (hr : s.book.Rests r)
    (hne : r ∉ fs.map Prod.fst) : t.mem.order r = s.mem.order r := by
  have hgone : (r, (s.mem.order r).quantity) ∉ fs :=
    fun hmem => hne (List.mem_map.mpr ⟨_, hmem, rfl⟩)
  rw [h.makers r hr hgone, Fill.given_eq_zero hne, sub_zero]

theorem remaining_eq {qty : Ref → ℚ} {l : List Ref}
    (h : s.Fills feeModel order (Fill.fills qty s.remainingQty l) t) :
    t.remainingQty = Fill.unfilled qty s.remainingQty l := by
  rw [h.remaining, sub_eq_iff_eq_add, add_comm]
  exact Fill.sum_fills_add_unfilled.symm

/-- Fills of different makers compose. -/
theorem trans (h : s.Fills feeModel order fs t) (h' : t.Fills feeModel order gs u)
    (hrests : ∀ p ∈ gs, s.book.Rests p.1) (hdis : ∀ p ∈ gs, p.1 ∉ fs.map Prod.fst) :
    s.Fills feeModel order (fs ++ gs) u := by
  -- a maker of the second list still has the quantity it had before the first
  have hmaker : ∀ p ∈ gs, t.mem.order p.1 = s.mem.order p.1 :=
    fun p hp => h.order_of_not_mem (hrests p hp) (hdis p hp)
  have hmem : ∀ r, (r, (t.mem.order r).quantity) ∈ gs ↔ (r, (s.mem.order r).quantity) ∈ gs :=
    fun r => ⟨fun hr => hmaker _ hr ▸ hr, fun hr => (hmaker _ hr).symm ▸ hr⟩
  refine ⟨fun side => ?_, fun r hr hgone => ?_, h'.taker.trans h.taker, ?_, ?_, ?_⟩
  · rw [h'.queues, h.queues, Ladder.retain_retain]
    refine Ladder.retain_congr fun r _ => ?_
    simp [hmem, List.mem_append, not_or]
  · simp only [List.mem_append, not_or] at hgone
    have hrt : t.book.Rests r := h.rests_iff.mpr ⟨hr, hgone.1⟩
    rw [h'.makers r hrt (fun hg => hgone.2 ((hmem r).mp hg)), h.makers r hr hgone.1,
      Fill.given_append, sub_sub]
  · have hmap : (gs.map fun p => (t.mem.order p.1, p.2)) =
        gs.map fun p => (s.mem.order p.1, p.2) :=
      List.map_congr_left fun p hp => by rw [hmaker p hp]
    rw [h'.trades, h.trades, h.taker, h.counter, hmap, List.map_append, tradesOf_append,
      List.length_map, List.append_assoc]
  · rw [h'.remaining, h.remaining, List.map_append, List.sum_append, sub_sub]
  · rw [h'.counter, h.counter, List.length_append, Nat.add_assoc]

end Matching.Fills

section FillOne

variable {mem : Memory} {b : OrderBook} {order m : Ref} {feeModel : Option FeeModel}
  {s t : Matching}

/-- Consuming resting orders leaves the book prepared for the same taker. -/
theorem Prepared.of_consumes (h : Prepared s.mem s.book order) (hcons : s.Consumes t)
    (hi : Indexed t.mem t.book) (hn : NonNeg t.mem t.book) : Prepared t.mem t.book order where
  indexed := hi
  nonneg := hn
  fresh := h.fresh.of_consumes hcons

/-- One trade executes one fill, if a resting order with the taker's id can only be the
maker, and is used up by the trade. -/
theorem fillOne_fills (h : Prepared s.mem s.book order) (hm : s.book.Rests m)
    (hself : ∀ r, s.book.Rests r → (s.mem.order r).id = (s.mem.order order).id →
      r = m ∧ (s.mem.order m).quantity ≤ s.remainingQty) :
    s.Fills feeModel order [(m, min s.remainingQty (s.mem.order m).quantity)]
        (fillOne feeModel order m s) ∧
      Ready (fillOne feeModel order m s).mem (fillOne feeModel order m s).book order := by
  let q := min s.remainingQty (s.mem.order m).quantity
  have hq : q ≤ (s.mem.order m).quantity := min_le_right _ _
  let result := executeTrade feeModel s.mem s.book m order q
  let t := fillOne feeModel order m s
  let first := s.book.decreaseOrderQuantity s.mem (s.mem.order m).id q
  let second := first.2.2.decreaseOrderQuantity first.2.1 (first.2.1.order order).id q
  have hcons : s.Consumes t := fillOne_consumes feeModel m s
  have hi₁ : Indexed first.2.1 first.2.2 := h.indexed.decreaseOrderQuantity _ q
  have hi₂ : Indexed second.2.1 second.2.2 := hi₁.decreaseOrderQuantity _ q
  have hn₁ : NonNeg first.2.1 first.2.2 := h.nonneg.decreaseOrderQuantity _ q
  have hn₂ : NonNeg second.2.1 second.2.2 := hn₁.decreaseOrderQuantity _ q
  have hprep : Prepared t.mem t.book order :=
    h.of_consumes hcons (hi₂.of_extends (.generateTradeId _)) hn₂
  obtain ⟨hqueues, horder⟩ := h.indexed.decrease_resting hm hq
  have hext₁ : s.mem.Extends first.2.1 := OrderBook.decreaseOrderQuantity_extends ..
  have htaker₁ : first.2.1.order order = s.mem.order order :=
    OrderBook.decreaseOrderQuantity_order_of_unmapped _ h.fresh.unmapped _ _
  -- the taker's id leads to no order that rests after the first decrease
  have hidle : ∀ r, first.2.2.Rests r →
      (first.2.1.order r).id ≠ (first.2.1.order order).id := by
    intro r hr heq
    obtain ⟨hrests, hgone⟩ := (OrderBook.rests_of_queues hqueues).mp hr
    rw [htaker₁, hext₁.id_eq (h.indexed.restsAllocated r hrests)] at heq
    obtain ⟨rfl, hle⟩ := hself r hrests heq
    refine of_decide_eq_true hgone ?_
    rw [List.mem_singleton, Prod.mk.injEq]
    exact ⟨rfl, (min_eq_right hle).symm⟩
  obtain ⟨hqueues₂, horder₂⟩ := hi₁.decrease_idle (a := q) hidle
  have htaker : t.mem.order order = s.mem.order order := hcons.untouched h.fresh.unmapped
  obtain ⟨qm, hqm⟩ := hcons.mem.2 m (h.indexed.restsAllocated m hm)
  have hfills : s.Fills feeModel order [(m, q)] t := by
    refine ⟨fun side => ?_, fun r hr hgone => ?_, htaker, ?_, ?_, ?_⟩
    · exact (hqueues₂ side).trans (hqueues side)
    · have hr₁ : first.2.2.Rests r := by
        rw [OrderBook.rests_of_queues hqueues]
        exact ⟨hr, decide_eq_true hgone⟩
      exact (horder₂ r hr₁).trans (horder r hgone)
    · have hcounter : second.2.1.tradeCounter = s.mem.tradeCounter := by simp [second, first]
      have htrade : result.1 = tradeOf feeModel (t.mem.order order) second.2.1.tradeCounter
          { t.mem.order m with price := (s.mem.order m).price } q := rfl
      have hm' : tradeOf feeModel (t.mem.order order) second.2.1.tradeCounter
          { t.mem.order m with price := (s.mem.order m).price } q =
            tradeOf feeModel (s.mem.order order) s.mem.tradeCounter (s.mem.order m) q := by
        rw [htaker, hqm, hcounter]
        rfl
      change s.trades ++ [result.1] = _
      simp [tradesOf, htrade, hm', q]
    · change s.remainingQty - q = _
      simp [q]
    · change second.2.1.tradeCounter + 1 = s.mem.tradeCounter + 1
      simp [second, first]
  refine ⟨hfills, hprep, fun r hr => ?_⟩
  have hr₁ : first.2.2.Rests r :=
    (OrderBook.rests_congr fun side => (hqueues₂ side).symm).mpr hr
  have hrests : s.book.Rests r := (hfills.rests_iff.mp hr).1
  have hid := hidle r hr₁
  rw [htaker₁, hext₁.id_eq (h.indexed.restsAllocated r hrests)] at hid
  rwa [htaker, hcons.mem.id_eq (h.indexed.restsAllocated r hrests)]

end FillOne

/-! ## The loops -/

section Loops

variable {feeModel : Option FeeModel} {mem : Memory} {b : OrderBook} {order : Ref}
  {s t : Matching}

/-- The `for` loop executes the greedy fills of its snapshot. By induction on the snapshot:
each trade is one fill, and leaves the other makers as they were. Only the first trade can
be with an order of the taker's id. -/
theorem fillFrom_fills (feeModel : Option FeeModel) {ms : List Ref}
    (h : Prepared s.mem s.book order)
    (hself : ∀ r, s.book.Rests r → (s.mem.order r).id = (s.mem.order order).id →
      ms.head? = some r ∧ (s.mem.order r).quantity ≤ s.remainingQty ∧ 0 < s.remainingQty)
    (hnd : ms.Nodup) (hms : ∀ m ∈ ms, s.book.Rests m) :
    s.Fills feeModel order
        (Fill.fills (fun r => (s.mem.order r).quantity) s.remainingQty ms)
        (fillFrom feeModel order ms s) ∧
      Ready (fillFrom feeModel order ms s).mem (fillFrom feeModel order ms s).book order := by
  induction ms generalizing s with
  | nil =>
    refine ⟨.refl feeModel order h.indexed.toSane, h, fun r hr heq => ?_⟩
    simp at hself
    exact hself r hr heq
  | cons m ms ih =>
    obtain ⟨hm, hnd'⟩ := List.nodup_cons.mp hnd
    simp only [fillFrom, Fill.fills]
    split_ifs with hrem
    · refine ⟨.refl feeModel order h.indexed.toSane, h, fun r hr heq => ?_⟩
      exact absurd (hself r hr heq).2.2 (not_lt.mpr hrem)
    · let q := min s.remainingQty (s.mem.order m).quantity
      let t := fillOne feeModel order m s
      obtain ⟨hfill, hready⟩ : s.Fills feeModel order [(m, q)] t ∧ Ready t.mem t.book order := by
        refine fillOne_fills h (hms m List.mem_cons_self) fun r hr heq => ?_
        obtain ⟨hhead, hle, -⟩ := hself r hr heq
        obtain rfl : m = r := by simpa using hhead
        exact ⟨rfl, hle⟩
      have hne : ∀ m' ∈ ms, m' ∉ [(m, q)].map Prod.fst := by
        rintro m' hm' hin
        obtain rfl : m' = m := by simpa using hin
        exact hm hm'
      have hms' : ∀ m' ∈ ms, s.book.Rests m' := fun m' hm' => hms m' (List.mem_cons_of_mem m hm')
      have hrests : ∀ m' ∈ ms, t.book.Rests m' := by
        intro m' hm'
        refine hfill.rests_iff.mpr ⟨hms' m' hm', fun hin => hne m' hm' ?_⟩
        exact List.mem_map.mpr ⟨_, hin, rfl⟩
      obtain ⟨hrest, hready'⟩ := ih hready.toPrepared
        (fun r hr heq => absurd heq (hready.stranger r hr)) hnd' hrests
      have hcongr : Fill.fills (fun r => (t.mem.order r).quantity) t.remainingQty ms =
          Fill.fills (fun r => (s.mem.order r).quantity) (s.remainingQty - q) ms :=
        Fill.fills_congr fun m' hm' => by
          rw [hfill.order_of_not_mem (hms' m' hm') (hne m' hm')]
      rw [hcongr] at hrest
      refine ⟨hfill.trans hrest (fun p hp => ?_) fun p hp => ?_, hready'⟩
      · exact hms' p.1 (Fill.fst_mem_of_mem_fills hp)
      · exact hne p.1 (Fill.fst_mem_of_mem_fills hp)

theorem reachRefs_sublist (incoming : Order) :
    (b.reachRefs incoming).Sublist (Ladder.items (b.queues incoming.side.opposite)) := by
  rw [OrderBook.items_queues]
  exact (List.takeWhile_sublist _).flatMap _

/-- An order object rests once. -/
theorem Sane.nodup_items (h : Sane mem b) (side : Side) :
    (Ladder.items (b.queues side)).Nodup := by
  rw [OrderBook.items_queues, List.nodup_flatMap]
  refine ⟨h.nodup side, (h.sorted side).imp_of_mem fun {l l'} hl hl' hlt => ?_⟩
  intro r hr hr'
  have hp : l.price = l'.price :=
    (h.placed side l hl r hr).2.symm.trans (h.placed side l' hl' r hr').2
  exact irrefl_of side.ahead l'.price (hp ▸ hlt)

/-- A pass over the book executes the greedy fills of the orders in reach. -/
theorem pass_fills (feeModel : Option FeeModel) (h : Acceptable s.mem s.book order)
    (hrem : s.remainingQty = (s.mem.order order).quantity) (hq : 0 < s.remainingQty) :
    let t := fillFrom feeModel order (s.book.getMatchingOrders s.mem (s.mem.order order)) s
    s.Fills feeModel order (Fill.fills (fun r => (s.mem.order r).quantity) s.remainingQty
      (s.book.reachRefs (s.mem.order order))) t ∧ Ready t.mem t.book order := by
  have hsub : (s.book.getMatchingOrders s.mem (s.mem.order order)).Sublist
      (s.book.reachRefs (s.mem.order order)) := by
    rw [OrderBook.getMatchingOrders_eq]
    exact Fill.covering_sublist
  have hnd : (s.book.getMatchingOrders s.mem (s.mem.order order)).Nodup :=
    (h.indexed.nodup_items _).sublist (hsub.trans (reachRefs_sublist _))
  have hhead : (s.book.getMatchingOrders s.mem (s.mem.order order)).head? =
      (s.book.reachRefs (s.mem.order order)).head? := by
    rw [OrderBook.getMatchingOrders_eq]
    exact Fill.head?_covering (hrem ▸ hq)
  have hself : ∀ r, s.book.Rests r → (s.mem.order r).id = (s.mem.order order).id →
      (s.book.getMatchingOrders s.mem (s.mem.order order)).head? = some r ∧
        (s.mem.order r).quantity ≤ s.remainingQty ∧ 0 < s.remainingQty := by
    intro r hr heq
    obtain ⟨hfirst, hle⟩ := h.first r hr heq
    exact ⟨hhead.trans hfirst, hrem ▸ hle, hq⟩
  have hfills := fillFrom_fills feeModel h.toPrepared hself hnd
    fun m hm => OrderBook.rests_of_mem_reachRefs (hsub.subset hm)
  rw [OrderBook.getMatchingOrders_eq, hrem] at hfills ⊢
  rwa [Fill.fills_covering] at hfills

/-- When every order in reach was used up, none is left in reach. -/
theorem Matching.Fills.reachRefs_eq_nil {fs : List (Ref × ℚ)}
    (h : s.Fills feeModel order fs t) (hs : Sane s.mem s.book) (ht : Sane t.mem t.book)
    (hext : s.mem.Extends t.mem) {incoming : Order}
    (hall : ∀ r ∈ s.book.reachRefs incoming, (r, (s.mem.order r).quantity) ∈ fs) :
    t.book.reachRefs incoming = [] := by
  rw [OrderBook.reachRefs_eq_filter ht, List.filter_eq_nil_iff]
  intro r hr hw
  rw [← OrderBook.items_queues, h.queues, Ladder.items_retain, List.mem_filter,
    decide_eq_true_eq] at hr
  have hrests : s.book.Rests r := OrderBook.rests_iff.mpr ⟨_, hr.1⟩
  rw [hext.price_eq (hs.restsAllocated r hrests)] at hw
  refine hr.2 (hall r ?_)
  rw [OrderBook.reachRefs_eq_filter hs, List.mem_filter, ← OrderBook.items_queues]
  exact ⟨hr.1, hw⟩

/-- Both loop bodies: one pass while something remains and something is in reach. -/
def LoopBody (feeModel : Option FeeModel) (order : Ref)
    (step : Matching → Option Matching) : Prop :=
  ∀ s, Sane s.mem s.book → 0 < (s.mem.order order).quantity →
    step s = if 0 < s.remainingQty ∧ s.book.reachRefs (s.mem.order order) ≠ [] then
      some (fillFrom feeModel order (s.book.getMatchingOrders s.mem (s.mem.order order)) s)
    else none

theorem pass_eq (hq : 0 < (s.mem.order order).quantity) :
    pass feeModel order s = if s.book.reachRefs (s.mem.order order) ≠ [] then
      some (fillFrom feeModel order (s.book.getMatchingOrders s.mem (s.mem.order order)) s)
    else none := by
  have hnil : s.book.getMatchingOrders s.mem (s.mem.order order) = [] ↔
      s.book.reachRefs (s.mem.order order) = [] := OrderBook.getMatchingOrders_eq_nil hq
  unfold MatchingAlgorithm.pass
  split
  · rename_i hget
    rw [if_neg (not_not.mpr (hnil.mp hget))]
  · rename_i hget
    rw [if_pos fun hreach => hget (hnil.mpr hreach)]

theorem marketStep_loopBody (feeModel : Option FeeModel) (order : Ref) :
    LoopBody feeModel order (marketStep feeModel order) := by
  intro s _ hq
  rw [marketStep, pass_eq hq, ite_and]

theorem limitStep_loopBody (feeModel : Option FeeModel) (order : Ref) :
    LoopBody feeModel order (limitStep feeModel order) := by
  intro s hs hq
  rw [limitStep, pass_eq hq]
  simp only [OrderBook.hasMatchingOrders_iff hs]
  split_ifs <;> simp_all

/-- The fills of an incoming order: the greedy ones of the orders in reach, except that a
FOK order takes all or nothing. -/
def takes (mem : Memory) (b : OrderBook) (order : Ref) : List (Ref × ℚ) :=
  let qty := fun r => (mem.order r).quantity
  if (mem.order order).type = .fok ∧
      0 < Fill.unfilled qty (mem.order order).quantity (b.reachRefs (mem.order order)) then []
  else Fill.fills qty (mem.order order).quantity (b.reachRefs (mem.order order))

/-- The fills of an order name each maker once, and every maker rests. -/
theorem takes_nodup (h : Sane mem b) : ((takes mem b order).map Prod.fst).Nodup := by
  unfold takes
  dsimp only
  split_ifs
  · exact List.nodup_nil
  · exact ((h.nodup_items _).sublist (reachRefs_sublist _)).sublist Fill.fst_sublist_of_fills

theorem mem_reachRefs_of_mem_takes {p : Ref × ℚ} (hp : p ∈ takes mem b order) :
    p.1 ∈ b.reachRefs (mem.order order) := by
  unfold takes at hp
  dsimp only at hp
  split_ifs at hp
  · simp at hp
  · exact Fill.fst_mem_of_mem_fills hp

/-- What an order leaves unfilled: nothing or all of it for a FOK order. -/
theorem sub_sum_takes_nonneg (hq : 0 < (mem.order order).quantity) :
    0 ≤ (mem.order order).quantity - ((takes mem b order).map Prod.snd).sum := by
  unfold takes
  dsimp only
  split_ifs
  · simpa using hq.le
  · exact sub_nonneg.mpr (Fill.sum_fills_le hq.le)

theorem sum_takes_of_fok (htype : (mem.order order).type = .fok)
    (hq : 0 < (mem.order order).quantity) (hne : takes mem b order ≠ []) :
    ((takes mem b order).map Prod.snd).sum = (mem.order order).quantity := by
  unfold takes at hne ⊢
  simp only [htype, true_and] at hne ⊢
  split_ifs at hne ⊢ with hrem
  · exact absurd rfl hne
  exact Fill.sum_fills_eq hq.le (not_lt.mp hrem)

/-- The outer loops return after at most one pass. -/
theorem run_fills {step : Matching → Option Matching} (hstep : LoopBody feeModel order step)
    (h : Acceptable mem b order) (hq : 0 < (mem.order order).quantity) :
    ∃ t, Loop.run step 2 (start mem b order) = some t ∧ Ready t.mem t.book order ∧
      Trading feeModel order (start mem b order) t ∧ (start mem b order).Fills feeModel order
        (Fill.fills (fun r => (mem.order r).quantity) (mem.order order).quantity
          (b.reachRefs (mem.order order))) t := by
  have hstart := hstep (start mem b order) h.indexed.toSane hq
  by_cases hreach : b.reachRefs (mem.order order) = []
  · refine ⟨start mem b order, Loop.run_succ_of_exit ?_ 1, ⟨h.toPrepared, ?_⟩, .refl, ?_⟩
    · rw [hstart, if_neg fun hc => hc.2 hreach]
    · intro r hr heq
      have hhead := (h.first r hr heq).1
      simp [hreach] at hhead
    · rw [hreach]
      exact .refl feeModel order h.indexed.toSane
  · rw [if_pos ⟨hq, hreach⟩] at hstart
    have htrading : Trading feeModel order (start mem b order) (fillFrom feeModel order
        (b.getMatchingOrders mem (mem.order order)) (start mem b order)) :=
      Trading.refl.fillFrom fun m hm => OrderBook.rests_of_mem_getMatchingOrders hm
    obtain ⟨hfills, hready⟩ :=
      pass_fills feeModel (s := start mem b order) h rfl hq
    refine ⟨_, ?_, hready, htrading, hfills⟩
    rw [Loop.run_succ_of_step hstart]
    refine Loop.run_succ_of_exit ?_ 0
    rw [hstep _ hready.indexed.toSane (by rw [hfills.taker]; exact hq), if_neg]
    -- a pass that left a remainder has used the whole reach
    rintro ⟨hrem, hne⟩
    rw [hfills.remaining_eq] at hrem
    refine hne ?_
    rw [hfills.taker]
    refine hfills.reachRefs_eq_nil h.indexed.toSane hready.indexed.toSane
      htrading.consumes.mem fun r hr => ?_
    rw [Fill.fills_of_unfilled_pos hrem]
    exact List.mem_map.mpr ⟨r, hr, rfl⟩

/-- The first loop of `processFOKOrder` finds out whether the quantity is there. -/
theorem availableQty_lt_iff {ms : List Ref} (hms : ∀ m ∈ ms, 0 ≤ (mem.order m).quantity)
    (wanted total : ℚ) : availableQty mem wanted total ms < wanted ↔
      total + (ms.map fun m => (mem.order m).quantity).sum < wanted := by
  induction ms generalizing total with
  | nil => simp [availableQty]
  | cons m ms ih =>
    have hms' : ∀ m' ∈ ms, 0 ≤ (mem.order m').quantity :=
      fun m' hm' => hms m' (List.mem_cons_of_mem m hm')
    have hsum : 0 ≤ (ms.map fun m => (mem.order m).quantity).sum := by
      refine List.sum_nonneg fun q hq => ?_
      obtain ⟨m', hm', rfl⟩ := List.mem_map.mp hq
      exact hms' m' hm'
    simp only [availableQty, List.map_cons, List.sum_cons, ← add_assoc]
    split_ifs with hw
    · constructor <;> intro h <;> linarith
    · exact ih hms' _

/-- The orders `getMatchingOrders` answers decide about an order as the whole reach does. -/
theorem availableQty_lt_iff_unfilled (h : NonNeg mem b) (incoming : Order) :
    availableQty mem incoming.quantity 0 (b.getMatchingOrders mem incoming) <
        incoming.quantity ↔
      0 < Fill.unfilled (fun r => (mem.order r).quantity) incoming.quantity
        (b.reachRefs incoming) := by
  have hnonneg : ∀ m ∈ b.getMatchingOrders mem incoming, 0 ≤ (mem.order m).quantity :=
    fun m hm => h m (OrderBook.rests_of_mem_getMatchingOrders hm)
  rw [availableQty_lt_iff hnonneg, zero_add, ← Fill.unfilled_pos_iff hnonneg,
    OrderBook.getMatchingOrders_eq, Fill.unfilled_covering]

theorem processFOKOrder_fills (feeModel : Option FeeModel) (h : Acceptable mem b order)
    (hq : 0 < (mem.order order).quantity) (htype : (mem.order order).type = .fok) :
    Prepared (processFOKOrder feeModel mem b order).mem
        (processFOKOrder feeModel mem b order).book order ∧
      Trading feeModel order (start mem b order) (processFOKOrder feeModel mem b order) ∧
      (start mem b order).Fills feeModel order (takes mem b order)
        (processFOKOrder feeModel mem b order) := by
  have hrests : ∀ m ∈ b.getMatchingOrders mem (mem.order order), b.Rests m :=
    fun m hm => OrderBook.rests_of_mem_getMatchingOrders hm
  unfold processFOKOrder takes
  simp only [htype, true_and, availableQty_lt_iff_unfilled h.nonneg]
  split_ifs
  · exact ⟨h.toPrepared, .refl, .refl feeModel order h.indexed.toSane⟩
  · obtain ⟨hfills, hready⟩ :=
      pass_fills feeModel (s := start mem b order) h rfl hq
    exact ⟨hready.toPrepared, Trading.refl.fillFrom hrests, hfills⟩

/-- What a returning `processOrder` does with the state its loops end in. -/
def finish (order : Ref) (t : Matching) : Matching :=
  if (t.mem.order order).type = .limit then restRemainder order t else t

theorem finish_trades (order : Ref) (t : Matching) : (finish order t).trades = t.trades := by
  unfold finish restRemainder
  split_ifs <;> rfl

theorem finish_tradeCounter (order : Ref) (t : Matching) :
    (finish order t).mem.tradeCounter = t.mem.tradeCounter := by
  unfold finish restRemainder
  split_ifs <;> rfl

theorem finish_remainingQty (order : Ref) (t : Matching) :
    (finish order t).remainingQty = t.remainingQty := by
  unfold finish restRemainder
  split_ifs <;> rfl

theorem rests_finish {r : Ref} (hr : (finish order t).book.Rests r) :
    t.book.Rests r ∨ r = order ∧ (t.mem.order order).type = .limit := by
  unfold finish at hr
  split_ifs at hr with htype
  · unfold restRemainder at hr
    split_ifs at hr
    · exact (OrderBook.rests_of_rests_addOrder hr).imp_right fun heq => ⟨heq, htype⟩
    · exact Or.inl hr
  · exact Or.inl hr

theorem order_finish {r : Ref} (hr : r ≠ order) :
    (finish order t).mem.order r = t.mem.order r := by
  unfold finish restRemainder
  split_ifs
  · exact Memory.modifyQuantity_order_of_ne _ _ _ _ hr
  · rfl
  · rfl

theorem Prepared.finish (h : Prepared t.mem t.book order)
    (hready : (t.mem.order order).type = .limit → Ready t.mem t.book order) :
    Indexed (finish order t).mem (finish order t).book ∧
      NonNeg (finish order t).mem (finish order t).book := by
  unfold GoQuant.finish
  split_ifs with htype
  · unfold MatchingAlgorithm.restRemainder
    split_ifs with hrem
    · have hext := Memory.Extends.modifyQuantity t.mem order t.remainingQty
      constructor
      · refine (h.indexed.of_extends hext).addOrder h.fresh.allocated h.fresh.notResting
          fun r hr => ?_
        rw [hext.id_eq (h.indexed.restsAllocated r hr), hext.id_eq h.fresh.allocated]
        exact (hready htype).stranger r hr
      · refine (h.nonneg.modifyQuantity hrem.le).addOrder ?_
        simpa using hrem.le
    · exact ⟨h.indexed, h.nonneg⟩
  · exact ⟨h.indexed, h.nonneg⟩

/-- Apart from the incoming order, `finish` leaves the queues alone. -/
theorem retain_queues_finish {p : Ref → Bool} (hp : p order = false) (side : Side) :
    Ladder.retain p ((finish order t).book.queues side) =
      Ladder.retain p (t.book.queues side) := by
  unfold finish restRemainder
  split_ifs
  · by_cases hside : side = ((t.mem.modifyQuantity order t.remainingQty).order order).side
    · rw [hside, OrderBook.queues_addOrder_self, Ladder.retain_push hp]
    · rw [OrderBook.queues_addOrder_of_ne hside]
  · rfl
  · rfl

theorem rests_finish_of_rests {r : Ref} (hr : t.book.Rests r) : (finish order t).book.Rests r := by
  unfold finish restRemainder
  split_ifs
  · exact OrderBook.rests_addOrder.mpr (Or.inl hr)
  · exact hr
  · exact hr

/-- `processOrder` returns, having executed the fills of the incoming order. -/
theorem processOrder_fills (feeModel : Option FeeModel) (h : Acceptable mem b order)
    (hq : 0 < (mem.order order).quantity) (htype : (mem.order order).type.Matchable) :
    ∃ t, Prepared t.mem t.book order ∧
      ((mem.order order).type ≠ .fok → Ready t.mem t.book order) ∧
      Trading feeModel order (start mem b order) t ∧
      (start mem b order).Fills feeModel order (takes mem b order) t ∧
      ∀ fuel ≥ 2, processOrder feeModel fuel mem b order = .ok (some (finish order t)) := by
  have hgreedy : (mem.order order).type ≠ .fok → takes mem b order =
      Fill.fills (fun r => (mem.order r).quantity) (mem.order order).quantity
        (b.reachRefs (mem.order order)) :=
    fun hne => if_neg fun hc => hne hc.1
  rcases htype with htype | htype | htype | htype
  · obtain ⟨t, hrun, hready, htrading, hfills⟩ :=
      run_fills (marketStep_loopBody feeModel order) h hq
    rw [hgreedy (by simp [htype])]
    refine ⟨t, hready.toPrepared, fun _ => hready, htrading, hfills, fun fuel hfuel => ?_⟩
    simp [processOrder, htype, processMarketOrder, Loop.run_mono hrun hfuel, finish,
      hfills.taker]
  · obtain ⟨t, hrun, hready, htrading, hfills⟩ :=
      run_fills (limitStep_loopBody feeModel order) h hq
    rw [hgreedy (by simp [htype])]
    refine ⟨t, hready.toPrepared, fun _ => hready, htrading, hfills, fun fuel hfuel => ?_⟩
    simp [processOrder, htype, processLimitOrder, Loop.run_mono hrun hfuel, finish,
      hfills.taker]
  · obtain ⟨t, hrun, hready, htrading, hfills⟩ :=
      run_fills (limitStep_loopBody feeModel order) h hq
    rw [hgreedy (by simp [htype])]
    refine ⟨t, hready.toPrepared, fun _ => hready, htrading, hfills, fun fuel hfuel => ?_⟩
    simp [processOrder, htype, processIOCOrder, Loop.run_mono hrun hfuel, finish,
      hfills.taker]
  · obtain ⟨hprep, htrading, hfills⟩ := processFOKOrder_fills feeModel h hq htype
    refine ⟨_, hprep, fun hne => absurd htype hne, htrading, hfills, fun fuel _ => ?_⟩
    simp [processOrder, htype, finish, hfills.taker]

/-- The same for whatever a returning `processOrder` answers. -/
theorem MatchingAlgorithm.Returns.fills {result : Matching}
    (hr : Returns feeModel mem b order result)
    (h : Acceptable mem b order) (hq : 0 < (mem.order order).quantity)
    (htype : (mem.order order).type.Matchable) :
    ∃ t, Prepared t.mem t.book order ∧
      ((mem.order order).type ≠ .fok → Ready t.mem t.book order) ∧
      Trading feeModel order (start mem b order) t ∧
      (start mem b order).Fills feeModel order (takes mem b order) t ∧
      result = finish order t := by
  obtain ⟨t, hprep, hready, htrading, hfills, hrun⟩ := processOrder_fills feeModel h hq htype
  exact ⟨t, hprep, hready, htrading, hfills, hr.unique ⟨2, hrun 2 le_rfl⟩⟩

end Loops

end GoQuant
