import GoQuant.Book.Sane
import GoQuant.Lib.Fill
import Mathlib.Tactic.Linarith

/-!
# Matching in an arbitrary book

What the matching loops do whatever ids and quantities the book holds: they only take orders
out, write nothing but quantities, and never touch a taker that the id map does not hold.
The orders a pass looks at are the covering prefix of the orders in reach.

## Main results

* `Trading` — the states the loops reach, `Matching.Consumes` — what they have in common.
* `processOrder_cases` — how a returning `processOrder` ends.
* `getMatchingOrders_eq`, `reachRefs_eq_filter` — what `getMatchingOrders` answers.
* `returns_sane`, `Uncrossed.returns` — a returning `processOrder` keeps a sane book sane,
  and an uncrossed one uncrossed.
-/

namespace GoQuant

open MatchingAlgorithm

/-- The id map of a book holds no pointer to an order object. -/
def OrderBook.Unmapped (b : OrderBook) (r : Ref) : Prop := ∀ id, b.orderMap.lookup id ≠ some r

theorem OrderBook.Unmapped.of_shrinks {b b' : OrderBook} {r : Ref} (h : b.Unmapped r)
    (hsh : b.Shrinks b') : b'.Unmapped r :=
  fun id hr => h id (hsh.lookup id r hr)

theorem OrderBook.decreaseOrderQuantity_order_of_unmapped (mem : Memory) {b : OrderBook}
    {r : Ref} (h : b.Unmapped r) (orderId : String) (amount : ℚ) :
    (b.decreaseOrderQuantity mem orderId amount).2.1.order r = mem.order r := by
  unfold decreaseOrderQuantity
  split
  · rfl
  · rename_i r' hr'
    have hne : r ≠ r' := fun heq => h orderId (heq ▸ hr')
    dsimp only
    split_ifs
    · rfl
    · exact Memory.modifyQuantity_order_of_ne mem _ _ _ hne

theorem OrderBook.modifyOrder_order_of_unmapped {mem mem' : Memory} {b b' : OrderBook} {r : Ref}
    {orderId : String} {newQuantity : ℚ} (h : b.Unmapped r)
    (hm : b.modifyOrder mem orderId newQuantity = .ok (mem', b')) :
    mem'.order r = mem.order r := by
  unfold modifyOrder at hm
  split at hm
  · cases hm
  · rename_i r' hr'
    have hne : r ≠ r' := fun heq => h orderId (heq ▸ hr')
    dsimp only at hm
    split at hm
    · obtain ⟨rfl, -⟩ := Prod.mk.inj (Except.ok.inj hm)
      rfl
    · obtain ⟨rfl, -⟩ := Prod.mk.inj (Except.ok.inj hm)
      exact Memory.modifyQuantity_order_of_ne mem _ _ _ hne

/-- A change of quantity writes the order behind the id, unless its level is gone. -/
theorem OrderBook.modifyOrder_spec {mem mem' : Memory} {b b' : OrderBook} {r : Ref}
    {orderId : String} {newQuantity : ℚ} (hid : b.orderMap.lookup orderId = some r)
    (hm : b.modifyOrder mem orderId newQuantity = .ok (mem', b')) :
    b'.orderMap = b.orderMap ∧ (mem' = mem.modifyQuantity r newQuantity ∨ mem' = mem ∧
      ∀ l ∈ b.levels (mem.order r).side, l.price ≠ (mem.order r).price) := by
  simp only [modifyOrder, hid] at hm
  split at hm
  · rename_i hnone
    obtain ⟨rfl, rfl⟩ := Prod.mk.inj (Except.ok.inj hm)
    exact ⟨rfl, Or.inr ⟨rfl, Keyed.find_eq_none.mp hnone⟩⟩
  · obtain ⟨rfl, rfl⟩ := Prod.mk.inj (Except.ok.inj hm)
    exact ⟨orderMap_alterLevel .., Or.inl rfl⟩

/-- The state of a matching loop moved on: orders were taken out of the book and nothing
but quantities was written, only of objects the id map holds. -/
structure Matching.Consumes (s t : Matching) : Prop where
  mem : s.mem.Extends t.mem
  book : s.book.Shrinks t.book
  sane : Sane s.mem s.book → Sane t.mem t.book
  next : t.mem.next = s.mem.next
  untouched : ∀ {r}, s.book.Unmapped r → t.mem.order r = s.mem.order r

namespace Matching.Consumes

variable {s t u : Matching}

theorem refl (s : Matching) : s.Consumes s := ⟨.refl _, .refl _, id, rfl, fun _ => rfl⟩

theorem trans (h : s.Consumes t) (h' : t.Consumes u) : s.Consumes u :=
  ⟨h.mem.trans h'.mem, h.book.trans h'.book, fun hs => h'.sane (h.sane hs),
    h'.next.trans h.next,
    fun hun => (h'.untouched (hun.of_shrinks h.book)).trans (h.untouched hun)⟩

end Matching.Consumes

namespace MatchingAlgorithm

variable (feeModel : Option FeeModel) {order : Ref} {s t : Matching}

theorem fillOne_consumes (m : Ref) (s : Matching) :
    s.Consumes (fillOne feeModel order m s) := by
  let q := min s.remainingQty (s.mem.order m).quantity
  let first := s.book.decreaseOrderQuantity s.mem (s.mem.order m).id q
  let second := first.2.2.decreaseOrderQuantity first.2.1 (first.2.1.order order).id q
  have hsh₁ : s.book.Shrinks first.2.2 := OrderBook.decreaseOrderQuantity_shrinks ..
  have hsh₂ : first.2.2.Shrinks second.2.2 := OrderBook.decreaseOrderQuantity_shrinks ..
  have hext₁ : s.mem.Extends first.2.1 := OrderBook.decreaseOrderQuantity_extends ..
  have hext₂ : first.2.1.Extends second.2.1 := OrderBook.decreaseOrderQuantity_extends ..
  refine ⟨(hext₁.trans hext₂).trans (.generateTradeId _), hsh₁.trans hsh₂, fun hs => ?_, ?_,
    fun hun => ?_⟩
  · exact ((hs.decreaseOrderQuantity _ q).decreaseOrderQuantity _ q).of_extends
      (.generateTradeId _)
  · change second.2.1.next = s.mem.next
    rw [OrderBook.decreaseOrderQuantity_next, OrderBook.decreaseOrderQuantity_next]
  · change second.2.1.order _ = s.mem.order _
    rw [OrderBook.decreaseOrderQuantity_order_of_unmapped _ (hun.of_shrinks hsh₁),
      OrderBook.decreaseOrderQuantity_order_of_unmapped _ hun]

/-- The matching states reached from `s` by trading with orders of its book. -/
inductive Trading (order : Ref) (s : Matching) : Matching → Prop
  | refl : Trading order s s
  | trade {t : Matching} {m : Ref} : Trading order s t → s.book.Rests m → 0 < t.remainingQty →
      Trading order s (fillOne feeModel order m t)

variable {feeModel}

theorem fillFrom_consumes (ms : List Ref) (s : Matching) :
    s.Consumes (fillFrom feeModel order ms s) := by
  induction ms generalizing s with
  | nil => exact .refl s
  | cons m ms ih =>
    simp only [fillFrom]
    split_ifs
    · exact .refl s
    · exact (fillOne_consumes feeModel m s).trans (ih _)

theorem Trading.consumes (h : Trading feeModel order s t) : s.Consumes t := by
  induction h with
  | refl => exact .refl s
  | trade _ _ _ ih => exact ih.trans (fillOne_consumes feeModel _ _)

theorem Trading.fillFrom (h : Trading feeModel order s t) {ms : List Ref}
    (hms : ∀ m ∈ ms, s.book.Rests m) : Trading feeModel order s (fillFrom feeModel order ms t) := by
  induction ms generalizing t with
  | nil => exact h
  | cons m ms ih =>
    simp only [MatchingAlgorithm.fillFrom]
    split_ifs with hrem
    · exact h
    · exact ih (h.trade (hms m List.mem_cons_self) (not_le.mp hrem))
        fun m' hm' => hms m' (List.mem_cons_of_mem m hm')

end MatchingAlgorithm

/-! ## The orders in reach of an incoming order -/

namespace OrderBook

/-- The incoming order may trade at a price: its limit reaches it, or it has none. -/
def within (incoming : Order) (price : ℚ) : Bool :=
  decide (incoming.type = .market ∨ ¬ beyond incoming price)

/-- The opposite side's orders down to the incoming order's limit, in priority order. -/
def reachRefs (b : OrderBook) (incoming : Order) : List Ref :=
  ((b.levels incoming.side.opposite).takeWhile fun l => within incoming l.price).flatMap
    PriceLevel.orders

variable {mem : Memory} {b : OrderBook} {incoming : Order}

theorem takeOrders_fst (q : ℚ) (rs : List Ref) :
    (takeOrders mem q rs).1 = Fill.covering (fun r => (mem.order r).quantity) q rs := by
  induction rs generalizing q with
  | nil => rfl
  | cons r rs ih =>
    simp only [takeOrders, Fill.covering]
    split_ifs
    · rfl
    · simp [ih]

theorem covering_append (q : ℚ) (rs rs' : List Ref) :
    Fill.covering (fun r => (mem.order r).quantity) q (rs ++ rs') =
      Fill.covering (fun r => (mem.order r).quantity) q rs ++
        Fill.covering (fun r => (mem.order r).quantity) (takeOrders mem q rs).2 rs' := by
  induction rs generalizing q with
  | nil => rfl
  | cons r rs ih =>
    simp only [List.cons_append, Fill.covering, takeOrders]
    split_ifs with hq
    · simp [Fill.covering_of_nonpos hq]
    · simp [ih]

theorem scanLevels_eq (q : ℚ) (ls : List PriceLevel) :
    scanLevels mem incoming q ls = Fill.covering (fun r => (mem.order r).quantity) q
      ((ls.takeWhile fun l => within incoming l.price).flatMap PriceLevel.orders) := by
  induction ls generalizing q with
  | nil => rfl
  | cons l ls ih =>
    by_cases hl : incoming.type ≠ .market ∧ beyond incoming l.price
    · have hw : within incoming l.price = false := by simpa [within] using hl
      simp only [scanLevels, if_pos hl, List.takeWhile_cons, hw]
      rfl
    · have hw : within incoming l.price = true := by
        simpa [within, or_iff_not_imp_left] using hl
      simp only [scanLevels, if_neg hl, List.takeWhile_cons, hw, if_true, List.flatMap_cons,
        covering_append, takeOrders_fst, ih]

/-- `getMatchingOrders` answers the covering prefix of the orders in reach. -/
theorem getMatchingOrders_eq :
    b.getMatchingOrders mem incoming =
      Fill.covering (fun r => (mem.order r).quantity) incoming.quantity (b.reachRefs incoming) :=
  scanLevels_eq incoming.quantity _

theorem rests_of_mem_reachRefs {r : Ref} (h : r ∈ b.reachRefs incoming) : b.Rests r := by
  obtain ⟨l, hl, hr⟩ := List.mem_flatMap.mp h
  exact ⟨_, l, (List.takeWhile_sublist _).subset hl, hr⟩

theorem rests_of_mem_getMatchingOrders {r : Ref} (h : r ∈ b.getMatchingOrders mem incoming) :
    b.Rests r := by
  rw [getMatchingOrders_eq] at h
  exact rests_of_mem_reachRefs (Fill.covering_sublist.subset h)

/-- A limit reaches every price before one it reaches. -/
theorem within_of_ahead {p q : ℚ} (hpq : incoming.side.opposite.ahead p q)
    (hq : within incoming q) : within incoming p := by
  have hlt : ¬ beyond incoming q → ¬ beyond incoming p := by
    unfold beyond
    cases hs : incoming.side <;> rw [hs] at hpq <;>
      simp only [Side.opposite, Side.ahead] at hpq <;> intro h <;> dsimp only at h ⊢ <;> linarith
  simp only [within, decide_eq_true_eq] at hq ⊢
  exact hq.imp_right hlt

/-- In a sorted side the prices a limit reaches come first. -/
theorem takeWhile_within_of_sorted
    (h : Keyed.Sorted PriceLevel.price incoming.side.opposite.ahead
      (b.levels incoming.side.opposite)) :
    ((b.levels incoming.side.opposite).takeWhile fun l => within incoming l.price) =
      (b.levels incoming.side.opposite).filter fun l => within incoming l.price :=
  Keyed.takeWhile_eq_filter h fun _ _ hlt hw => within_of_ahead hlt hw

theorem takeWhile_within (h : Sane mem b) :
    ((b.levels incoming.side.opposite).takeWhile fun l => within incoming l.price) =
      (b.levels incoming.side.opposite).filter fun l => within incoming l.price :=
  takeWhile_within_of_sorted (h.sorted _)

theorem mem_reachRefs (h : Sane mem b) {r : Ref} :
    r ∈ b.reachRefs incoming ↔ ∃ l ∈ b.levels incoming.side.opposite,
      within incoming l.price ∧ r ∈ l.orders := by
  simp [reachRefs, takeWhile_within h, and_assoc]

/-- The orders in reach, found by their own prices. -/
theorem reachRefs_eq_filter (h : Sane mem b) :
    b.reachRefs incoming = ((b.levels incoming.side.opposite).flatMap PriceLevel.orders).filter
      fun r => within incoming (mem.order r).price := by
  rw [reachRefs, takeWhile_within h]
  have hplaced := h.placed incoming.side.opposite
  generalize b.levels incoming.side.opposite = ls at hplaced ⊢
  induction ls with
  | nil => rfl
  | cons l ls ih =>
    have hl : l.orders.filter (fun r => within incoming (mem.order r).price) =
        if within incoming l.price then l.orders else [] := by
      have hcongr : l.orders.filter (fun r => within incoming (mem.order r).price) =
          l.orders.filter fun _ => within incoming l.price :=
        List.filter_congr fun r hr => by rw [(hplaced l List.mem_cons_self r hr).2]
      rw [hcongr]
      split_ifs with hw <;> simp [hw]
    rw [List.flatMap_cons, List.filter_append, hl,
      ← ih fun l' hl' => hplaced l' (List.mem_cons_of_mem _ hl')]
    by_cases hw : within incoming l.price = true <;> simp [hw]

theorem reachRefs_eq_nil (h : Sane mem b) :
    b.reachRefs incoming = [] ↔
      ∀ l ∈ b.levels incoming.side.opposite, ¬ within incoming l.price := by
  rw [List.eq_nil_iff_forall_not_mem]
  simp only [mem_reachRefs h]
  constructor
  · intro hr l hl hw
    obtain ⟨r, hrl⟩ := List.exists_mem_of_ne_nil _ (h.nonempty _ l hl)
    exact hr r ⟨l, hl, hw, hrl⟩
  · rintro hl r ⟨l, hmem, hw, -⟩
    exact hl l hmem hw

/-- `hasMatchingOrders` looks at the best level only; that is enough. -/
theorem hasMatchingOrders_iff_of_sorted
    (h : Keyed.Sorted PriceLevel.price incoming.side.opposite.ahead
      (b.levels incoming.side.opposite)) :
    b.hasMatchingOrders incoming = true ↔
      ∃ l ∈ b.levels incoming.side.opposite, within incoming l.price := by
  unfold hasMatchingOrders
  cases hls : b.levels incoming.side.opposite with
  | nil => simp
  | cons best ls =>
    rw [hls] at h
    have hbest : (if incoming.type = .market then true else decide ¬ beyond incoming best.price) =
        within incoming best.price := by
      unfold within
      split_ifs with hm <;> simp [hm]
    dsimp only
    rw [hbest]
    constructor
    · exact fun hw => ⟨best, List.mem_cons_self, hw⟩
    · rintro ⟨l, hl, hw⟩
      rcases List.mem_cons.mp hl with rfl | hl
      · exact hw
      · exact within_of_ahead ((List.pairwise_cons.mp h).1 l hl) hw

theorem hasMatchingOrders_iff (h : Sane mem b) :
    b.hasMatchingOrders incoming = true ↔ b.reachRefs incoming ≠ [] := by
  rw [hasMatchingOrders_iff_of_sorted (h.sorted _), ne_eq, reachRefs_eq_nil h]
  push Not
  rfl

theorem getMatchingOrders_eq_nil (hq : 0 < incoming.quantity) :
    b.getMatchingOrders mem incoming = [] ↔ b.reachRefs incoming = [] := by
  rw [getMatchingOrders_eq]
  constructor
  · intro h
    by_contra hne
    exact Fill.covering_ne_nil hq hne h
  · intro h
    rw [h]
    rfl

end OrderBook

/-! ## A returning matcher -/

namespace MatchingAlgorithm

variable {feeModel : Option FeeModel} {fuel : ℕ} {mem : Memory} {b : OrderBook} {order : Ref}
  {s t u result : Matching}

theorem Trading.pass (h : Trading feeModel order s t) (ht : pass feeModel order t = some u) :
    Trading feeModel order s u := by
  unfold MatchingAlgorithm.pass at ht
  split at ht
  · cases ht
  · cases ht
    exact h.fillFrom fun m hm =>
      h.consumes.book.rests (OrderBook.rests_of_mem_getMatchingOrders hm)

theorem Trading.marketStep (h : Trading feeModel order s t)
    (ht : marketStep feeModel order t = some u) : Trading feeModel order s u := by
  unfold MatchingAlgorithm.marketStep at ht
  split_ifs at ht
  exact h.pass ht

theorem Trading.limitStep (h : Trading feeModel order s t)
    (ht : limitStep feeModel order t = some u) : Trading feeModel order s u := by
  unfold MatchingAlgorithm.limitStep at ht
  split_ifs at ht
  exact h.pass ht

/-- A loop is not entered with a quantity that is not positive. -/
theorem limitStep_quantity_pos (hs : 0 < s.remainingQty → 0 < (mem.order order).quantity)
    (h : limitStep feeModel order s = some t) :
    0 < t.remainingQty → 0 < (mem.order order).quantity := by
  unfold MatchingAlgorithm.limitStep at h
  split_ifs at h with hc
  exact fun _ => hs hc.1

/-- `processOrder` ends in a state `t` reached by trading, except that a LIMIT order's
remainder then rests. -/
theorem processOrder_cases (h : processOrder feeModel fuel mem b order = .ok (some result)) :
    ∃ t, Trading feeModel order (start mem b order) t ∧
      (result = t ∨ (mem.order order).type = .limit ∧ result = restRemainder order t ∧
        limitStep feeModel order t = none ∧
        (0 < t.remainingQty → 0 < (mem.order order).quantity)) := by
  unfold processOrder at h
  split at h
  · have hrun : Loop.run (marketStep feeModel order) fuel (start mem b order) = some result := by
      simpa [processMarketOrder] using h
    exact ⟨result, (Loop.run_invariant _ (fun _ _ => Trading.marketStep) .refl hrun).1,
      Or.inl rfl⟩
  · rename_i htype
    simp only [processLimitOrder, Except.ok.injEq, Option.map_eq_some_iff] at h
    obtain ⟨t, hrun, rfl⟩ := h
    obtain ⟨hpos, hexit⟩ := Loop.run_invariant
      (fun s => 0 < s.remainingQty → 0 < (mem.order order).quantity)
      (fun s t hs hstep => limitStep_quantity_pos hs hstep) (fun hq => hq) hrun
    exact ⟨t, (Loop.run_invariant _ (fun _ _ => Trading.limitStep) .refl hrun).1,
      Or.inr ⟨htype, rfl, hexit, hpos⟩⟩
  · have hrun : Loop.run (limitStep feeModel order) fuel (start mem b order) = some result := by
      simpa [processIOCOrder] using h
    exact ⟨result, (Loop.run_invariant _ (fun _ _ => Trading.limitStep) .refl hrun).1,
      Or.inl rfl⟩
  · simp only [processFOKOrder, Except.ok.injEq, Option.some.injEq] at h
    split_ifs at h
    · exact ⟨start mem b order, .refl, Or.inl h.symm⟩
    · exact ⟨result, h ▸ Trading.refl.fillFrom fun m hm =>
        OrderBook.rests_of_mem_getMatchingOrders hm, Or.inl rfl⟩
  · cases h

/-- More fuel gives the same answer. -/
theorem processOrder_mono (h : processOrder feeModel fuel mem b order = .ok (some result))
    {fuel' : ℕ} (hle : fuel ≤ fuel') :
    processOrder feeModel fuel' mem b order = .ok (some result) := by
  unfold processOrder at h ⊢
  split at h
  · simp only [processMarketOrder, Except.ok.injEq] at h ⊢
    exact Loop.run_mono h hle
  · simp only [processLimitOrder, Except.ok.injEq, Option.map_eq_some_iff] at h ⊢
    obtain ⟨t, hrun, rfl⟩ := h
    exact ⟨t, Loop.run_mono hrun hle, rfl⟩
  · simp only [processIOCOrder, Except.ok.injEq] at h ⊢
    exact Loop.run_mono h hle
  · exact h
  · exact h

/-- The exception comes with the order type, whatever the fuel. -/
theorem processOrder_error {message : String}
    (h : processOrder feeModel fuel mem b order = .error message) :
    ¬ (mem.order order).type.Matchable ∧
      ∀ fuel', processOrder feeModel fuel' mem b order = .error message := by
  unfold processOrder at h
  cases htype : (mem.order order).type
  all_goals simp only [htype, reduceCtorEq, Except.error.injEq] at h
  all_goals
    subst h
    exact ⟨by simp [OrderType.Matchable], fun fuel' => by simp [processOrder, htype]⟩

/-- Only an order of an accepted type is matched. -/
theorem Returns.matchable (h : Returns feeModel mem b order result) :
    (mem.order order).type.Matchable := by
  obtain ⟨fuel, h⟩ := h
  unfold processOrder at h
  unfold OrderType.Matchable
  cases htype : (mem.order order).type
  all_goals simp [htype] at h ⊢

/-- The result of a returning `processOrder` does not depend on the fuel. -/
theorem Returns.unique {result' : Matching} (h : Returns feeModel mem b order result)
    (h' : Returns feeModel mem b order result') : result = result' := by
  obtain ⟨n, hn⟩ := h
  obtain ⟨m, hm⟩ := h'
  have hmax := processOrder_mono hn (le_max_left n m)
  rw [processOrder_mono hm (le_max_right n m)] at hmax
  simpa using hmax.symm

/-! ## Orders without effect -/

theorem availableQty_congr {mem' : Memory} {ms : List Ref}
    (hms : ∀ m ∈ ms, mem'.order m = mem.order m) (wanted total : ℚ) :
    availableQty mem' wanted total ms = availableQty mem wanted total ms := by
  induction ms generalizing total with
  | nil => rfl
  | cons m ms ih =>
    simp only [availableQty, hms m List.mem_cons_self]
    split_ifs
    · rfl
    · exact ih (fun m' hm' => hms m' (List.mem_cons_of_mem m hm')) _

end MatchingAlgorithm

namespace OrderBook

variable {mem mem' : Memory} {b : OrderBook} {o : Order}

/-- An order that neither trades nor rests: there is nothing of it, or it is not a LIMIT order
and matches nothing, or it is a FOK order that the orders it matches do not cover. -/
def Inert (mem : Memory) (b : OrderBook) (o : Order) : Prop :=
  o.quantity ≤ 0 ∨ o.type ≠ .limit ∧ (b.getMatchingOrders mem o = [] ∨ o.type = .fok ∧
    availableQty mem o.quantity 0 (b.getMatchingOrders mem o) < o.quantity)

instance (mem : Memory) (b : OrderBook) (o : Order) : Decidable (b.Inert mem o) := by
  unfold Inert; infer_instance

theorem getMatchingOrders_congr (h : ∀ r, b.Rests r → mem'.order r = mem.order r) (o : Order) :
    b.getMatchingOrders mem' o = b.getMatchingOrders mem o := by
  rw [getMatchingOrders_eq, getMatchingOrders_eq]
  exact Fill.covering_congr fun r hr => by rw [h r (rests_of_mem_reachRefs hr)]

/-- Only the resting orders matter. -/
theorem Inert.congr (ho : b.Inert mem o) (h : ∀ r, b.Rests r → mem'.order r = mem.order r) :
    b.Inert mem' o := by
  unfold Inert
  rw [getMatchingOrders_congr h, availableQty_congr fun r hr =>
    h r (rests_of_mem_getMatchingOrders hr)]
  exact ho

end OrderBook

namespace MatchingAlgorithm

variable {feeModel : Option FeeModel} {fuel : ℕ} {mem : Memory} {b : OrderBook} {order : Ref}
  {s t u result : Matching}

/-- The loops are not entered without a quantity or without a match. -/
theorem steps_start_eq_none (feeModel : Option FeeModel) (h : (mem.order order).quantity ≤ 0 ∨
    b.getMatchingOrders mem (mem.order order) = []) :
    marketStep feeModel order (start mem b order) = none ∧
      limitStep feeModel order (start mem b order) = none := by
  rcases h with hq | hnil
  · simp [marketStep, limitStep, not_lt.mpr hq]
  · simp [marketStep, limitStep, pass, hnil]

/-- An order without effect comes out as it went in. -/
theorem returns_start (htype : (mem.order order).type.Matchable)
    (h : b.Inert mem (mem.order order)) : Returns feeModel mem b order (start mem b order) := by
  have hnil : (mem.order order).quantity ≤ 0 → b.getMatchingOrders mem (mem.order order) = [] := by
    intro hq
    rw [OrderBook.getMatchingOrders_eq, Fill.covering_of_nonpos hq]
  rcases htype with htype | htype | htype | htype
  · have hidle : (mem.order order).quantity ≤ 0 ∨
        b.getMatchingOrders mem (mem.order order) = [] := by
      simpa [OrderBook.Inert, htype] using h
    have hexit := (steps_start_eq_none feeModel hidle).1
    exact ⟨1, by simp [processOrder, htype, processMarketOrder, Loop.run_succ_of_exit hexit]⟩
  · have hq : (mem.order order).quantity ≤ 0 := by simpa [OrderBook.Inert, htype] using h
    have hexit := (@steps_start_eq_none mem b order feeModel (Or.inl hq)).2
    exact ⟨1, by simp [processOrder, htype, processLimitOrder, Loop.run_succ_of_exit hexit,
      restRemainder, not_lt.mpr hq]⟩
  · have hidle : (mem.order order).quantity ≤ 0 ∨
        b.getMatchingOrders mem (mem.order order) = [] := by
      simpa [OrderBook.Inert, htype] using h
    have hexit := (steps_start_eq_none feeModel hidle).2
    exact ⟨1, by simp [processOrder, htype, processIOCOrder, Loop.run_succ_of_exit hexit]⟩
  · have hfok : processFOKOrder feeModel mem b order = start mem b order := by
      unfold processFOKOrder
      dsimp only
      split_ifs with hcovered
      · rfl
      · obtain hq | ⟨-, hnone | ⟨-, hlt⟩⟩ := h
        · rw [hnil hq]
          rfl
        · rw [hnone]
          rfl
        · exact absurd hlt hcovered
    exact ⟨1, by simp [processOrder, htype, hfok]⟩

/-- A loop left with a remainder has nothing left in reach. `hasMatchingOrders` and
`getMatchingOrders` agree on that because no level is empty. -/
theorem reachRefs_of_limitStep_eq_none (hs : Sane s.mem s.book)
    (hq : 0 < (s.mem.order order).quantity) (hrem : 0 < s.remainingQty)
    (h : limitStep feeModel order s = none) : s.book.reachRefs (s.mem.order order) = [] := by
  by_contra hne
  have hhas : s.book.hasMatchingOrders (s.mem.order order) = true :=
    (OrderBook.hasMatchingOrders_iff hs).mpr hne
  have hget : s.book.getMatchingOrders s.mem (s.mem.order order) ≠ [] :=
    fun hnil => hne ((OrderBook.getMatchingOrders_eq_nil hq).mp hnil)
  unfold MatchingAlgorithm.limitStep MatchingAlgorithm.pass at h
  rw [if_pos ⟨hrem, hhas⟩] at h
  split at h
  · rename_i hnil
    exact hget hnil
  · cases h

end MatchingAlgorithm

/-- An order object no book structure knows yet. -/
structure Fresh (mem : Memory) (b : OrderBook) (order : Ref) : Prop where
  allocated : order < mem.next
  unmapped : b.Unmapped order
  notResting : ¬ b.Rests order

/-- An object built after every object of a sane book. -/
theorem Sane.fresh {mem : Memory} {b : OrderBook} (h : Sane mem b) (o : Order) :
    Fresh (mem.alloc o).1 b mem.next where
  allocated := Nat.lt_succ_self _
  unmapped id hid := (h.mapAllocated id _ hid).false
  notResting hr := (h.restsAllocated _ hr).false

section Returns

variable {feeModel : Option FeeModel} {mem : Memory} {b : OrderBook} {order : Ref}
  {s t result : Matching}

theorem Sane.restRemainder (h : Sane t.mem t.book) (hf : Fresh t.mem t.book order) :
    Sane (restRemainder order t).mem (restRemainder order t).book := by
  unfold MatchingAlgorithm.restRemainder
  split_ifs
  · exact (h.of_extends (.modifyQuantity t.mem order t.remainingQty)).addOrder hf.allocated
      hf.notResting
  · exact h

theorem Fresh.of_consumes (hf : Fresh s.mem s.book order) (h : s.Consumes t) :
    Fresh t.mem t.book order where
  allocated := h.next ▸ hf.allocated
  unmapped := hf.unmapped.of_shrinks h.book
  notResting hr := hf.notResting (h.book.rests hr)

/-- Matching a fresh order keeps a book sane. -/
theorem returns_sane (h : Sane mem b) (hf : Fresh mem b order)
    (hr : Returns feeModel mem b order result) : Sane result.mem result.book := by
  obtain ⟨fuel, hr⟩ := hr
  obtain ⟨t, htrading, rfl | ⟨-, rfl, -⟩⟩ := processOrder_cases hr
  · exact htrading.consumes.sane h
  · exact (htrading.consumes.sane h).restRemainder
      (Fresh.of_consumes (s := start mem b order) hf htrading.consumes)

/-- Matching lets nothing rest but the incoming order. -/
theorem returns_rests {r : Ref} (hr : Returns feeModel mem b order result)
    (hrests : result.book.Rests r) : b.Rests r ∨ r = order := by
  obtain ⟨fuel, hr⟩ := hr
  obtain ⟨t, htrading, rfl | ⟨-, rfl, -⟩⟩ := processOrder_cases hr
  · exact Or.inl (htrading.consumes.book.rests hrests)
  · unfold MatchingAlgorithm.restRemainder at hrests
    split_ifs at hrests
    · exact (OrderBook.rests_of_rests_addOrder hrests).imp_left htrading.consumes.book.rests
    · exact Or.inl (htrading.consumes.book.rests hrests)

theorem returns_extends (hr : Returns feeModel mem b order result) : mem.Extends result.mem := by
  obtain ⟨fuel, hr⟩ := hr
  obtain ⟨t, htrading, rfl | ⟨-, rfl, -⟩⟩ := processOrder_cases hr
  · exact htrading.consumes.mem
  · refine htrading.consumes.mem.trans ?_
    unfold MatchingAlgorithm.restRemainder
    split_ifs
    · exact .modifyQuantity ..
    · exact .refl _

/-- Matching leaves the objects alone that the id map does not lead to. -/
theorem returns_untouched {r : Ref} (hr : Returns feeModel mem b order result)
    (hun : b.Unmapped r) (hne : r ≠ order) :
    result.mem.order r = mem.order r ∧ result.book.Unmapped r := by
  obtain ⟨fuel, hr⟩ := hr
  obtain ⟨t, htrading, hcases⟩ := processOrder_cases hr
  have hcons : (start mem b order).Consumes t := htrading.consumes
  have ht : t.mem.order r = mem.order r ∧ t.book.Unmapped r :=
    ⟨hcons.untouched hun, hun.of_shrinks hcons.book⟩
  rcases hcases with rfl | ⟨-, rfl, -⟩
  · exact ht
  · unfold MatchingAlgorithm.restRemainder
    split_ifs
    · refine ⟨(Memory.modifyQuantity_order_of_ne _ _ _ _ hne).trans ht.1, fun id hid => ?_⟩
      rw [OrderBook.orderMap_addOrder] at hid
      by_cases heq : id = ((t.mem.modifyQuantity order t.remainingQty).order order).id
      · rw [heq, AList.lookup_insert] at hid
        exact hne (Option.some.inj hid).symm
      · rw [AList.lookup_insert_ne heq] at hid
        exact ht.2 id hid
    · exact ht

end Returns

/-! ## Crossed books -/

/-- Every bid is below every ask. -/
def OrderBook.Uncrossed (b : OrderBook) : Prop :=
  ∀ bid ∈ b.levels .buy, ∀ ask ∈ b.levels .sell, bid.price < ask.price

namespace OrderBook.Uncrossed

variable {mem : Memory} {b b' : OrderBook} {order : Ref} {feeModel : Option FeeModel}
  {t result : Matching}

theorem empty (symbol : String) : (OrderBook.empty symbol).Uncrossed := by
  simp [OrderBook.Uncrossed]

theorem of_shrinks (h : b.Uncrossed) (hsh : b.Shrinks b') : b'.Uncrossed := by
  intro bid' hbid' ask' hask'
  obtain ⟨bid, hbid, hbp, -⟩ := hsh.mem_levels hbid'
  obtain ⟨ask, hask, hap, -⟩ := hsh.mem_levels hask'
  rw [hbp, hap]
  exact h bid hbid ask hask

/-- Adding an order whose limit reaches no level of the other side. -/
theorem addOrder (h : b.Uncrossed)
    (hbeyond : ∀ l ∈ b.levels (mem.order order).side.opposite, beyond (mem.order order) l.price) :
    (b.addOrder mem order).Uncrossed := by
  intro bid hbid ask hask
  rcases mem_levels_addOrder hbid with hbid | ⟨hs, l, -, hp, rfl⟩ <;>
    rcases mem_levels_addOrder hask with hask | ⟨hs', l', -, hp', rfl⟩
  · exact h bid hbid ask hask
  · have hb := hbeyond bid (by rw [← hs']; exact hbid)
    simp only [beyond, ← hs'] at hb
    simpa [appendOrder, hp'] using hb
  · have hb := hbeyond ask (by rw [← hs]; exact hask)
    simp only [beyond, ← hs] at hb
    simpa [appendOrder, hp] using hb
  · exact absurd (hs.trans hs'.symm) (by decide)

theorem restRemainder (h : t.book.Uncrossed) (htype : (t.mem.order order).type = .limit)
    (hreach : Sane t.mem t.book)
    (hnil : 0 < t.remainingQty → t.book.reachRefs (t.mem.order order) = []) :
    (restRemainder order t).book.Uncrossed := by
  unfold MatchingAlgorithm.restRemainder
  split_ifs with hrem
  · refine h.addOrder fun l hl => ?_
    simp only [Memory.modifyQuantity_order, if_true] at hl ⊢
    have hw := (reachRefs_eq_nil hreach).mp (hnil hrem) l hl
    rw [within, htype, decide_eq_true_eq, not_or, not_not] at hw
    exact hw.2
  · exact h

/-- A returning `processOrder` never leaves a crossed book behind: a remainder rests only
when its limit reaches no level of the other side. -/
theorem returns (h : b.Uncrossed) (hs : Sane mem b) (hf : Fresh mem b order)
    (hr : Returns feeModel mem b order result) : result.book.Uncrossed := by
  obtain ⟨fuel, hr⟩ := hr
  obtain ⟨t, htrading, hcases⟩ := processOrder_cases hr
  have hcons : (start mem b order).Consumes t := htrading.consumes
  rcases hcases with rfl | ⟨htype, rfl, hexit, hpos⟩
  · exact h.of_shrinks hcons.book
  · have htaker : t.mem.order order = mem.order order := hcons.untouched hf.unmapped
    refine restRemainder (h.of_shrinks hcons.book) (htaker ▸ htype) (hcons.sane hs) fun hrem => ?_
    exact reachRefs_of_limitStep_eq_none (hcons.sane hs) (htaker ▸ hpos hrem) hrem hexit

/-- What an observer of the best prices sees. -/
theorem getBestPrice_lt (h : b.Uncrossed) (hbuy : b.levels .buy ≠ [])
    (hsell : b.levels .sell ≠ []) : b.getBestPrice .buy < b.getBestPrice .sell := by
  obtain ⟨bid, bids, hb⟩ := List.exists_cons_of_ne_nil hbuy
  obtain ⟨ask, asks, ha⟩ := List.exists_cons_of_ne_nil hsell
  have hlt := h bid (by simp [hb]) ask (by simp [ha])
  simpa [getBestPrice, hb, ha] using hlt

end OrderBook.Uncrossed

end GoQuant
