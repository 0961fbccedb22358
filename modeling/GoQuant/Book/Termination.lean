import GoQuant.Book.Runs

/-!
# Termination of the matching loops

A pass over the matching orders takes its first order out of the book, or leaves nothing of the
incoming order, if the id of that order leads to it: `decreaseOrderQuantity` goes by ids. So an
order is matched in finite time if the orders that are answered for it are found by their ids.
Nothing here depends on how differences of quantities are rounded: only `x - x = 0` is used.

An order is not found if a later one that came under its id rests and `addOrder` has redirected
the id. With an order of quantity zero, which `modifyOrder` leaves behind, the loop then goes on
for ever.

## Main definitions

* `Found` — the id of an order leads to it.
* `Exhaustible` — the orders that an incoming order meets are found.
* `Passes` — the states that the loops go through.

## Main results

* `Winding.pass` — every pass takes an order out or leaves no remainder.
* `terminates_of_run` — after any run an order that meets nothing but found orders is matched in
  finite time.
* `Haunted.diverges`, `market_order_hangs` — an order that reaches nothing but ghosts is not.
-/

namespace GoQuant

open MatchingAlgorithm

/-- The id of an order leads to the order. -/
def Found (mem : Memory) (b : OrderBook) (r : Ref) : Prop :=
  b.orderMap.lookup (mem.order r).id = some r

instance (mem : Memory) (b : OrderBook) (r : Ref) : Decidable (Found mem b r) := by
  unfold Found; infer_instance

/-- The orders that `getMatchingOrders` answers for an incoming order are found by their ids. If it
comes under the id of one of them, which its own trades then decrease, too, so are all orders in
its reach. -/
structure Exhaustible (mem : Memory) (b : OrderBook) (incoming : Order) : Prop where
  answered : ∀ m ∈ b.getMatchingOrders mem incoming, Found mem b m
  inReach : (∃ m ∈ b.getMatchingOrders mem incoming, (mem.order m).id = incoming.id) →
    ∀ m ∈ b.reachRefs incoming, Found mem b m

instance (mem : Memory) (b : OrderBook) (incoming : Order) :
    Decidable (Exhaustible mem b incoming) :=
  decidable_of_iff ((∀ m ∈ b.getMatchingOrders mem incoming, Found mem b m) ∧
    ((∃ m ∈ b.getMatchingOrders mem incoming, (mem.order m).id = incoming.id) →
      ∀ m ∈ b.reachRefs incoming, Found mem b m))
    ⟨fun h => ⟨h.1, h.2⟩, fun h => ⟨h.1, h.2⟩⟩

section Operations

variable {mem mem' : Memory} {b : OrderBook} {r : Ref} {id id' : String} {a : ℚ} {incoming : Order}

/-- Rewriting the level of an object to orders of other ids takes the object out. -/
theorem Sane.not_rests_alterLevel (h : Sane mem b) {f : PriceLevel → Option PriceLevel}
    (hf : ∀ l l', f l = some l' → ∀ r' ∈ l'.orders, (mem.order r').id ≠ (mem.order r).id) :
    ¬ (b.alterLevel (mem.order r).side (mem.order r).price f).Rests r := by
  rintro ⟨t, l', hl', hrl⟩
  by_cases ht : t = (mem.order r).side
  · subst ht
    rw [OrderBook.levels_alterLevel_self, Keyed.mem_alter] at hl'
    rcases hl' with ⟨l, -, -, hfl⟩ | ⟨hl, hp⟩
    · exact hf l l' hfl r hrl rfl
    · exact hp (h.placed _ l' hl r hrl).2.symm
  · rw [OrderBook.levels_alterLevel_of_ne _ _ _ ht] at hl'
    exact ht (h.placed t l' hl' r hrl).1.symm

theorem removeId_id {orders : List Ref} {r' : Ref}
    (hr' : r' ∈ OrderBook.removeId mem id orders) : (mem.order r').id ≠ id := by
  simpa using (List.mem_filter.mp hr').2

theorem Sane.not_rests_cancelOrder (h : Sane mem b) (hid : b.orderMap.lookup id = some r) :
    ¬ (b.cancelOrder mem id).2.Rests r := by
  simp only [OrderBook.cancelOrder, hid, OrderBook.rests_setOrderMap]
  refine h.not_rests_alterLevel fun l l' hl' r' hr' => ?_
  obtain ⟨rfl, -⟩ := OrderBook.eraseEmpty_eq_some.mp hl'
  rw [h.named id r hid]
  exact removeId_id hr'

/-- A decrease by at least its quantity takes the object behind an id out. -/
theorem Sane.decrease_leaves (h : Sane mem b) (hid : b.orderMap.lookup id = some r)
    (ha : (mem.order r).quantity ≤ a) :
    (b.decreaseOrderQuantity mem id a).2.1 = mem ∧
      (b.decreaseOrderQuantity mem id a).2.2.orderMap = b.orderMap.erase id ∧
      ¬ (b.decreaseOrderQuantity mem id a).2.2.Rests r := by
  have hq : OrderBook.decreased (mem.order r).quantity a ≤ 0 := by
    unfold OrderBook.decreased
    split_ifs <;> linarith
  simp only [OrderBook.decreaseOrderQuantity, hid, if_pos hq, OrderBook.orderMap_setOrderMap,
    OrderBook.orderMap_alterLevel, true_and, OrderBook.rests_setOrderMap]
  refine h.not_rests_alterLevel fun l l' hl' r' hr' => ?_
  obtain ⟨rfl, -⟩ := OrderBook.eraseEmpty_eq_some.mp hl'
  simp only [if_pos hq] at hr'
  rw [h.named id r hid]
  exact removeId_id hr'

/-- A decrease under another id changes neither the order nor where its id leads to. -/
theorem Sane.decrease_of_ne (h : Sane mem b) (hne : (mem.order r).id ≠ id) (a : ℚ) :
    (b.decreaseOrderQuantity mem id a).2.1.order r = mem.order r ∧
      (b.decreaseOrderQuantity mem id a).2.2.orderMap.lookup (mem.order r).id =
        b.orderMap.lookup (mem.order r).id := by
  cases hid : b.orderMap.lookup id with
  | none => simp [OrderBook.decreaseOrderQuantity, hid]
  | some r' =>
    have hr' : r ≠ r' := fun heq => hne (heq ▸ h.named id r' hid)
    rcases le_or_gt (mem.order r').quantity a with ha | ha
    · obtain ⟨hmem, hmap, -⟩ := h.decrease_leaves hid ha
      rw [hmem, hmap]
      exact ⟨rfl, AList.lookup_erase_ne hne⟩
    · obtain ⟨hmem, hmap, -⟩ := h.decrease_stays hid ha
      rw [hmem, hmap]
      exact ⟨Memory.modifyQuantity_order_of_ne _ _ _ _ hr', rfl⟩

/-- An order that is found and rests on after a decrease is found then. -/
theorem Sane.decrease_found (h : Sane mem b) (hr : Found mem b r)
    (hrests : (b.decreaseOrderQuantity mem id a).2.2.Rests r) :
    Found (b.decreaseOrderQuantity mem id a).2.1 (b.decreaseOrderQuantity mem id a).2.2 r := by
  by_cases heq : (mem.order r).id = id
  · have hid : b.orderMap.lookup id = some r := heq ▸ hr
    rcases le_or_gt (mem.order r).quantity a with ha | ha
    · exact absurd hrests (h.decrease_leaves hid ha).2.2
    · obtain ⟨hmem, hmap, -⟩ := h.decrease_stays hid ha
      rw [Found, hmem, hmap, Memory.modifyQuantity_order]
      exact hr
  · obtain ⟨horder, hlook⟩ := h.decrease_of_ne heq a
    rw [Found, horder, hlook]
    exact hr

/-- Only the resting orders matter. -/
theorem Exhaustible.congr (h : Exhaustible mem b incoming)
    (hold : ∀ r, b.Rests r → mem'.order r = mem.order r) : Exhaustible mem' b incoming := by
  have hget := OrderBook.getMatchingOrders_congr hold incoming
  have hfound : ∀ r, b.Rests r → Found mem b r → Found mem' b r := by
    intro r hr hf
    rwa [Found, hold r hr]
  constructor
  · intro m hm
    rw [hget] at hm
    exact hfound m (OrderBook.rests_of_mem_getMatchingOrders hm) (h.answered m hm)
  · rintro ⟨m, hm, hid⟩ m' hm'
    rw [hget] at hm
    rw [hold m (OrderBook.rests_of_mem_getMatchingOrders hm)] at hid
    exact hfound m' (OrderBook.rests_of_mem_reachRefs hm') (h.inReach ⟨m, hm, hid⟩ m' hm')

end Operations

/-! ## Trades with orders that are found -/

section Trading

variable {feeModel : Option FeeModel} {order m r : Ref} {s t : Matching}

/-- A trade with an order that is found takes it out, or leaves nothing to trade. -/
theorem fillOne_progress (hs : Sane s.mem s.book) (hm : Found s.mem s.book m) :
    ¬ (fillOne feeModel order m s).book.Rests m ∨
      (fillOne feeModel order m s).remainingQty = 0 := by
  let q := min s.remainingQty (s.mem.order m).quantity
  let first := s.book.decreaseOrderQuantity s.mem (s.mem.order m).id q
  have hrem : (fillOne feeModel order m s).remainingQty = s.remainingQty - q := rfl
  rcases le_or_gt (s.mem.order m).quantity s.remainingQty with hle | hlt
  · have hq : (s.mem.order m).quantity ≤ q := (min_eq_right hle).ge
    refine Or.inl fun hrests => (hs.decrease_leaves hm hq).2.2 ?_
    exact (first.2.2.decreaseOrderQuantity_shrinks first.2.1 (first.2.1.order order).id q).rests
      hrests
  · have hq : q = s.remainingQty := min_eq_left hlt.le
    exact Or.inr (by rw [hrem, hq, sub_self])

/-- An order that is found and rests on after a trade is found then. -/
theorem fillOne_found (hs : Sane s.mem s.book) (hr : Found s.mem s.book r)
    (hrests : (fillOne feeModel order m s).book.Rests r) :
    Found (fillOne feeModel order m s).mem (fillOne feeModel order m s).book r := by
  let q := min s.remainingQty (s.mem.order m).quantity
  let first := s.book.decreaseOrderQuantity s.mem (s.mem.order m).id q
  have hsecond := first.2.2.decreaseOrderQuantity_shrinks first.2.1 (first.2.1.order order).id q
  have hfirst : Found first.2.1 first.2.2 r := hs.decrease_found hr (hsecond.rests hrests)
  exact (hs.decreaseOrderQuantity _ q).decrease_found hfirst hrests

/-- A trade changes no order but those under the two ids. -/
theorem fillOne_of_ne (feeModel : Option FeeModel) (hs : Sane s.mem s.book)
    (hun : s.book.Unmapped order)
    (hmaker : (s.mem.order r).id ≠ (s.mem.order m).id)
    (htaker : (s.mem.order r).id ≠ (s.mem.order order).id) :
    (fillOne feeModel order m s).mem.order r = s.mem.order r ∧
      (Found s.mem s.book r →
        Found (fillOne feeModel order m s).mem (fillOne feeModel order m s).book r) := by
  let q := min s.remainingQty (s.mem.order m).quantity
  let first := s.book.decreaseOrderQuantity s.mem (s.mem.order m).id q
  let second := first.2.2.decreaseOrderQuantity first.2.1 (first.2.1.order order).id q
  have hsame : first.2.1.order order = s.mem.order order :=
    OrderBook.decreaseOrderQuantity_order_of_unmapped _ hun _ _
  obtain ⟨horder₁, hlook₁⟩ := hs.decrease_of_ne hmaker q
  have hne : (first.2.1.order r).id ≠ (first.2.1.order order).id := by
    rwa [horder₁, hsame]
  obtain ⟨horder₂, hlook₂⟩ := (hs.decreaseOrderQuantity _ q).decrease_of_ne hne q
  have horder : second.2.1.order r = s.mem.order r := horder₂.trans horder₁
  refine ⟨horder, fun hr => ?_⟩
  change second.2.2.orderMap.lookup (second.2.1.order r).id = some r
  rw [horder₁] at hlook₂
  rw [horder]
  exact hlook₂.trans (hlook₁.trans hr)

theorem fillFrom_of_nonpos (ms : List Ref) (h : s.remainingQty ≤ 0) :
    fillFrom feeModel order ms s = s := by
  cases ms <;> simp [fillFrom, h]

theorem fillFrom_found (ms : List Ref) (hs : Sane s.mem s.book) (hr : Found s.mem s.book r)
    (hrests : (fillFrom feeModel order ms s).book.Rests r) :
    Found (fillFrom feeModel order ms s).mem (fillFrom feeModel order ms s).book r := by
  induction ms generalizing s with
  | nil => exact hr
  | cons m ms ih =>
    simp only [fillFrom] at hrests ⊢
    split_ifs at hrests ⊢
    · exact hr
    · refine ih ((fillOne_consumes feeModel m s).sane hs) (fillOne_found hs hr ?_) hrests
      exact (fillFrom_consumes ms _).book.rests hrests

/-- The `for` loop over the shortest prefix that covers the remainder, all of it found by ids that
are not the incoming order's, leaves no remainder, unless the prefix is the whole queue. -/
theorem fillFrom_covering (qty : Ref → ℚ) (refs : List Ref) (hs : Sane s.mem s.book)
    (hun : s.book.Unmapped order) (hnd : refs.Nodup)
    (hms : ∀ m ∈ Fill.covering qty s.remainingQty refs, Found s.mem s.book m ∧
      (s.mem.order m).id ≠ (s.mem.order order).id ∧ (s.mem.order m).quantity = qty m) :
    (fillFrom feeModel order (Fill.covering qty s.remainingQty refs) s).remainingQty ≤ 0 ∨
      Fill.covering qty s.remainingQty refs = refs := by
  induction refs generalizing s with
  | nil => exact Or.inr rfl
  | cons m refs ih =>
    by_cases hrem : s.remainingQty ≤ 0
    · exact Or.inl (by rw [Fill.covering_of_nonpos hrem]; exact hrem)
    obtain ⟨hnot, hnd⟩ := List.nodup_cons.mp hnd
    let u := MatchingAlgorithm.fillOne feeModel order m s
    have hurem : u.remainingQty =
        s.remainingQty - min s.remainingQty (s.mem.order m).quantity := rfl
    simp only [Fill.covering, if_neg hrem, fillFrom] at hms ⊢
    obtain ⟨⟨hfound, -, hqty⟩, hms⟩ := List.forall_mem_cons.mp hms
    rcases le_or_gt (qty m) s.remainingQty with hle | hlt
    · -- the first order is used up, and the rest of the prefix covers what is left
      rw [hqty, min_eq_right hle] at hurem
      rw [← hurem] at hms ⊢
      have hcons : s.Consumes u := fillOne_consumes feeModel m s
      refine (ih (hcons.sane hs) (hun.of_shrinks hcons.book) hnd fun m' hm' => ?_).imp_right
        fun heq => congrArg (m :: ·) heq
      obtain ⟨hfound', htaker, hqty'⟩ := hms m' hm'
      have hmaker : (s.mem.order m').id ≠ (s.mem.order m).id := by
        intro heq
        rw [Found, heq, hfound] at hfound'
        exact hnot (Option.some.inj hfound' ▸ Fill.covering_sublist.subset hm')
      obtain ⟨horder, hkept⟩ := fillOne_of_ne feeModel hs hun hmaker htaker
      refine ⟨hkept hfound', ?_, ?_⟩
      · rw [horder, hcons.untouched hun]
        exact htaker
      · rw [horder]
        exact hqty'
    · rw [hqty, min_eq_left hlt.le, sub_self] at hurem
      rw [fillFrom_of_nonpos _ hurem.le]
      exact Or.inl hurem.le

end Trading

namespace OrderBook

variable {mem mem' : Memory} {b b' : OrderBook}

theorem Shrinks.items_sublist (h : b.Shrinks b') (side : Side) :
    (Ladder.items (b'.queues side)).Sublist (Ladder.items (b.queues side)) := by
  rw [items_queues, items_queues]
  have hlevels := h.levels side
  generalize b'.levels side = ls' at hlevels ⊢
  generalize b.levels side = ls at hlevels ⊢
  induction hlevels with
  | nil => exact List.nil_sublist _
  | cons hpart _ ih => exact hpart.2.append ih
  | cons_right _ ih => exact ih.trans (List.sublist_append_right _ _)

theorem Shrinks.resting_sublist (h : b.Shrinks b') : b'.resting.Sublist b.resting :=
  (h.items_sublist .buy).append (h.items_sublist .sell)

/-- An order that leaves makes the book smaller. -/
theorem Shrinks.length_resting_lt (h : b.Shrinks b') {r : Ref} (hr : b.Rests r)
    (hr' : ¬ b'.Rests r) : b'.resting.length < b.resting.length := by
  by_contra hlen
  have heq := h.resting_sublist.eq_of_length_le (not_lt.mp hlen)
  exact hr' (mem_resting.mp (heq ▸ mem_resting.mpr hr))

end OrderBook

/-- No order comes into reach by trading. -/
theorem Matching.Consumes.mem_reachRefs {s t : Matching} (h : s.Consumes t)
    (hs : Sane s.mem s.book) {incoming : Order} {r : Ref} (hr : r ∈ t.book.reachRefs incoming) :
    r ∈ s.book.reachRefs incoming := by
  rw [OrderBook.reachRefs_eq_filter (h.sane hs), ← OrderBook.items_queues, List.mem_filter] at hr
  rw [OrderBook.reachRefs_eq_filter hs, ← OrderBook.items_queues, List.mem_filter]
  have hold := (h.book.items_sublist _).subset hr.1
  refine ⟨hold, ?_⟩
  rw [← h.mem.price_eq (hs.restsAllocated r (OrderBook.rests_iff.mpr ⟨_, hold⟩))]
  exact hr.2

/-! ## The loops end -/

section Loops

variable {feeModel : Option FeeModel} {order : Ref} {mem : Memory} {b : OrderBook}
  {taker : Order} {s t result : Matching}

/-- What a loop keeps that ends: it has just begun, and the orders that the taker meets are found;
or all orders in reach are; or nothing is left of the taker. -/
structure Winding (order : Ref) (taker : Order) (s : Matching) : Prop where
  sane : Sane s.mem s.book
  unmapped : s.book.Unmapped order
  same : s.mem.order order = taker
  found : s.remainingQty ≤ 0 ∨ (∀ m ∈ s.book.reachRefs taker, Found s.mem s.book m) ∨
    s.remainingQty = taker.quantity ∧ Exhaustible s.mem s.book taker

/-- A state in which a loop goes on leads by a pass to the next one. -/
def Passes (feeModel : Option FeeModel) (order : Ref) : Matching → Matching → Prop :=
  Relation.ReflTransGen fun s t => 0 < s.remainingQty ∧ pass feeModel order s = some t

/-- The orders that a pass goes over are found. -/
theorem Winding.answered (h : Winding order taker s) (hrem : 0 < s.remainingQty) :
    ∀ m ∈ s.book.getMatchingOrders s.mem taker, Found s.mem s.book m := by
  rcases h.found with hdone | hreach | ⟨-, hx⟩
  · exact absurd hdone (not_le.mpr hrem)
  · intro m hm
    rw [OrderBook.getMatchingOrders_eq] at hm
    exact hreach m (Fill.covering_sublist.subset hm)
  · exact hx.answered

/-- **One pass.** It takes an order out of the book, or leaves nothing of the taker. -/
theorem Winding.pass (h : Winding order taker s) (hq : 0 < taker.quantity)
    (hrem : 0 < s.remainingQty) (ht : pass feeModel order s = some t) :
    Winding order taker t ∧
      (t.book.resting.length < s.book.resting.length ∨ t.remainingQty ≤ 0) := by
  have hreach : s.book.reachRefs taker ≠ [] := by
    intro hnil
    rw [pass_eq (by rwa [h.same]), h.same, hnil] at ht
    simp at ht
  rw [pass_eq (by rwa [h.same]), h.same, if_pos hreach] at ht
  obtain rfl := Option.some.inj ht
  have hanswered := h.answered hrem
  have hcons : s.Consumes (fillFrom feeModel order (s.book.getMatchingOrders s.mem taker) s) :=
    fillFrom_consumes _ s
  constructor
  · refine ⟨hcons.sane h.sane, h.unmapped.of_shrinks hcons.book,
      (hcons.untouched h.unmapped).trans h.same, ?_⟩
    -- what is found when the pass begins is found when it is over
    have hkept : (∀ m ∈ s.book.reachRefs taker, Found s.mem s.book m) → ∀ m ∈
        (fillFrom feeModel order (s.book.getMatchingOrders s.mem taker) s).book.reachRefs taker,
        Found (fillFrom feeModel order (s.book.getMatchingOrders s.mem taker) s).mem
          (fillFrom feeModel order (s.book.getMatchingOrders s.mem taker) s).book m := by
      intro hfound m hm
      exact fillFrom_found _ h.sane (hfound m (hcons.mem_reachRefs h.sane hm))
        (OrderBook.rests_of_mem_reachRefs hm)
    rcases h.found with hdone | hfound | ⟨hfull, hx⟩
    · exact absurd hdone (not_le.mpr hrem)
    · exact Or.inr (Or.inl (hkept hfound))
    · by_cases hown : ∃ m ∈ s.book.getMatchingOrders s.mem taker, (s.mem.order m).id = taker.id
      · exact Or.inr (Or.inl (hkept (hx.inReach hown)))
      · push Not at hown
        have hnd : (s.book.reachRefs taker).Nodup :=
          (h.sane.nodup_items _).sublist (reachRefs_sublist taker)
        have hcovering : s.book.getMatchingOrders s.mem taker = Fill.covering
            (fun r => (s.mem.order r).quantity) s.remainingQty (s.book.reachRefs taker) := by
          rw [OrderBook.getMatchingOrders_eq, hfull]
        rw [hcovering] at hown hanswered hkept ⊢
        refine (fillFrom_covering _ _ h.sane h.unmapped hnd fun m hm =>
          ⟨hanswered m hm, ?_, rfl⟩).imp_right fun hwhole => Or.inl (hkept ?_)
        · rw [h.same]
          exact hown m hm
        · rwa [hwhole] at hanswered
  · have hne : s.book.getMatchingOrders s.mem taker ≠ [] := fun hnil =>
      hreach ((OrderBook.getMatchingOrders_eq_nil hq).mp hnil)
    obtain ⟨m, ms, hget⟩ := List.exists_cons_of_ne_nil hne
    rw [hget] at hanswered hcons ⊢
    have hm : s.book.Rests m :=
      OrderBook.rests_of_mem_getMatchingOrders (hget ▸ List.mem_cons_self)
    simp only [fillFrom, if_neg (not_le.mpr hrem)] at hcons ⊢
    rcases fillOne_progress h.sane (hanswered m List.mem_cons_self) with hgone | hzero
    · refine Or.inl (hcons.book.length_resting_lt hm fun hrests => hgone ?_)
      exact (fillFrom_consumes ms _).book.rests hrests
    · rw [fillFrom_of_nonpos ms hzero.le]
      exact Or.inr hzero.le

/-- The orders that rest, and one more iteration while something is left of the taker. -/
def passesLeft (s : Matching) : ℕ := s.book.resting.length + if 0 < s.remainingQty then 1 else 0

/-- A loop whose every iteration is a pass ends. -/
theorem Winding.terminates (step : Matching → Option Matching)
    (hstep : ∀ s t, step s = some t →
      0 < s.remainingQty ∧ MatchingAlgorithm.pass feeModel order s = some t)
    (hq : 0 < taker.quantity) (h : Winding order taker s) :
    ∃ fuel t, Loop.run step fuel s = some t := by
  have wf : WellFounded fun t s : Matching => passesLeft t < passesLeft s :=
    InvImage.wf passesLeft wellFounded_lt
  refine Loop.terminates wf (Winding order taker) (fun s t hs hst => ?_) h
  obtain ⟨hrem, ht⟩ := hstep s t hst
  obtain ⟨hw, hless⟩ := hs.pass hq hrem ht
  refine ⟨hw, ?_⟩
  have hlen : t.book.resting.length ≤ s.book.resting.length :=
    (Trading.refl.pass ht).consumes.book.resting_sublist.length_le
  unfold passesLeft
  rw [if_pos hrem]
  split_ifs with htrem
  · rcases hless with hless | hdone
    · omega
    · exact absurd hdone (not_le.mpr htrem)
  · omega

theorem Winding.passes (h : Winding order taker s) (hq : 0 < taker.quantity)
    (ht : Passes feeModel order s t) : Winding order taker t := by
  induction ht with
  | refl => exact h
  | tail _ hpass ih => exact (ih.pass hq hpass.1 hpass.2).1

theorem pass_of_marketStep (h : marketStep feeModel order s = some t) :
    0 < s.remainingQty ∧ pass feeModel order s = some t := by
  unfold marketStep at h
  split_ifs at h with hrem
  exact ⟨hrem, h⟩

theorem pass_of_limitStep (h : limitStep feeModel order s = some t) :
    0 < s.remainingQty ∧ pass feeModel order s = some t := by
  unfold limitStep at h
  split_ifs at h with hc
  exact ⟨hc.1, h⟩

/-- A taker that the book has just met. -/
theorem Winding.start (h : Sane mem b) (hun : b.Unmapped order)
    (hx : Exhaustible mem b (mem.order order)) :
    Winding order (mem.order order) (start mem b order) :=
  ⟨h, hun, rfl, Or.inr (Or.inr ⟨rfl, hx⟩)⟩

/-- An order that meets nothing but orders that are found is matched in finite time; a FOK order
always is. -/
theorem Sane.exists_returns (feeModel : Option FeeModel) (h : Sane mem b)
    (hun : b.Unmapped order) (hq : 0 < (mem.order order).quantity)
    (htype : (mem.order order).type.Matchable)
    (hx : (mem.order order).type ≠ .fok → Exhaustible mem b (mem.order order)) :
    ∃ result, Returns feeModel mem b order result := by
  have hmarket (hfok : (mem.order order).type ≠ .fok) :=
    (Winding.start h hun (hx hfok)).terminates (marketStep feeModel order)
      (fun _ _ => pass_of_marketStep) hq
  have hlimit (hfok : (mem.order order).type ≠ .fok) :=
    (Winding.start h hun (hx hfok)).terminates (limitStep feeModel order)
      (fun _ _ => pass_of_limitStep) hq
  rcases htype with htype | htype | htype | htype
  · obtain ⟨n, t, hrun⟩ := hmarket (by simp [htype])
    exact ⟨t, n, by rw [processOrder, htype]; simp [processMarketOrder, hrun]⟩
  · obtain ⟨n, t, hrun⟩ := hlimit (by simp [htype])
    exact ⟨MatchingAlgorithm.restRemainder order t, n, by
      rw [processOrder, htype]; simp [processLimitOrder, hrun]⟩
  · obtain ⟨n, t, hrun⟩ := hlimit (by simp [htype])
    exact ⟨t, n, by rw [processOrder, htype]; simp [processIOCOrder, hrun]⟩
  · exact ⟨_, 0, by rw [processOrder, htype]⟩

end Loops

/-! ## Runs -/

/-- A sane book stays sane whatever is requested. -/
theorem Sane.step {feeModel : Option FeeModel} {s t : BookState} {e : Request × Outcome}
    (h : Sane s.mem s.book) (hstep : BookState.Step feeModel s e t) : Sane t.mem t.book := by
  cases hstep with
  | @submit o result hr =>
    exact returns_sane (h.of_extends (.alloc s.mem o)) (h.fresh o) hr
  | cancel orderId => exact h.cancelOrder orderId
  | modify hm => exact h.modifyOrder hm
  | modifyUnknown => exact h

section Runs

variable {feeModel : Option FeeModel} {s : BookState} {o : Order}

/-- What an order meets is what it meets once its object is built. -/
theorem Exhaustible.alloc {mem : Memory} {b : OrderBook} (hs : Sane mem b)
    (h : Exhaustible mem b o) :
    Exhaustible (mem.alloc o).1 b ((mem.alloc o).1.order mem.next) := by
  rw [Memory.alloc_order_self]
  exact h.congr fun r hr => Memory.alloc_order_of_lt _ _ _ (hs.restsAllocated r hr)

/-- **Termination.** After any run from an empty book of admitted requests, every further admitted
order whose matching orders are found by their ids is matched in finite time: each pass takes an
order out of the book or lowers the remainder. -/
theorem terminates_of_run {mem : Memory} {symbol : String} {events : List (Request × Outcome)}
    (h : Run (BookState.GuardedStep (fun _ req => req.Admitted) feeModel) (.initial mem symbol)
      events s)
    (ho : (Request.submit o).Admitted) (hx : o.type ≠ .fok → Exhaustible s.mem s.book o) :
    (∃ result, Returns feeModel (s.mem.alloc o).1 s.book s.mem.next result) ∧
      (o.type ≠ .fok → ∀ t u,
        Passes feeModel s.mem.next (start (s.mem.alloc o).1 s.book s.mem.next) t →
        0 < t.remainingQty → pass feeModel s.mem.next t = some u →
          u.book.resting.length < t.book.resting.length ∨ u.remainingQty < t.remainingQty) := by
  obtain ⟨-, htype, hq⟩ := ho
  have hsane : Sane s.mem s.book := h.invariant (fun s => Sane s.mem s.book) (.empty mem symbol)
    fun _ _ _ h hstep => h.step hstep.2
  have hself : (s.mem.alloc o).1.order s.mem.next = o := Memory.alloc_order_self _ _
  have hsane' : Sane (s.mem.alloc o).1 s.book := hsane.of_extends (.alloc s.mem o)
  have hun : s.book.Unmapped s.mem.next := (hsane.fresh o).unmapped
  constructor
  · refine hsane'.exists_returns feeModel hun ?_ ?_ fun hfok => (hx ?_).alloc hsane
    · rwa [hself]
    · rwa [hself]
    · rwa [hself] at hfok
  · intro hfok t u ht hrem hpass
    have hwinding := (Winding.start hsane' hun ((hx hfok).alloc hsane)).passes (by rwa [hself]) ht
    obtain ⟨-, hless⟩ := hwinding.pass (by rwa [hself]) hrem hpass
    exact hless.imp_right fun hdone => hdone.trans_lt hrem

/-- The id of an ask modified to nothing is redirected to a bid, but the ask "c" in front of it is
enough for the market order. -/
theorem terminates_of_run_ghost_behind : ∃ events s,
    Run (BookState.GuardedStep (fun _ req => req.Admitted) none) (.initial Memory.empty "S")
      events s ∧
      events.map Prod.fst = [.submit ⟨"a", "S", .sell, .limit, 100, 5⟩,
        .submit ⟨"b", "S", .sell, .limit, 100, 5⟩, .modify "a" 0,
        .submit ⟨"c", "S", .sell, .limit, 99, 5⟩, .submit ⟨"a", "S", .buy, .limit, 50, 5⟩] ∧
      s.book.resting.length = 4 ∧
      ∃ result, Returns none (s.mem.alloc ⟨"t", "S", .buy, .market, 0, 3⟩).1 s.book s.mem.next
        result := by
  let reqs : List Request := [.submit ⟨"a", "S", .sell, .limit, 100, 5⟩,
    .submit ⟨"b", "S", .sell, .limit, 100, 5⟩, .modify "a" 0,
    .submit ⟨"c", "S", .sell, .limit, 99, 5⟩, .submit ⟨"a", "S", .buy, .limit, 50, 5⟩]
  let final := Run.exec (BookState.guarded (fun _ req => req.Admitted) none 3)
    (.initial Memory.empty "S") reqs
  have hsome : (final.map fun p => (p.1.map Prod.fst, p.2.book.resting.length,
      decide (Exhaustible p.2.mem p.2.book ⟨"t", "S", .buy, .market, 0, 3⟩))) =
        some (reqs, 4, true) := by decide +kernel
  obtain ⟨⟨events, s⟩, hfinal, hseen⟩ := Option.map_eq_some_iff.mp hsome
  simp only [Prod.mk.injEq, decide_eq_true_eq] at hseen
  obtain ⟨hreqs, hlen, hx⟩ := hseen
  have hrun := BookState.run_of_exec hfinal
  exact ⟨events, s, hrun, hreqs, hlen, (terminates_of_run hrun (by decide) fun _ => hx).1⟩

end Runs

/-! ## Ghosts -/

section Ghosts

variable {feeModel : Option FeeModel} {order m : Ref} {s t u : Matching} {mem : Memory}
  {b : OrderBook}

/-- An order of quantity zero whose id leads to an order that has something. -/
def Ghost (mem : Memory) (b : OrderBook) (z : Ref) : Prop :=
  (mem.order z).quantity = 0 ∧
    ∃ r, b.orderMap.lookup (mem.order z).id = some r ∧ 0 < (mem.order r).quantity

/-- Two matching states that no query tells apart. -/
structure Matching.Same (s t : Matching) : Prop where
  order : t.mem.order = s.mem.order
  queues : ∀ side, t.book.queues side = s.book.queues side
  orderMap : t.book.orderMap = s.book.orderMap
  remaining : t.remainingQty = s.remainingQty

theorem Matching.Same.trans (h : s.Same t) (h' : t.Same u) : s.Same u where
  order := h'.order.trans h.order
  queues side := (h'.queues side).trans (h.queues side)
  orderMap := h'.orderMap.trans h.orderMap
  remaining := h'.remaining.trans h.remaining

theorem Ghost.of_same (h : Ghost s.mem s.book m) (hst : s.Same t) : Ghost t.mem t.book m := by
  rw [Ghost, hst.order, hst.orderMap]
  exact h

/-- A trade with a ghost changes nothing. -/
theorem Ghost.fillOne_same (h : Ghost s.mem s.book m) (hs : Sane s.mem s.book)
    (hrem : 0 < s.remainingQty)
    (htaker : s.book.orderMap.lookup (s.mem.order order).id = none) :
    s.Same (fillOne feeModel order m s) := by
  obtain ⟨hzero, r, hid, hpos⟩ := h
  let q := min s.remainingQty (s.mem.order m).quantity
  have hq : q = 0 := by simp [q, hzero, hrem.le]
  let first := s.book.decreaseOrderQuantity s.mem (s.mem.order m).id q
  obtain ⟨hmem, hmap, hqueues⟩ := hs.decrease_stays (a := q) hid (hq ▸ hpos)
  have horder : first.2.1.order = s.mem.order := by
    funext r'
    rw [hmem, Memory.modifyQuantity_order, hq, sub_zero]
    split_ifs with heq
    · rw [heq]
    · rfl
  have hsecond : first.2.2.decreaseOrderQuantity first.2.1 (first.2.1.order order).id q =
      (0, first.2.1, first.2.2) := by
    have hnone : first.2.2.orderMap.lookup (first.2.1.order order).id = none := by
      rw [horder, hmap]
      exact htaker
    unfold OrderBook.decreaseOrderQuantity
    rw [hnone]
  have hbook : (fillOne feeModel order m s).book = first.2.2 :=
    congrArg (fun p => p.2.2) hsecond
  have hmem' : (fillOne feeModel order m s).mem = first.2.1.generateTradeId.2 :=
    congrArg (fun p => p.2.1.generateTradeId.2) hsecond
  refine ⟨?_, fun side => ?_, ?_, ?_⟩
  · rw [hmem']
    exact horder
  · rw [hbook]
    exact hqueues side
  · rw [hbook]
    exact hmap
  · change s.remainingQty - q = s.remainingQty
    rw [hq, sub_zero]

/-- What a matching loop is stuck with: a remainder, and nothing but ghosts in reach. -/
structure Haunted (order : Ref) (s : Matching) : Prop where
  sane : Sane s.mem s.book
  reach : s.book.reachRefs (s.mem.order order) ≠ []
  ghosts : ∀ m ∈ s.book.reachRefs (s.mem.order order), Ghost s.mem s.book m
  unknown : s.book.orderMap.lookup (s.mem.order order).id = none
  taker : 0 < (s.mem.order order).quantity
  remaining : 0 < s.remainingQty

theorem Haunted.of_same (h : Haunted order s) (hst : s.Same t) (ht : Sane t.mem t.book) :
    Haunted order t := by
  have hreach : ∀ incoming, t.book.reachRefs incoming = s.book.reachRefs incoming := by
    intro incoming
    rw [OrderBook.reachRefs_eq_reach, OrderBook.reachRefs_eq_reach, hst.queues]
  refine ⟨ht, ?_, fun m hm => ?_, ?_, ?_, ?_⟩
  · rw [hreach, hst.order]
    exact h.reach
  · rw [hreach, hst.order] at hm
    exact (h.ghosts m hm).of_same hst
  · rw [hst.orderMap, hst.order]
    exact h.unknown
  · rw [hst.order]
    exact h.taker
  · rw [hst.remaining]
    exact h.remaining

/-- The `for` loop over ghosts changes nothing. -/
theorem Haunted.fillFrom_same {ms : List Ref} (h : Haunted order s)
    (hms : ∀ m ∈ ms, Ghost s.mem s.book m) : s.Same (fillFrom feeModel order ms s) := by
  induction ms generalizing s with
  | nil => exact ⟨rfl, fun _ => rfl, rfl, rfl⟩
  | cons m ms ih =>
    simp only [fillFrom, if_neg (not_le.mpr h.remaining)]
    have hsame : s.Same (fillOne feeModel order m s) :=
      (hms m List.mem_cons_self).fillOne_same h.sane h.remaining h.unknown
    have hsane : Sane (fillOne feeModel order m s).mem (fillOne feeModel order m s).book :=
      (fillOne_consumes feeModel m s).sane h.sane
    exact hsame.trans (ih (h.of_same hsame hsane) fun m' hm' =>
      (hms m' (List.mem_cons_of_mem m hm')).of_same hsame)

/-- A haunted loop makes one more iteration, and is haunted again. -/
theorem Haunted.exists_step {step : Matching → Option Matching}
    (hstep : LoopBody feeModel order step) (h : Haunted order s) :
    ∃ t, step s = some t ∧ Haunted order t := by
  rw [hstep s h.sane h.taker, if_pos ⟨h.remaining, h.reach⟩]
  refine ⟨_, rfl, h.of_same (h.fillFrom_same fun m hm => ?_) ?_⟩
  · rw [OrderBook.getMatchingOrders_eq] at hm
    exact h.ghosts m (Fill.covering_sublist.subset hm)
  · exact (fillFrom_consumes _ s).sane h.sane

/-- An order that can reach nothing but ghosts is never done: whatever the fuel, its loop
does not answer. -/
theorem Haunted.diverges (h : Haunted order (start mem b order))
    (htype : (mem.order order).type = .market ∨ (mem.order order).type = .limit ∨
      (mem.order order).type = .ioc) (fuel : ℕ) :
    processOrder feeModel fuel mem b order = .ok none := by
  have hmarket := Loop.diverges (Haunted order)
    (fun _ => Haunted.exists_step (marketStep_loopBody feeModel order)) h fuel
  have hlimit := Loop.diverges (Haunted order)
    (fun _ => Haunted.exists_step (limitStep_loopBody feeModel order)) h fuel
  rcases htype with htype | htype | htype
  · rw [processOrder, htype]; simp [processMarketOrder, hmarket]
  · rw [processOrder, htype]; simp [processLimitOrder, hlimit]
  · rw [processOrder, htype]; simp [processIOCOrder, hlimit]

end Ghosts

/-- Every request here is admitted. The ask "a" is modified to nothing while "b" keeps its
level alive, "b" is cancelled, and a bid under the id "a" makes a ghost of the ask. The
market order "t" then trades with the ghost for ever. -/
theorem market_order_hangs : ∃ events s,
    Run (BookState.GuardedStep (fun _ req => req.Admitted) none) (.initial Memory.empty "S")
      events s ∧
    events.map Prod.fst = [.submit ⟨"a", "S", .sell, .limit, 100, 5⟩,
      .submit ⟨"b", "S", .sell, .limit, 100, 5⟩, .modify "a" 0, .cancel "b",
      .submit ⟨"a", "S", .buy, .limit, 50, 5⟩] ∧
    (Request.submit ⟨"t", "S", .buy, .market, 0, 3⟩).Admitted ∧
    ∀ fuel, processOrder none fuel (s.mem.alloc ⟨"t", "S", .buy, .market, 0, 3⟩).1 s.book
      s.mem.next = .ok none := by
  let o : Order := ⟨"t", "S", .buy, .market, 0, 3⟩
  let reqs : List Request := [.submit ⟨"a", "S", .sell, .limit, 100, 5⟩,
    .submit ⟨"b", "S", .sell, .limit, 100, 5⟩, .modify "a" 0, .cancel "b",
    .submit ⟨"a", "S", .buy, .limit, 50, 5⟩]
  let final := Run.exec (BookState.guarded (fun _ req => req.Admitted) none 3)
    (.initial Memory.empty "S") reqs
  let seen (s : BookState) := (s.book.reachRefs o, (s.mem.alloc o).1.order 0,
    decide (s.book.orderMap.lookup "a" = some 2), ((s.mem.alloc o).1.order 2).quantity,
    s.book.hasOrder "t")
  have hsome : (final.map fun p => (p.1.map Prod.fst, seen p.2)) =
      some (reqs, [0], ⟨"a", "S", .sell, .limit, 100, 0⟩, true, 5, false) := by
    decide +kernel
  obtain ⟨⟨events, s⟩, hfinal, hseen⟩ := Option.map_eq_some_iff.mp hsome
  simp only [Prod.mk.injEq, seen] at hseen
  obtain ⟨hreqs, hreach, hzero, hlook, hpos, hunknown⟩ := hseen
  have hrun := BookState.run_of_exec hfinal
  have hsane : Sane s.mem s.book := hrun.invariant (fun s => Sane s.mem s.book)
    (.empty Memory.empty "S") fun _ _ _ h hstep => h.step hstep.2
  have hself : (s.mem.alloc o).1.order s.mem.next = o := Memory.alloc_order_self _ _
  have hhaunted : Haunted s.mem.next (start (s.mem.alloc o).1 s.book s.mem.next) := by
    refine ⟨hsane.of_extends (.alloc s.mem o), ?_, ?_, ?_, ?_, ?_⟩
    · rw [start_book, start_mem, hself, hreach]
      exact List.cons_ne_nil _ _
    · rw [start_book, start_mem, hself, hreach]
      intro m hm
      obtain rfl : m = 0 := List.mem_singleton.mp hm
      refine ⟨by rw [hzero], 2, ?_, ?_⟩
      · rw [hzero]
        exact of_decide_eq_true hlook
      · rw [hpos]
        decide
    · rw [start_book, start_mem, hself]
      exact lookup_of_hasOrder hunknown
    · rw [start_mem, hself]
      decide
    · rw [start_remainingQty, hself]
      decide
  exact ⟨events, s, hrun, hreqs, by decide, hhaunted.diverges (Or.inl (by rw [hself]))⟩

end GoQuant
