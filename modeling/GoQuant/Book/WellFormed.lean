import GoQuant.Book.Fills

/-!
# Well-formed books

In a well-formed book the level lists, the running totals and the id map tell the same
story: the map holds exactly the resting orders, each under its id, every resting quantity
is positive, and a level's total is the sum of the quantities of its orders. All operations
keep a book well formed, as long as an order is only added under an id that the map does
not hold and quantities are only set to positive values.

## Main results

* `WellFormed.cancelOrder`, `WellFormed.modifyOrder`, `WellFormed.decreaseOrderQuantity`,
  `WellFormed.addOrder` — the operations of `order_book.cpp`.
* `WellFormed.trading`, `WellFormed.processOrder` — matching.
* `WellFormed.ready` — a new order can be matched.
-/

namespace GoQuant

open MatchingAlgorithm

/-- The sum of the quantities of a queue of orders. -/
def Memory.total (mem : Memory) (orders : List Ref) : ℚ :=
  (orders.map fun r => (mem.order r).quantity).sum

/-- The three copies of the book's contents agree. -/
structure WellFormed (mem : Memory) (b : OrderBook) : Prop extends Indexed mem b where
  positive : ∀ r, b.Rests r → 0 < (mem.order r).quantity
  resting : ∀ id r, b.orderMap.lookup id = some r → b.Rests r
  total : ∀ s, ∀ l ∈ b.levels s, l.totalQuantity = mem.total l.orders

namespace Memory

variable {mem mem' : Memory} {orders : List Ref} {r : Ref} {q : ℚ}

theorem total_congr (h : ∀ r ∈ orders, mem'.order r = mem.order r) :
    mem'.total orders = mem.total orders := by
  unfold total
  rw [List.map_congr_left fun r hr => by rw [h r hr]]

theorem total_erase (hr : r ∈ orders) :
    mem.total (orders.erase r) = mem.total orders - (mem.order r).quantity := by
  have hsum := List.sum_map_erase (fun r => (mem.order r).quantity) hr
  unfold total
  linarith

theorem total_without (hnd : orders.Nodup) (hr : r ∈ orders) :
    mem.total (orders.filter fun r' => decide (r' ≠ r)) =
      mem.total orders - (mem.order r).quantity := by
  rw [← total_erase hr, hnd.erase_eq_filter]
  congr 1
  exact List.filter_congr fun r' _ => by grind

theorem total_modifyQuantity (hnd : orders.Nodup) (hr : r ∈ orders) :
    (mem.modifyQuantity r q).total orders = mem.total orders - (mem.order r).quantity + q := by
  have hsum : (mem.modifyQuantity r q).total (orders.erase r) = _ := total_erase hr
  have hrest : (mem.modifyQuantity r q).total (orders.erase r) = mem.total (orders.erase r) :=
    total_congr fun r' hr' =>
      modifyQuantity_order_of_ne mem r r' q fun heq => hnd.not_mem_erase (heq ▸ hr')
  rw [hrest, total_erase hr, modifyQuantity_order] at hsum
  simp only [if_true] at hsum
  linarith

theorem total_nonneg (h : ∀ r ∈ orders, 0 ≤ (mem.order r).quantity) : 0 ≤ mem.total orders := by
  refine List.sum_nonneg fun q hq => ?_
  obtain ⟨r, hr, rfl⟩ := List.mem_map.mp hq
  exact h r hr

theorem le_total (h : ∀ r ∈ orders, 0 ≤ (mem.order r).quantity) (hr : r ∈ orders) :
    (mem.order r).quantity ≤ mem.total orders := by
  have herase : mem.total (orders.erase r) = _ := total_erase hr
  have hnonneg : 0 ≤ mem.total (orders.erase r) :=
    total_nonneg fun r' hr' => h r' (List.mem_of_mem_erase hr')
  linarith

end Memory

/-- The level at a resting order's price holds it. -/
theorem Sane.mem_orders {mem : Memory} {b : OrderBook} (h : Sane mem b) {r : Ref}
    (hr : b.Rests r) {l : PriceLevel} (hl : l ∈ b.levels (mem.order r).side)
    (hp : l.price = (mem.order r).price) : r ∈ l.orders := by
  obtain ⟨l', hl', hp', hrl⟩ := h.level_of_rests hr
  rwa [(h.sorted _).eq_of_key hl hl' (hp.trans hp'.symm)]

/-- `modifyOrder` of a resting order finds its level and sets its quantity. -/
theorem Sane.modifyOrder_eq {mem : Memory} {b : OrderBook} (h : Sane mem b) {id : String} {r : Ref}
    {q : ℚ} (hid : b.orderMap.lookup id = some r) (hr : b.Rests r) :
    b.modifyOrder mem id q = .ok (mem.modifyQuantity r q,
      b.alterLevel (mem.order r).side (mem.order r).price
        (OrderBook.resizeLevel (mem.order r).quantity q)) := by
  obtain ⟨l, hl, hp, -⟩ := h.level_of_rests hr
  simp [OrderBook.modifyOrder, hid, Keyed.find_eq_some (h.sorted _) hl hp]

namespace WellFormed

variable {mem mem' : Memory} {b b' : OrderBook} {r order : Ref} {id : String} {q : ℚ}

theorem empty (mem : Memory) (symbol : String) : WellFormed mem (OrderBook.empty symbol) where
  toIndexed := .empty mem symbol
  positive r hr := absurd hr (OrderBook.not_rests_empty symbol r)
  resting id r hr := by simp [OrderBook.empty] at hr
  total s l hl := by simp at hl

theorem nonneg (h : WellFormed mem b) : NonNeg mem b := fun r hr => (h.positive r hr).le

/-- The orders in the book stay as they are. -/
theorem congr (h : WellFormed mem b) (hs : Sane mem' b)
    (hold : ∀ r, b.Rests r → mem'.order r = mem.order r) : WellFormed mem' b where
  toSane := hs
  found r hr := by
    rw [hold r hr]
    exact h.found r hr
  positive r hr := by
    rw [hold r hr]
    exact h.positive r hr
  resting := h.resting
  total s l hl := by
    rw [h.total s l hl]
    exact (Memory.total_congr fun r hr => hold r ⟨s, l, hl, hr⟩).symm

/-- New objects do not matter. -/
theorem of_alloc (h : WellFormed mem b) (o : Order) : WellFormed (mem.alloc o).1 b where
  toIndexed := h.toIndexed.of_extends (.alloc mem o)
  positive r hr := by
    rw [Memory.alloc_order_of_lt mem r o (h.restsAllocated r hr)]
    exact h.positive r hr
  resting := h.resting
  total s l hl := by
    rw [h.total s l hl]
    exact (Memory.total_congr fun r hr =>
      Memory.alloc_order_of_lt mem r o (h.restsAllocated r ⟨s, l, hl, hr⟩)).symm

theorem of_generateTradeId (h : WellFormed mem b) : WellFormed mem.generateTradeId.2 b :=
  ⟨h.toIndexed.of_extends (.generateTradeId mem), h.positive, h.resting, h.total⟩

/-- The map holds exactly the resting orders. -/
theorem lookup_iff (h : WellFormed mem b) :
    b.orderMap.lookup id = some r ↔ b.Rests r ∧ (mem.order r).id = id :=
  ⟨fun hr => ⟨h.resting id r hr, h.named id r hr⟩, fun hr => hr.2 ▸ h.found r hr.1⟩

/-- No structure of the book points at an object whose id the map does not hold. -/
theorem fresh_of_lookup (h : WellFormed mem b) (hlt : order < mem.next)
    (hid : b.orderMap.lookup (mem.order order).id = none) : Fresh mem b order := by
  have hrests : ¬ b.Rests order := by
    intro hr
    have hfound := h.found order hr
    rw [hid] at hfound
    cases hfound
  exact ⟨hlt, fun id' hr => hrests (h.resting id' order hr), hrests⟩

/-- A new object under an id that the map does not hold can be matched. -/
theorem ready (h : WellFormed mem b) (hf : Fresh mem b order)
    (hid : b.orderMap.lookup (mem.order order).id = none) : Ready mem b order where
  indexed := h.toIndexed
  nonneg := h.nonneg
  fresh := hf
  stranger r hr heq := by
    have hfound := h.found r hr
    rw [heq, hid] at hfound
    cases hfound

/-- Rewriting the level of a resting order keeps all totals right if it keeps that one. -/
theorem total_alterLevel (h : WellFormed mem b) (hr : b.Rests r)
    (hmem : ∀ r', r' ≠ r → mem'.order r' = mem.order r') {f : PriceLevel → Option PriceLevel}
    (hf : ∀ l ∈ b.levels (mem.order r).side, r ∈ l.orders → ∀ l', f l = some l' →
      l'.totalQuantity = mem'.total l'.orders) (s : Side) :
    ∀ l ∈ (b.alterLevel (mem.order r).side (mem.order r).price f).levels s,
      l.totalQuantity = mem'.total l.orders := by
  have hother : ∀ l ∈ b.levels s, r ∉ l.orders → l.totalQuantity = mem'.total l.orders := by
    intro l hl hrl
    rw [h.total s l hl]
    exact (Memory.total_congr fun r' hr' => hmem r' fun heq => hrl (heq ▸ hr')).symm
  intro l' hl'
  by_cases hs : s = (mem.order r).side
  · subst hs
    rw [OrderBook.levels_alterLevel_self, Keyed.mem_alter] at hl'
    rcases hl' with ⟨l, hl, hp, hfl⟩ | ⟨hl, hp⟩
    · exact hf l hl (h.mem_orders hr hl hp) l' hfl
    · exact hother l' hl fun hrl => hp (h.placed _ l' hl r hrl).2.symm
  · rw [OrderBook.levels_alterLevel_of_ne _ _ _ hs] at hl'
    exact hother l' hl' fun hrl => hs (h.placed s l' hl' r hrl).1.symm

theorem resting_of_removed (h : WellFormed mem b) (hid : b.orderMap.lookup id = some r)
    (hmap : b'.orderMap = b.orderMap.erase id)
    (hq : ∀ t, b'.queues t = Ladder.retain (fun r' => decide (r' ≠ r)) (b.queues t))
    (id' : String) (r' : Ref) (hr' : b'.orderMap.lookup id' = some r') : b'.Rests r' := by
  rw [hmap] at hr'
  have hne : id' ≠ id := by
    rintro rfl
    simp at hr'
  rw [AList.lookup_erase_ne hne] at hr'
  refine (OrderBook.rests_of_queues hq).mpr ⟨h.resting id' r' hr', decide_eq_true ?_⟩
  rintro rfl
  exact hne ((h.named id' r' hr').symm.trans (h.named id r' hid))

theorem cancelOrder (h : WellFormed mem b) (id : String) :
    WellFormed mem (b.cancelOrder mem id).2 := by
  cases hid : b.orderMap.lookup id with
  | none => simpa [OrderBook.cancelOrder, hid] using h
  | some r =>
    have hr : b.Rests r := h.resting id r hid
    refine ⟨h.toIndexed.cancelOrder id,
      fun r' hr' => h.positive r' ((b.cancelOrder_shrinks mem id).rests hr'),
      h.resting_of_removed hid (Indexed.cancelOrder_orderMap hid) (h.cancelOrder_queues hid),
      ?_⟩
    simp only [OrderBook.cancelOrder, hid, OrderBook.levels_setOrderMap]
    refine h.total_alterLevel hr (fun _ _ => rfl) fun l hl hrl l' hl' => ?_
    obtain ⟨rfl, -⟩ := OrderBook.eraseEmpty_eq_some.mp hl'
    dsimp only
    rw [h.removeId_eq hid hl, Memory.total_without (h.nodup _ l hl) hrl, h.total _ l hl]

theorem decreaseOrderQuantity (h : WellFormed mem b) (id : String) (a : ℚ) :
    WellFormed (b.decreaseOrderQuantity mem id a).2.1
      (b.decreaseOrderQuantity mem id a).2.2 := by
  cases hid : b.orderMap.lookup id with
  | none => simpa [OrderBook.decreaseOrderQuantity, hid] using h
  | some r =>
    have hr : b.Rests r := h.resting id r hid
    have hle : ∀ l ∈ b.levels (mem.order r).side, r ∈ l.orders →
        (mem.order r).quantity ≤ mem.total l.orders :=
      fun l hl hrl => Memory.le_total (fun r' hr' => h.nonneg r' ⟨_, l, hl, hr'⟩) hrl
    have hi := h.toIndexed.decreaseOrderQuantity id a
    rcases le_or_gt (mem.order r).quantity a with hqa | hqa
    · obtain ⟨hmem, hmap, hq⟩ := h.decrease_gone hid hqa
      have hnew : OrderBook.decreased (mem.order r).quantity a = 0 := by
        unfold OrderBook.decreased
        split_ifs <;> linarith
      rw [hmem] at hi ⊢
      refine ⟨hi, fun r' hr' => h.positive r' ((OrderBook.rests_of_queues hq).mp hr').1,
        h.resting_of_removed hid hmap hq, ?_⟩
      simp only [OrderBook.decreaseOrderQuantity, hid, hnew, le_refl, if_true,
        OrderBook.levels_setOrderMap]
      refine h.total_alterLevel hr (fun _ _ => rfl) fun l hl hrl l' hl' => ?_
      obtain ⟨rfl, -⟩ := OrderBook.eraseEmpty_eq_some.mp hl'
      simp only [le_refl, if_true, sub_zero]
      rw [h.removeId_eq hid hl, Memory.total_without (h.nodup _ l hl) hrl, h.total _ l hl,
        if_neg (by linarith [hle l hl hrl])]
    · obtain ⟨hmem, hmap, hq⟩ := h.toSane.decrease_stays hid hqa
      have hnew : OrderBook.decreased (mem.order r).quantity a = (mem.order r).quantity - a := by
        unfold OrderBook.decreased
        split_ifs <;> linarith
      have hpos : ¬ (mem.order r).quantity - a ≤ 0 := by linarith
      rw [hmem] at hi ⊢
      refine ⟨hi, fun r' hr' => ?_, fun id' r' hr' => ?_, ?_⟩
      · rw [Memory.modifyQuantity_order]
        dsimp only
        split_ifs with heq
        · linarith
        · exact h.positive r' ((OrderBook.rests_congr hq).mp hr')
      · exact (OrderBook.rests_congr hq).mpr (h.resting id' r' (hmap ▸ hr'))
      · simp only [OrderBook.decreaseOrderQuantity, hid, hnew, if_neg hpos]
        refine h.total_alterLevel hr
          (fun r' hne => Memory.modifyQuantity_order_of_ne mem r r' _ hne)
          fun l hl hrl l' hl' => ?_
        obtain ⟨rfl, -⟩ := OrderBook.eraseEmpty_eq_some.mp hl'
        simp only [if_neg hpos]
        rw [Memory.total_modifyQuantity (h.nodup _ l hl) hrl, h.total _ l hl,
          if_neg (by linarith [hle l hl hrl])]
        linarith

theorem modifyOrder_eq (h : WellFormed mem b) (hid : b.orderMap.lookup id = some r) :
    b.modifyOrder mem id q = .ok (mem.modifyQuantity r q,
      b.alterLevel (mem.order r).side (mem.order r).price
        (OrderBook.resizeLevel (mem.order r).quantity q)) :=
  h.toSane.modifyOrder_eq hid (h.resting id r hid)

/-- The level of a resized order keeps a positive total, so it stays. -/
theorem resizeLevel_eq (h : WellFormed mem b) (hq : 0 < q) {l : PriceLevel}
    (hl : l ∈ b.levels (mem.order r).side) (hrl : r ∈ l.orders) :
    OrderBook.resizeLevel (mem.order r).quantity q l =
      some { l with totalQuantity := (mem.modifyQuantity r q).total l.orders } := by
  have hle : (mem.order r).quantity ≤ mem.total l.orders :=
    Memory.le_total (fun r' hr' => h.nonneg r' ⟨_, l, hl, hr'⟩) hrl
  have htotal : (mem.modifyQuantity r q).total l.orders =
      l.totalQuantity - (mem.order r).quantity + q := by
    rw [Memory.total_modifyQuantity (h.nodup _ l hl) hrl, h.total _ l hl]
  unfold OrderBook.resizeLevel
  rw [htotal, if_neg]
  rw [h.total _ l hl]
  linarith

/-- A resized order keeps its place. -/
theorem modifyOrder_queues (h : WellFormed mem b) (hid : b.orderMap.lookup id = some r)
    (hq : 0 < q) (t : Side) :
    (b.alterLevel (mem.order r).side (mem.order r).price
      (OrderBook.resizeLevel (mem.order r).quantity q)).queues t = b.queues t := by
  have hr : b.Rests r := h.resting id r hid
  unfold OrderBook.alterLevel OrderBook.queues
  by_cases ht : t = (mem.order r).side
  · subst ht
    rw [OrderBook.levels_setLevels_self, Keyed.alter, List.map_filterMap,
      ← List.filterMap_eq_map]
    refine List.filterMap_congr fun l hl => ?_
    split_ifs with hp
    · rw [h.resizeLevel_eq hq hl (h.mem_orders hr hl hp)]
      rfl
    · rfl
  · rw [OrderBook.levels_setLevels_of_ne _ _ ht]

theorem modifyOrder (h : WellFormed mem b) (hq : 0 < q)
    (hm : b.modifyOrder mem id q = .ok (mem', b')) : WellFormed mem' b' := by
  cases hid : b.orderMap.lookup id with
  | none => simp [OrderBook.modifyOrder, hid] at hm
  | some r =>
    have hi := h.toIndexed.modifyOrder hm
    rw [h.modifyOrder_eq hid, Except.ok.injEq, Prod.mk.injEq] at hm
    obtain ⟨rfl, rfl⟩ := hm
    have hr : b.Rests r := h.resting id r hid
    have hrests := fun r' => OrderBook.rests_congr (r := r') (h.modifyOrder_queues hid hq)
    refine ⟨hi, fun r' hr' => ?_, fun id' r' hr' => ?_, ?_⟩
    · rw [Memory.modifyQuantity_order]
      dsimp only
      split_ifs
      · exact hq
      · exact h.positive r' ((hrests r').mp hr')
    · exact (hrests r').mpr (h.resting id' r' (by simpa using hr'))
    · refine h.total_alterLevel hr
        (fun r' hne => Memory.modifyQuantity_order_of_ne mem r r' _ hne) fun l hl hrl l' hl' => ?_
      rw [h.resizeLevel_eq hq hl hrl, Option.some.injEq] at hl'
      rw [← hl']

/-- A fresh order under an id that the map does not hold. -/
theorem addOrder (h : WellFormed mem b) (hf : Fresh mem b order)
    (hq : 0 < (mem.order order).quantity)
    (hid : b.orderMap.lookup (mem.order order).id = none) :
    WellFormed mem (b.addOrder mem order) := by
  have hready : Ready mem b order := h.ready hf hid
  refine ⟨h.toIndexed.addOrder hf.allocated hf.notResting hready.stranger, fun r hr => ?_,
    fun id r hr => ?_, fun t l' hl' => ?_⟩
  · rcases OrderBook.rests_of_rests_addOrder hr with hr | rfl
    · exact h.positive r hr
    · exact hq
  · rw [OrderBook.orderMap_addOrder] at hr
    rw [OrderBook.rests_addOrder]
    by_cases heq : id = (mem.order order).id
    · subst heq
      rw [AList.lookup_insert] at hr
      exact Or.inr (Option.some.inj hr).symm
    · rw [AList.lookup_insert_ne heq] at hr
      exact Or.inl (h.resting id r hr)
  · rcases OrderBook.mem_levels_addOrder hl' with hl | ⟨-, l, hl, -, rfl⟩
    · exact h.total t l' hl
    · have htotal : l.totalQuantity = mem.total l.orders := by
        rcases hl with hl | rfl
        · exact h.total t l hl
        · rfl
      simp [OrderBook.appendOrder, htotal, Memory.total]

/-- A new order object put to rest. -/
theorem rest (h : WellFormed mem b) (o : Order) (hq : 0 < o.quantity)
    (hid : b.orderMap.lookup o.id = none) :
    WellFormed (mem.alloc o).1 (b.addOrder (mem.alloc o).1 mem.next) := by
  refine (h.of_alloc o).addOrder (h.fresh o) ?_ ?_
  · simpa using hq
  · rwa [Memory.alloc_order_self]

/-! ## Matching -/

section Matching

variable {feeModel : Option FeeModel} {s t result : Matching}

theorem fillOne (h : WellFormed s.mem s.book) (feeModel : Option FeeModel) (order m : Ref) :
    WellFormed (fillOne feeModel order m s).mem (fillOne feeModel order m s).book :=
  ((h.decreaseOrderQuantity _ _).decreaseOrderQuantity _ _).of_generateTradeId

theorem trading (h : WellFormed s.mem s.book) (ht : Trading feeModel order s t) :
    WellFormed t.mem t.book := by
  induction ht with
  | refl => exact h
  | trade _ _ _ ih => exact ih.fillOne feeModel order _

/-- Writing the quantity of an object that does not rest. -/
theorem of_modifyQuantity (h : WellFormed mem b) (hr : ¬ b.Rests r) :
    WellFormed (mem.modifyQuantity r q) b where
  toIndexed := h.toIndexed.of_extends (.modifyQuantity mem r q)
  positive r' hr' := by
    have hne : r' ≠ r := fun heq => hr (heq ▸ hr')
    rw [Memory.modifyQuantity_order_of_ne mem r r' q hne]
    exact h.positive r' hr'
  resting := h.resting
  total s l hl := by
    rw [h.total s l hl]
    refine (Memory.total_congr fun r' hr' => ?_).symm
    exact Memory.modifyQuantity_order_of_ne mem r r' q fun heq => hr ⟨s, l, hl, heq ▸ hr'⟩

theorem restRemainder (h : WellFormed t.mem t.book) (hf : Fresh t.mem t.book order)
    (hid : t.book.orderMap.lookup (t.mem.order order).id = none) :
    WellFormed (restRemainder order t).mem (restRemainder order t).book := by
  unfold MatchingAlgorithm.restRemainder
  split_ifs with hrem
  · refine (h.of_modifyQuantity hf.notResting).addOrder
      ⟨hf.allocated, hf.unmapped, hf.notResting⟩ ?_ ?_
    · simpa using hrem
    · rwa [Memory.modifyQuantity_order]
  · exact h

/-- Matching a fresh order under an id that the map does not hold keeps a book well formed. -/
theorem processOrder (h : WellFormed mem b) (hf : Fresh mem b order)
    (hid : b.orderMap.lookup (mem.order order).id = none)
    (hr : Returns feeModel mem b order result) : WellFormed result.mem result.book := by
  obtain ⟨fuel, hr⟩ := hr
  obtain ⟨t, htrading, hcases⟩ := processOrder_cases hr
  have ht : WellFormed t.mem t.book := h.trading htrading
  rcases hcases with rfl | ⟨-, rfl, -⟩
  · exact ht
  · have hcons : (start mem b order).Consumes t := htrading.consumes
    refine ht.restRemainder (Fresh.of_consumes (s := start mem b order) hf hcons) ?_
    rw [hcons.untouched hf.unmapped, Option.eq_none_iff_forall_ne_some]
    intro r hr
    have hlook := hcons.book.lookup _ r hr
    rw [start_mem, start_book, hid] at hlook
    cases hlook

end Matching

end WellFormed

/-- A small book: two asks of five lots at one price. -/
def twoAsks : Memory × OrderBook :=
  let mem₁ := (Memory.empty.alloc ⟨"a", "S", .sell, .limit, 100, 5⟩).1
  let b₁ := (OrderBook.empty "S").addOrder mem₁ 0
  let mem₂ := (mem₁.alloc ⟨"b", "S", .sell, .limit, 100, 5⟩).1
  (mem₂, b₁.addOrder mem₂ 1)

theorem wellFormed_twoAsks : WellFormed twoAsks.1 twoAsks.2 :=
  ((WellFormed.empty Memory.empty "S").rest _ (by decide) rfl).rest _ (by decide) rfl

end GoQuant
