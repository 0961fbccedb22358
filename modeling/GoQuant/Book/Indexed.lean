import GoQuant.Book.Matching
import GoQuant.Lib.Ladder

/-!
# Books whose resting orders are found by id

As long as no order is added under the id of a resting one, every resting order is the one
its own id leads to. In such a book the operations, which all go through an id, act on one
order object: the queues of both sides are those from before, without that object if it
leaves.

## Main definitions

* `OrderBook.queues` — the order objects of one side, as a ladder.
* `Indexed` — every resting order is found through its id.
* `NonNeg` — no resting order has a negative quantity.

## Main results

* `Indexed.cancelOrder_queues`, `Indexed.decrease_gone`, `Sane.decrease_stays` — what an
  operation does to the queues.
* one lemma per operation that it keeps `Indexed`, and one that it keeps `NonNeg`.
-/

namespace GoQuant

/-- A price level without its running total. -/
def PriceLevel.tier (l : PriceLevel) : Tier ℚ Ref := ⟨l.price, l.orders⟩

/-- The order objects of one side, best price first and by arrival. -/
def OrderBook.queues (b : OrderBook) (s : Side) : List (Tier ℚ Ref) :=
  (b.levels s).map PriceLevel.tier

namespace OrderBook

variable {mem : Memory} {b b' : OrderBook} {r : Ref} {s t : Side}

@[simp] theorem queues_setOrderMap (b : OrderBook) (m : AList fun _ : String => Ref) (s : Side) :
    (b.setOrderMap m).queues s = b.queues s := by
  simp [queues]

theorem items_queues (b : OrderBook) (s : Side) :
    Ladder.items (b.queues s) = (b.levels s).flatMap PriceLevel.orders := by
  simp [Ladder.items, queues, List.flatMap_map, PriceLevel.tier]

theorem mem_items_queues : r ∈ Ladder.items (b.queues s) ↔ ∃ l ∈ b.levels s, r ∈ l.orders := by
  rw [items_queues, List.mem_flatMap]

theorem rests_iff : b.Rests r ↔ ∃ s, r ∈ Ladder.items (b.queues s) := by
  simp [Rests, mem_items_queues]

/-- The order objects that can be matched, bids first. -/
def resting (b : OrderBook) : List Ref :=
  Ladder.items (b.queues .buy) ++ Ladder.items (b.queues .sell)

theorem mem_resting {r : Ref} : r ∈ b.resting ↔ b.Rests r := by
  rw [resting, List.mem_append, rests_iff]
  constructor
  · rintro (hr | hr)
    · exact ⟨_, hr⟩
    · exact ⟨_, hr⟩
  · rintro ⟨s, hr⟩
    cases s
    · exact Or.inl hr
    · exact Or.inr hr

instance (b : OrderBook) (r : Ref) : Decidable (b.Rests r) :=
  decidable_of_iff _ mem_resting

/-- The orders in reach are a prefix of the other side's ladder. -/
theorem reachRefs_eq_reach (incoming : Order) :
    b.reachRefs incoming =
      Ladder.reach (within incoming) (b.queues incoming.side.opposite) := by
  simp only [reachRefs, Ladder.reach, Ladder.items, queues, List.takeWhile_map,
    List.flatMap_map]
  rfl

theorem rests_of_queues {p : Ref → Bool}
    (hq : ∀ t, b'.queues t = Ladder.retain p (b.queues t)) :
    b'.Rests r ↔ b.Rests r ∧ p r = true := by
  simp [rests_iff, hq, Ladder.items_retain]

/-- The order arrives at the tail of the queue at its price. -/
theorem queues_addOrder_self :
    (b.addOrder mem r).queues (mem.order r).side =
      Ladder.push (mem.order r).side.ahead (mem.order r).price r
        (b.queues (mem.order r).side) := by
  have hkey : ∀ l : PriceLevel, l.tier.key = l.price := fun _ => rfl
  simp only [addOrder, queues_setOrderMap]
  rw [queues, levels_alterLevel_self, levels_setLevels_self, Ladder.push,
    Keyed.map_alter PriceLevel.tier hkey
      (fun t : Tier ℚ Ref => some { t with items := t.items ++ [r] }),
    Keyed.map_emplace PriceLevel.tier hkey]
  · rfl
  · intro l _ _
    rfl

theorem queues_addOrder_of_ne (h : t ≠ (mem.order r).side) :
    (b.addOrder mem r).queues t = b.queues t := by
  simp only [addOrder, queues_setOrderMap]
  rw [queues, levels_alterLevel_of_ne _ _ _ h, levels_setLevels_of_ne _ _ h, queues]

theorem rests_addOrder {r' : Ref} : (b.addOrder mem r).Rests r' ↔ b.Rests r' ∨ r' = r := by
  refine ⟨rests_of_rests_addOrder, ?_⟩
  rintro (hr' | rfl)
  · obtain ⟨t, ht⟩ := rests_iff.mp hr'
    refine rests_iff.mpr ⟨t, ?_⟩
    by_cases hside : t = (mem.order r).side
    · subst hside
      rw [queues_addOrder_self, Ladder.mem_items_push]
      exact Or.inl ht
    · rwa [queues_addOrder_of_ne hside]
  · refine rests_iff.mpr ⟨(mem.order r').side, ?_⟩
    rw [queues_addOrder_self, Ladder.mem_items_push]
    exact Or.inr rfl

theorem rests_congr (hq : ∀ t, b'.queues t = b.queues t) : b'.Rests r ↔ b.Rests r := by
  simp [rests_iff, hq]

end OrderBook

namespace Sane

variable {mem : Memory} {b : OrderBook} {r : Ref} {s t : Side}

theorem items_ne_nil (h : Sane mem b) : ∀ u ∈ b.queues s, u.items ≠ [] := by
  intro u hu
  obtain ⟨l, hl, rfl⟩ := List.mem_map.mp hu
  exact h.nonempty s l hl

theorem side_of_mem (h : Sane mem b) (hr : r ∈ Ladder.items (b.queues s)) :
    (mem.order r).side = s := by
  obtain ⟨l, hl, hrl⟩ := OrderBook.mem_items_queues.mp hr
  exact (h.placed s l hl r hrl).1

/-- A rewrite of one level drops orders of that level only. -/
theorem queues_alterLevel (h : Sane mem b) {p : ℚ} {f : PriceLevel → Option PriceLevel}
    (keep : Ref → Bool)
    (hf : ∀ l ∈ b.levels s, l.price = p → (f l).map PriceLevel.tier =
      Ladder.refill l.tier (l.orders.filter keep))
    (hkeep : ∀ r, b.Rests r → keep r = false →
      (mem.order r).side = s ∧ (mem.order r).price = p) (t : Side) :
    (b.alterLevel s p f).queues t = Ladder.retain keep (b.queues t) := by
  have hall : ∀ l ∈ b.levels t, (t = s → l.price ≠ p) → l.orders.filter keep = l.orders := by
    intro l hl hne
    refine List.filter_eq_self.mpr fun r hr => ?_
    by_contra hdrop
    obtain ⟨hside, hprice⟩ := hkeep r ⟨t, l, hl, hr⟩ (by simpa using hdrop)
    obtain ⟨hside', hprice'⟩ := h.placed t l hl r hr
    exact hne (hside'.symm.trans hside) (hprice'.symm.trans hprice)
  have hsame : ∀ l ∈ b.levels t, (t = s → l.price ≠ p) →
      some l.tier = Ladder.refill l.tier (l.orders.filter keep) := by
    intro l hl hne
    rw [hall l hl hne, Ladder.refill_of_ne (h.nonempty t l hl)]
    rfl
  have hretain : Ladder.retain keep (b.queues t) =
      (b.levels t).filterMap fun l => Ladder.refill l.tier (l.orders.filter keep) := by
    simp only [Ladder.retain, Ladder.update, OrderBook.queues, List.filterMap_map,
      List.filterMap_eq_filter]
    rfl
  rw [hretain]
  by_cases ht : t = s
  · subst ht
    rw [OrderBook.queues, OrderBook.levels_alterLevel_self, Keyed.alter, List.map_filterMap]
    refine List.filterMap_congr fun l hl => ?_
    split_ifs with hp
    · exact hf l hl hp
    · exact hsame l hl fun _ => hp
  · rw [OrderBook.queues, OrderBook.levels_alterLevel_of_ne _ _ _ ht, ← List.filterMap_eq_map]
    exact List.filterMap_congr fun l hl => hsame l hl fun heq => absurd heq ht

/-- An order decreased to something keeps its place. -/
theorem decrease_stays (h : Sane mem b) {id : String} {a : ℚ} (hid : b.orderMap.lookup id = some r)
    (ha : a < (mem.order r).quantity) :
    (b.decreaseOrderQuantity mem id a).2.1 =
        mem.modifyQuantity r ((mem.order r).quantity - a) ∧
      (b.decreaseOrderQuantity mem id a).2.2.orderMap = b.orderMap ∧
      ∀ t, (b.decreaseOrderQuantity mem id a).2.2.queues t = b.queues t := by
  have hnew : OrderBook.decreased (mem.order r).quantity a = (mem.order r).quantity - a := by
    unfold OrderBook.decreased
    split_ifs <;> linarith
  have hpos : ¬ (mem.order r).quantity - a ≤ 0 := by linarith
  simp only [OrderBook.decreaseOrderQuantity, hid, hnew, if_neg hpos,
    OrderBook.orderMap_alterLevel, true_and]
  intro t
  rw [h.queues_alterLevel (fun _ => true) (fun l hl _ => ?_) (fun r' _ hr' => ?_) t]
  · exact Ladder.retain_eq_self h.items_ne_nil fun _ _ => rfl
  · simp only [OrderBook.decreaseLevel, if_neg hpos, List.filter_true, OrderBook.eraseEmpty,
      if_neg (h.nonempty _ l hl), Ladder.refill_of_ne (h.nonempty _ l hl)]
    rfl
  · exact absurd hr' (by decide)

end Sane

/-- Every resting order is the one its id leads to. -/
structure Indexed (mem : Memory) (b : OrderBook) : Prop extends Sane mem b where
  found : ∀ r, b.Rests r → b.orderMap.lookup (mem.order r).id = some r

/-- No resting order has a negative quantity. -/
def NonNeg (mem : Memory) (b : OrderBook) : Prop := ∀ r, b.Rests r → 0 ≤ (mem.order r).quantity

namespace Indexed

variable {mem mem' : Memory} {b b' : OrderBook} {r r' : Ref} {s : Side} {id : String} {a : ℚ}

theorem empty (mem : Memory) (symbol : String) : Indexed mem (OrderBook.empty symbol) :=
  ⟨.empty mem symbol, fun r hr => absurd hr (OrderBook.not_rests_empty symbol r)⟩

theorem of_extends (h : Indexed mem b) (hext : mem.Extends mem') : Indexed mem' b := by
  refine ⟨h.toSane.of_extends hext, fun r hr => ?_⟩
  rw [hext.id_eq (h.restsAllocated r hr)]
  exact h.found r hr

theorem eq_of_id (h : Indexed mem b) (hr : b.Rests r) (hid : b.orderMap.lookup id = some r')
    (heq : (mem.order r).id = id) : r = r' := by
  have hfound := h.found r hr
  rw [heq, hid] at hfound
  exact (Option.some.inj hfound).symm

/-- `remove_if` on an id removes the one object behind it. -/
theorem removeId_eq (h : Indexed mem b) (hid : b.orderMap.lookup id = some r) {l : PriceLevel}
    (hl : l ∈ b.levels s) :
    OrderBook.removeId mem id l.orders = l.orders.filter fun r' => decide (r' ≠ r) := by
  refine List.filter_congr fun r' hr' => ?_
  have hiff : (mem.order r').id = id ↔ r' = r :=
    ⟨h.eq_of_id ⟨s, l, hl, hr'⟩ hid, fun heq => heq ▸ h.named id r hid⟩
  simp [hiff]

/-- A level without the object behind an id, erased when that empties it. -/
theorem eraseEmpty_removeId (h : Indexed mem b) (hid : b.orderMap.lookup id = some r)
    {l : PriceLevel} (hl : l ∈ b.levels s) (total : ℚ) :
    (OrderBook.eraseEmpty ⟨l.price, OrderBook.removeId mem id l.orders, total⟩).map
        PriceLevel.tier =
      Ladder.refill l.tier (l.orders.filter fun r' => decide (r' ≠ r)) := by
  rw [h.removeId_eq hid hl]
  unfold OrderBook.eraseEmpty
  cases l.orders.filter fun r' => decide (r' ≠ r) <;> rfl

theorem cancelOrder_queues (h : Indexed mem b) (hid : b.orderMap.lookup id = some r) (t : Side) :
    (b.cancelOrder mem id).2.queues t =
      Ladder.retain (fun r' => decide (r' ≠ r)) (b.queues t) := by
  simp only [OrderBook.cancelOrder, hid, OrderBook.queues_setOrderMap]
  refine h.queues_alterLevel _ (fun l hl _ => h.eraseEmpty_removeId hid hl _) (fun r' _ hr' => ?_) t
  obtain rfl : r' = r := by simpa using hr'
  exact ⟨rfl, rfl⟩

theorem cancelOrder_orderMap (hid : b.orderMap.lookup id = some r) :
    (b.cancelOrder mem id).2.orderMap = b.orderMap.erase id := by
  simp [OrderBook.cancelOrder, hid]

/-- An order decreased to nothing leaves. -/
theorem decrease_gone (h : Indexed mem b) (hid : b.orderMap.lookup id = some r)
    (ha : (mem.order r).quantity ≤ a) :
    (b.decreaseOrderQuantity mem id a).2.1 = mem ∧
      (b.decreaseOrderQuantity mem id a).2.2.orderMap = b.orderMap.erase id ∧
      ∀ t, (b.decreaseOrderQuantity mem id a).2.2.queues t =
        Ladder.retain (fun r' => decide (r' ≠ r)) (b.queues t) := by
  have hnew : OrderBook.decreased (mem.order r).quantity a ≤ 0 := by
    unfold OrderBook.decreased
    split_ifs <;> linarith
  simp only [OrderBook.decreaseOrderQuantity, hid, if_pos hnew, OrderBook.queues_setOrderMap,
    OrderBook.orderMap_setOrderMap, OrderBook.orderMap_alterLevel, true_and]
  refine fun t => h.queues_alterLevel _ (fun l hl _ => ?_) (fun r' _ hr' => ?_) t
  · simp only [OrderBook.decreaseLevel, if_pos hnew]
    exact h.eraseEmpty_removeId hid hl _
  · obtain rfl : r' = r := by simpa using hr'
    exact ⟨rfl, rfl⟩

/-- Taking out the object behind an id, in the queues and in the map. -/
theorem of_removed (h : Indexed mem b) (hid : b.orderMap.lookup id = some r)
    (hs : Sane mem b') (hmap : b'.orderMap = b.orderMap.erase id)
    (hq : ∀ t, b'.queues t = Ladder.retain (fun r' => decide (r' ≠ r)) (b.queues t)) :
    Indexed mem b' := by
  refine ⟨hs, fun r' hr' => ?_⟩
  obtain ⟨hrests, hne⟩ := (OrderBook.rests_of_queues hq).mp hr'
  have hidne : (mem.order r').id ≠ id := by
    intro heq
    exact (of_decide_eq_true hne) (h.eq_of_id hrests hid heq)
  rw [hmap, AList.lookup_erase_ne hidne]
  exact h.found r' hrests

theorem cancelOrder (h : Indexed mem b) (id : String) : Indexed mem (b.cancelOrder mem id).2 := by
  cases hid : b.orderMap.lookup id with
  | none => simpa [OrderBook.cancelOrder, hid] using h
  | some r =>
    exact h.of_removed hid (h.toSane.cancelOrder id) (cancelOrder_orderMap hid)
      (h.cancelOrder_queues hid)

theorem decreaseOrderQuantity (h : Indexed mem b) (id : String) (a : ℚ) :
    Indexed (b.decreaseOrderQuantity mem id a).2.1 (b.decreaseOrderQuantity mem id a).2.2 := by
  cases hid : b.orderMap.lookup id with
  | none => simpa [OrderBook.decreaseOrderQuantity, hid] using h
  | some r =>
    have hs := h.toSane.decreaseOrderQuantity id a
    rcases le_or_gt (mem.order r).quantity a with ha | ha
    · obtain ⟨hmem, hmap, hq⟩ := h.decrease_gone hid ha
      rw [hmem] at hs ⊢
      exact h.of_removed hid hs hmap hq
    · obtain ⟨hmem, hmap, hq⟩ := h.toSane.decrease_stays hid ha
      refine ⟨hs, fun r' hr' => ?_⟩
      rw [hmap, hmem, Memory.modifyQuantity_order]
      exact h.found r' ((OrderBook.rests_congr hq).mp hr')

theorem modifyOrder (h : Indexed mem b) {newQuantity : ℚ}
    (hm : b.modifyOrder mem id newQuantity = .ok (mem', b')) : Indexed mem' b' := by
  have hext := b.modifyOrder_extends mem id newQuantity hm
  have hsh := b.modifyOrder_shrinks mem id newQuantity hm
  have hmap : b'.orderMap = b.orderMap := by
    unfold OrderBook.modifyOrder at hm
    split at hm
    · cases hm
    · dsimp only at hm
      split at hm
      · cases hm; rfl
      · cases hm; simp
  refine ⟨h.toSane.modifyOrder hm, fun r hr => ?_⟩
  rw [hext.id_eq (h.restsAllocated r (hsh.rests hr)), hmap]
  exact h.found r (hsh.rests hr)

/-- A fresh order whose id no resting order has. -/
theorem addOrder (h : Indexed mem b) (hlt : r < mem.next) (hnew : ¬ b.Rests r)
    (hid : ∀ r', b.Rests r' → (mem.order r').id ≠ (mem.order r).id) :
    Indexed mem (b.addOrder mem r) := by
  refine ⟨h.toSane.addOrder hlt hnew, fun r' hr' => ?_⟩
  rw [OrderBook.orderMap_addOrder]
  rcases OrderBook.rests_of_rests_addOrder hr' with hr' | rfl
  · rw [AList.lookup_insert_ne (hid r' hr')]
    exact h.found r' hr'
  · exact AList.lookup_insert _

/-- Matching keeps the map of ids right. -/
theorem trading {feeModel : Option FeeModel} {order : Ref} {s t : Matching}
    (h : MatchingAlgorithm.Trading feeModel order s t) (hi : Indexed s.mem s.book) :
    Indexed t.mem t.book := by
  induction h with
  | refl => exact hi
  | trade _ _ _ ih =>
    exact ((ih.decreaseOrderQuantity _ _).decreaseOrderQuantity _ _).of_extends
      (.generateTradeId _)

/-- An order is matched under an id that the book does not know. -/
theorem returns {feeModel : Option FeeModel} {order : Ref} {result : Matching}
    (h : Indexed mem b) (hf : Fresh mem b order) (hid : b.hasOrder (mem.order order).id = false)
    (hr : MatchingAlgorithm.Returns feeModel mem b order result) :
    Indexed result.mem result.book := by
  obtain ⟨fuel, hr⟩ := hr
  obtain ⟨t, htrading, hcases⟩ := MatchingAlgorithm.processOrder_cases hr
  have hcons : (MatchingAlgorithm.start mem b order).Consumes t := htrading.consumes
  have hfresh : Fresh t.mem t.book order :=
    Fresh.of_consumes (s := MatchingAlgorithm.start mem b order) hf hcons
  have ht : Indexed t.mem t.book := trading htrading h
  rcases hcases with rfl | ⟨-, rfl, -⟩
  · exact ht
  · unfold MatchingAlgorithm.restRemainder
    split_ifs
    · have hext := Memory.Extends.modifyQuantity t.mem order t.remainingQty
      refine (ht.of_extends hext).addOrder hfresh.allocated hfresh.notResting fun r hr => ?_
      rw [hext.id_eq (ht.restsAllocated r hr), hext.id_eq hfresh.allocated]
      intro heq
      have hfound := hcons.book.lookup _ _ (ht.found r hr)
      rw [heq, hcons.untouched hf.unmapped] at hfound
      rw [OrderBook.hasOrder] at hid
      exact Bool.false_ne_true (hid.symm.trans (Option.isSome_iff_exists.mpr ⟨r, hfound⟩))
    · exact ht

end Indexed

namespace NonNeg

variable {mem mem' : Memory} {b b' : OrderBook} {r : Ref}

theorem empty (mem : Memory) (symbol : String) : NonNeg mem (OrderBook.empty symbol) :=
  fun r hr => absurd hr (OrderBook.not_rests_empty symbol r)

theorem of_shrinks (h : NonNeg mem b) (hsh : b.Shrinks b') : NonNeg mem b' :=
  fun r hr => h r (hsh.rests hr)

theorem modifyQuantity (h : NonNeg mem b) {q : ℚ} (hq : 0 ≤ q) :
    NonNeg (mem.modifyQuantity r q) b := by
  intro r' hr'
  rw [Memory.modifyQuantity_order]
  dsimp only
  split_ifs
  · exact hq
  · exact h r' hr'

theorem decreaseOrderQuantity (h : NonNeg mem b) (id : String) (a : ℚ) :
    NonNeg (b.decreaseOrderQuantity mem id a).2.1 (b.decreaseOrderQuantity mem id a).2.2 := by
  have hb : NonNeg mem (b.decreaseOrderQuantity mem id a).2.2 :=
    h.of_shrinks (b.decreaseOrderQuantity_shrinks mem id a)
  revert hb
  unfold OrderBook.decreaseOrderQuantity
  split
  · exact fun hb => hb
  · dsimp only
    split_ifs with hq
    · exact fun hb => hb
    · exact fun hb => hb.modifyQuantity (not_le.mp hq).le

theorem modifyOrder (h : NonNeg mem b) {id : String} {q : ℚ} (hq : 0 ≤ q)
    (hm : b.modifyOrder mem id q = .ok (mem', b')) : NonNeg mem' b' := by
  have hb : NonNeg mem b' := h.of_shrinks (b.modifyOrder_shrinks mem id q hm)
  unfold OrderBook.modifyOrder at hm
  split at hm
  · cases hm
  · dsimp only at hm
    split at hm
    · cases hm; exact hb
    · cases hm; exact hb.modifyQuantity hq

theorem addOrder (h : NonNeg mem b) (hq : 0 ≤ (mem.order r).quantity) :
    NonNeg mem (b.addOrder mem r) := by
  intro r' hr'
  rcases OrderBook.rests_of_rests_addOrder hr' with hr' | rfl
  · exact h r' hr'
  · exact hq

end NonNeg

end GoQuant
