import GoQuant.Book.Indexed
import GoQuant.Book.Renaming
import GoQuant.Lib.Tally
import Mathlib.Tactic.Linarith

/-!
# Books under other orders

A book to which orders were added, whose own orders kept their places while quantities
changed. The running totals of its levels change with the quantities. When the added orders
are gone and the quantities are what they were, the book holds what it held.

## Main definitions

* `Overlays` — `b` is `b₁` with orders built later, and with other quantities.

## Main results

* `Overlays.addOrder`, `Overlays.cancelOrder`, `Overlays.modifyOrder` — an operation on an
  added order, or on the quantity of any.
* `Overlays.sameContents` — when the added orders are gone.
-/

namespace GoQuant

variable {mem₁ mem mem' : Memory} {b₁ b b' : OrderBook} {r : Ref} {id orderId : String} {s : Side}
  {p q : ℚ}

/-- What the order behind an id counts for at a level. -/
def OrderBook.held (mem : Memory) (b : OrderBook) (s : Side) (p : ℚ) (id : String) : ℚ :=
  match b.orderMap.lookup id with
  | none => 0
  | some r =>
    if (mem.order r).side = s ∧ (mem.order r).price = p then (mem.order r).quantity else 0

theorem OrderBook.held_of_lookup (h : b.orderMap.lookup id = some r) :
    b.held mem s p id =
      if (mem.order r).side = s ∧ (mem.order r).price = p then (mem.order r).quantity else 0 := by
  simp [held, h]

theorem OrderBook.held_of_none (h : b.orderMap.lookup id = none) : b.held mem s p id = 0 := by
  simp [held, h]

theorem OrderBook.held_congr (hid : b'.orderMap.lookup id = b.orderMap.lookup id)
    (horder : ∀ r, b.orderMap.lookup id = some r → mem'.order r = mem.order r) :
    b'.held mem' s p id = b.held mem s p id := by
  unfold held
  rw [hid]
  cases h : b.orderMap.lookup id with
  | none => rfl
  | some r => simp only [horder r h]

/-- A level after the one at a price was rewritten. -/
theorem OrderBook.mem_alterLevel {t : Side} {l : PriceLevel} (hl : l ∈ b.levels t)
    {f : PriceLevel → Option PriceLevel} (g : PriceLevel → PriceLevel)
    (hf : s = t → p = l.price → f l = some (g l)) :
    (if s = t ∧ p = l.price then g l else l) ∈ (b.alterLevel s p f).levels t := by
  by_cases ht : s = t
  · subst ht
    rw [levels_alterLevel_self, Keyed.mem_alter]
    split_ifs with h
    · exact Or.inl ⟨l, hl, h.2.symm, hf rfl h.2⟩
    · exact Or.inr ⟨hl, fun hp => h ⟨rfl, hp.symm⟩⟩
  · rwa [if_neg (fun h => ht h.1), levels_alterLevel_of_ne _ _ _ (Ne.symm ht)]

/-- The book `b` has the orders of `b₁` in their places, and orders built after them. Each
level of `b₁` is still there, and its total has changed with the quantities. -/
structure Overlays (mem₁ : Memory) (b₁ : OrderBook) (mem : Memory) (b : OrderBook) : Prop where
  queues : ∀ s, Ladder.retain (fun r => decide (r < mem₁.next)) (b.queues s) = b₁.queues s
  lookup : ∀ id r, b₁.orderMap.lookup id = some r → b.orderMap.lookup id = some r
  added : ∀ id r, b.orderMap.lookup id = some r → b₁.hasOrder id = false → mem₁.next ≤ r
  totals : ∀ s, ∀ l₁ ∈ b₁.levels s, ∃ l ∈ b.levels s, l.price = l₁.price ∧
    Tally l₁.totalQuantity (b₁.held mem₁ s l₁.price) l.totalQuantity (b.held mem s l₁.price)

namespace Overlays

theorem refl (h : Sane mem b) : Overlays mem b mem b where
  queues s := Ladder.retain_eq_self h.items_ne_nil fun r hr =>
    decide_eq_true (h.restsAllocated r (OrderBook.rests_iff.mpr ⟨s, hr⟩))
  lookup _ _ hid := hid
  added id r hid hnone := by
    rw [OrderBook.hasOrder, hid] at hnone
    cases hnone
  totals s l hl := ⟨l, hl, rfl, .refl _ _⟩

/-- Memory changes away from the orders the book knows. -/
theorem of_order (h : Overlays mem₁ b₁ mem b)
    (horder : ∀ id r, b.orderMap.lookup id = some r → mem'.order r = mem.order r) :
    Overlays mem₁ b₁ mem' b where
  queues := h.queues
  lookup := h.lookup
  added := h.added
  totals s l₁ hl₁ := by
    obtain ⟨l, hl, hprice, htally⟩ := h.totals s l₁ hl₁
    exact ⟨l, hl, hprice, htally.congr fun id => OrderBook.held_congr rfl (horder id)⟩

theorem hasOrder (h : Overlays mem₁ b₁ mem b) (hid : b₁.hasOrder id = true) :
    b.hasOrder id = true := by
  obtain ⟨r, hr⟩ := Option.isSome_iff_exists.mp hid
  exact Option.isSome_iff_exists.mpr ⟨r, h.lookup id r hr⟩

/-- An order of the old book rests where it rested. -/
theorem rests (h : Overlays mem₁ b₁ mem b) (hr : b₁.Rests r) : b.Rests r := by
  obtain ⟨s, hs⟩ := OrderBook.rests_iff.mp hr
  rw [← h.queues s, Ladder.items_retain] at hs
  exact OrderBook.rests_iff.mpr ⟨s, List.mem_of_mem_filter hs⟩

/-! ## An order is added -/

theorem addOrder (h : Overlays mem₁ b₁ mem b) (hnew : mem₁.next ≤ r)
    (hid : b.hasOrder (mem.order r).id = false) : Overlays mem₁ b₁ mem (b.addOrder mem r) where
  queues s := by
    by_cases hside : s = (mem.order r).side
    · subst hside
      rw [OrderBook.queues_addOrder_self, Ladder.retain_push (by simpa using hnew)]
      exact h.queues _
    · rw [OrderBook.queues_addOrder_of_ne hside]
      exact h.queues s
  lookup id r' hr' := by
    have hne : id ≠ (mem.order r).id := by
      rintro rfl
      have hold := h.hasOrder (Option.isSome_iff_exists.mpr ⟨r', hr'⟩)
      rw [hid] at hold
      cases hold
    rw [OrderBook.orderMap_addOrder, AList.lookup_insert_ne hne]
    exact h.lookup id r' hr'
  added id r' hr' hnone := by
    rw [OrderBook.orderMap_addOrder] at hr'
    by_cases heq : id = (mem.order r).id
    · rw [heq, AList.lookup_insert] at hr'
      exact Option.some.inj hr' ▸ hnew
    · rw [AList.lookup_insert_ne heq] at hr'
      exact h.added id r' hr' hnone
  totals s l₁ hl₁ := by
    obtain ⟨l, hl, hprice, htally⟩ := h.totals s l₁ hl₁
    have hnone : b.orderMap.lookup (mem.order r).id = none := by
      simpa [OrderBook.hasOrder] using hid
    have hself : (b.addOrder mem r).orderMap.lookup (mem.order r).id = some r := by
      rw [OrderBook.orderMap_addOrder, AList.lookup_insert]
    have hmem : l ∈ (b.setLevels (mem.order r).side (Keyed.emplace PriceLevel.price
        (mem.order r).side.ahead ⟨(mem.order r).price, [], 0⟩ (b.levels (mem.order r).side))).levels
          s := by
      by_cases hside : s = (mem.order r).side
      · subst hside
        rw [OrderBook.levels_setLevels_self]
        exact Keyed.mem_emplace_of_mem hl
      · rwa [OrderBook.levels_setLevels_of_ne _ _ hside]
    have hlevel : (if (mem.order r).side = s ∧ (mem.order r).price = l.price then
        OrderBook.appendOrder r (mem.order r).quantity l else l) ∈ (b.addOrder mem r).levels s := by
      rw [OrderBook.addOrder, OrderBook.levels_setOrderMap]
      exact OrderBook.mem_alterLevel hmem _ fun _ _ => rfl
    refine ⟨_, hlevel, ?_, htally.change (mem.order r).id (fun id hne => ?_) ?_⟩
    · split_ifs <;> exact hprice
    · exact OrderBook.held_congr (by rw [OrderBook.orderMap_addOrder, AList.lookup_insert_ne hne])
        fun _ _ => rfl
    · rw [OrderBook.held_of_lookup hself, OrderBook.held_of_none hnone, hprice]
      split_ifs <;> simp [OrderBook.appendOrder]

/-! ## An added order is cancelled -/

/-- A level of the old book still has orders of the old book. -/
theorem exists_old (h : Overlays mem₁ b₁ mem b) (hext : mem₁.Extends mem) (hs₁ : Sane mem₁ b₁)
    (hs : Sane mem b) {l₁ l : PriceLevel} (hl₁ : l₁ ∈ b₁.levels s) (hl : l ∈ b.levels s)
    (hprice : l.price = l₁.price) : ∃ r ∈ l.orders, r < mem₁.next := by
  obtain ⟨r, hr⟩ := List.exists_mem_of_ne_nil _ (hs₁.nonempty s l₁ hl₁)
  have hrests : b₁.Rests r := ⟨s, l₁, hl₁, hr⟩
  have hlt := hs₁.restsAllocated r hrests
  obtain ⟨hside, hp⟩ := hs₁.placed s l₁ hl₁ r hr
  obtain ⟨l', hl', hp', hr'⟩ := hs.level_of_rests (h.rests hrests)
  rw [hext.side_eq hlt, hside] at hl'
  rw [hext.price_eq hlt, hp] at hp'
  obtain rfl := (hs.sorted s).eq_of_key hl hl' (hprice.trans hp'.symm)
  exact ⟨r, hr', hlt⟩

theorem cancelOrder (h : Overlays mem₁ b₁ mem b) (hext : mem₁.Extends mem) (hs₁ : Sane mem₁ b₁)
    (hi : Indexed mem b) (hid : b₁.hasOrder orderId = false) :
    Overlays mem₁ b₁ mem (b.cancelOrder mem orderId).2 := by
  cases hlookup : b.orderMap.lookup orderId with
  | none => simpa [OrderBook.cancelOrder, hlookup] using h
  | some r =>
    have hnew := h.added orderId r hlookup hid
    have hmap := @Indexed.cancelOrder_orderMap mem b r orderId hlookup
    refine ⟨fun s => ?_, fun id r' hr' => ?_, fun id r' hr' hnone => ?_, fun s l₁ hl₁ => ?_⟩
    · rw [hi.cancelOrder_queues hlookup, Ladder.retain_retain, ← h.queues s]
      refine Ladder.retain_congr fun r' _ => ?_
      by_cases hlt : r' < mem₁.next
      · simp [hlt, (hlt.trans_le hnew).ne]
      · simp [hlt]
    · have hne : id ≠ orderId := by
        rintro rfl
        rw [OrderBook.hasOrder, hr'] at hid
        cases hid
      rw [hmap, AList.lookup_erase_ne hne]
      exact h.lookup id r' hr'
    · rw [hmap] at hr'
      by_cases hne : id = orderId
      · rw [hne, AList.lookup_erase] at hr'
        cases hr'
      · rw [AList.lookup_erase_ne hne] at hr'
        exact h.added id r' hr' hnone
    · obtain ⟨l, hl, hprice, htally⟩ := h.totals s l₁ hl₁
      obtain ⟨old, hold, hlt⟩ := h.exists_old hext hs₁ hi.toSane hl₁ hl hprice
      have hself : (b.cancelOrder mem orderId).2.orderMap.lookup orderId = none := by
        rw [hmap, AList.lookup_erase]
      have hstays : OrderBook.removeId mem orderId l.orders ≠ [] := by
        rw [hi.removeId_eq hlookup hl]
        refine List.ne_nil_of_mem (List.mem_filter.mpr ⟨hold, ?_⟩)
        exact decide_eq_true (hlt.trans_le hnew).ne
      have hlevel := @OrderBook.mem_alterLevel b (mem.order r).side (mem.order r).price s l hl
        (OrderBook.cancelLevel mem orderId (mem.order r).quantity) (fun l => { l with
          totalQuantity := l.totalQuantity - (mem.order r).quantity
          orders := OrderBook.removeId mem orderId l.orders })
        fun _ _ => by simp only [OrderBook.cancelLevel, OrderBook.eraseEmpty, if_neg hstays]
      have hbook : (b.cancelOrder mem orderId).2.levels s =
          (b.alterLevel (mem.order r).side (mem.order r).price
            (OrderBook.cancelLevel mem orderId (mem.order r).quantity)).levels s := by
        simp only [OrderBook.cancelOrder, hlookup, OrderBook.levels_setOrderMap]
      refine ⟨_, hbook ▸ hlevel, ?_, htally.change orderId (fun id hne => ?_) ?_⟩
      · split_ifs <;> exact hprice
      · exact OrderBook.held_congr (by rw [hmap, AList.lookup_erase_ne hne]) fun _ _ => rfl
      · rw [OrderBook.held_of_none hself, OrderBook.held_of_lookup hlookup, hprice]
        split_ifs <;> simp [sub_eq_add_neg]

/-! ## A quantity is changed -/

/-- A change of a quantity that does not erase the level of the order. -/
theorem modifyOrder (h : Overlays mem₁ b₁ mem b) (hs : Sane mem b)
    (hpositive : ∀ r, b.orderMap.lookup orderId = some r → ∀ l ∈ b.levels (mem.order r).side,
      l.price = (mem.order r).price → 0 < l.totalQuantity - (mem.order r).quantity + q)
    (hm : b.modifyOrder mem orderId q = .ok (mem', b')) : Overlays mem₁ b₁ mem' b' := by
  unfold OrderBook.modifyOrder at hm
  cases hlookup : b.orderMap.lookup orderId with
  | none => simp [hlookup] at hm
  | some r =>
    simp only [hlookup] at hm
    split at hm
    · obtain ⟨rfl, rfl⟩ := Prod.mk.inj (Except.ok.inj hm)
      exact h
    · obtain ⟨rfl, rfl⟩ := Prod.mk.inj (Except.ok.inj hm)
      have hresize : ∀ l ∈ b.levels (mem.order r).side, l.price = (mem.order r).price →
          OrderBook.resizeLevel (mem.order r).quantity q l =
            some { l with totalQuantity := l.totalQuantity - (mem.order r).quantity + q } :=
        fun l hl hp => by
          simp only [OrderBook.resizeLevel, if_neg (not_le.mpr (hpositive r hlookup l hl hp))]
      refine ⟨fun s => ?_, fun id r' hr' => ?_, fun id r' hr' hnone => ?_, fun s l₁ hl₁ => ?_⟩
      · rw [hs.queues_alterLevel (fun _ => true) (fun l hl hp => ?_) (fun r' _ hr' => ?_) s,
          Ladder.retain_retain, ← h.queues s]
        · exact Ladder.retain_congr fun _ _ => rfl
        · rw [hresize l hl hp, List.filter_true, Ladder.refill_of_ne (hs.nonempty _ l hl)]
          rfl
        · exact absurd hr' (by decide)
      · rw [OrderBook.orderMap_alterLevel]
        exact h.lookup id r' hr'
      · rw [OrderBook.orderMap_alterLevel] at hr'
        exact h.added id r' hr' hnone
      · obtain ⟨l, hl, hprice, htally⟩ := h.totals s l₁ hl₁
        have hlevel := @OrderBook.mem_alterLevel b (mem.order r).side (mem.order r).price s l hl
          (OrderBook.resizeLevel (mem.order r).quantity q) (fun l => { l with
            totalQuantity := l.totalQuantity - (mem.order r).quantity + q })
          fun hside hp => hresize l (hside ▸ hl) hp.symm
        refine ⟨_, hlevel, ?_, htally.change orderId (fun id hne => ?_) ?_⟩
        · split_ifs <;> exact hprice
        · refine OrderBook.held_congr (by rw [OrderBook.orderMap_alterLevel]) fun r' hr' =>
            Memory.modifyQuantity_order_of_ne _ _ _ _ ?_
          rintro rfl
          exact hne ((hs.named id r' hr').symm.trans (hs.named orderId r' hlookup))
        · rw [OrderBook.held_of_lookup ((congrArg (AList.lookup orderId)
            (OrderBook.orderMap_alterLevel ..)).trans hlookup), OrderBook.held_of_lookup hlookup,
            hprice, Memory.modifyQuantity_order, if_pos rfl]
          dsimp only
          split_ifs <;> linarith

/-! ## The added orders are gone -/

theorem sameContents (h : Overlays mem₁ b₁ mem b) (hext : mem₁.Extends mem)
    (hi₁ : Indexed mem₁ b₁) (hi : Indexed mem b)
    (hknown : ∀ id, b.hasOrder id = true → b₁.hasOrder id = true)
    (hquantity : ∀ id r, b₁.orderMap.lookup id = some r →
      (mem.order r).quantity = (mem₁.order r).quantity) : SameContents mem₁ b₁ mem b := by
  have hlookup : ∀ id, b.orderMap.lookup id = b₁.orderMap.lookup id := by
    intro id
    cases hid : b₁.orderMap.lookup id with
    | some r => exact h.lookup id r hid
    | none =>
      by_contra hsome
      have hb := hknown id (Option.isSome_iff_ne_none.mpr hsome)
      rw [OrderBook.hasOrder, hid] at hb
      cases hb
  have horder : ∀ id r, b₁.orderMap.lookup id = some r → mem.order r = mem₁.order r := by
    intro id r hid
    obtain ⟨q, hq⟩ := hext.2 r (hi₁.mapAllocated id r hid)
    have hsame := hquantity id r hid
    rw [hq] at hsame ⊢
    obtain rfl : q = (mem₁.order r).quantity := hsame
    rfl
  have hfound : ∀ r, b.Rests r → b₁.orderMap.lookup (mem.order r).id = some r := fun r hr =>
    (hlookup _).symm.trans (hi.found r hr)
  have hqueues : ∀ s, b.queues s = b₁.queues s := by
    intro s
    rw [← h.queues s, Ladder.retain_eq_self hi.items_ne_nil]
    intro r hr
    have hrests : b.Rests r := OrderBook.rests_iff.mpr ⟨s, hr⟩
    exact decide_eq_true (hi₁.mapAllocated _ r (hfound r hrests))
  have hheld : ∀ s p id, b.held mem s p id = b₁.held mem₁ s p id := fun s p id =>
    OrderBook.held_congr (hlookup id) (horder id)
  refine ⟨fun s => ?_, fun id => ?_⟩
  · have hlength : (b.levels s).length = (b₁.levels s).length := by
      simpa [OrderBook.queues] using congrArg List.length (hqueues s)
    refine List.ext_getElem (by simpa using hlength) fun i hi' hi₁' => ?_
    simp only [List.length_map] at hi' hi₁'
    rw [List.getElem_map, List.getElem_map]
    have hl₁ := List.getElem_mem hi₁'
    have htier : (b.levels s)[i].tier = (b₁.levels s)[i].tier := by
      have hget := List.getElem_of_eq (hqueues s) (by simpa [OrderBook.queues] using hi')
      simpa [OrderBook.queues] using hget
    obtain ⟨l, hl, hprice, htally⟩ := h.totals s _ hl₁
    obtain rfl := (hi.sorted s).eq_of_key hl (List.getElem_mem hi')
      (hprice.trans (congrArg Tier.key htier).symm)
    have htotal := htally.total_eq (hheld s _)
    have horders : (b.levels s)[i].orders = (b₁.levels s)[i].orders := congrArg Tier.items htier
    have hrefs : (b₁.levels s)[i].orders.map mem.order = (b₁.levels s)[i].orders.map mem₁.order :=
      List.map_congr_left fun r hr => horder _ r (hi₁.found r ⟨s, _, hl₁, hr⟩)
    rw [PriceLevel.contents, PriceLevel.contents, hprice, horders, hrefs, htotal]
  · rw [hlookup id]
    cases hid : b₁.orderMap.lookup id with
    | none => rfl
    | some r => exact congrArg some (horder id r hid)

end Overlays

end GoQuant
