import GoQuant.MatchingAlgorithm

/-!
# What holds of every book

Whatever ids and quantities a book is given, its levels stay sorted and nonempty, every
handle in a level points at an order of that side and price, and the id map sends an id to
an order of that id. `Sane` collects these facts; every operation of `order_book.cpp`
keeps them. They say nothing about quantities, so writing one keeps them too.
-/

namespace GoQuant

namespace OrderBook

/-- An order object rests in a book: some level holds it. -/
def Rests (b : OrderBook) (r : Ref) : Prop := ∃ s, ∃ l ∈ b.levels s, r ∈ l.orders

theorem not_rests_empty (symbol : String) (r : Ref) : ¬ (empty symbol).Rests r := by
  simp [Rests]

@[simp] theorem rests_setOrderMap (b : OrderBook) (m : AList fun _ : String => Ref) (r : Ref) :
    (b.setOrderMap m).Rests r ↔ b.Rests r := by
  simp [Rests]

end OrderBook

/-- A level with the price of another and some of its orders, in the same queue order. -/
def PriceLevel.PartOf (l' l : PriceLevel) : Prop :=
  l'.price = l.price ∧ l'.orders.Sublist l.orders

instance : Std.Refl PriceLevel.PartOf := ⟨fun _ => ⟨rfl, List.Sublist.refl _⟩⟩

instance : IsTrans PriceLevel PriceLevel.PartOf :=
  ⟨fun _ _ _ h h' => ⟨h.1.trans h'.1, h.2.trans h'.2⟩⟩

/-- `b'` is `b` with orders taken out: of the operations all but `addOrder` do this. -/
structure OrderBook.Shrinks (b b' : OrderBook) : Prop where
  levels : ∀ s, List.SublistForall₂ PriceLevel.PartOf (b'.levels s) (b.levels s)
  lookup : ∀ id r, b'.orderMap.lookup id = some r → b.orderMap.lookup id = some r

namespace OrderBook.Shrinks

variable {b b' b'' : OrderBook}

theorem refl (b : OrderBook) : b.Shrinks b := ⟨fun _ => refl_of _ _, fun _ _ h => h⟩

theorem trans (h : b.Shrinks b') (h' : b'.Shrinks b'') : b.Shrinks b'' :=
  ⟨fun s => trans_of _ (h'.levels s) (h.levels s), fun id r hr => h.lookup id r (h'.lookup id r hr)⟩

theorem mem_levels (h : b.Shrinks b') {s : Side} {l' : PriceLevel} (hl' : l' ∈ b'.levels s) :
    ∃ l ∈ b.levels s, l'.PartOf l :=
  Keyed.mem_of_sublistForall₂ (h.levels s) hl'

theorem rests (h : b.Shrinks b') {r : Ref} (hr : b'.Rests r) : b.Rests r := by
  obtain ⟨s, l', hl', hrl⟩ := hr
  obtain ⟨l, hl, -, hsub⟩ := h.mem_levels hl'
  exact ⟨s, l, hl, hsub.subset hrl⟩

theorem alterLevel (b : OrderBook) (s : Side) (p : ℚ) {f : PriceLevel → Option PriceLevel}
    (hf : ∀ l l', f l = some l' → l'.PartOf l) : b.Shrinks (b.alterLevel s p f) := by
  refine ⟨fun t => ?_, by simp⟩
  by_cases ht : t = s
  · subst ht
    rw [levels_alterLevel_self]
    exact Keyed.sublistForall₂_alter hf
  · rw [levels_alterLevel_of_ne _ _ _ ht]
    exact refl_of _ _

theorem erase (b : OrderBook) (id : String) :
    b.Shrinks (b.setOrderMap (b.orderMap.erase id)) := by
  refine ⟨fun t => by simpa using refl_of _ _, fun id' r hr => ?_⟩
  by_cases hid : id' = id
  · subst hid; simp at hr
  · simpa [AList.lookup_erase_ne hid] using hr

end OrderBook.Shrinks

/-- What no operation can break, whatever ids and quantities it is given. -/
structure Sane (mem : Memory) (b : OrderBook) : Prop where
  sorted : ∀ s, Keyed.Sorted PriceLevel.price s.ahead (b.levels s)
  nonempty : ∀ s, ∀ l ∈ b.levels s, l.orders ≠ []
  placed : ∀ s, ∀ l ∈ b.levels s, ∀ r ∈ l.orders,
    (mem.order r).side = s ∧ (mem.order r).price = l.price
  nodup : ∀ s, ∀ l ∈ b.levels s, l.orders.Nodup
  named : ∀ id r, b.orderMap.lookup id = some r → (mem.order r).id = id
  restsAllocated : ∀ r, b.Rests r → r < mem.next
  mapAllocated : ∀ id r, b.orderMap.lookup id = some r → r < mem.next

/-- Two memories that differ at most in quantities on the objects of the first one. -/
def Memory.Extends (mem mem' : Memory) : Prop :=
  mem.next ≤ mem'.next ∧ ∀ r < mem.next, ∃ q, mem'.order r = { mem.order r with quantity := q }

namespace Memory.Extends

variable {mem mem' mem'' : Memory}

theorem refl (mem : Memory) : mem.Extends mem := ⟨le_rfl, fun _ _ => ⟨_, rfl⟩⟩

theorem trans (h : mem.Extends mem') (h' : mem'.Extends mem'') : mem.Extends mem'' := by
  refine ⟨h.1.trans h'.1, fun r hr => ?_⟩
  obtain ⟨q, hq⟩ := h.2 r hr
  obtain ⟨q', hq'⟩ := h'.2 r (hr.trans_le h.1)
  exact ⟨q', by rw [hq', hq]⟩

theorem modifyQuantity (mem : Memory) (r : Ref) (q : ℚ) :
    mem.Extends (mem.modifyQuantity r q) :=
  ⟨le_rfl, fun r' _ => ⟨_, Memory.modifyQuantity_order mem r r' q⟩⟩

theorem alloc (mem : Memory) (o : Order) : mem.Extends (mem.alloc o).1 :=
  ⟨Nat.le_succ _, fun r hr => ⟨_, by rw [Memory.alloc_order_of_lt mem r o hr]⟩⟩

theorem generateTradeId (mem : Memory) : mem.Extends mem.generateTradeId.2 :=
  ⟨le_rfl, fun _ _ => ⟨_, rfl⟩⟩

theorem id_eq (h : mem.Extends mem') {r : Ref} (hr : r < mem.next) :
    (mem'.order r).id = (mem.order r).id := by
  obtain ⟨q, hq⟩ := h.2 r hr
  rw [hq]

theorem side_eq (h : mem.Extends mem') {r : Ref} (hr : r < mem.next) :
    (mem'.order r).side = (mem.order r).side := by
  obtain ⟨q, hq⟩ := h.2 r hr
  rw [hq]

theorem price_eq (h : mem.Extends mem') {r : Ref} (hr : r < mem.next) :
    (mem'.order r).price = (mem.order r).price := by
  obtain ⟨q, hq⟩ := h.2 r hr
  rw [hq]

end Memory.Extends

namespace Sane

variable {mem mem' : Memory} {b b' : OrderBook}

theorem empty (mem : Memory) (symbol : String) : Sane mem (OrderBook.empty symbol) where
  sorted s := by simp [Keyed.Sorted]
  nonempty s := by simp
  placed s := by simp
  nodup s := by simp
  named := by simp [OrderBook.empty]
  restsAllocated r hr := absurd hr (OrderBook.not_rests_empty symbol r)
  mapAllocated := by simp [OrderBook.empty]

/-- Quantities and new objects do not matter. -/
theorem of_extends (h : Sane mem b) (hext : mem.Extends mem') : Sane mem' b where
  sorted := h.sorted
  nonempty := h.nonempty
  placed s l hl r hr := by
    have hlt : r < mem.next := h.restsAllocated r ⟨s, l, hl, hr⟩
    rw [hext.side_eq hlt, hext.price_eq hlt]
    exact h.placed s l hl r hr
  nodup := h.nodup
  named id r hr := by
    rw [hext.id_eq (h.mapAllocated id r hr)]
    exact h.named id r hr
  restsAllocated r hr := (h.restsAllocated r hr).trans_le hext.1
  mapAllocated id r hr := (h.mapAllocated id r hr).trans_le hext.1

/-- The level of a resting order is the one at its side and price. -/
theorem level_of_rests (h : Sane mem b) {r : Ref} (hr : b.Rests r) :
    ∃ l ∈ b.levels (mem.order r).side, l.price = (mem.order r).price ∧ r ∈ l.orders := by
  obtain ⟨s, l, hl, hrl⟩ := hr
  obtain ⟨rfl, hp⟩ := h.placed s l hl r hrl
  exact ⟨l, hl, hp.symm, hrl⟩

theorem of_shrinks (h : Sane mem b) (hsh : b.Shrinks b')
    (hne : ∀ s, ∀ l ∈ b'.levels s, l.orders ≠ []) : Sane mem b' where
  sorted s := (h.sorted s).of_sublistForall₂ (hsh.levels s) fun _ _ hp => hp.1
  nonempty := hne
  placed s l' hl' r hr := by
    obtain ⟨l, hl, hp, hsub⟩ := hsh.mem_levels hl'
    rw [hp]
    exact h.placed s l hl r (hsub.subset hr)
  nodup s l' hl' := by
    obtain ⟨l, hl, -, hsub⟩ := hsh.mem_levels hl'
    exact (h.nodup s l hl).sublist hsub
  named id r hr := h.named id r (hsh.lookup id r hr)
  restsAllocated r hr := h.restsAllocated r (hsh.rests hr)
  mapAllocated id r hr := h.mapAllocated id r (hsh.lookup id r hr)

end Sane

namespace OrderBook

variable (mem : Memory) (b : OrderBook) (orderId : String) (q : ℚ)

theorem removeId_sublist (orders : List Ref) : (removeId mem orderId orders).Sublist orders :=
  List.filter_sublist

variable {mem b orderId q}

theorem eraseEmpty_eq_some {l l' : PriceLevel} :
    eraseEmpty l = some l' ↔ l' = l ∧ l.orders ≠ [] := by
  unfold eraseEmpty
  split_ifs with h <;> simp [h, eq_comm]

theorem cancelLevel_partOf {l l' : PriceLevel} (h : cancelLevel mem orderId q l = some l') :
    l'.PartOf l ∧ l'.orders ≠ [] := by
  obtain ⟨rfl, hne⟩ := eraseEmpty_eq_some.mp h
  exact ⟨⟨rfl, removeId_sublist mem orderId l.orders⟩, hne⟩

theorem decreaseLevel_partOf {oldQty newQty : ℚ} {l l' : PriceLevel}
    (h : decreaseLevel mem orderId oldQty newQty l = some l') : l'.PartOf l ∧ l'.orders ≠ [] := by
  obtain ⟨rfl, hne⟩ := eraseEmpty_eq_some.mp h
  refine ⟨⟨rfl, ?_⟩, hne⟩
  dsimp only
  split_ifs
  · exact removeId_sublist mem orderId l.orders
  · exact List.Sublist.refl _

theorem resizeLevel_partOf {oldQty newQty : ℚ} {l l' : PriceLevel}
    (h : resizeLevel oldQty newQty l = some l') : l'.PartOf l ∧ l'.orders = l.orders := by
  simp only [resizeLevel] at h
  split_ifs at h
  obtain rfl := Option.some.inj h
  exact ⟨⟨rfl, List.Sublist.refl _⟩, rfl⟩

variable (mem b orderId q)

/-! ## The operations that only take orders out -/

theorem cancelOrder_shrinks : b.Shrinks (b.cancelOrder mem orderId).2 := by
  unfold cancelOrder
  split
  · exact .refl b
  · exact (Shrinks.alterLevel b _ _ fun l l' hl' => (cancelLevel_partOf hl').1).trans
      (Shrinks.erase _ orderId)

theorem decreaseOrderQuantity_shrinks :
    b.Shrinks (b.decreaseOrderQuantity mem orderId q).2.2 := by
  unfold decreaseOrderQuantity
  split
  · exact .refl b
  · dsimp only
    split_ifs
    · exact (Shrinks.alterLevel b _ _ fun l l' hl' => (decreaseLevel_partOf hl').1).trans
        (Shrinks.erase _ orderId)
    · exact Shrinks.alterLevel b _ _ fun l l' hl' => (decreaseLevel_partOf hl').1

theorem modifyOrder_shrinks {mem' : Memory} {b' : OrderBook}
    (h : b.modifyOrder mem orderId q = .ok (mem', b')) : b.Shrinks b' := by
  unfold modifyOrder at h
  split at h
  · cases h
  · dsimp only at h
    split at h
    · cases h; exact .refl b
    · cases h
      exact Shrinks.alterLevel b _ _ fun l l' hl' => (resizeLevel_partOf hl').1

/-! ## What the operations write -/

theorem decreaseOrderQuantity_extends :
    mem.Extends (b.decreaseOrderQuantity mem orderId q).2.1 := by
  unfold decreaseOrderQuantity
  split
  · exact .refl mem
  · dsimp only
    split_ifs
    · exact .refl mem
    · exact .modifyQuantity mem _ _

@[simp] theorem decreaseOrderQuantity_next :
    (b.decreaseOrderQuantity mem orderId q).2.1.next = mem.next := by
  unfold decreaseOrderQuantity
  split
  · rfl
  · dsimp only
    split_ifs <;> rfl

theorem modifyOrder_extends {mem' : Memory} {b' : OrderBook}
    (h : b.modifyOrder mem orderId q = .ok (mem', b')) : mem.Extends mem' := by
  unfold modifyOrder at h
  split at h
  · cases h
  · dsimp only at h
    split at h
    · cases h; exact .refl mem
    · cases h; exact .modifyQuantity mem _ _

end OrderBook

namespace Sane

variable {mem mem' : Memory} {b b' : OrderBook}

/-- A level stays nonempty if what is written to it is. -/
theorem nonempty_alterLevel (h : Sane mem b) {s : Side} {p : ℚ}
    {f : PriceLevel → Option PriceLevel}
    (hf : ∀ l ∈ b.levels s, ∀ l', f l = some l' → l'.orders ≠ []) (t : Side) :
    ∀ l ∈ (b.alterLevel s p f).levels t, l.orders ≠ [] := by
  intro l' hl'
  by_cases ht : t = s
  · subst ht
    rw [OrderBook.levels_alterLevel_self, Keyed.mem_alter] at hl'
    rcases hl' with ⟨l, hl, -, hfl⟩ | ⟨hl, -⟩
    · exact hf l hl l' hfl
    · exact h.nonempty t l' hl
  · rw [OrderBook.levels_alterLevel_of_ne _ _ _ ht] at hl'
    exact h.nonempty t l' hl'

theorem cancelOrder (h : Sane mem b) (orderId : String) :
    Sane mem (b.cancelOrder mem orderId).2 := by
  refine h.of_shrinks (b.cancelOrder_shrinks mem orderId) fun s => ?_
  unfold OrderBook.cancelOrder
  split
  · exact h.nonempty s
  · simpa using h.nonempty_alterLevel (fun l _ l' hl' => (OrderBook.cancelLevel_partOf hl').2) s

theorem decreaseOrderQuantity (h : Sane mem b) (orderId : String) (amount : ℚ) :
    Sane (b.decreaseOrderQuantity mem orderId amount).2.1
      (b.decreaseOrderQuantity mem orderId amount).2.2 := by
  refine (h.of_shrinks (b.decreaseOrderQuantity_shrinks mem orderId amount) fun s => ?_).of_extends
    (b.decreaseOrderQuantity_extends mem orderId amount)
  unfold OrderBook.decreaseOrderQuantity
  split
  · exact h.nonempty s
  · dsimp only
    split_ifs
    · simpa using h.nonempty_alterLevel
        (fun l _ l' hl' => (OrderBook.decreaseLevel_partOf hl').2) s
    · exact h.nonempty_alterLevel (fun l _ l' hl' => (OrderBook.decreaseLevel_partOf hl').2) s

theorem modifyOrder (h : Sane mem b) {orderId : String} {newQuantity : ℚ}
    (hm : b.modifyOrder mem orderId newQuantity = .ok (mem', b')) : Sane mem' b' := by
  refine (h.of_shrinks (b.modifyOrder_shrinks mem orderId newQuantity hm) fun s => ?_).of_extends
    (b.modifyOrder_extends mem orderId newQuantity hm)
  unfold OrderBook.modifyOrder at hm
  split at hm
  · cases hm
  · dsimp only at hm
    split at hm
    · cases hm; exact h.nonempty s
    · cases hm
      refine h.nonempty_alterLevel (fun l hl l' hl' => ?_) s
      rw [(OrderBook.resizeLevel_partOf hl').2]
      exact h.nonempty _ l hl

end Sane

namespace OrderBook

variable {mem : Memory} {b : OrderBook} {order : Ref}

/-- The levels after `addOrder`: the order's level with the order appended, and the others. -/
theorem mem_levels_addOrder {t : Side} {l' : PriceLevel}
    (hl' : l' ∈ (b.addOrder mem order).levels t) :
    l' ∈ b.levels t ∨
      t = (mem.order order).side ∧ ∃ l, (l ∈ b.levels t ∨ l = ⟨(mem.order order).price, [], 0⟩) ∧
        l.price = (mem.order order).price ∧
        l' = appendOrder order (mem.order order).quantity l := by
  by_cases ht : t = (mem.order order).side
  · subst ht
    simp only [addOrder, levels_setOrderMap, levels_alterLevel_self, levels_setLevels_self,
      Keyed.mem_alter, Option.some.injEq] at hl'
    rcases hl' with ⟨l, hl, hp, hl'⟩ | ⟨hl', hp⟩
    · exact Or.inr ⟨rfl, l, (Keyed.mem_emplace hl).symm, hp, hl'.symm⟩
    · rcases Keyed.mem_emplace hl' with rfl | hl'
      · exact absurd rfl hp
      · exact Or.inl hl'
  · refine Or.inl ?_
    simpa [addOrder, levels_alterLevel_of_ne _ _ _ ht, levels_setLevels_of_ne _ _ ht] using hl'

theorem sorted_addOrder (h : ∀ s, Keyed.Sorted PriceLevel.price s.ahead (b.levels s)) (t : Side) :
    Keyed.Sorted PriceLevel.price t.ahead ((b.addOrder mem order).levels t) := by
  by_cases ht : t = (mem.order order).side
  · subst ht
    simp only [addOrder, levels_setOrderMap, levels_alterLevel_self, levels_setLevels_self]
    refine (Keyed.pairwise_emplace (h _) _).of_sublistForall₂
      (Keyed.sublistForall₂_alter (R := fun l' l => l'.price = l.price) ?_) fun _ _ hp => hp
    intro l l' hl'
    rw [← Option.some.inj hl', appendOrder]
  · simpa [addOrder, levels_alterLevel_of_ne _ _ _ ht, levels_setLevels_of_ne _ _ ht] using h t

theorem rests_of_rests_addOrder {r : Ref} (hr : (b.addOrder mem order).Rests r) :
    b.Rests r ∨ r = order := by
  obtain ⟨t, l', hl', hrl⟩ := hr
  rcases mem_levels_addOrder hl' with hl | ⟨-, l, hl, -, rfl⟩
  · exact Or.inl ⟨t, l', hl, hrl⟩
  · rcases List.mem_append.mp hrl with hrl | hrl
    · rcases hl with hl | rfl
      · exact Or.inl ⟨t, l, hl, hrl⟩
      · simp at hrl
    · exact Or.inr (by simpa using hrl)

@[simp] theorem orderMap_addOrder :
    (b.addOrder mem order).orderMap = b.orderMap.insert (mem.order order).id order := by
  simp [addOrder]

@[simp] theorem symbol_addOrder : (b.addOrder mem order).symbol = b.symbol := by
  simp [addOrder]

end OrderBook

/-- Adding an allocated order that does not rest yet. -/
theorem Sane.addOrder {mem : Memory} {b : OrderBook} {order : Ref} (h : Sane mem b)
    (hlt : order < mem.next) (hnew : ¬ b.Rests order) : Sane mem (b.addOrder mem order) where
  sorted t := OrderBook.sorted_addOrder h.sorted t
  nonempty t l' hl' := by
    rcases OrderBook.mem_levels_addOrder hl' with hl | ⟨-, l, -, -, rfl⟩
    · exact h.nonempty t l' hl
    · simp [OrderBook.appendOrder]
  placed t l' hl' r hr := by
    rcases OrderBook.mem_levels_addOrder hl' with hl | ⟨rfl, l, hl, hp, rfl⟩
    · exact h.placed t l' hl r hr
    · rcases List.mem_append.mp hr with hr | hr
      · rcases hl with hl | rfl
        · exact h.placed _ l hl r hr
        · simp at hr
      · obtain rfl : r = order := by simpa using hr
        exact ⟨rfl, hp.symm⟩
  nodup t l' hl' := by
    rcases OrderBook.mem_levels_addOrder hl' with hl | ⟨-, l, hl, -, rfl⟩
    · exact h.nodup t l' hl
    · rcases hl with hl | rfl
      · refine (h.nodup t l hl).append (List.nodup_singleton order) ?_
        rw [List.disjoint_singleton]
        exact fun hmem => hnew ⟨t, l, hl, hmem⟩
      · simp [OrderBook.appendOrder]
  named id r hr := by
    rw [OrderBook.orderMap_addOrder] at hr
    by_cases hid : id = (mem.order order).id
    · subst hid
      rw [AList.lookup_insert] at hr
      rw [Option.some.inj hr]
    · rw [AList.lookup_insert_ne hid] at hr
      exact h.named id r hr
  restsAllocated r hr := by
    rcases OrderBook.rests_of_rests_addOrder hr with hr | rfl
    · exact h.restsAllocated r hr
    · exact hlt
  mapAllocated id r hr := by
    rw [OrderBook.orderMap_addOrder] at hr
    by_cases hid : id = (mem.order order).id
    · subst hid
      rw [AList.lookup_insert] at hr
      rwa [← Option.some.inj hr]
    · rw [AList.lookup_insert_ne hid] at hr
      exact h.mapAllocated id r hr

end GoQuant
