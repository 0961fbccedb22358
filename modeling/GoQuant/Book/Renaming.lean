import GoQuant.Book.Matching
import Mathlib.Data.Set.Function

/-!
# Handles carry no information

Two processes that build the same orders hand out different handles for them. Nothing in
the book or in the matching algorithm looks at a handle but to compare it and to follow it,
so that corresponding states stay so: a renaming `f` of the objects known to one side to
those of the other side is kept by every operation. Trade ids and fees do not matter.

## Main definitions

* `Memory.Renames`, `OrderBook.Renames` — the objects, and a book, of one side and the other.
* `SameContents` — two books that hold the same orders.

## Main results

* `OrderBook.Renames.cancelOrder`, `.modifyOrder`, `.addOrder`, … — one lemma per operation.
* `Returns.renames` — matching corresponding orders in corresponding books.
-/

namespace GoQuant

open MatchingAlgorithm

/-- The known objects of one memory, and their counterparts in another. -/
structure Memory.Renames (f : Ref → Ref) (known : Set Ref) (mem mem' : Memory) : Prop where
  order : ∀ r ∈ known, mem'.order (f r) = mem.order r
  injective : Set.InjOn f known
  allocated : ∀ r ∈ known, r < mem.next ∧ f r < mem'.next

def PriceLevel.rename (f : Ref → Ref) (l : PriceLevel) : PriceLevel :=
  { l with orders := l.orders.map f }

/-- A book of known objects, and its counterpart. -/
structure OrderBook.Renames (f : Ref → Ref) (known : Set Ref) (b b' : OrderBook) : Prop where
  levels : ∀ s, b'.levels s = (b.levels s).map (PriceLevel.rename f)
  lookup : ∀ id, b'.orderMap.lookup id = (b.orderMap.lookup id).map f
  rests : ∀ r, b.Rests r → r ∈ known
  mapped : ∀ id r, b.orderMap.lookup id = some r → r ∈ known

/-- What a level holds, apart from the handles. -/
def PriceLevel.contents (mem : Memory) (l : PriceLevel) : ℚ × List Order × ℚ :=
  (l.price, l.orders.map mem.order, l.totalQuantity)

/-- Two books with the same levels, queues, quantities, totals and ids. -/
structure SameContents (mem : Memory) (b : OrderBook) (mem' : Memory) (b' : OrderBook) :
    Prop where
  levels : ∀ s, (b'.levels s).map (PriceLevel.contents mem') =
    (b.levels s).map (PriceLevel.contents mem)
  found : ∀ id, (b'.orderMap.lookup id).map mem'.order = (b.orderMap.lookup id).map mem.order

theorem SameContents.symm {mem mem' : Memory} {b b' : OrderBook} (h : SameContents mem b mem' b') :
    SameContents mem' b' mem b where
  levels s := (h.levels s).symm
  found id := (h.found id).symm

theorem SameContents.trans {mem mem' mem'' : Memory} {b b' b'' : OrderBook}
    (h : SameContents mem b mem' b') (h' : SameContents mem' b' mem'' b'') :
    SameContents mem b mem'' b'' where
  levels s := (h'.levels s).trans (h.levels s)
  found id := (h'.found id).trans (h.found id)

section Renaming

variable {f : Ref → Ref} {known : Set Ref} {mem mem' : Memory} {b b' : OrderBook} {r : Ref}
  {q : ℚ} {id : String} {orders : List Ref}

namespace Memory.Renames

theorem modifyQuantity (h : Memory.Renames f known mem mem') (hr : r ∈ known) (q : ℚ) :
    Memory.Renames f known (mem.modifyQuantity r q) (mem'.modifyQuantity (f r) q) := by
  refine ⟨fun r' hr' => ?_, h.injective, h.allocated⟩
  rw [Memory.modifyQuantity_order, Memory.modifyQuantity_order, h.order r' hr']
  by_cases heq : r' = r
  · simp [heq]
  · have hne : f r' ≠ f r := fun hf => heq (h.injective hr' hr hf)
    simp [heq, hne]

theorem generateTradeId (h : Memory.Renames f known mem mem') :
    Memory.Renames f known mem.generateTradeId.2 mem'.generateTradeId.2 :=
  ⟨h.order, h.injective, h.allocated⟩

/-- One side builds an order the other never hears of. -/
theorem alloc_left (h : Memory.Renames f known mem mem') (o : Order) :
    Memory.Renames f known (mem.alloc o).1 mem' where
  order r hr := by
    rw [Memory.alloc_order_of_lt _ _ _ (h.allocated r hr).1, h.order r hr]
  injective := h.injective
  allocated r hr := ⟨(h.allocated r hr).1.trans (Nat.lt_succ_self _), (h.allocated r hr).2⟩

/-- One side builds a copy of an order of the other. -/
theorem alloc_right (h : Memory.Renames f known mem mem') (hr : r ∉ known) (hlt : r < mem.next) :
    Memory.Renames (Function.update f r mem'.next) (insert r known) mem
      (mem'.alloc (mem.order r)).1 := by
  have hold : ∀ r' ∈ known, Function.update f r mem'.next r' = f r' := fun r' hr' =>
    Function.update_of_ne (ne_of_mem_of_not_mem hr' hr) _ _
  refine ⟨fun r' hr' => ?_, fun r₁ hr₁ r₂ hr₂ heq => ?_, fun r' hr' => ?_⟩
  · rcases hr' with rfl | hr'
    · simp
    · rw [hold r' hr', Memory.alloc_order_of_lt _ _ _ (h.allocated r' hr').2, h.order r' hr']
  · rcases hr₁ with rfl | hr₁ <;> rcases hr₂ with rfl | hr₂
    · rfl
    · rw [Function.update_self, hold r₂ hr₂] at heq
      exact absurd heq (h.allocated r₂ hr₂).2.ne'
    · rw [Function.update_self, hold r₁ hr₁] at heq
      exact absurd heq (h.allocated r₁ hr₁).2.ne
    · rw [hold r₁ hr₁, hold r₂ hr₂] at heq
      exact h.injective hr₁ hr₂ heq
  · rcases hr' with rfl | hr'
    · rw [Function.update_self]
      exact ⟨hlt, Nat.lt_succ_self _⟩
    · rw [hold r' hr']
      exact ⟨(h.allocated r' hr').1, (h.allocated r' hr').2.trans (Nat.lt_succ_self _)⟩

/-- Both sides build the same order. -/
theorem alloc (h : Memory.Renames f known mem mem') (o : Order) :
    Memory.Renames (Function.update f mem.next mem'.next) (insert mem.next known)
      (mem.alloc o).1 (mem'.alloc o).1 := by
  have hnew : mem.next ∉ known := fun hr => (h.allocated _ hr).1.ne rfl
  have hboth := (h.alloc_left o).alloc_right hnew (Nat.lt_succ_self mem.next)
  rwa [show (mem.alloc o).1.order mem.next = o by simp] at hboth

theorem map_order (h : Memory.Renames f known mem mem') (horders : ∀ r ∈ orders, r ∈ known) :
    (orders.map f).map mem'.order = orders.map mem.order := by
  rw [List.map_map]
  exact List.map_congr_left fun r hr => h.order r (horders r hr)

theorem removeId (h : Memory.Renames f known mem mem') (horders : ∀ r ∈ orders, r ∈ known)
    (id : String) : OrderBook.removeId mem' id (orders.map f) =
      (OrderBook.removeId mem id orders).map f := by
  unfold OrderBook.removeId
  rw [List.filter_map]
  congr 1
  refine List.filter_congr fun r hr => ?_
  simp [h.order r (horders r hr)]

/-- The other way round. -/
theorem symm (h : Memory.Renames f known mem mem') :
    Memory.Renames (Function.invFunOn f known) (f '' known) mem' mem where
  order r' hr' := by
    obtain ⟨r, hr, rfl⟩ := hr'
    rw [h.injective.leftInvOn_invFunOn hr, h.order r hr]
  injective _ hr _ hr' heq := by
    rw [← Function.invFunOn_eq hr, heq, Function.invFunOn_eq hr']
  allocated r' hr' := by
    obtain ⟨r, hr, rfl⟩ := hr'
    rw [h.injective.leftInvOn_invFunOn hr]
    exact (h.allocated r hr).symm

/-- One after the other, where both apply. -/
theorem trans {g : Ref → Ref} {known' : Set Ref} {mem'' : Memory}
    (h : Memory.Renames f known mem mem') (h' : Memory.Renames g known' mem' mem'') :
    Memory.Renames (g ∘ f) {r ∈ known | f r ∈ known'} mem mem'' where
  order r hr := (h'.order (f r) hr.2).trans (h.order r hr.1)
  injective _ hr _ hr' heq := h.injective hr.1 hr'.1 (h'.injective hr.2 hr'.2 heq)
  allocated r hr := ⟨(h.allocated r hr.1).1, (h'.allocated (f r) hr.2).2⟩

end Memory.Renames

namespace OrderBook.Renames

theorem rests_rename (h : OrderBook.Renames f known b b') {r' : Ref} :
    b'.Rests r' ↔ ∃ r, b.Rests r ∧ f r = r' := by
  constructor
  · rintro ⟨s, l, hl, hr⟩
    rw [h.levels, List.mem_map] at hl
    obtain ⟨l', hl', rfl⟩ := hl
    obtain ⟨r, hmem, rfl⟩ := List.mem_map.mp hr
    exact ⟨r, ⟨s, l', hl', hmem⟩, rfl⟩
  · rintro ⟨r, ⟨s, l, hl, hr⟩, rfl⟩
    refine ⟨s, l.rename f, ?_, List.mem_map_of_mem hr⟩
    rw [h.levels]
    exact List.mem_map_of_mem hl

theorem symm (h : OrderBook.Renames f known b b') (hf : Set.InjOn f known) :
    OrderBook.Renames (Function.invFunOn f known) (f '' known) b' b where
  levels s := by
    rw [h.levels, List.map_map]
    refine ((List.map_congr_left fun l hl => ?_).trans (List.map_id _)).symm
    have horders : (l.orders.map f).map (Function.invFunOn f known) = l.orders := by
      rw [List.map_map]
      refine (List.map_congr_left fun r hr => ?_).trans (List.map_id _)
      exact hf.leftInvOn_invFunOn (h.rests r ⟨s, l, hl, hr⟩)
    exact congrArg (fun orders => { l with orders := orders }) horders
  lookup id := by
    rw [h.lookup, Option.map_map]
    cases hid : b.orderMap.lookup id with
    | none => rfl
    | some r =>
      exact congrArg some (hf.leftInvOn_invFunOn (h.mapped id r hid)).symm
  rests r' hr' := by
    obtain ⟨r, hr, rfl⟩ := h.rests_rename.mp hr'
    exact Set.mem_image_of_mem f (h.rests r hr)
  mapped id r' hr' := by
    rw [h.lookup, Option.map_eq_some_iff] at hr'
    obtain ⟨r, hr, rfl⟩ := hr'
    exact Set.mem_image_of_mem f (h.mapped id r hr)

theorem trans {g : Ref → Ref} {known' : Set Ref} {b'' : OrderBook}
    (h : OrderBook.Renames f known b b') (h' : OrderBook.Renames g known' b' b'') :
    OrderBook.Renames (g ∘ f) {r ∈ known | f r ∈ known'} b b'' where
  levels s := by
    rw [h'.levels, h.levels, List.map_map]
    refine List.map_congr_left fun l _ => ?_
    simp [PriceLevel.rename]
  lookup id := by rw [h'.lookup, h.lookup, Option.map_map]
  rests r hr := ⟨h.rests r hr, h'.rests _ (h.rests_rename.mpr ⟨r, hr, rfl⟩)⟩
  mapped id r hr := ⟨h.mapped id r hr, h'.mapped id _ (by rw [h.lookup, hr, Option.map_some])⟩

theorem empty (f : Ref → Ref) (known : Set Ref) (symbol symbol' : String) :
    OrderBook.Renames f known (.empty symbol) (.empty symbol') where
  levels s := by simp
  lookup id := by simp [OrderBook.empty]
  rests r hr := absurd hr (OrderBook.not_rests_empty symbol r)
  mapped id r hr := by simp [OrderBook.empty] at hr

/-- More may be known. -/
theorem mono {g : Ref → Ref} {known' : Set Ref} (h : OrderBook.Renames f known b b')
    (hg : ∀ r ∈ known, g r = f r) (hsub : known ⊆ known') : OrderBook.Renames g known' b b' where
  levels s := by
    rw [h.levels]
    refine List.map_congr_left fun l hl => ?_
    unfold PriceLevel.rename
    rw [List.map_congr_left fun r hr => (hg r (h.rests r ⟨s, l, hl, hr⟩)).symm]
  lookup id := by
    rw [h.lookup]
    cases hid : b.orderMap.lookup id with
    | none => rfl
    | some r => rw [Option.map_some, Option.map_some, hg r (h.mapped id r hid)]
  rests r hr := hsub (h.rests r hr)
  mapped id r hr := hsub (h.mapped id r hr)

theorem known_of_mem (h : OrderBook.Renames f known b b') {s : Side} {l : PriceLevel}
    (hl : l ∈ b.levels s) : ∀ r ∈ l.orders, r ∈ known :=
  fun r hr => h.rests r ⟨s, l, hl, hr⟩

/-- Rewriting the levels at a price on both sides. -/
theorem alterLevel (h : OrderBook.Renames f known b b') {s : Side} {p : ℚ}
    {g g' : PriceLevel → Option PriceLevel} (hg : ∀ l l', g l = some l' → l'.PartOf l)
    (hgg : ∀ l ∈ b.levels s, (g l).map (PriceLevel.rename f) = g' (l.rename f)) :
    OrderBook.Renames f known (b.alterLevel s p g) (b'.alterLevel s p g') := by
  have hsh : b.Shrinks (b.alterLevel s p g) := .alterLevel b s p hg
  refine ⟨fun t => ?_, fun id => ?_, fun r hr => h.rests r (hsh.rests hr), fun id r hr => ?_⟩
  · by_cases ht : t = s
    · subst ht
      rw [levels_alterLevel_self, levels_alterLevel_self, h.levels]
      exact (Keyed.map_alter (PriceLevel.rename f) (fun _ => rfl) g' fun l hl _ => hgg l hl).symm
    · rw [levels_alterLevel_of_ne _ _ _ ht, levels_alterLevel_of_ne _ _ _ ht, h.levels]
  · rw [orderMap_alterLevel, orderMap_alterLevel, h.lookup]
  · exact h.mapped id r (by rwa [orderMap_alterLevel] at hr)

theorem erase (h : OrderBook.Renames f known b b') (id : String) :
    OrderBook.Renames f known (b.setOrderMap (b.orderMap.erase id))
      (b'.setOrderMap (b'.orderMap.erase id)) := by
  refine ⟨fun s => ?_, fun id' => ?_, fun r hr => h.rests r ((Shrinks.erase b id).rests hr),
    fun id' r hr => h.mapped id' r ((Shrinks.erase b id).lookup id' r hr)⟩
  · rw [levels_setOrderMap, levels_setOrderMap, h.levels]
  · change (b'.orderMap.erase id).lookup id' = ((b.orderMap.erase id).lookup id').map f
    by_cases hid : id' = id
    · subst hid
      simp
    · rw [AList.lookup_erase_ne hid, AList.lookup_erase_ne hid, h.lookup]

theorem rename_eraseEmpty (l : PriceLevel) :
    (eraseEmpty l).map (PriceLevel.rename f) = eraseEmpty (l.rename f) := by
  unfold eraseEmpty PriceLevel.rename
  by_cases hl : l.orders = [] <;> simp [hl]

/-- Corresponding books hold the same. -/
theorem sameContents (h : OrderBook.Renames f known b b') (hm : Memory.Renames f known mem mem') :
    SameContents mem b mem' b' := by
  refine ⟨fun s => ?_, fun id => ?_⟩
  · rw [h.levels, List.map_map]
    refine List.map_congr_left fun l hl => ?_
    simp only [Function.comp_apply, PriceLevel.contents, PriceLevel.rename]
    rw [hm.map_order (h.known_of_mem hl)]
  · rw [h.lookup]
    cases hid : b.orderMap.lookup id with
    | none => rfl
    | some r =>
      rw [Option.map_some, Option.map_some, Option.map_some, hm.order r (h.mapped id r hid)]

theorem rename_cancelLevel (hm : Memory.Renames f known mem mem') {l : PriceLevel}
    (hl : ∀ r ∈ l.orders, r ∈ known) (id : String) (q : ℚ) :
    (cancelLevel mem id q l).map (PriceLevel.rename f) = cancelLevel mem' id q (l.rename f) := by
  unfold cancelLevel
  rw [rename_eraseEmpty]
  simp [PriceLevel.rename, hm.removeId hl]

theorem rename_decreaseLevel (hm : Memory.Renames f known mem mem') {l : PriceLevel}
    (hl : ∀ r ∈ l.orders, r ∈ known) (id : String) (oldQty newQty : ℚ) :
    (decreaseLevel mem id oldQty newQty l).map (PriceLevel.rename f) =
      decreaseLevel mem' id oldQty newQty (l.rename f) := by
  unfold decreaseLevel
  dsimp only
  rw [rename_eraseEmpty]
  by_cases hq : newQty ≤ 0 <;> simp [PriceLevel.rename, hq, hm.removeId hl]

theorem rename_resizeLevel (l : PriceLevel) (oldQty newQty : ℚ) :
    (resizeLevel oldQty newQty l).map (PriceLevel.rename f) =
      resizeLevel oldQty newQty (l.rename f) := by
  unfold resizeLevel PriceLevel.rename
  dsimp only
  split_ifs <;> rfl

theorem hasOrder (h : OrderBook.Renames f known b b') (id : String) :
    b'.hasOrder id = b.hasOrder id := by
  rw [OrderBook.hasOrder, OrderBook.hasOrder, h.lookup, Option.isSome_map]

theorem cancelOrder (h : OrderBook.Renames f known b b') (hm : Memory.Renames f known mem mem')
    (id : String) :
    OrderBook.Renames f known (b.cancelOrder mem id).2 (b'.cancelOrder mem' id).2 := by
  have hlook := h.lookup id
  cases hid : b.orderMap.lookup id with
  | none =>
    rw [hid] at hlook
    simpa [OrderBook.cancelOrder, hid, hlook] using h
  | some r =>
    have hr := h.mapped id r hid
    rw [hid, Option.map_some] at hlook
    simp only [OrderBook.cancelOrder, hid, hlook, hm.order r hr]
    exact (h.alterLevel (fun l l' hl' => (cancelLevel_partOf hl').1) fun l hl =>
      rename_cancelLevel hm (h.known_of_mem hl) _ _).erase id

theorem decreaseOrderQuantity (h : OrderBook.Renames f known b b')
    (hm : Memory.Renames f known mem mem') (id : String) (a : ℚ) :
    OrderBook.Renames f known (b.decreaseOrderQuantity mem id a).2.2
        (b'.decreaseOrderQuantity mem' id a).2.2 ∧
      Memory.Renames f known (b.decreaseOrderQuantity mem id a).2.1
        (b'.decreaseOrderQuantity mem' id a).2.1 := by
  have hlook := h.lookup id
  cases hid : b.orderMap.lookup id with
  | none =>
    rw [hid] at hlook
    simpa [OrderBook.decreaseOrderQuantity, hid, hlook] using ⟨h, hm⟩
  | some r =>
    have hr := h.mapped id r hid
    rw [hid, Option.map_some] at hlook
    let newQty := decreased (mem.order r).quantity a
    have hlevel : OrderBook.Renames f known
        (b.alterLevel (mem.order r).side (mem.order r).price
          (decreaseLevel mem id (mem.order r).quantity newQty))
        (b'.alterLevel (mem.order r).side (mem.order r).price
          (decreaseLevel mem' id (mem.order r).quantity newQty)) :=
      h.alterLevel (fun l l' hl' => (decreaseLevel_partOf hl').1) fun l hl =>
        rename_decreaseLevel hm (h.known_of_mem hl) _ _ _
    simp only [OrderBook.decreaseOrderQuantity, hid, hlook, hm.order r hr]
    split_ifs
    · exact ⟨hlevel.erase id, hm⟩
    · exact ⟨hlevel, hm.modifyQuantity hr _⟩

/-- Both sides find the order, or neither does. -/
theorem modifyOrder (h : OrderBook.Renames f known b b') (hm : Memory.Renames f known mem mem')
    {id : String} {q : ℚ} {mem₁ : Memory} {b₁ : OrderBook}
    (hmod : b.modifyOrder mem id q = .ok (mem₁, b₁)) :
    ∃ mem₁' b₁', b'.modifyOrder mem' id q = .ok (mem₁', b₁') ∧
      OrderBook.Renames f known b₁ b₁' ∧ Memory.Renames f known mem₁ mem₁' := by
  have hlook := h.lookup id
  unfold OrderBook.modifyOrder at hmod ⊢
  cases hid : b.orderMap.lookup id with
  | none => simp [hid] at hmod
  | some r =>
    have hr := h.mapped id r hid
    rw [hid, Option.map_some] at hlook
    simp only [hid, hlook, hm.order r hr] at hmod ⊢
    have hkey : ∀ l : PriceLevel, (l.rename f).price = l.price := fun _ => rfl
    rw [h.levels, Keyed.find_map (PriceLevel.rename f) hkey]
    cases hl : Keyed.find PriceLevel.price (mem.order r).price
        (b.levels (mem.order r).side) with
    | none =>
      simp only [hl, Except.ok.injEq, Prod.mk.injEq] at hmod
      obtain ⟨rfl, rfl⟩ := hmod
      exact ⟨_, _, rfl, h, hm⟩
    | some l =>
      simp only [hl, Except.ok.injEq, Prod.mk.injEq] at hmod
      obtain ⟨rfl, rfl⟩ := hmod
      refine ⟨_, _, rfl, ?_, hm.modifyQuantity hr q⟩
      exact h.alterLevel (fun l l' hl' => (resizeLevel_partOf hl').1) fun l _ =>
        rename_resizeLevel l _ _

/-- A known order arrives on both sides. -/
theorem addOrder (h : OrderBook.Renames f known b b') (hm : Memory.Renames f known mem mem')
    (hr : r ∈ known) :
    OrderBook.Renames f known (b.addOrder mem r) (b'.addOrder mem' (f r)) := by
  have hkey : ∀ l : PriceLevel, (l.rename f).price = l.price := fun _ => rfl
  refine ⟨fun s => ?_, fun id => ?_, fun r' hr' => ?_, fun id r' hr' => ?_⟩
  · by_cases hs : s = (mem.order r).side
    · subst hs
      simp only [OrderBook.addOrder, hm.order r hr, levels_setOrderMap, levels_alterLevel_self,
        levels_setLevels_self, h.levels]
      rw [Keyed.map_alter (PriceLevel.rename f) hkey
          (fun l => some (appendOrder (f r) (mem.order r).quantity l)),
        Keyed.map_emplace (PriceLevel.rename f) hkey]
      · rfl
      · intro l _ _
        simp [appendOrder, PriceLevel.rename]
    · simp only [OrderBook.addOrder, hm.order r hr, levels_setOrderMap,
        levels_alterLevel_of_ne _ _ _ hs, levels_setLevels_of_ne _ _ hs, h.levels]
  · rw [orderMap_addOrder, orderMap_addOrder, hm.order r hr]
    by_cases hid : id = (mem.order r).id
    · subst hid
      simp
    · rw [AList.lookup_insert_ne hid, AList.lookup_insert_ne hid, h.lookup]
  · rcases rests_of_rests_addOrder hr' with hr' | rfl
    · exact h.rests r' hr'
    · exact hr
  · rw [orderMap_addOrder] at hr'
    by_cases hid : id = (mem.order r).id
    · subst hid
      rw [AList.lookup_insert] at hr'
      exact Option.some.inj hr' ▸ hr
    · rw [AList.lookup_insert_ne hid] at hr'
      exact h.mapped id r' hr'

/-- The orders in reach correspond. -/
theorem reachRefs (h : OrderBook.Renames f known b b') (incoming : Order) :
    b'.reachRefs incoming = (b.reachRefs incoming).map f := by
  simp only [OrderBook.reachRefs, h.levels, List.takeWhile_map, List.flatMap_map, List.map_flatMap]
  rfl

theorem getMatchingOrders (h : OrderBook.Renames f known b b')
    (hm : Memory.Renames f known mem mem') (incoming : Order) :
    b'.getMatchingOrders mem' incoming = (b.getMatchingOrders mem incoming).map f := by
  rw [getMatchingOrders_eq, getMatchingOrders_eq, h.reachRefs, Fill.covering_map]
  congr 1
  refine Fill.covering_congr fun r hr => ?_
  rw [hm.order r (h.rests r (rests_of_mem_reachRefs hr))]

theorem hasMatchingOrders (h : OrderBook.Renames f known b b') (incoming : Order) :
    b'.hasMatchingOrders incoming = b.hasMatchingOrders incoming := by
  unfold OrderBook.hasMatchingOrders
  rw [h.levels]
  cases b.levels incoming.side.opposite <;> rfl

end OrderBook.Renames

/-! ## Matching -/

/-- Corresponding states of a matching loop. -/
structure Matching.Renames (f : Ref → Ref) (known : Set Ref) (s s' : Matching) : Prop where
  mem : Memory.Renames f known s.mem s'.mem
  book : OrderBook.Renames f known s.book s'.book
  remaining : s'.remainingQty = s.remainingQty

variable {feeModel feeModel' : Option FeeModel} {order m : Ref} {s t s' : Matching}

namespace Matching.Renames

theorem start (hm : Memory.Renames f known mem mem') (hb : OrderBook.Renames f known b b')
    (ho : order ∈ known) : (start mem b order).Renames f known (start mem' b' (f order)) :=
  ⟨hm, hb, congrArg Order.quantity (hm.order order ho)⟩

theorem fillOne (h : s.Renames f known s') (hm : m ∈ known) (ho : order ∈ known) :
    (fillOne feeModel order m s).Renames f known (fillOne feeModel' (f order) (f m) s') := by
  let q := min s.remainingQty (s.mem.order m).quantity
  let q' := min s'.remainingQty (s'.mem.order (f m)).quantity
  let first := s.book.decreaseOrderQuantity s.mem (s.mem.order m).id q
  let first' := s'.book.decreaseOrderQuantity s'.mem (s'.mem.order (f m)).id q'
  let second := first.2.2.decreaseOrderQuantity first.2.1 (first.2.1.order order).id q
  let second' := first'.2.2.decreaseOrderQuantity first'.2.1 (first'.2.1.order (f order)).id q'
  have hq : q' = q := by simp only [q', q, h.remaining, h.mem.order m hm]
  obtain ⟨hb₁, hm₁⟩ : OrderBook.Renames f known first.2.2 first'.2.2 ∧
      Memory.Renames f known first.2.1 first'.2.1 := by
    simp only [first', hq, h.mem.order m hm]
    exact h.book.decreaseOrderQuantity h.mem _ q
  obtain ⟨hb₂, hm₂⟩ : OrderBook.Renames f known second.2.2 second'.2.2 ∧
      Memory.Renames f known second.2.1 second'.2.1 := by
    simp only [second', hq, hm₁.order order ho]
    exact hb₁.decreaseOrderQuantity hm₁ _ q
  refine ⟨hm₂.generateTradeId, hb₂, ?_⟩
  change s'.remainingQty - q' = s.remainingQty - q
  rw [h.remaining, hq]

/-- The `for` loop over corresponding orders. -/
theorem fillFrom {ms : List Ref} (h : s.Renames f known s') (ho : order ∈ known)
    (hms : ∀ m ∈ ms, m ∈ known) :
    (fillFrom feeModel order ms s).Renames f known
      (fillFrom feeModel' (f order) (ms.map f) s') := by
  induction ms generalizing s s' with
  | nil => exact h
  | cons m ms ih =>
    simp only [List.map_cons, MatchingAlgorithm.fillFrom, h.remaining]
    split_ifs
    · exact h
    · exact ih (h.fillOne (hms m List.mem_cons_self) ho)
        fun m' hm' => hms m' (List.mem_cons_of_mem m hm')

/-- Both sides make a pass, or neither does. -/
theorem pass (h : s.Renames f known s') (ho : order ∈ known) :
    (pass feeModel order s = none → pass feeModel' (f order) s' = none) ∧
      ∀ t, pass feeModel order s = some t →
        ∃ t', pass feeModel' (f order) s' = some t' ∧ t.Renames f known t' := by
  have hget := h.book.getMatchingOrders h.mem (s.mem.order order)
  have hknown : ∀ m ∈ s.book.getMatchingOrders s.mem (s.mem.order order), m ∈ known :=
    fun m hm => h.book.rests m (OrderBook.rests_of_mem_getMatchingOrders hm)
  unfold MatchingAlgorithm.pass
  rw [h.mem.order order ho, hget]
  generalize s.book.getMatchingOrders s.mem (s.mem.order order) = ms at hknown
  cases ms with
  | nil => exact ⟨fun _ => rfl, fun t ht => by cases ht⟩
  | cons m ms =>
    refine ⟨fun hnone => absurd hnone (Option.some_ne_none _), fun t ht => ?_⟩
    obtain rfl := Option.some.inj ht
    exact ⟨_, rfl, h.fillFrom ho hknown⟩

theorem marketStep (h : s.Renames f known s') (ho : order ∈ known) :
    (marketStep feeModel order s = none → marketStep feeModel' (f order) s' = none) ∧
      ∀ t, marketStep feeModel order s = some t →
        ∃ t', marketStep feeModel' (f order) s' = some t' ∧ t.Renames f known t' := by
  unfold MatchingAlgorithm.marketStep
  rw [h.remaining]
  split_ifs
  · exact h.pass ho
  · exact ⟨fun _ => rfl, fun t ht => by cases ht⟩

theorem limitStep (h : s.Renames f known s') (ho : order ∈ known) :
    (limitStep feeModel order s = none → limitStep feeModel' (f order) s' = none) ∧
      ∀ t, limitStep feeModel order s = some t →
        ∃ t', limitStep feeModel' (f order) s' = some t' ∧ t.Renames f known t' := by
  unfold MatchingAlgorithm.limitStep
  rw [h.remaining, h.mem.order order ho, h.book.hasMatchingOrders]
  split_ifs
  · exact h.pass ho
  · exact ⟨fun _ => rfl, fun t ht => by cases ht⟩

theorem restRemainder (h : s.Renames f known s') (ho : order ∈ known) :
    (restRemainder order s).Renames f known (restRemainder (f order) s') := by
  unfold MatchingAlgorithm.restRemainder
  rw [h.remaining]
  split_ifs
  · have hm := h.mem.modifyQuantity ho s.remainingQty
    exact ⟨hm, h.book.addOrder hm ho, rfl⟩
  · exact h

end Matching.Renames

theorem availableQty_renames {ms : List Ref} (h : Memory.Renames f known mem mem')
    (hms : ∀ m ∈ ms, m ∈ known) (wanted total : ℚ) :
    availableQty mem' wanted total (ms.map f) = availableQty mem wanted total ms := by
  induction ms generalizing total with
  | nil => rfl
  | cons m ms ih =>
    simp only [List.map_cons, availableQty, h.order m (hms m List.mem_cons_self)]
    rw [ih fun m' hm' => hms m' (List.mem_cons_of_mem m hm')]

theorem processFOKOrder_renames (hm : Memory.Renames f known mem mem')
    (hb : OrderBook.Renames f known b b') (ho : order ∈ known) :
    (processFOKOrder feeModel mem b order).Renames f known
      (processFOKOrder feeModel' mem' b' (f order)) := by
  have hknown : ∀ m ∈ b.getMatchingOrders mem (mem.order order), m ∈ known :=
    fun m hin => hb.rests m (OrderBook.rests_of_mem_getMatchingOrders hin)
  unfold processFOKOrder
  simp only [hm.order order ho, hb.getMatchingOrders hm, availableQty_renames hm hknown]
  split_ifs
  · exact .start hm hb ho
  · exact (Matching.Renames.start hm hb ho).fillFrom ho hknown

/-- Corresponding orders, matched in corresponding books, leave corresponding books. -/
theorem MatchingAlgorithm.Returns.renames {result : Matching}
    (hr : Returns feeModel mem b order result) (feeModel' : Option FeeModel)
    (hm : Memory.Renames f known mem mem') (hb : OrderBook.Renames f known b b')
    (ho : order ∈ known) :
    ∃ result', Returns feeModel' mem' b' (f order) result' ∧ result.Renames f known result' := by
  obtain ⟨fuel, hr⟩ := hr
  have hstart := Matching.Renames.start hm hb ho
  have hmarket := @Loop.run_simulation _ (marketStep feeModel order) _
    (marketStep feeModel' (f order)) (Matching.Renames f known)
    (fun s s' h => (h.marketStep ho).1) (fun s s' t h => (h.marketStep ho).2 t)
  have hlimit := @Loop.run_simulation _ (limitStep feeModel order) _
    (limitStep feeModel' (f order)) (Matching.Renames f known)
    (fun s s' h => (h.limitStep ho).1) (fun s s' t h => (h.limitStep ho).2 t)
  have htype : (mem'.order (f order)).type = (mem.order order).type :=
    congrArg Order.type (hm.order order ho)
  unfold processOrder at hr
  cases hcase : (mem.order order).type with
  | market =>
    simp only [hcase, processMarketOrder, Except.ok.injEq] at hr
    obtain ⟨t', hrun, ht⟩ := hmarket hstart hr
    exact ⟨t', ⟨fuel, by simp [processOrder, htype, hcase, processMarketOrder, hrun]⟩, ht⟩
  | limit =>
    simp only [hcase, processLimitOrder, Except.ok.injEq, Option.map_eq_some_iff] at hr
    obtain ⟨t, hr, rfl⟩ := hr
    obtain ⟨t', hrun, ht⟩ := hlimit hstart hr
    exact ⟨_, ⟨fuel, by simp [processOrder, htype, hcase, processLimitOrder, hrun]⟩,
      ht.restRemainder ho⟩
  | ioc =>
    simp only [hcase, processIOCOrder, Except.ok.injEq] at hr
    obtain ⟨t', hrun, ht⟩ := hlimit hstart hr
    exact ⟨t', ⟨fuel, by simp [processOrder, htype, hcase, processIOCOrder, hrun]⟩, ht⟩
  | fok =>
    simp only [hcase, Except.ok.injEq, Option.some.injEq] at hr
    subst hr
    exact ⟨_, ⟨fuel, by rw [processOrder, htype, hcase]⟩, processFOKOrder_renames hm hb ho⟩
  | stopLoss => simp [hcase] at hr
  | stopLimit => simp [hcase] at hr
  | takeProfit => simp [hcase] at hr
  | other => simp [hcase] at hr

end Renaming

end GoQuant
