import GoQuant.Book.Silence

/-!
# The ids a book carries

An id can stay in a book in two places: in the id map, and on an order that rests. Matching
adds no id but the incoming order's, and its trades name that id and ids the book carried.

## Main definitions

* `OrderBook.Names` — an id is in the map of a book, or on one of its orders.

## Main results

* `OrderBook.names_cancelOrder` — after a cancellation.
* `returns_names`, `returns_tradeIds` — after matching.
* `returns_minted` — the trades' own ids.
-/

namespace GoQuant

open MatchingAlgorithm

variable {feeModel : Option FeeModel} {mem mem' : Memory} {b b' : OrderBook} {order : Ref}
  {s t result : Matching} {id orderId : String} {q : ℚ} {trade : Trade}

/-! ## The ids a book knows -/

theorem OrderBook.cancelOrder_fst (b : OrderBook) (mem : Memory) (orderId : String) :
    (b.cancelOrder mem orderId).1 = b.hasOrder orderId := by
  unfold cancelOrder hasOrder
  cases b.orderMap.lookup orderId <;> rfl

theorem OrderBook.modifyOrder_ok (h : b.hasOrder orderId = true) :
    ∃ mem' b', b.modifyOrder mem orderId q = .ok (mem', b') := by
  obtain ⟨r, hr⟩ := Option.isSome_iff_exists.mp h
  unfold modifyOrder
  simp only [hr]
  split <;> exact ⟨_, _, rfl⟩

theorem OrderBook.hasOrder_of_modifyOrder (h : b.modifyOrder mem orderId q = .ok (mem', b')) :
    b.hasOrder orderId = true := by
  unfold modifyOrder at h
  unfold hasOrder
  cases hid : b.orderMap.lookup orderId with
  | none => simp [hid] at h
  | some r => rfl

theorem OrderBook.Shrinks.hasOrder (h : b.Shrinks b') (hid : b'.hasOrder id = true) :
    b.hasOrder id = true := by
  obtain ⟨r, hr⟩ := Option.isSome_iff_exists.mp hid
  exact Option.isSome_iff_exists.mpr ⟨r, h.lookup id r hr⟩

/-- Matching lets a book know at most one more id, the incoming order's. -/
theorem MatchingAlgorithm.Returns.hasOrder (hun : b.Unmapped order)
    (hr : Returns feeModel mem b order result) (hid : result.book.hasOrder id = true) :
    b.hasOrder id = true ∨ id = (mem.order order).id := by
  obtain ⟨fuel, hr⟩ := hr
  obtain ⟨t, htrading, rfl | ⟨-, rfl, -⟩⟩ := processOrder_cases hr
  · exact Or.inl (htrading.consumes.book.hasOrder hid)
  · have htaker : t.mem.order order = mem.order order := htrading.consumes.untouched hun
    unfold restRemainder at hid
    split_ifs at hid
    · by_cases heq : id = (mem.order order).id
      · exact Or.inr heq
      · refine Or.inl (htrading.consumes.book.hasOrder ?_)
        rw [OrderBook.hasOrder, OrderBook.orderMap_addOrder, Memory.modifyQuantity_order, htaker,
          AList.lookup_insert_ne heq] at hid
        exact hid
    · exact Or.inl (htrading.consumes.book.hasOrder hid)

/-! ## The ids a book carries -/

/-- The id is in the id map of the book, or on an order that rests in it. -/
def OrderBook.Names (mem : Memory) (b : OrderBook) (id : String) : Prop :=
  b.hasOrder id = true ∨ ∃ r, b.Rests r ∧ (mem.order r).id = id

instance (mem : Memory) (b : OrderBook) (id : String) : Decidable (b.Names mem id) :=
  decidable_of_iff (b.hasOrder id = true ∨ ∃ r ∈ b.resting, (mem.order r).id = id) (by
    simp [OrderBook.Names, OrderBook.mem_resting])

theorem OrderBook.not_names_empty (mem : Memory) (symbol id : String) :
    ¬ (OrderBook.empty symbol).Names mem id := by
  rintro (h | ⟨r, hr, -⟩)
  · simp [OrderBook.hasOrder, OrderBook.empty] at h
  · exact OrderBook.not_rests_empty symbol r hr

/-- A book that only forgets orders. -/
theorem OrderBook.Names.of_shrinks (h : b'.Names mem' id) (hs : Sane mem b)
    (hext : mem.Extends mem') (hsh : b.Shrinks b') : b.Names mem id := by
  rcases h with h | ⟨r, hr, rfl⟩
  · obtain ⟨r, hr⟩ := Option.isSome_iff_exists.mp h
    exact Or.inl (Option.isSome_iff_exists.mpr ⟨r, hsh.lookup id r hr⟩)
  · have hold := hsh.rests hr
    exact Or.inr ⟨r, hold, (hext.id_eq (hs.restsAllocated r hold)).symm⟩

/-- The memory has changed in quantities only. -/
theorem OrderBook.names_of_extends (hs : Sane mem b) (hext : mem.Extends mem') :
    b.Names mem' id ↔ b.Names mem id := by
  refine ⟨fun h => h.of_shrinks hs hext (.refl b), fun h => h.imp_right ?_⟩
  rintro ⟨r, hr, rfl⟩
  exact ⟨r, hr, hext.id_eq (hs.restsAllocated r hr)⟩

/-! ## After a cancellation -/

/-- A cancellation takes every order with the id out of one level, that of the order that the id
map leads to. -/
theorem OrderBook.rests_cancelOrder (hs : Sane mem b) {r r' : Ref}
    (hr : b.orderMap.lookup id = some r) : (b.cancelOrder mem id).2.Rests r' ↔
      b.Rests r' ∧ ¬ ((mem.order r').id = id ∧ (mem.order r').side = (mem.order r).side ∧
        (mem.order r').price = (mem.order r).price) := by
  have hbook : (b.cancelOrder mem id).2.Rests r' ↔ (b.alterLevel (mem.order r).side
      (mem.order r).price (cancelLevel mem id (mem.order r).quantity)).Rests r' := by
    simp only [OrderBook.cancelOrder, hr, rests_setOrderMap]
  constructor
  · intro hrests
    refine ⟨(b.cancelOrder_shrinks mem id).rests hrests, ?_⟩
    rintro ⟨hid, hside, hprice⟩
    obtain ⟨s, l', hl', hrl⟩ := hbook.mp hrests
    by_cases hs' : s = (mem.order r).side
    · subst hs'
      rw [levels_alterLevel_self, Keyed.mem_alter] at hl'
      rcases hl' with ⟨l, hl, -, hcancel⟩ | ⟨hl, hne⟩
      · obtain ⟨rfl, -⟩ := eraseEmpty_eq_some.mp hcancel
        exact (of_decide_eq_true (List.mem_filter.mp hrl).2) hid
      · exact hne ((hs.placed _ l' hl r' hrl).2.symm.trans hprice)
    · rw [levels_alterLevel_of_ne _ _ _ hs'] at hl'
      exact hs' ((hs.placed s l' hl' r' hrl).1.symm.trans hside)
  · rintro ⟨⟨s, l, hl, hrl⟩, hkept⟩
    obtain ⟨hside, hprice⟩ := hs.placed s l hl r' hrl
    refine hbook.mpr ?_
    by_cases hs' : s = (mem.order r).side
    · subst hs'
      by_cases hp : l.price = (mem.order r).price
      · have hid : (mem.order r').id ≠ id := fun hid => hkept ⟨hid, hside, hprice.trans hp⟩
        have hmem : r' ∈ removeId mem id l.orders :=
          List.mem_filter.mpr ⟨hrl, decide_eq_true hid⟩
        refine ⟨(mem.order r).side, { l with
          totalQuantity := l.totalQuantity - (mem.order r).quantity
          orders := removeId mem id l.orders }, ?_, hmem⟩
        rw [levels_alterLevel_self, Keyed.mem_alter]
        exact Or.inl ⟨l, hl, hp, eraseEmpty_eq_some.mpr ⟨rfl, List.ne_nil_of_mem hmem⟩⟩
      · refine ⟨(mem.order r).side, l, ?_, hrl⟩
        rw [levels_alterLevel_self, Keyed.mem_alter]
        exact Or.inr ⟨hl, hp⟩
    · refine ⟨s, l, ?_, hrl⟩
      rwa [levels_alterLevel_of_ne _ _ _ hs']

/-- The id stays behind on the orders at another level. -/
theorem OrderBook.names_cancelOrder (hs : Sane mem b) {r : Ref}
    (hr : b.orderMap.lookup id = some r) : (b.cancelOrder mem id).2.Names mem id ↔
      ∃ r', b.Rests r' ∧ (mem.order r').id = id ∧
        ¬ ((mem.order r').side = (mem.order r).side ∧
          (mem.order r').price = (mem.order r).price) := by
  have hmap : (b.cancelOrder mem id).2.hasOrder id = false := by
    simp [OrderBook.cancelOrder, hr, hasOrder]
  unfold Names
  rw [hmap]
  constructor
  · rintro (hfalse | ⟨r', hrests, hid⟩)
    · cases hfalse
    · obtain ⟨hold, hkept⟩ := (rests_cancelOrder hs hr).mp hrests
      exact ⟨r', hold, hid, fun hsame => hkept ⟨hid, hsame⟩⟩
  · rintro ⟨r', hold, hid, hne⟩
    exact Or.inr ⟨r', (rests_cancelOrder hs hr).mpr ⟨hold, fun hsame => hne hsame.2⟩, hid⟩

namespace MatchingAlgorithm

/-- A book carries an id after matching if it did before, or the incoming order has it. -/
theorem returns_names (hs : Sane mem b) (hf : Fresh mem b order)
    (hr : Returns feeModel mem b order result) (h : result.book.Names result.mem id) :
    b.Names mem id ∨ id = (mem.order order).id := by
  rcases h with h | ⟨r, hrests, rfl⟩
  · exact (hr.hasOrder hf.unmapped h).imp_left Or.inl
  · have hext := returns_extends hr
    rcases returns_rests hr hrests with hold | rfl
    · exact Or.inl (Or.inr ⟨r, hold, (hext.id_eq (hs.restsAllocated r hold)).symm⟩)
    · exact Or.inr (hext.id_eq hf.allocated)

/-- A trade names the incoming order and an order that rested when matching began. -/
theorem Trading.tradeIds (h : Trading feeModel order s t)
    (hrests : ∀ m, s.book.Rests m → m < s.mem.next) (horder : order < s.mem.next)
    (ht : trade ∈ t.trades) : trade ∈ s.trades ∨
      trade.takerOrderId = (s.mem.order order).id ∧
        ∃ m, s.book.Rests m ∧ trade.makerOrderId = (s.mem.order m).id := by
  induction h with
  | refl => exact Or.inl ht
  | @trade t m htrading hm _ ih =>
    have htrades : (fillOne feeModel order m t).trades = t.trades ++
        [(executeTrade feeModel t.mem t.book m order
          (min t.remainingQty (t.mem.order m).quantity)).1] := rfl
    rw [htrades, List.mem_append, List.mem_singleton] at ht
    rcases ht with ht | rfl
    · exact ih ht
    · have hcons : s.Consumes (fillOne feeModel order m t) :=
        htrading.consumes.trans (fillOne_consumes feeModel m t)
      exact Or.inr ⟨hcons.mem.id_eq horder, m, hm, hcons.mem.id_eq (hrests m hm)⟩

theorem returns_tradeIds (hs : Sane mem b) (horder : order < mem.next)
    (hr : Returns feeModel mem b order result) (ht : trade ∈ result.trades) :
    trade.takerOrderId = (mem.order order).id ∧
      ∃ m, b.Rests m ∧ trade.makerOrderId = (mem.order m).id := by
  obtain ⟨fuel, hr⟩ := hr
  have htrades : ∀ t, Trading feeModel order (start mem b order) t → trade ∈ t.trades →
      trade.takerOrderId = (mem.order order).id ∧
        ∃ m, b.Rests m ∧ trade.makerOrderId = (mem.order m).id := fun t htrading hmem =>
    (htrading.tradeIds hs.restsAllocated horder hmem).resolve_left List.not_mem_nil
  obtain ⟨t, htrading, rfl | ⟨-, rfl, -⟩⟩ := processOrder_cases hr
  · exact htrades _ htrading ht
  · refine htrades t htrading ?_
    unfold restRemainder at ht
    split_ifs at ht <;> exact ht

end MatchingAlgorithm

/-! ## The ids of trades -/

/-- Different numbers are written differently. -/
theorem toString_injective {m n : ℕ} (h : toString m = toString n) : m = n := by
  have hdigits := congrArg (fun s : String => Nat.ofDigitChars 10 s.toList 0) h
  simpa using hdigits

/-- The ids on a trade. -/
def Trade.ids (t : Trade) : List String := [t.makerOrderId, t.takerOrderId]

/-- The ids that the next trades get. -/
def Memory.tradeIds (mem : Memory) (n : ℕ) : List String :=
  (List.range' (mem.tradeCounter + 1) n).map fun k => "TRD" ++ toString k

theorem Memory.nodup_tradeIds (mem : Memory) (n : ℕ) : (mem.tradeIds n).Nodup := by
  refine List.Nodup.map (fun k k' h => ?_) List.nodup_range'
  exact toString_injective ((String.append_right_inj "TRD").mp h)

theorem OrderBook.modifyOrder_tradeCounter (h : b.modifyOrder mem orderId q = .ok (mem', b')) :
    mem'.tradeCounter = mem.tradeCounter := by
  cases hid : b.orderMap.lookup orderId with
  | none => simp [modifyOrder, hid] at h
  | some r =>
    obtain ⟨-, rfl | ⟨rfl, -⟩⟩ := modifyOrder_spec hid h <;> rfl

namespace MatchingAlgorithm

/-- A trade takes the next id. -/
theorem fillOne_tradeId (m : Ref) (s : Matching) :
    (fillOne feeModel order m s).trades.map Trade.tradeId =
        s.trades.map Trade.tradeId ++ s.mem.tradeIds 1 ∧
      (fillOne feeModel order m s).mem.tradeCounter = s.mem.tradeCounter + 1 := by
  unfold fillOne executeTrade
  simp [Memory.tradeIds, Memory.generateTradeId]

theorem Trading.minted (h : Trading feeModel order s t) :
    ∃ n, t.trades.map Trade.tradeId = s.trades.map Trade.tradeId ++ s.mem.tradeIds n ∧
      t.mem.tradeCounter = s.mem.tradeCounter + n := by
  induction h with
  | refl => exact ⟨0, (List.append_nil _).symm, rfl⟩
  | @trade t m _ _ _ ih =>
    obtain ⟨n, hids, hcounter⟩ := ih
    obtain ⟨hid, hnext⟩ := @fillOne_tradeId feeModel order m t
    refine ⟨n + 1, ?_, by omega⟩
    have hconcat : s.mem.tradeIds (n + 1) = s.mem.tradeIds n ++ t.mem.tradeIds 1 := by
      rw [Memory.tradeIds, Memory.tradeIds, Memory.tradeIds, List.range'_1_concat, hcounter,
        List.map_append, Nat.add_right_comm]
      rfl
    rw [hid, hids, hconcat, List.append_assoc]

/-- The trades of an order have consecutive ids, beginning with the next one. -/
theorem returns_minted (hr : Returns feeModel mem b order result) :
    ∃ n, result.trades.map Trade.tradeId = mem.tradeIds n ∧
      result.mem.tradeCounter = mem.tradeCounter + n := by
  obtain ⟨fuel, hr⟩ := hr
  obtain ⟨t, htrading, hcases⟩ := processOrder_cases hr
  obtain ⟨n, hids, hcounter⟩ := htrading.minted
  have hsame : result.trades = t.trades ∧ result.mem.tradeCounter = t.mem.tradeCounter := by
    rcases hcases with rfl | ⟨-, rfl, -⟩
    · exact ⟨rfl, rfl⟩
    · unfold restRemainder
      split_ifs <;> exact ⟨rfl, rfl⟩
  exact ⟨n, by rw [hsame.1, hids]; rfl, hsame.2.trans hcounter⟩

end MatchingAlgorithm

end GoQuant
