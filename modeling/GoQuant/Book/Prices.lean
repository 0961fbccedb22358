import GoQuant.Book.Matching

/-!
# The prices of trades

An order trades at prices of levels that its limit reaches, and leaves no level behind but those
that were there and the one at which it rests.

## Main results

* `returns_invariant` — what every pass keeps holds when a matching function returns.
* `returns_priced` — the prices of the trades.
* `returns_levels` — the prices of the levels afterwards.
-/

namespace GoQuant

open MatchingAlgorithm

namespace MatchingAlgorithm

variable {feeModel : Option FeeModel} {mem : Memory} {b : OrderBook} {order : Ref}
  {s t result : Matching}

/-- The invariant rule of the matching functions: their loops, and the single pass of a FOK order,
go over the orders that `getMatchingOrders` answers. -/
theorem returns_invariant (P : Matching → Prop) (hstart : P (start mem b order))
    (hpass : ∀ s, P s →
      P (fillFrom feeModel order (s.book.getMatchingOrders s.mem (s.mem.order order)) s))
    (hr : Returns feeModel mem b order result) :
    ∃ t, P t ∧ (result = t ∨ result = restRemainder order t) := by
  have hsome : ∀ s t, P s → pass feeModel order s = some t → P t := by
    intro s t hs ht
    have hkept := hpass s hs
    unfold pass at ht
    split at ht
    · cases ht
    · obtain rfl := Option.some.inj ht
      exact hkept
  have hmarket : ∀ s t, P s → marketStep feeModel order s = some t → P t := by
    intro s t hs ht
    unfold marketStep at ht
    split_ifs at ht
    exact hsome s t hs ht
  have hlimit : ∀ s t, P s → limitStep feeModel order s = some t → P t := by
    intro s t hs ht
    unfold limitStep at ht
    split_ifs at ht
    exact hsome s t hs ht
  obtain ⟨fuel, hr⟩ := hr
  unfold processOrder at hr
  split at hr
  · have hrun : Loop.run (marketStep feeModel order) fuel (start mem b order) = some result := by
      simpa [processMarketOrder] using hr
    exact ⟨result, (Loop.run_invariant P hmarket hstart hrun).1, Or.inl rfl⟩
  · simp only [processLimitOrder, Except.ok.injEq, Option.map_eq_some_iff] at hr
    obtain ⟨t, hrun, rfl⟩ := hr
    exact ⟨t, (Loop.run_invariant P hlimit hstart hrun).1, Or.inr rfl⟩
  · have hrun : Loop.run (limitStep feeModel order) fuel (start mem b order) = some result := by
      simpa [processIOCOrder] using hr
    exact ⟨result, (Loop.run_invariant P hlimit hstart hrun).1, Or.inl rfl⟩
  · simp only [processFOKOrder, Except.ok.injEq, Option.some.injEq] at hr
    split_ifs at hr
    · exact ⟨start mem b order, hstart, Or.inl hr.symm⟩
    · exact ⟨result, hr ▸ hpass _ hstart, Or.inl rfl⟩
  · cases hr

/-- A trade is made at the price of the order that it is made with. -/
theorem fillFrom_prices {ms : List Ref} (hms : ∀ m ∈ ms, m < s.mem.next) :
    ∀ trade ∈ (fillFrom feeModel order ms s).trades,
      trade ∈ s.trades ∨ ∃ m ∈ ms, trade.price = (s.mem.order m).price := by
  induction ms generalizing s with
  | nil => exact fun trade htrade => Or.inl htrade
  | cons m ms ih =>
    intro trade htrade
    simp only [fillFrom] at htrade
    split_ifs at htrade
    · exact Or.inl htrade
    have hcons : s.Consumes (fillOne feeModel order m s) := fillOne_consumes feeModel m s
    rcases ih (fun m' hm' => hcons.next ▸ hms m' (List.mem_cons_of_mem m hm')) trade htrade with
      hold | ⟨m', hm', hprice⟩
    · have htrades : (fillOne feeModel order m s).trades = s.trades ++
          [(executeTrade feeModel s.mem s.book m order
            (min s.remainingQty (s.mem.order m).quantity)).1] := rfl
      rw [htrades, List.mem_append, List.mem_singleton] at hold
      rcases hold with hold | rfl
      · exact Or.inl hold
      · exact Or.inr ⟨m, List.mem_cons_self, rfl⟩
    · have hmem := List.mem_cons_of_mem m hm'
      exact Or.inr ⟨m', hmem, hprice.trans (hcons.mem.price_eq (hms m' hmem))⟩

end MatchingAlgorithm

section Returns

variable {feeModel : Option FeeModel} {mem : Memory} {b : OrderBook} {order : Ref}
  {result : Matching}

/-- **The prices of the trades.** Only an order with a quantity trades, at prices of levels on the
other side that its limit reaches. -/
theorem returns_priced (hs : Sane mem b) (hun : b.Unmapped order)
    (hr : Returns feeModel mem b order result) : ∀ trade ∈ result.trades,
      0 < (mem.order order).quantity ∧ ∃ l ∈ b.levels (mem.order order).side.opposite,
        OrderBook.within (mem.order order) l.price ∧ l.price = trade.price := by
  let P (s : Matching) : Prop := (start mem b order).Consumes s ∧ ∀ trade ∈ s.trades,
    0 < (mem.order order).quantity ∧ ∃ l ∈ b.levels (mem.order order).side.opposite,
      OrderBook.within (mem.order order) l.price ∧ l.price = trade.price
  have hpass : ∀ s, P s →
      P (fillFrom feeModel order (s.book.getMatchingOrders s.mem (s.mem.order order)) s) := by
    rintro s ⟨hcons, hpriced⟩
    have hsane : Sane s.mem s.book := hcons.sane hs
    have htaker : s.mem.order order = mem.order order := hcons.untouched hun
    have hrests : ∀ m ∈ s.book.getMatchingOrders s.mem (s.mem.order order), s.book.Rests m :=
      fun m => OrderBook.rests_of_mem_getMatchingOrders
    refine ⟨hcons.trans (fillFrom_consumes _ s), fun trade htrade => ?_⟩
    obtain hold | ⟨m, hm, hprice⟩ :=
      fillFrom_prices (fun m hm => hsane.restsAllocated m (hrests m hm)) trade htrade
    · exact hpriced trade hold
    · rw [htaker] at hm
      rw [OrderBook.getMatchingOrders_eq] at hm
      constructor
      · by_contra hq
        rw [Fill.covering_of_nonpos (not_lt.mp hq)] at hm
        cases hm
      · obtain ⟨l', hl', hwithin, hml'⟩ :=
          (OrderBook.mem_reachRefs hsane).mp (Fill.covering_sublist.subset hm)
        obtain ⟨l, hl, hp, -⟩ := hcons.book.mem_levels hl'
        have hplaced := (hsane.placed _ l' hl' m hml').2
        exact ⟨l, hl, hp ▸ hwithin, by rw [hprice, hplaced, hp]⟩
  obtain ⟨t, ⟨-, hpriced⟩, rfl | rfl⟩ := returns_invariant P ⟨.refl _, nofun⟩ hpass hr
  · exact hpriced
  · unfold MatchingAlgorithm.restRemainder
    split_ifs <;> exact hpriced

/-- The levels that matching leaves were there before, or hold the remainder. -/
theorem returns_levels (hun : b.Unmapped order) (hr : Returns feeModel mem b order result)
    {side : Side} : ∀ l' ∈ result.book.levels side, (∃ l ∈ b.levels side, l.price = l'.price) ∨
      (mem.order order).type = .limit ∧ 0 < (mem.order order).quantity ∧
        (mem.order order).side = side ∧ (mem.order order).price = l'.price := by
  obtain ⟨fuel, hr⟩ := hr
  obtain ⟨t, htrading, hcases⟩ := processOrder_cases hr
  have hcons : (start mem b order).Consumes t := htrading.consumes
  have hold : ∀ l' ∈ t.book.levels side, ∃ l ∈ b.levels side, l.price = l'.price := by
    intro l' hl'
    obtain ⟨l, hl, hp, -⟩ := hcons.book.mem_levels hl'
    exact ⟨l, hl, hp.symm⟩
  intro l' hl'
  rcases hcases with rfl | ⟨htype, rfl, -, hpos⟩
  · exact Or.inl (hold l' hl')
  · unfold MatchingAlgorithm.restRemainder at hl'
    split_ifs at hl' with hrem
    · rcases OrderBook.mem_levels_addOrder hl' with hkept | ⟨hside, l, -, hp, rfl⟩
      · exact Or.inl (hold l' hkept)
      · rw [Memory.modifyQuantity_order, hcons.untouched hun] at hside hp
        exact Or.inr ⟨htype, hpos hrem, hside.symm, hp.symm⟩
    · exact Or.inl (hold l' hl')

end Returns

end GoQuant
