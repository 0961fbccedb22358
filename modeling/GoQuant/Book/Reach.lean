import GoQuant.Book.Refinement

/-!
# The orders offered to an incoming order

`getMatchingOrders` scans the levels with one exit at the taker's limit and another at the
taker's quantity; `hasMatchingOrders` looks at the best level alone. Both are read here off the
book as it stands, a side's map in its own order and no level empty.

## Main results

* `getMatchingOrders_shortest` — the scan answers the shortest prefix of the orders within the
  limit that covers the taker, and the guard tells whether there is one to answer.
-/

namespace GoQuant

namespace OrderBook

/-- The opposite side's orders at the prices the taker's limit accepts, best price first and by
arrival. -/
def accepted (b : OrderBook) (taker : Order) : List Ref :=
  ((b.levels taker.side.opposite).filter fun l => Greedy.accepts taker l.price).flatMap
    PriceLevel.orders

variable {b : OrderBook} {taker : Order}

theorem reachRefs_eq_accepted
    (h : Keyed.Sorted PriceLevel.price taker.side.opposite.ahead
      (b.levels taker.side.opposite)) :
    b.reachRefs taker = b.accepted taker := by
  rw [reachRefs, takeWhile_within_of_sorted h, within_eq_accepts]
  rfl

theorem accepted_ne_nil (h : ∀ l ∈ b.levels taker.side.opposite, l.orders ≠ []) :
    b.accepted taker ≠ [] ↔
      ∃ l ∈ b.levels taker.side.opposite, Greedy.accepts taker l.price := by
  constructor
  · intro hne
    obtain ⟨r, hr⟩ := List.exists_mem_of_ne_nil _ hne
    obtain ⟨l, hl, -⟩ := List.mem_flatMap.mp hr
    exact ⟨l, List.mem_filter.mp hl⟩
  · rintro ⟨l, hl, haccepts⟩
    obtain ⟨r, hr⟩ := List.exists_mem_of_ne_nil _ (h l hl)
    exact List.ne_nil_of_mem (List.mem_flatMap.mpr ⟨l, List.mem_filter.mpr ⟨hl, haccepts⟩, hr⟩)

end OrderBook

section Shortest

variable {mem : Memory} {b : OrderBook} {taker : Order}

/-- `getMatchingOrders` answers the shortest prefix of the accepted orders whose quantities
reach the taker's, all of them if there is none, and `hasMatchingOrders` is the test whether
the answer is empty. The order of a side's map and its nonempty levels are all that is used. -/
theorem getMatchingOrders_shortest
    (hsorted : ∀ side : Side, Keyed.Sorted PriceLevel.price side.ahead (b.levels side))
    (hnonempty : ∀ side, ∀ l ∈ b.levels side, l.orders ≠ []) (hq : 0 < taker.quantity) :
    Fill.Shortest (fun r => (mem.order r).quantity) taker.quantity (b.accepted taker)
        (b.getMatchingOrders mem taker) ∧
      (b.hasMatchingOrders taker = true ↔ b.getMatchingOrders mem taker ≠ []) := by
  have hreach : b.reachRefs taker = b.accepted taker :=
    OrderBook.reachRefs_eq_accepted (hsorted _)
  constructor
  · rw [OrderBook.getMatchingOrders_eq, hreach]
    exact Fill.shortest_covering
  · rw [OrderBook.hasMatchingOrders_iff_of_sorted (hsorted _), ne_eq,
      OrderBook.getMatchingOrders_eq_nil hq, hreach, within_eq_accepts]
    exact (OrderBook.accepted_ne_nil (hnonempty _)).symm

/-- A bid for seven lots is offered both asks of five. -/
theorem getMatchingOrders_shortest_seven :
    let taker : Order := ⟨"t", "S", .buy, .limit, 100, 7⟩
    Fill.Shortest (fun r => (twoAsks.1.order r).quantity) 7 (twoAsks.2.accepted taker)
        (twoAsks.2.getMatchingOrders twoAsks.1 taker) ∧
      (twoAsks.2.hasMatchingOrders taker = true ↔
        twoAsks.2.getMatchingOrders twoAsks.1 taker ≠ []) ∧
      twoAsks.2.getMatchingOrders twoAsks.1 taker = [0, 1] := by
  intro taker
  obtain ⟨hshortest, hhas⟩ := @getMatchingOrders_shortest twoAsks.1 twoAsks.2 taker
    wellFormed_twoAsks.sorted wellFormed_twoAsks.nonempty (by decide)
  exact ⟨hshortest, hhas, by decide +kernel⟩

end Shortest

end GoQuant
