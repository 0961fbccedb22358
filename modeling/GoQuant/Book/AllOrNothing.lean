import GoQuant.Book.Refinement

/-!
# All or nothing

A FOK order trades its whole quantity or nothing. Which of the two is decided by the totals of
the levels within its limit, although the code adds up the orders of a list that it cuts short.
When the order trades, it does what an IOC order would have done.

## Main results

* `Greedy.fills_of_type`, `Greedy.ladder_of_type` — the walk of an order with a limit, whatever
  its type.
* `available_eq` — the totals within a limit are the quantities in reach.
* `processFOKOrder_all_or_nothing` — the two cases.
-/

namespace GoQuant

open MatchingAlgorithm

/-- The total quantity of the other side at prices within an order's limit. -/
def OrderBook.available (b : OrderBook) (incoming : Order) : ℚ :=
  (((b.levels incoming.side.opposite).filter fun l => ¬ beyond incoming l.price).map
    PriceLevel.totalQuantity).sum

namespace Greedy

variable {taker : Order} {type : OrderType} {ladder : Side → List (Tier ℚ Order)}

/-- Only a MARKET order has no limit. -/
theorem accepts_of_type (htaker : taker.type ≠ .market) (htype : type ≠ .market) :
    accepts { taker with type := type } = accepts taker := by
  funext price
  obtain ⟨id, symbol, side, type', price', quantity⟩ := taker
  cases type <;> cases type' <;> cases side <;> first | rfl | contradiction

/-- What an order takes down to its limit does not depend on its type. -/
theorem fills_of_type (htaker : taker.type ≠ .market) (htype : type ≠ .market) :
    fills { taker with type := type } ladder = fills taker ladder := by
  unfold fills makers
  rw [accepts_of_type htaker htype]

/-- Nor does what is left of the ladders, if its remainder does not rest. -/
theorem ladder_of_type (htaker : taker.type ≠ .market) (htype : type ≠ .market)
    (hrest : taker.type ≠ .limit) (hrest' : type ≠ .limit) (s : Side) :
    Greedy.ladder { taker with type := type } ladder s = Greedy.ladder taker ladder s := by
  unfold Greedy.ladder
  rw [fills_of_type htaker htype]
  simp only [hrest, hrest', false_and, if_false]

end Greedy

section AllOrNothing

variable {feeModel : Option FeeModel} {mem : Memory} {b : OrderBook} {order order' : Ref}

/-- The totals of levels are the quantities of their orders. -/
theorem WellFormed.sum_totals (h : WellFormed mem b) {s : Side} {ls : List PriceLevel}
    (hls : ls ⊆ b.levels s) :
    (ls.map PriceLevel.totalQuantity).sum = mem.total (ls.flatMap PriceLevel.orders) := by
  induction ls with
  | nil => rfl
  | cons l ls ih =>
    obtain ⟨hl, hls⟩ := List.cons_subset.mp hls
    rw [List.map_cons, List.sum_cons, ih hls, h.total s l hl]
    simp [Memory.total]

/-- The totals within the limit are the quantities of the orders in reach. -/
theorem WellFormed.available_eq (h : WellFormed mem b) {incoming : Order}
    (htype : incoming.type ≠ .market) :
    b.available incoming = mem.total (b.reachRefs incoming) := by
  unfold OrderBook.available OrderBook.reachRefs
  rw [OrderBook.takeWhile_within h.toSane, h.sum_totals (List.filter_subset_self _)]
  congr 2
  refine List.filter_congr fun l _ => ?_
  simp [OrderBook.within, htype]

/-- A FOK order is turned away exactly if less than its quantity is available. -/
theorem WellFormed.rejects_iff (h : WellFormed mem b)
    (htype : (mem.order order).type = .fok) :
    Greedy.rejects (mem.order order) (b.ladder mem) ↔
      b.available (mem.order order) < (mem.order order).quantity := by
  rw [rejects_ladder, h.available_eq (by simp [htype]), Fill.unfilled_pos_iff]
  · simp [htype, Memory.total]
  · intro r hr
    exact h.nonneg r (OrderBook.rests_of_mem_reachRefs hr)

/-- **All or nothing.** On a well-formed book, a FOK order of positive quantity whose id does
not rest trades exactly its quantity if that much is available within its limit, with the trades
and the book of an IOC order with the same fields. Otherwise it trades nothing and nothing
changes. -/
theorem processFOKOrder_all_or_nothing (feeModel : Option FeeModel) (h : WellFormed mem b)
    (hlt : order < mem.next) (hlt' : order' < mem.next) (htype : (mem.order order).type = .fok)
    (hsame : mem.order order' = { mem.order order with type := .ioc })
    (hq : 0 < (mem.order order).quantity) (hid : b.hasOrder (mem.order order).id = false) :
    let fok := processFOKOrder feeModel mem b order
    if (mem.order order).quantity ≤ b.available (mem.order order) then
      (fok.trades.map Trade.quantity).sum = (mem.order order).quantity ∧
      ∃ ioc, (∀ fuel ≥ 2, processIOCOrder feeModel fuel mem b order' = some ioc) ∧
        fok.trades = ioc.trades ∧ SameContents fok.mem fok.book ioc.mem ioc.book
    else fok.trades = [] ∧ fok.book = b ∧ fok.mem = mem := by
  intro fok
  split_ifs with hq'
  · have hnot : ¬ Greedy.rejects (mem.order order) (b.ladder mem) := by
      rw [h.rejects_iff htype]
      exact not_lt.mpr hq'
    have hlimit : (mem.order order).type ≠ .market := by simp [htype]
    have hrest : (mem.order order).type ≠ .limit := by simp [htype]
    obtain ⟨result, hrun, htrades, hafter, -, -, hwell⟩ :=
      processOrder_walk feeModel h hlt hq (by simp [htype, OrderType.Matchable]) hid
    obtain rfl : fok = result := by
      have hfok := hrun 2 le_rfl
      simp only [processOrder, htype] at hfok
      exact Option.some.inj (Except.ok.inj hfok)
    have htype' : (mem.order order').type = .ioc := by rw [hsame]
    obtain ⟨ioc, hrun', htrades', hafter', -, -, hwell'⟩ := processOrder_walk feeModel h hlt'
      (by rw [hsame]; exact hq) (by simp [htype', OrderType.Matchable]) (by rw [hsame]; exact hid)
    have hne : (mem.order order').type ≠ .fok := by simp [htype']
    rw [Greedy.takes, if_neg hnot] at htrades
    rw [Greedy.after, if_neg hnot] at hafter
    rw [Greedy.takes_eq_fills hne, hsame, Greedy.fills_of_type hlimit (by decide)] at htrades'
    rw [Greedy.after_eq_ladder hne, hsame] at hafter'
    refine ⟨?_, ioc, ?_, ?_, ?_⟩
    · rw [htrades, map_tradesOf Trade.quantity Prod.snd fun _ _ => rfl]
      exact Fill.sum_fills_eq hq.le (not_lt.mp fun hrem => hnot ⟨htype, hrem⟩)
    · intro fuel hfuel
      have hioc := hrun' fuel hfuel
      simp only [processOrder, htype'] at hioc
      exact Except.ok.inj hioc
    · rw [htrades, htrades']
      exact tradesOf_congr rfl rfl
    · refine hwell.sameContents_of_ladder hwell' ?_
      intro side
      rw [hafter, hafter', Greedy.ladder_of_type hlimit (by decide) hrest (by decide)]
  · have hstart : fok = start mem b order := by
      refine if_pos ?_
      rw [availableQty_lt_iff_unfilled h.nonneg]
      exact ((rejects_ladder mem b _).mp ((h.rejects_iff htype).mpr (not_le.mp hq'))).2
    rw [hstart]
    exact ⟨rfl, rfl, rfl⟩

/-- A bid for seven of the ten lots on offer. -/
theorem processFOKOrder_all_or_nothing_seven :
    let mem := ((twoAsks.1.alloc ⟨"t", "S", .buy, .fok, 100, 7⟩).1.alloc
      ⟨"t", "S", .buy, .ioc, 100, 7⟩).1
    let fok := processFOKOrder none mem twoAsks.2 2
    (fok.trades.map Trade.quantity).sum = 7 ∧
      ∃ ioc, (∀ fuel ≥ 2, processIOCOrder none fuel mem twoAsks.2 3 = some ioc) ∧
        fok.trades = ioc.trades ∧ SameContents fok.mem fok.book ioc.mem ioc.book := by
  intro mem fok
  have h := @processFOKOrder_all_or_nothing mem twoAsks.2 2 3 none
    ((wellFormed_twoAsks.of_alloc ⟨"t", "S", .buy, .fok, 100, 7⟩).of_alloc
      ⟨"t", "S", .buy, .ioc, 100, 7⟩) (by decide) (by decide) (by decide +kernel)
    (by decide +kernel) (by decide +kernel) (by decide +kernel)
  rwa [if_pos (by decide +kernel)] at h

end AllOrNothing

end GoQuant
