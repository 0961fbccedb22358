import GoQuant.Book.WellFormed
import GoQuant.Book.Renaming
import Mathlib.Data.List.Find

/-!
# Matching refines the greedy price-time walk

The abstract book is a ladder of orders for each side, best price first and by arrival,
without ids, running totals or shared objects. On it an incoming order is matched by one
greedy walk down the other side. `processOrder`, with its queries of a book that changes
under the loop, returns the trades of that walk and leaves the ladders of that walk.

## Main definitions

* `OrderBook.ladder` — the abstract book a book stands for.
* `Greedy.fills`, `Greedy.remainder`, `Greedy.ladder` — the greedy walk and its outcome.
* `Greedy.takes`, `Greedy.left`, `Greedy.after` — the same for all types, FOK included.

## Main results

* `processOrder_walk`, `processOrder_eq_greedy` — `processOrder` on a well-formed book is the
  greedy walk.
* `WellFormed.sameContents_of_ladder` — well-formed books with equal ladders hold the same.
-/

namespace GoQuant

open MatchingAlgorithm

/-- The orders of one side by value, best price first and by arrival. -/
def OrderBook.ladder (mem : Memory) (b : OrderBook) (s : Side) : List (Tier ℚ Order) :=
  (b.queues s).map (Tier.map mem.order)

namespace Greedy

/-- The taker's limit accepts a price; a MARKET order has none. -/
def accepts (taker : Order) (price : ℚ) : Bool :=
  match taker.type, taker.side with
  | .market, _ => true
  | _, .buy => decide (price ≤ taker.price)
  | _, .sell => decide (taker.price ≤ price)

/-- The other side's orders in order of best price and arrival, up to the taker's limit. -/
def makers (taker : Order) (ladder : Side → List (Tier ℚ Order)) : List Order :=
  Ladder.reach (accepts taker) (ladder taker.side.opposite)

/-- The trades of the walk: each maker with the quantity it gives. -/
def fills (taker : Order) (ladder : Side → List (Tier ℚ Order)) : List (Order × ℚ) :=
  Fill.fills Order.quantity taker.quantity (makers taker ladder)

/-- What the walk leaves of the taker. -/
def remainder (taker : Order) (ladder : Side → List (Tier ℚ Order)) : ℚ :=
  Fill.unfilled Order.quantity taker.quantity (makers taker ladder)

/-- An order after the walk: gone when fully filled, reduced when partially filled. -/
def settle (fs : List (Order × ℚ)) (o : Order) : Option Order :=
  match fs.find? fun p => p.1 = o with
  | none => some o
  | some p => if p.2 = o.quantity then none else some { o with quantity := o.quantity - p.2 }

/-- The ladders after the walk. A LIMIT order's remainder queues up at its own price; that
of a MARKET or IOC order is dropped. -/
def ladder (taker : Order) (ladder : Side → List (Tier ℚ Order)) (s : Side) :
    List (Tier ℚ Order) :=
  if s = taker.side.opposite then Ladder.update (settle (fills taker ladder)) (ladder s)
  else if taker.type = .limit ∧ 0 < remainder taker ladder then
    Ladder.push s.ahead taker.price { taker with quantity := remainder taker ladder } (ladder s)
  else ladder s

/-- A FOK order that the walk would not fill is turned away. -/
def rejects (taker : Order) (ladder : Side → List (Tier ℚ Order)) : Prop :=
  taker.type = .fok ∧ 0 < remainder taker ladder

instance (taker : Order) (ladder : Side → List (Tier ℚ Order)) :
    Decidable (rejects taker ladder) :=
  inferInstanceAs (Decidable (_ ∧ _))

/-- The trades of an order of any type. -/
def takes (taker : Order) (ladder : Side → List (Tier ℚ Order)) : List (Order × ℚ) :=
  if rejects taker ladder then [] else fills taker ladder

/-- What is left of an order of any type. -/
def left (taker : Order) (ladder : Side → List (Tier ℚ Order)) : ℚ :=
  if rejects taker ladder then taker.quantity else remainder taker ladder

/-- The ladders after an order of any type. -/
def after (taker : Order) (ladder : Side → List (Tier ℚ Order)) : Side → List (Tier ℚ Order) :=
  if rejects taker ladder then ladder else Greedy.ladder taker ladder

section Types

variable {taker : Order} {ladder : Side → List (Tier ℚ Order)}

theorem not_rejects (htype : taker.type ≠ .fok) : ¬ rejects taker ladder :=
  fun hrejects => htype hrejects.1

theorem takes_eq_fills (htype : taker.type ≠ .fok) : takes taker ladder = fills taker ladder :=
  if_neg (not_rejects htype)

theorem after_eq_ladder (htype : taker.type ≠ .fok) :
    after taker ladder = Greedy.ladder taker ladder :=
  if_neg (not_rejects htype)

/-- The side walked down. -/
theorem after_opposite (hne : ∀ t ∈ ladder taker.side.opposite, t.items ≠ []) :
    after taker ladder taker.side.opposite =
      Ladder.update (settle (takes taker ladder)) (ladder taker.side.opposite) := by
  unfold after takes
  split_ifs
  · exact (Ladder.update_some hne).symm
  · exact if_pos rfl

/-- The taker's own side. -/
theorem after_own : after taker ladder taker.side =
    if taker.type = .limit ∧ 0 < left taker ladder then
      Ladder.push taker.side.ahead taker.price { taker with quantity := left taker ladder }
        (ladder taker.side)
    else ladder taker.side := by
  unfold after left
  split_ifs with hrejects htype htype
  · exact absurd (hrejects.1.symm.trans htype.1) (by decide)
  · rfl
  all_goals
    unfold Greedy.ladder
    rw [if_neg (Side.opposite_ne _).symm]
  · rw [if_pos htype]
  · rw [if_neg htype]

end Types

end Greedy

theorem within_eq_accepts (taker : Order) : OrderBook.within taker = Greedy.accepts taker := by
  obtain ⟨id, symbol, side, type, limit, quantity⟩ := taker
  funext price
  cases type <;> cases side <;>
    simp [OrderBook.within, Greedy.accepts, OrderBook.beyond]

section Refinement

variable {feeModel : Option FeeModel} {mem : Memory} {b : OrderBook} {order r : Ref}
  {s t : Matching}

theorem makers_ladder (mem : Memory) (b : OrderBook) (taker : Order) :
    Greedy.makers taker (b.ladder mem) = (b.reachRefs taker).map mem.order := by
  rw [Greedy.makers, OrderBook.ladder, Ladder.reach_map, OrderBook.reachRefs_eq_reach,
    within_eq_accepts]

theorem fills_ladder (mem : Memory) (b : OrderBook) (taker : Order) :
    Greedy.fills taker (b.ladder mem) =
      (Fill.fills (fun r => (mem.order r).quantity) taker.quantity (b.reachRefs taker)).map
        fun p => (mem.order p.1, p.2) := by
  rw [Greedy.fills, makers_ladder, Fill.fills_map]

theorem remainder_ladder (mem : Memory) (b : OrderBook) (taker : Order) :
    Greedy.remainder taker (b.ladder mem) =
      Fill.unfilled (fun r => (mem.order r).quantity) taker.quantity (b.reachRefs taker) := by
  rw [Greedy.remainder, makers_ladder, Fill.unfilled_map]

theorem rejects_ladder (mem : Memory) (b : OrderBook) (taker : Order) :
    Greedy.rejects taker (b.ladder mem) ↔ taker.type = .fok ∧ 0 < Fill.unfilled
      (fun r => (mem.order r).quantity) taker.quantity (b.reachRefs taker) := by
  unfold Greedy.rejects
  rw [remainder_ladder]

theorem takes_ladder (mem : Memory) (b : OrderBook) (order : Ref) :
    Greedy.takes (mem.order order) (b.ladder mem) =
      (takes mem b order).map fun p => (mem.order p.1, p.2) := by
  unfold Greedy.takes takes
  by_cases h : Greedy.rejects (mem.order order) (b.ladder mem)
  · rw [if_pos h, if_pos ((rejects_ladder mem b _).mp h)]
    rfl
  · rw [if_neg h, if_neg (mt (rejects_ladder mem b _).mpr h), fills_ladder]

/-- What is left is what is not traded. -/
theorem left_ladder (mem : Memory) (b : OrderBook) (order : Ref) :
    Greedy.left (mem.order order) (b.ladder mem) =
      (mem.order order).quantity - ((takes mem b order).map Prod.snd).sum := by
  unfold Greedy.left takes
  by_cases h : Greedy.rejects (mem.order order) (b.ladder mem)
  · rw [if_pos h, if_pos ((rejects_ladder mem b _).mp h)]
    simp
  · rw [if_neg h, if_neg (mt (rejects_ladder mem b _).mpr h), remainder_ladder]
    exact eq_sub_of_add_eq' Fill.sum_fills_add_unfilled

/-- Resting orders of an indexed book differ as values, by their ids. -/
theorem Indexed.order_injective (h : Indexed mem b) {r r' : Ref} (hr : b.Rests r)
    (hr' : b.Rests r') (heq : mem.order r = mem.order r') : r = r' :=
  h.eq_of_id hr (h.found r' hr') (by rw [heq])

theorem items_ladder (mem : Memory) (b : OrderBook) (s : Side) :
    Ladder.items (b.ladder mem s) = (Ladder.items (b.queues s)).map mem.order := by
  simp only [OrderBook.ladder, Ladder.items, List.flatMap_map, List.map_flatMap]
  rfl

namespace WellFormed

variable {mem' : Memory} {b' : OrderBook}

/-- The ladder tells what a level holds. -/
theorem contents_levels (h : WellFormed mem b) (s : Side) :
    (b.levels s).map (PriceLevel.contents mem) =
      (b.ladder mem s).map fun t => (t.key, t.items, (t.items.map Order.quantity).sum) := by
  rw [OrderBook.ladder, OrderBook.queues, List.map_map, List.map_map]
  refine List.map_congr_left fun l hl => ?_
  simp only [PriceLevel.contents, Function.comp_apply, Tier.map, PriceLevel.tier, List.map_map,
    h.total s l hl]
  rfl

/-- The ladder tells what the id map finds. -/
theorem found_iff (h : WellFormed mem b) (id : String) (o : Order) :
    (b.orderMap.lookup id).map mem.order = some o ↔
      (∃ s, o ∈ Ladder.items (b.ladder mem s)) ∧ o.id = id := by
  simp only [Option.map_eq_some_iff, items_ladder, List.mem_map]
  constructor
  · rintro ⟨r, hr, rfl⟩
    obtain ⟨s, hs⟩ := OrderBook.rests_iff.mp (h.resting id r hr)
    exact ⟨⟨s, r, hs, rfl⟩, h.named id r hr⟩
  · rintro ⟨⟨s, r, hs, rfl⟩, rfl⟩
    exact ⟨r, h.found r (OrderBook.rests_iff.mpr ⟨s, hs⟩), rfl⟩

/-- Well-formed books with the same ladders hold the same. -/
theorem sameContents_of_ladder (h : WellFormed mem b) (h' : WellFormed mem' b')
    (hladder : ∀ s, b'.ladder mem' s = b.ladder mem s) : SameContents mem b mem' b' where
  levels s := by
    rw [h.contents_levels, h'.contents_levels, hladder]
  found id := by
    refine Option.ext fun o => ?_
    simp only [h.found_iff, h'.found_iff, hladder]

end WellFormed

/-- The order object after the fills is the order value after the walk. -/
theorem settle_eq (h : Indexed s.mem s.book) {fs : List (Ref × ℚ)}
    (hfills : s.Fills feeModel order fs t) (hnd : (fs.map Prod.fst).Nodup)
    (hfs : ∀ p ∈ fs, s.book.Rests p.1) (hr : s.book.Rests r) :
    Greedy.settle (fs.map fun p => (s.mem.order p.1, p.2)) (s.mem.order r) =
      (Option.guard (fun r => decide ((r, (s.mem.order r).quantity) ∉ fs)) r).map
        t.mem.order := by
  have hfind : (fs.map fun p => (s.mem.order p.1, p.2)).find?
      (fun p => p.1 = s.mem.order r) =
        (fs.find? fun p => p.1 = r).map fun p => (s.mem.order p.1, p.2) := by
    rw [List.find?_map]
    congr 1
    refine List.find?_congr fun p hp => ?_
    have hiff : s.mem.order p.1 = s.mem.order r ↔ p.1 = r :=
      ⟨h.order_injective (hfs p hp) hr, fun heq => by rw [heq]⟩
    simp [hiff]
  unfold Greedy.settle
  rw [hfind]
  cases hp : fs.find? fun p => p.1 = r with
  | none =>
    have hnot : r ∉ fs.map Prod.fst := by
      intro hin
      obtain ⟨p, hmem, rfl⟩ := List.mem_map.mp hin
      have hnone := List.find?_eq_none.mp hp p hmem
      simp at hnone
    have hgone : (r, (s.mem.order r).quantity) ∉ fs :=
      fun hin => hnot (List.mem_map.mpr ⟨_, hin, rfl⟩)
    simp [Option.guard, hgone, hfills.order_of_not_mem hr hnot]
  | some p =>
    obtain ⟨a, q⟩ := p
    have hmem : (a, q) ∈ fs := List.mem_of_find?_eq_some hp
    obtain rfl : a = r := by simpa using List.find?_some hp
    have hgiven : Fill.given fs a = q := Fill.given_eq_of_mem hnd hmem
    have hgone : (a, (s.mem.order a).quantity) ∈ fs ↔ q = (s.mem.order a).quantity := by
      constructor
      · intro hin
        rw [← hgiven, Fill.given_eq_of_mem hnd hin]
      · rintro rfl
        exact hmem
    by_cases hq : q = (s.mem.order a).quantity
    · have hin := hgone.mpr hq
      simp [Option.guard, hin, hq]
    · have hnot : (a, (s.mem.order a).quantity) ∉ fs := fun hin => hq (hgone.mp hin)
      have horder := hfills.makers a hr hnot
      simp [Option.guard, hnot, hq, horder, hgiven]

/-- The side walked down. -/
theorem ladder_opposite (h : Indexed mem b)
    (hfills : (start mem b order).Fills feeModel order (takes mem b order) t) :
    t.book.ladder t.mem (mem.order order).side.opposite =
      Greedy.after (mem.order order) (b.ladder mem) (mem.order order).side.opposite := by
  have hne : ∀ u ∈ b.ladder mem (mem.order order).side.opposite, u.items ≠ [] := by
    intro u hu
    obtain ⟨v, hv, rfl⟩ := List.mem_map.mp hu
    exact fun hnil => h.items_ne_nil v hv (List.map_eq_nil_iff.mp hnil)
  rw [Greedy.after_opposite hne, OrderBook.ladder, hfills.queues, Ladder.retain,
    Ladder.map_update, OrderBook.ladder, Ladder.update_map, takes_ladder]
  refine Ladder.update_congr fun r hr => ?_
  exact (settle_eq h hfills (takes_nodup h.toSane)
    (fun p hp => OrderBook.rests_of_mem_reachRefs (mem_reachRefs_of_mem_takes hp))
    (OrderBook.rests_iff.mpr ⟨_, hr⟩)).symm

/-- The taker's own side is not touched by the fills. -/
theorem ladder_own (h : Indexed mem b)
    (hfills : (start mem b order).Fills feeModel order (takes mem b order) t) :
    t.book.ladder t.mem (mem.order order).side = b.ladder mem (mem.order order).side := by
  have hnot : ∀ r ∈ Ladder.items (b.queues (mem.order order).side),
      r ∉ (takes mem b order).map Prod.fst := by
    intro r hr hin
    obtain ⟨p, hp, rfl⟩ := List.mem_map.mp hin
    have hside := h.side_of_mem ((reachRefs_sublist _).subset (mem_reachRefs_of_mem_takes hp))
    rw [h.side_of_mem hr] at hside
    exact Side.opposite_ne _ hside.symm
  have hqueues : t.book.queues (mem.order order).side = b.queues (mem.order order).side := by
    rw [hfills.queues]
    refine Ladder.retain_eq_self h.items_ne_nil fun r hr => ?_
    exact decide_eq_true fun hin => hnot r hr (List.mem_map.mpr ⟨_, hin, rfl⟩)
  rw [OrderBook.ladder, hqueues]
  refine Ladder.map_congr fun r hr => ?_
  exact hfills.order_of_not_mem (OrderBook.rests_iff.mpr ⟨_, hr⟩) (hnot r hr)

/-- A LIMIT remainder queues up behind the orders at its price. -/
theorem ladder_restRemainder (hf : Fresh t.mem t.book order) (hrem : 0 < t.remainingQty)
    (side : Side) :
    (restRemainder order t).book.ladder (restRemainder order t).mem side =
      if side = (t.mem.order order).side then
        Ladder.push side.ahead (t.mem.order order).price
          { t.mem.order order with quantity := t.remainingQty } (t.book.ladder t.mem side)
      else t.book.ladder t.mem side := by
  have hmap : (t.book.queues side).map (Tier.map (t.mem.modifyQuantity order t.remainingQty).order)
      = t.book.ladder t.mem side := by
    refine Ladder.map_congr fun r hr => Memory.modifyQuantity_order_of_ne t.mem _ _ _ ?_
    rintro rfl
    exact hf.notResting (OrderBook.rests_iff.mpr ⟨side, hr⟩)
  simp only [restRemainder, if_pos hrem]
  split_ifs with hside
  · subst hside
    have hself : (t.mem.order order).side =
        ((t.mem.modifyQuantity order t.remainingQty).order order).side := by simp
    rw [OrderBook.ladder]
    conv_lhs => rw [hself, OrderBook.queues_addOrder_self, Ladder.map_push, ← hself, hmap]
    simp
  · have hne : side ≠ ((t.mem.modifyQuantity order t.remainingQty).order order).side := by
      simpa using hside
    rw [OrderBook.ladder, OrderBook.queues_addOrder_of_ne hne, hmap]

theorem ladder_finish (hf : Fresh t.mem t.book order) (side : Side) :
    (finish order t).book.ladder (finish order t).mem side =
      if side = (t.mem.order order).side ∧ (t.mem.order order).type = .limit ∧
          0 < t.remainingQty then
        Ladder.push side.ahead (t.mem.order order).price
          { t.mem.order order with quantity := t.remainingQty } (t.book.ladder t.mem side)
      else t.book.ladder t.mem side := by
  unfold finish
  by_cases htype : (t.mem.order order).type = .limit
  · rw [if_pos htype]
    by_cases hrem : 0 < t.remainingQty
    · simp [ladder_restRemainder hf hrem, htype, hrem]
    · simp [restRemainder, hrem]
  · simp [htype]

/-- Any order of positive quantity whose id does not rest is matched by the walk of its type. -/
theorem processOrder_walk (feeModel : Option FeeModel) (h : WellFormed mem b)
    (hlt : order < mem.next) (hq : 0 < (mem.order order).quantity)
    (htype : (mem.order order).type.Matchable)
    (hid : b.hasOrder (mem.order order).id = false) :
    ∃ result, (∀ fuel ≥ 2, processOrder feeModel fuel mem b order = .ok (some result)) ∧
      result.trades = tradesOf feeModel (mem.order order) mem.tradeCounter
        (Greedy.takes (mem.order order) (b.ladder mem)) ∧
      (∀ side, result.book.ladder result.mem side =
        Greedy.after (mem.order order) (b.ladder mem) side) ∧
      result.remainingQty = Greedy.left (mem.order order) (b.ladder mem) ∧
      result.mem.tradeCounter = mem.tradeCounter + result.trades.length ∧
      WellFormed result.mem result.book := by
  have hlook : b.orderMap.lookup (mem.order order).id = none := by
    simpa [OrderBook.hasOrder] using hid
  have hf : Fresh mem b order := h.fresh_of_lookup hlt hlook
  obtain ⟨t, hprep, -, -, hfills, hrun⟩ :=
    processOrder_fills feeModel (h.ready hf hlook).acceptable hq htype
  have hrem : t.remainingQty = Greedy.left (mem.order order) (b.ladder mem) := by
    rw [left_ladder]
    exact hfills.remaining
  have hopp := ladder_opposite h.toIndexed hfills
  have hown := ladder_own h.toIndexed hfills
  have htaker : t.mem.order order = mem.order order := hfills.taker
  refine ⟨finish order t, hrun, ?_, fun side => ?_, ?_, ?_,
    h.processOrder hf hlook ⟨2, hrun 2 le_rfl⟩⟩
  · rw [finish_trades, hfills.trades, takes_ladder]
    simp
  · rw [ladder_finish hprep.fresh, htaker, hrem]
    rcases Side.eq_or_eq_opposite side (mem.order order).side with rfl | rfl
    · rw [Greedy.after_own, hown]
      simp
    · rw [if_neg fun hc => Side.opposite_ne _ hc.1, hopp]
  · rw [finish_remainingQty, hrem]
  · rw [finish_tradeCounter, finish_trades, hfills.trades, hfills.counter]
    simp

/-- **Price-time refinement.** On a well-formed book, a MARKET, LIMIT or IOC order of
positive quantity whose id does not rest is matched by the greedy walk: `processOrder`
returns its trades and leaves its ladders, in a book that is well formed again. -/
theorem processOrder_eq_greedy (feeModel : Option FeeModel) (h : WellFormed mem b)
    (hlt : order < mem.next) (hq : 0 < (mem.order order).quantity)
    (htype : (mem.order order).type = .market ∨ (mem.order order).type = .limit ∨
      (mem.order order).type = .ioc)
    (hid : b.hasOrder (mem.order order).id = false) :
    ∃ result, (∀ fuel ≥ 2, processOrder feeModel fuel mem b order = .ok (some result)) ∧
      result.trades = tradesOf feeModel (mem.order order) mem.tradeCounter
        (Greedy.fills (mem.order order) (b.ladder mem)) ∧
      (∀ side, result.book.ladder result.mem side =
        Greedy.ladder (mem.order order) (b.ladder mem) side) ∧
      WellFormed result.mem result.book := by
  have hmatchable : (mem.order order).type.Matchable := by
    unfold OrderType.Matchable
    tauto
  have hne : (mem.order order).type ≠ .fok := by
    rcases htype with htype | htype | htype <;> simp [htype]
  obtain ⟨result, hrun, htrades, hladder, -, -, hwell⟩ :=
    processOrder_walk feeModel h hlt hq hmatchable hid
  rw [Greedy.takes_eq_fills hne] at htrades
  rw [Greedy.after_eq_ladder hne] at hladder
  exact ⟨result, hrun, htrades, hladder, hwell⟩

/-- Two asks at one price, and a bid through them that rests its remainder. -/
theorem processOrder_eq_greedy_two_asks :
    let mem₁ := (Memory.empty.alloc ⟨"a", "S", .sell, .limit, 100, 5⟩).1
    let b₁ := (OrderBook.empty "S").addOrder mem₁ 0
    let mem₂ := (mem₁.alloc ⟨"b", "S", .sell, .limit, 100, 4⟩).1
    let b₂ := b₁.addOrder mem₂ 1
    let mem := (mem₂.alloc ⟨"t", "S", .buy, .limit, 101, 12⟩).1
    ∃ result, (∀ fuel ≥ 2, processOrder none fuel mem b₂ 2 = .ok (some result)) ∧
      result.trades = tradesOf none (mem.order 2) mem.tradeCounter
        (Greedy.fills (mem.order 2) (b₂.ladder mem)) ∧
      (∀ side, result.book.ladder result.mem side =
        Greedy.ladder (mem.order 2) (b₂.ladder mem) side) ∧
      WellFormed result.mem result.book := by
  intro mem₁ b₁ mem₂ b₂ mem
  have h₁ : WellFormed mem₁ b₁ := (WellFormed.empty Memory.empty "S").rest _ (by decide) rfl
  have h₂ : WellFormed mem₂ b₂ := h₁.rest _ (by decide) rfl
  exact processOrder_eq_greedy none (h₂.of_alloc _) (by decide) (by decide +kernel)
    (Or.inr (Or.inl rfl)) (by decide +kernel)

end Refinement

end GoQuant
