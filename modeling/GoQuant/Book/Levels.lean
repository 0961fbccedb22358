import GoQuant.Book.Walk
import Mathlib.Tactic.Ring

/-!
# Executions depend on the depth only

The depth of a side is the map from its prices to the totals resting there, which is all that a
client sees of a book. An order trades the same quantities at the same prices, pays the same
fees, leaves the same remainder and the same depth, however the totals are split into orders.

## Main definitions

* `OrderBook.depth` — the prices of a side with their totals.
* `Greedy.levelFills`, `Greedy.levelRemainder` — the walk over levels instead of orders.

## Main results

* `Greedy.Proper.sum_fills`, `Greedy.Proper.remainder_eq` — the walk over orders does what the
  walk over levels does.
* `Greedy.Proper.depth_after` — the depth afterwards.
* `processOrder_by_depth` — two books of one depth.
-/

namespace GoQuant

open MatchingAlgorithm

/-- The prices of a side with their totals. -/
def OrderBook.depth (b : OrderBook) (s : Side) : List (ℚ × ℚ) :=
  (b.levels s).map fun l => (l.price, l.totalQuantity)

/-- The quantity that trades execute at a price. -/
def executedAt (trades : List Trade) (price : ℚ) : ℚ :=
  ((trades.filter fun t => t.price = price).map Trade.quantity).sum

theorem WellFormed.depth_eq {mem : Memory} {b : OrderBook} (h : WellFormed mem b) (s : Side) :
    b.depth s = Ladder.depth Order.quantity (b.ladder mem s) := by
  rw [OrderBook.depth, Ladder.depth, OrderBook.ladder, OrderBook.queues, List.map_map,
    List.map_map]
  refine List.map_congr_left fun l hl => ?_
  rw [h.total s l hl]
  simp [Tier.map, PriceLevel.tier, Memory.total, Function.comp_def]

namespace Greedy

/-- The levels an order uses, each with the quantity it gives. -/
def levelFills (taker : Order) (depth : List (ℚ × ℚ)) : List ((ℚ × ℚ) × ℚ) :=
  Fill.fills Prod.snd taker.quantity (depth.takeWhile fun l => accepts taker l.1)

/-- What the levels leave of an order. -/
def levelRemainder (taker : Order) (depth : List (ℚ × ℚ)) : ℚ :=
  Fill.unfilled Prod.snd taker.quantity (depth.takeWhile fun l => accepts taker l.1)

section Settle

variable {fs : List (Order × ℚ)} {o o' : Order} {as : List Order}

theorem settle_quantity (hnd : (fs.map Prod.fst).Nodup) (o : Order) :
    ((settle fs o).toList.map Order.quantity).sum = o.quantity - Fill.given fs o := by
  unfold settle
  split
  · rename_i hnone
    have hnot : o ∉ fs.map Prod.fst := by
      intro hin
      obtain ⟨p, hp, rfl⟩ := List.mem_map.mp hin
      simpa using List.find?_eq_none.mp hnone p hp
    rw [Fill.given_eq_zero hnot]
    simp
  · rename_i p hsome
    have hp : p.1 = o := by simpa using List.find?_some hsome
    have hgiven : Fill.given fs o = p.2 :=
      Fill.given_eq_of_mem hnd (hp ▸ List.mem_of_find?_eq_some hsome)
    rw [hgiven]
    split_ifs with hq
    · simp [hq]
    · simp

/-- What is left of some orders is what they did not give. -/
theorem sum_settle (hnd : (fs.map Prod.fst).Nodup) (as : List Order) :
    ((as.filterMap (settle fs)).map Order.quantity).sum =
      (as.map Order.quantity).sum - (as.map (Fill.given fs)).sum := by
  induction as with
  | nil => simp
  | cons a as ih =>
    have hcons : (a :: as).filterMap (settle fs) =
        (settle fs a).toList ++ as.filterMap (settle fs) := by
      rw [List.filterMap_cons]
      cases settle fs a <;> rfl
    rw [hcons, List.map_append, List.sum_append, settle_quantity hnd, ih]
    simp only [List.map_cons, List.sum_cons]
    ring

/-- Orders that give no more than they have keep something, or leave. -/
theorem settle_pos (hle : ∀ p ∈ fs, p.2 ≤ p.1.quantity) (ho : 0 < o.quantity)
    (h : settle fs o = some o') : 0 < o'.quantity := by
  unfold settle at h
  split at h
  · rwa [← Option.some.inj h]
  · rename_i p hsome
    have hp : p.1 = o := by simpa using List.find?_some hsome
    split_ifs at h with hq
    rw [← Option.some.inj h]
    have hlt : p.2 < o.quantity := lt_of_le_of_ne (hp ▸ hle p (List.mem_of_find?_eq_some hsome)) hq
    exact sub_pos.mpr hlt

end Settle

namespace Proper

variable {ladder ladder' : Side → List (Tier ℚ Order)} {taker : Order} {s : Side}

theorem depth_takeWhile (taker : Order) (ts : List (Tier ℚ Order)) :
    (Ladder.depth Order.quantity ts).takeWhile (fun l => accepts taker l.1) =
      Ladder.depth Order.quantity (ts.takeWhile fun t => accepts taker t.key) := by
  rw [Ladder.depth, List.takeWhile_map]
  rfl

/-- What the walk pays at rates that depend on the price is what the walk over levels pays. -/
theorem sum_fills (h : Proper ladder) (hq : 0 ≤ taker.quantity) (rate : ℚ → ℚ →+ ℚ) :
    ((fills taker ladder).map fun p => rate p.1.price p.2).sum =
      ((levelFills taker (Ladder.depth Order.quantity (ladder taker.side.opposite))).map
        fun p => rate p.1.1 p.2).sum := by
  have hsub : ∀ t ∈ (ladder taker.side.opposite).takeWhile (fun t => accepts taker t.key),
      t ∈ ladder taker.side.opposite := fun t ht => (List.takeWhile_subset _) ht
  rw [levelFills, depth_takeWhile, Ladder.depth, Fill.fills_map, List.map_map, fills, makers,
    Ladder.reach, Ladder.items]
  refine Fill.sum_fills_flatMap (fun (o : Order) q => rate o.price q)
    (fun t : Tier ℚ Order => rate t.key) ?_ ?_ hq
  · intro t ht o ho
    rw [(h.placed _ t (hsub t ht) o ho).2]
  · intro t ht o ho
    exact (h.positive _ o (Ladder.mem_items.mpr ⟨t, hsub t ht, ho⟩)).le

theorem remainder_eq (h : Proper ladder) (hq : 0 ≤ taker.quantity) : remainder taker ladder =
    levelRemainder taker (Ladder.depth Order.quantity (ladder taker.side.opposite)) := by
  have hsub : ∀ t ∈ (ladder taker.side.opposite).takeWhile (fun t => accepts taker t.key),
      t ∈ ladder taker.side.opposite := fun t ht => (List.takeWhile_subset _) ht
  rw [levelRemainder, depth_takeWhile, Ladder.depth, Fill.unfilled_map, remainder, makers,
    Ladder.reach, Ladder.items]
  refine Fill.unfilled_flatMap ?_ hq
  intro t ht o ho
  exact (h.positive _ o (Ladder.mem_items.mpr ⟨t, hsub t ht, ho⟩)).le

theorem fst_mem_of_mem_takes (h : Proper ladder) {p : Order × ℚ} (hp : p ∈ takes taker ladder) :
    p.1 ∈ Ladder.items (ladder taker.side.opposite) ∧ p.2 ≤ p.1.quantity := by
  unfold takes at hp
  split_ifs at hp
  · simp at hp
  · have hmaker := Fill.fst_mem_of_mem_fills hp
    rw [h.makers_eq] at hmaker
    exact ⟨List.mem_of_mem_filter hmaker, Fill.snd_le_of_mem_fills hp⟩

theorem takes_nodup (h : Proper ladder) : ((takes taker ladder).map Prod.fst).Nodup := by
  unfold takes
  split_ifs
  · exact List.nodup_nil
  · refine List.Nodup.sublist Fill.fst_sublist_of_fills ?_
    rw [h.makers_eq]
    exact (List.Nodup.of_map _ (h.distinct _)).filter _

/-- A tier gives what is taken at its price. -/
theorem sum_given_tier (h : Proper ladder) {t : Tier ℚ Order}
    (ht : t ∈ ladder taker.side.opposite) :
    (t.items.map (Fill.given (takes taker ladder))).sum =
      (((takes taker ladder).filter fun p => p.1.price = t.key).map Prod.snd).sum := by
  have hnodup : t.items.Nodup := by
    refine List.Nodup.sublist ?_ (List.Nodup.of_map _ (h.distinct taker.side.opposite))
    exact List.sublist_flatten_of_mem (List.mem_map.mpr ⟨t, ht, rfl⟩)
  rw [Fill.sum_given hnodup]
  congr 2
  refine List.filter_congr fun p hp => ?_
  obtain ⟨u, hu, hmem⟩ := Ladder.mem_items.mp (h.fst_mem_of_mem_takes hp).1
  have hprice := (h.placed _ u hu p.1 hmem).2
  rw [decide_eq_decide]
  constructor
  · intro hin
    exact (h.placed _ t ht p.1 hin).2
  · intro hkey
    rwa [(h.sorted _).eq_of_key ht hu (hkey.symm.trans hprice)]

/-- The depth of the side walked down: each level loses what was taken at its price, and goes
when nothing is left. -/
theorem depth_after_opposite (h : Proper ladder) :
    Ladder.depth Order.quantity (after taker ladder taker.side.opposite) =
      (Ladder.depth Order.quantity (ladder taker.side.opposite)).filterMap fun l =>
        Option.guard (fun l : ℚ × ℚ => decide (l.2 ≠ 0)) (l.1, l.2 -
          (((takes taker ladder).filter fun p => p.1.price = l.1).map Prod.snd).sum) := by
  rw [after_opposite (h.nonempty _), Ladder.update, Ladder.depth, List.map_filterMap,
    Ladder.depth, List.filterMap_map]
  refine List.filterMap_congr fun t ht => ?_
  have hpos : ∀ o' ∈ t.items.filterMap (settle (takes taker ladder)), 0 < o'.quantity := by
    intro o' ho'
    obtain ⟨o, ho, hsettle⟩ := List.mem_filterMap.mp ho'
    exact settle_pos (fun p hp => (h.fst_mem_of_mem_takes hp).2)
      (h.positive _ o (Ladder.mem_items.mpr ⟨t, ht, ho⟩)) hsettle
  have hsum := @sum_settle (takes taker ladder) h.takes_nodup t.items
  rw [h.sum_given_tier ht] at hsum
  simp only [Function.comp_apply, ← hsum]
  cases hleft : t.items.filterMap (settle (takes taker ladder)) with
  | nil => simp [Ladder.refill, Option.guard]
  | cons o os =>
    rw [hleft] at hpos
    have hne : ((o :: os).map Order.quantity).sum ≠ 0 := by
      refine (List.sum_pos _ ?_ (by simp)).ne'
      intro q hq
      obtain ⟨o', ho', rfl⟩ := List.mem_map.mp hq
      exact hpos o' ho'
    simpa [Ladder.refill, Option.guard] using hne

variable (h : Proper ladder) (h' : Proper ladder') (hq : 0 ≤ taker.quantity)
  (hdepth : ∀ s, Ladder.depth Order.quantity (ladder' s) =
    Ladder.depth Order.quantity (ladder s))

include h h' hq hdepth

theorem rejects_iff_of_depth : rejects taker ladder' ↔ rejects taker ladder := by
  unfold rejects
  rw [h.remainder_eq hq, h'.remainder_eq hq, hdepth]

/-- Ladders of one depth pay the same. -/
theorem sum_takes_of_depth (rate : ℚ → ℚ →+ ℚ) :
    ((takes taker ladder').map fun p => rate p.1.price p.2).sum =
      ((takes taker ladder).map fun p => rate p.1.price p.2).sum := by
  have hiff := rejects_iff_of_depth h h' hq hdepth
  by_cases hrejects : rejects taker ladder
  · simp only [takes, if_pos hrejects, if_pos (hiff.mpr hrejects)]
  · simp only [takes, if_neg hrejects, if_neg (mt hiff.mp hrejects)]
    rw [h.sum_fills hq, h'.sum_fills hq, hdepth]

theorem left_of_depth : left taker ladder' = left taker ladder := by
  have hiff := rejects_iff_of_depth h h' hq hdepth
  by_cases hrejects : rejects taker ladder
  · simp only [left, if_pos hrejects, if_pos (hiff.mpr hrejects)]
  · simp only [left, if_neg hrejects, if_neg (mt hiff.mp hrejects)]
    rw [h.remainder_eq hq, h'.remainder_eq hq, hdepth]

/-- Ladders of one depth take the same at every price. -/
theorem taken_of_depth (price : ℚ) :
    (((takes taker ladder').filter fun p => p.1.price = price).map Prod.snd).sum =
      (((takes taker ladder).filter fun p => p.1.price = price).map Prod.snd).sum := by
  have hfilter : ∀ fs : List (Order × ℚ),
      ((fs.filter fun p => p.1.price = price).map Prod.snd).sum =
        (fs.map fun p => (if p.1.price = price then AddMonoidHom.id ℚ else 0) p.2).sum := by
    intro fs
    induction fs with
    | nil => rfl
    | cons p fs ih =>
      by_cases hp : p.1.price = price <;> simp [hp, ih]
  rw [hfilter, hfilter]
  exact sum_takes_of_depth h h' hq hdepth fun p => if p = price then AddMonoidHom.id ℚ else 0

/-- Ladders of one depth have one depth afterwards. -/
theorem depth_after (s : Side) : Ladder.depth Order.quantity (after taker ladder' s) =
    Ladder.depth Order.quantity (after taker ladder s) := by
  rcases Side.eq_or_eq_opposite s taker.side with rfl | rfl
  · rw [after_own, after_own, left_of_depth h h' hq hdepth]
    split_ifs
    · rw [Ladder.depth_push, Ladder.depth_push, hdepth]
    · exact hdepth _
  · rw [h.depth_after_opposite, h'.depth_after_opposite, hdepth]
    refine List.filterMap_congr fun l _ => ?_
    rw [taken_of_depth h h' hq hdepth]

end Proper

end Greedy

/-- Fees are proportional to the quantity. -/
theorem MatchingAlgorithm.fees_eq (feeModel : Option FeeModel) (symbol : String)
    (price quantity : ℚ) : fees feeModel symbol price quantity =
      ((fees feeModel symbol price 1).1 * quantity,
        (fees feeModel symbol price 1).2 * quantity) := by
  cases feeModel with
  | none =>
    simp only [fees, Prod.mk.injEq]
    constructor <;> ring
  | some fm =>
    simp only [fees, FeeModel.calculateFees, Prod.mk.injEq]
    constructor <;> ring

/-- What trades add up to, if each counts at a rate that depends on its price. -/
theorem sum_tradesOf {feeModel : Option FeeModel} {taker : Order} {n : ℕ} {fs : List (Order × ℚ)}
    (f : Trade → ℚ) (rate : ℚ → ℚ →+ ℚ)
    (hf : ∀ n, ∀ p ∈ fs, f (tradeOf feeModel taker n p.1 p.2) = rate p.1.price p.2) :
    ((tradesOf feeModel taker n fs).map f).sum = (fs.map fun p => rate p.1.price p.2).sum := by
  induction fs generalizing n with
  | nil => rfl
  | cons p fs ih =>
    rw [tradesOf, List.map_cons, List.sum_cons, hf n p List.mem_cons_self,
      ih fun n p hp => hf n p (List.mem_cons_of_mem _ hp), List.map_cons, List.sum_cons]

theorem executedAt_eq (trades : List Trade) (price : ℚ) : executedAt trades price =
    (trades.map fun t => if t.price = price then t.quantity else 0).sum := by
  induction trades with
  | nil => rfl
  | cons t trades ih =>
    rw [List.map_cons, List.sum_cons, ← ih, executedAt, List.filter_cons]
    by_cases ht : t.price = price <;> simp [ht, executedAt]

section Books

variable {mem₁ mem₂ : Memory} {b₁ b₂ : OrderBook} {symbol : String} {o : Order}

/-- A maker on the book of a symbol is an order of this symbol. -/
theorem WellFormed.symbol_of_mem_takes (h : WellFormed mem₁ b₁)
    (hsymbol : ∀ r, b₁.Rests r → (mem₁.order r).symbol = symbol) {p : Order × ℚ}
    (hp : p ∈ Greedy.takes o (b₁.ladder mem₁)) : p.1.symbol = symbol := by
  have hmem := (h.proper.fst_mem_of_mem_takes hp).1
  rw [items_ladder, List.mem_map] at hmem
  obtain ⟨r, hr, heq⟩ := hmem
  rw [← heq]
  exact hsymbol r (OrderBook.rests_iff.mpr ⟨_, hr⟩)

/-- **Executions depend on the depth only.** Two well-formed books of one symbol with the same
prices and totals are given the same order. The same quantity is executed at each price, the
same remainder is left, makers and takers pay the same fees in total, and the books have the
same prices and totals afterwards. -/
theorem processOrder_by_depth (feeModel : Option FeeModel) (h₁ : WellFormed mem₁ b₁)
    (h₂ : WellFormed mem₂ b₂) (hsymbol₁ : ∀ r, b₁.Rests r → (mem₁.order r).symbol = symbol)
    (hsymbol₂ : ∀ r, b₂.Rests r → (mem₂.order r).symbol = symbol)
    (hdepth : ∀ s, b₂.depth s = b₁.depth s) (htype : o.type.Matchable) (hq : 0 < o.quantity)
    (hid₁ : b₁.hasOrder o.id = false) (hid₂ : b₂.hasOrder o.id = false) :
    ∃ r₁ r₂,
      (∀ fuel ≥ 2, processOrder feeModel fuel (mem₁.alloc o).1 b₁ mem₁.next = .ok (some r₁)) ∧
      (∀ fuel ≥ 2, processOrder feeModel fuel (mem₂.alloc o).1 b₂ mem₂.next = .ok (some r₂)) ∧
      (∀ price, executedAt r₂.trades price = executedAt r₁.trades price) ∧
      r₂.remainingQty = r₁.remainingQty ∧
      (r₂.trades.map Trade.takerFee).sum = (r₁.trades.map Trade.takerFee).sum ∧
      (r₂.trades.map Trade.makerFee).sum = (r₁.trades.map Trade.makerFee).sum ∧
      ∀ s, r₂.book.depth s = r₁.book.depth s := by
  have hladder : ∀ s, Ladder.depth Order.quantity (b₂.ladder mem₂ s) =
      Ladder.depth Order.quantity (b₁.ladder mem₁ s) := by
    intro s
    rw [← h₁.depth_eq, ← h₂.depth_eq, hdepth]
  obtain ⟨r₁, hrun₁, htrades₁, hafter₁, hleft₁, -, hwell₁⟩ :=
    h₁.processOrder_alloc feeModel htype hq hid₁
  obtain ⟨r₂, hrun₂, htrades₂, hafter₂, hleft₂, -, hwell₂⟩ :=
    h₂.processOrder_alloc feeModel htype hq hid₂
  -- what trades add up to at rates that depend on the price is the same
  have hsum : ∀ (f : Trade → ℚ) (rate : ℚ → ℚ →+ ℚ),
      (∀ n, ∀ m : Order, m.symbol = symbol → ∀ q,
        f (tradeOf feeModel o n m q) = rate m.price q) →
      (r₂.trades.map f).sum = (r₁.trades.map f).sum := by
    intro f rate hf
    rw [htrades₁, htrades₂, sum_tradesOf f rate, sum_tradesOf f rate]
    · exact Greedy.Proper.sum_takes_of_depth h₁.proper h₂.proper hq.le hladder rate
    · intro n p hp
      exact hf n p.1 (h₁.symbol_of_mem_takes hsymbol₁ hp) p.2
    · intro n p hp
      exact hf n p.1 (h₂.symbol_of_mem_takes hsymbol₂ hp) p.2
  refine ⟨r₁, r₂, hrun₁, hrun₂, ?_, ?_, ?_, ?_, ?_⟩
  · intro price
    rw [executedAt_eq, executedAt_eq]
    refine hsum _ (fun p => if p = price then AddMonoidHom.id ℚ else 0) ?_
    intro n m _ q
    by_cases hm : m.price = price <;> simp [tradeOf, hm]
  · rw [hleft₁, hleft₂]
    exact Greedy.Proper.left_of_depth h₁.proper h₂.proper hq.le hladder
  · refine hsum _ (fun p => AddMonoidHom.mulLeft (fees feeModel symbol p 1).2) ?_
    rintro n m rfl q
    exact congrArg Prod.snd (fees_eq feeModel m.symbol m.price q)
  · refine hsum _ (fun p => AddMonoidHom.mulLeft (fees feeModel symbol p 1).1) ?_
    rintro n m rfl q
    exact congrArg Prod.fst (fees_eq feeModel m.symbol m.price q)
  · intro s
    rw [hwell₁.depth_eq, hwell₂.depth_eq, hafter₁, hafter₂]
    exact Greedy.Proper.depth_after h₁.proper h₂.proper hq.le hladder s

/-- Ten lots in two asks of five, and in asks of three and seven; eight are bought. -/
theorem processOrder_by_depth_split :
    let o : Order := ⟨"t", "S", .buy, .market, 0, 8⟩
    let m := (Memory.empty.alloc ⟨"c", "S", .sell, .limit, 100, 3⟩).1
    let mem := (m.alloc ⟨"d", "S", .sell, .limit, 100, 7⟩).1
    let b := ((OrderBook.empty "S").addOrder m 0).addOrder mem 1
    ∃ r₁ r₂, (∀ fuel ≥ 2,
        processOrder none fuel (twoAsks.1.alloc o).1 twoAsks.2 twoAsks.1.next = .ok (some r₁)) ∧
      (∀ fuel ≥ 2, processOrder none fuel (mem.alloc o).1 b mem.next = .ok (some r₂)) ∧
      (∀ price, executedAt r₂.trades price = executedAt r₁.trades price) ∧
      r₂.remainingQty = r₁.remainingQty ∧
      (r₂.trades.map Trade.takerFee).sum = (r₁.trades.map Trade.takerFee).sum ∧
      (r₂.trades.map Trade.makerFee).sum = (r₁.trades.map Trade.makerFee).sum ∧
      ∀ s, r₂.book.depth s = r₁.book.depth s := by
  intro o m mem b
  have hwell : WellFormed mem b :=
    ((WellFormed.empty Memory.empty "S").rest _ (by decide) rfl).rest _ (by decide) rfl
  have hsymbol₁ : ∀ r, twoAsks.2.Rests r → (twoAsks.1.order r).symbol = "S" := by
    intro r hr
    have hmem := OrderBook.mem_resting.mpr hr
    have hall : ∀ r ∈ twoAsks.2.resting, (twoAsks.1.order r).symbol = "S" := by decide +kernel
    exact hall r hmem
  have hsymbol₂ : ∀ r, b.Rests r → (mem.order r).symbol = "S" := by
    intro r hr
    have hmem := OrderBook.mem_resting.mpr hr
    have hall : ∀ r ∈ b.resting, (mem.order r).symbol = "S" := by decide +kernel
    exact hall r hmem
  have hdepth : ∀ s, b.depth s = twoAsks.2.depth s := by
    intro s
    cases s <;> decide +kernel
  exact processOrder_by_depth none wellFormed_twoAsks hwell hsymbol₁ hsymbol₂ hdepth
    (Or.inl rfl) (by decide) (by decide +kernel) (by decide +kernel)

end Books

end GoQuant
