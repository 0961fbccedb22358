import GoQuant.Book.Refinement
import GoQuant.Book.Runs
import GoQuant.Book.Names

/-!
# Calls as walks on ladders

Every clean call on a well-formed book is a step of a machine whose state is the two ladders:
an order walks down the other side and may come to rest, a cancellation drops the order of an
id, a change of quantity rewrites it. Handles, running totals and the id map play no part.

## Main definitions

* `Greedy.Proper` — the ladders of well-formed books.
* `Greedy.call`, `Greedy.outcome` — the machine.

## Main results

* `WellFormed.walk` — clean calls are steps of the machine.
-/

namespace GoQuant

open MatchingAlgorithm

namespace Greedy

/-- Sorted ladders of nonempty queues; the orders stand at their own price and side, have
positive quantities and distinct ids. -/
structure Proper (ladder : Side → List (Tier ℚ Order)) : Prop where
  sorted : ∀ s, Keyed.Sorted Tier.key s.ahead (ladder s)
  nonempty : ∀ s, ∀ t ∈ ladder s, t.items ≠ []
  placed : ∀ s, ∀ t ∈ ladder s, ∀ o ∈ t.items, o.side = s ∧ o.price = t.key
  positive : ∀ s, ∀ o ∈ Ladder.items (ladder s), 0 < o.quantity
  distinct : ∀ s, ((Ladder.items (ladder s)).map Order.id).Nodup

/-- The order with a new quantity, if it has the id. -/
def resize (id : String) (q : ℚ) (o : Order) : Order :=
  if o.id = id then { o with quantity := q } else o

/-- The ladders after a call. -/
def call (ladder : Side → List (Tier ℚ Order)) : Request → Side → List (Tier ℚ Order)
  | .submit o => after o ladder
  | .cancel orderId => fun s => Ladder.retain (fun o => o.id ≠ orderId) (ladder s)
  | .modify orderId newQuantity => fun s => (ladder s).map (Tier.map (resize orderId newQuantity))

/-- The outcome of a call; `n` trades were made before it. -/
def outcome (feeModel : Option FeeModel) (n : ℕ) (ladder : Side → List (Tier ℚ Order)) :
    Request → Outcome
  | .submit o => ⟨tradesOf feeModel o n (takes o ladder), left o ladder⟩
  | _ => .quiet

namespace Proper

variable {ladder : Side → List (Tier ℚ Order)} {taker : Order} {s : Side}

/-- A limit reaches every price before one it reaches. -/
theorem accepts_of_ahead {p q : ℚ} (hpq : taker.side.opposite.ahead p q)
    (hq : accepts taker q = true) : accepts taker p = true := by
  rw [← within_eq_accepts] at hq ⊢
  exact OrderBook.within_of_ahead hpq hq

theorem takeWhile_accepts (h : Proper ladder) :
    (ladder taker.side.opposite).takeWhile (fun t => accepts taker t.key) =
      (ladder taker.side.opposite).filter fun t => accepts taker t.key :=
  Keyed.takeWhile_eq_filter (h.sorted _) fun _ _ hlt hw => accepts_of_ahead hlt hw

/-- The walk meets the orders of the other side that the limit accepts. -/
theorem makers_eq (h : Proper ladder) : makers taker ladder =
    (Ladder.items (ladder taker.side.opposite)).filter fun o => accepts taker o.price := by
  rw [makers, Ladder.reach, h.takeWhile_accepts]
  have hplaced := h.placed taker.side.opposite
  generalize ladder taker.side.opposite = ts at hplaced
  induction ts with
  | nil => rfl
  | cons t ts ih =>
    obtain ⟨ht, hts⟩ := List.forall_mem_cons.mp hplaced
    have hqueue : (t.items.filter fun o => accepts taker o.price) =
        if accepts taker t.key = true then t.items else [] := by
      have hcongr : (t.items.filter fun o => accepts taker o.price) =
          t.items.filter fun _ => accepts taker t.key :=
        List.filter_congr fun o ho => by rw [(ht o ho).2]
      rw [hcongr]
      split_ifs with haccepts <;> simp [haccepts]
    rw [Ladder.items_cons, List.filter_append, hqueue, ← ih hts, List.filter_cons]
    split_ifs
    · rw [Ladder.items_cons]
    · rw [List.nil_append]

theorem nonneg (h : Proper ladder) : ∀ o ∈ makers taker ladder, 0 ≤ o.quantity := by
  intro o ho
  rw [h.makers_eq] at ho
  exact (h.positive _ o (List.mem_of_mem_filter ho)).le

end Proper

/-- What is settled keeps its id. -/
theorem settle_id {fs : List (Order × ℚ)} {o o' : Order} (h : settle fs o = some o') :
    o'.id = o.id := by
  unfold settle at h
  split at h
  · rw [← Option.some.inj h]
  · split_ifs at h
    rw [← Option.some.inj h]

@[simp] theorem resize_id (orderId : String) (q : ℚ) (o : Order) :
    (resize orderId q o).id = o.id := by
  unfold resize
  split_ifs <;> rfl

/-- An order on the ladders after a call was there before, or is the submitted one. -/
theorem id_of_mem_call {ladder : Side → List (Tier ℚ Order)} {req : Request} {s : Side}
    (h : Proper ladder) {o' : Order} (ho' : o' ∈ Ladder.items (call ladder req s)) :
    (∃ o ∈ Ladder.items (ladder s), o.id = o'.id) ∨ ∃ o, req = .submit o ∧ o.id = o'.id := by
  cases req with
  | submit o =>
    rw [call] at ho'
    rcases Side.eq_or_eq_opposite s o.side with rfl | rfl
    · rw [after_own] at ho'
      split_ifs at ho'
      · rcases Ladder.mem_items_push.mp ho' with hold | rfl
        · exact Or.inl ⟨o', hold, rfl⟩
        · exact Or.inr ⟨o, rfl, rfl⟩
      · exact Or.inl ⟨o', ho', rfl⟩
    · rw [after_opposite (h.nonempty _), Ladder.items_update, List.mem_filterMap] at ho'
      obtain ⟨m, hm, hsettle⟩ := ho'
      exact Or.inl ⟨m, hm, (settle_id hsettle).symm⟩
  | cancel orderId =>
    rw [call, Ladder.items_retain] at ho'
    exact Or.inl ⟨o', List.mem_of_mem_filter ho', rfl⟩
  | modify orderId newQuantity =>
    obtain ⟨t, ht, hmem⟩ := Ladder.mem_items.mp ho'
    obtain ⟨u, hu, rfl⟩ := List.mem_map.mp ht
    obtain ⟨o, ho, rfl⟩ := List.mem_map.mp hmem
    exact Or.inl ⟨o, Ladder.mem_items.mpr ⟨u, hu, ho⟩, (resize_id _ _ o).symm⟩

end Greedy

/-! ## The machine of a book -/

namespace WellFormed

variable {feeModel : Option FeeModel} {mem mem' : Memory} {b : OrderBook} {s t : BookState}
  {req : Request} {out : Outcome} {id : String} {q : ℚ}

theorem proper (h : WellFormed mem b) : Greedy.Proper (b.ladder mem) where
  sorted s := List.pairwise_map.mpr (List.pairwise_map.mpr (h.sorted s))
  nonempty s u hu := by
    obtain ⟨v, hv, rfl⟩ := List.mem_map.mp hu
    exact fun hnil => h.items_ne_nil v hv (List.map_eq_nil_iff.mp hnil)
  placed s u hu o ho := by
    obtain ⟨v, hv, rfl⟩ := List.mem_map.mp hu
    obtain ⟨l, hl, rfl⟩ := List.mem_map.mp hv
    obtain ⟨r, hr, rfl⟩ := List.mem_map.mp ho
    exact h.placed s l hl r hr
  positive s o ho := by
    rw [items_ladder] at ho
    obtain ⟨r, hr, rfl⟩ := List.mem_map.mp ho
    exact h.positive r (OrderBook.rests_iff.mpr ⟨s, hr⟩)
  distinct s := by
    rw [items_ladder, List.map_map]
    refine (h.nodup_items s).map_on ?_
    intro r hr r' hr' heq
    exact h.eq_of_id (OrderBook.rests_iff.mpr ⟨s, hr⟩)
      (h.found r' (OrderBook.rests_iff.mpr ⟨s, hr'⟩)) heq

/-- `hasOrder` knows the ids on the ladders. -/
theorem hasOrder_iff_ladder (h : WellFormed mem b) :
    b.hasOrder id = true ↔ ∃ side, ∃ o ∈ Ladder.items (b.ladder mem side), o.id = id := by
  rw [h.hasOrder_iff]
  simp only [items_ladder, List.mem_map, exists_exists_and_eq_and, OrderBook.rests_iff]
  constructor
  · rintro ⟨r, ⟨side, hr⟩, hid⟩
    exact ⟨side, r, hr, hid⟩
  · rintro ⟨side, r, hr, hid⟩
    exact ⟨r, ⟨side, hr⟩, hid⟩

theorem ladder_alloc (h : WellFormed mem b) (o : Order) (side : Side) :
    b.ladder (mem.alloc o).1 side = b.ladder mem side :=
  Ladder.map_congr fun r hr => Memory.alloc_order_of_lt mem r o
    (h.restsAllocated r (OrderBook.rests_iff.mpr ⟨side, hr⟩))

/-- The walk of an order whose object is built for the call. -/
theorem processOrder_alloc (feeModel : Option FeeModel) (h : WellFormed mem b)
    (htype : o.type.Matchable) (hq : 0 < o.quantity) (hid : b.hasOrder o.id = false) :
    ∃ result,
      (∀ fuel ≥ 2, MatchingAlgorithm.processOrder feeModel fuel (mem.alloc o).1 b mem.next =
        .ok (some result)) ∧
      result.trades =
        tradesOf feeModel o mem.tradeCounter (Greedy.takes o (b.ladder mem)) ∧
      (∀ side, result.book.ladder result.mem side = Greedy.after o (b.ladder mem) side) ∧
      result.remainingQty = Greedy.left o (b.ladder mem) ∧
      result.mem.tradeCounter = mem.tradeCounter + result.trades.length ∧
      WellFormed result.mem result.book := by
  have hladder : b.ladder (mem.alloc o).1 = b.ladder mem := funext (h.ladder_alloc o)
  have hwalk := processOrder_walk feeModel (h.of_alloc o) (Nat.lt_succ_self mem.next)
  rw [Memory.alloc_order_self, hladder] at hwalk
  exact hwalk hq htype hid

/-- No order rests under an id that the map does not hold. -/
theorem id_ne_of_none (h : WellFormed mem b) (hid : b.orderMap.lookup id = none) {side : Side} :
    ∀ r ∈ Ladder.items (b.queues side), (mem.order r).id ≠ id := by
  rintro r hr rfl
  rw [h.found r (OrderBook.rests_iff.mpr ⟨side, hr⟩)] at hid
  cases hid

theorem ladder_cancelOrder (h : WellFormed mem b) (id : String) (side : Side) :
    (b.cancelOrder mem id).2.ladder mem side =
      Ladder.retain (fun o => o.id ≠ id) (b.ladder mem side) := by
  rw [OrderBook.ladder, OrderBook.ladder, Ladder.retain, Ladder.update_map]
  cases hid : b.orderMap.lookup id with
  | none =>
    rw [OrderBook.cancelOrder, hid]
    refine Eq.trans ?_ (Ladder.update_congr (f := fun r => some (mem.order r)) ?_)
    · rw [show (fun r => some (mem.order r)) = fun r => (some r).map mem.order from rfl,
        ← Ladder.map_update, Ladder.update_some h.items_ne_nil]
    · intro r hr
      simp [Option.guard, h.id_ne_of_none hid r hr]
  | some r =>
    rw [h.cancelOrder_queues hid, Ladder.retain, Ladder.map_update]
    refine Ladder.update_congr fun r' hr' => ?_
    have hiff : (mem.order r').id = id ↔ r' = r :=
      ⟨h.eq_of_id (OrderBook.rests_iff.mpr ⟨side, hr'⟩) hid, fun heq => heq ▸ h.named id r hid⟩
    simp only [Option.guard, ne_eq, hiff, decide_not]
    by_cases hr : r' = r <;> simp [hr]

theorem ladder_modifyOrder (h : WellFormed mem b) (hq : 0 < q) {b' : OrderBook}
    (hm : b.modifyOrder mem id q = .ok (mem', b')) (side : Side) :
    b'.ladder mem' side = (b.ladder mem side).map (Tier.map (Greedy.resize id q)) := by
  cases hid : b.orderMap.lookup id with
  | none => simp [OrderBook.modifyOrder, hid] at hm
  | some r =>
    rw [h.modifyOrder_eq hid, Except.ok.injEq, Prod.mk.injEq] at hm
    obtain ⟨rfl, rfl⟩ := hm
    rw [OrderBook.ladder, h.modifyOrder_queues hid hq, OrderBook.ladder, Ladder.map_map]
    refine Ladder.map_congr fun r' hr' => ?_
    have hiff : (mem.order r').id = id ↔ r' = r :=
      ⟨h.eq_of_id (OrderBook.rests_iff.mpr ⟨side, hr'⟩) hid, fun heq => heq ▸ h.named id r hid⟩
    simp only [Memory.modifyQuantity_order, Greedy.resize, hiff]
    by_cases hr : r' = r <;> simp [hr]

theorem resize_of_none (h : WellFormed mem b) (hid : b.orderMap.lookup id = none) (side : Side) :
    (b.ladder mem side).map (Tier.map (Greedy.resize id q)) = b.ladder mem side := by
  rw [OrderBook.ladder, Ladder.map_map]
  exact Ladder.map_congr fun r hr => if_neg (h.id_ne_of_none hid r hr)

/-- A clean call on a well-formed book is a step of the machine. -/
theorem walk (h : WellFormed s.mem s.book) (hstep : s.CleanStep feeModel (req, out) t) :
    (∀ side, t.book.ladder t.mem side = Greedy.call (s.book.ladder s.mem) req side) ∧
      out = Greedy.outcome feeModel s.mem.tradeCounter (s.book.ladder s.mem) req ∧
      t.mem.tradeCounter = s.mem.tradeCounter + out.trades.length := by
  obtain ⟨hclean, hstep⟩ := hstep
  cases hstep with
  | @submit o result hr =>
    obtain ⟨htype, hq, hid⟩ := hclean
    obtain ⟨result', hrun, htrades, hafter, hleft, hcounter, -⟩ :=
      h.processOrder_alloc feeModel htype hq hid
    obtain rfl := hr.unique ⟨2, hrun 2 le_rfl⟩
    refine ⟨hafter, ?_, hcounter⟩
    rw [htrades, hleft]
    rfl
  | cancel orderId => exact ⟨h.ladder_cancelOrder orderId, rfl, rfl⟩
  | modify hm =>
    exact ⟨h.ladder_modifyOrder hclean hm, rfl, OrderBook.modifyOrder_tradeCounter hm⟩
  | @modifyUnknown orderId error q hm =>
    refine ⟨fun side => ?_, rfl, rfl⟩
    have hid : s.book.orderMap.lookup orderId = none := by
      cases hid : s.book.orderMap.lookup orderId with
      | none => rfl
      | some r => simp [h.modifyOrder_eq hid] at hm
    exact (h.resize_of_none hid side).symm

/-- An id that a book knows after a clean call was known before, or the call submits it. -/
theorem hasOrder_step (h : WellFormed s.mem s.book) (hstep : s.CleanStep feeModel (req, out) t)
    (hid : t.book.hasOrder id = true) :
    s.book.hasOrder id = true ∨ ∃ o, req = .submit o ∧ o.id = id := by
  obtain ⟨side, o', ho', rfl⟩ := (h.step hstep).hasOrder_iff_ladder.mp hid
  rw [(h.walk hstep).1 side] at ho'
  refine (Greedy.id_of_mem_call h.proper ho').imp_left ?_
  rintro ⟨o, ho, hname⟩
  exact h.hasOrder_iff_ladder.mpr ⟨side, o, ho, hname⟩

/-- A cancelled id is not known any more. -/
theorem hasOrder_cancel (h : WellFormed s.mem s.book)
    (hstep : s.CleanStep feeModel (.cancel id, out) t) : t.book.hasOrder id = false := by
  rw [Bool.eq_false_iff]
  intro hid
  obtain ⟨side, o, ho, hname⟩ := (h.step hstep).hasOrder_iff_ladder.mp hid
  rw [(h.walk hstep).1 side, Greedy.call, Ladder.items_retain] at ho
  exact of_decide_eq_true (List.mem_filter.mp ho).2 hname

end WellFormed

end GoQuant
