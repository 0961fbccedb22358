import GoQuant.Book.WellFormed
import GoQuant.Lib.Run
import Mathlib.Data.List.Perm.Subperm

/-!
# Runs of one book

The calls a book receives one after another: orders to process, cancellations and quantity
changes. A call is clean when an order comes under an id the book does not hold, and
quantities are positive.

## Main definitions

* `BookState.Step` — one call on a book, with its outcome.
* `Request.Clean` — the clean calls, `Request.Admitted` — those a client can cause.

## Main results

* `WellFormed.exists_step` — every clean call on a well-formed book returns.
* `wellFormed_of_run` — a run of clean calls leaves a well-formed book, whose observers
  describe the resting orders.
-/

namespace GoQuant

open MatchingAlgorithm

/-- A book with the memory its orders live in. -/
structure BookState where
  mem : Memory
  book : OrderBook

/-- A call on a book. -/
inductive Request where
  | submit (o : Order)
  | cancel (orderId : String)
  | modify (orderId : String) (newQuantity : ℚ)
  deriving DecidableEq

/-- What a call leaves with its caller: the trades `processOrder` returns, and the value its
local `remainingQty` ended with. -/
structure Outcome where
  trades : List Trade
  remainingQty : ℚ

/-- The outcome of a call that matches nothing. -/
def Outcome.quiet : Outcome := ⟨[], 0⟩

/-- One call on a book, with its outcome. The object of a submitted order is built for the
call. -/
inductive BookState.Step (feeModel : Option FeeModel) (s : BookState) :
    Request × Outcome → BookState → Prop
  | submit {o : Order} {result : Matching} :
      Returns feeModel (s.mem.alloc o).1 s.book s.mem.next result →
      Step feeModel s (.submit o, ⟨result.trades, result.remainingQty⟩) ⟨result.mem, result.book⟩
  | cancel (orderId : String) :
      Step feeModel s (.cancel orderId, .quiet) ⟨s.mem, (s.book.cancelOrder s.mem orderId).2⟩
  | modify {orderId : String} {newQuantity : ℚ} {mem : Memory} {book : OrderBook} :
      s.book.modifyOrder s.mem orderId newQuantity = .ok (mem, book) →
      Step feeModel s (.modify orderId newQuantity, .quiet) ⟨mem, book⟩
  | modifyUnknown {orderId error : String} {newQuantity : ℚ} :
      s.book.modifyOrder s.mem orderId newQuantity = .error error →
      Step feeModel s (.modify orderId newQuantity, .quiet) s

/-- The same call, executed on fuel. -/
def BookState.call (feeModel : Option FeeModel) (fuel : ℕ) (s : BookState) :
    Request → Option (Outcome × BookState)
  | .submit o =>
    match processOrder feeModel fuel (s.mem.alloc o).1 s.book s.mem.next with
    | .ok (some result) => some (⟨result.trades, result.remainingQty⟩, ⟨result.mem, result.book⟩)
    | _ => none
  | .cancel orderId => some (.quiet, ⟨s.mem, (s.book.cancelOrder s.mem orderId).2⟩)
  | .modify orderId newQuantity =>
    match s.book.modifyOrder s.mem orderId newQuantity with
    | .ok (mem, book) => some (.quiet, ⟨mem, book⟩)
    | .error _ => some (.quiet, s)

/-- A step whose call meets a condition on the state before it. -/
def BookState.GuardedStep (ok : BookState → Request → Prop) (feeModel : Option FeeModel)
    (s : BookState) (e : Request × Outcome) (t : BookState) : Prop :=
  ok s e.1 ∧ BookState.Step feeModel s e t

/-- The same step, executed on fuel. -/
def BookState.guarded (ok : BookState → Request → Prop) [∀ s req, Decidable (ok s req)]
    (feeModel : Option FeeModel) (fuel : ℕ) (s : BookState) (req : Request) :
    Option ((Request × Outcome) × BookState) :=
  if ok s req then (s.call feeModel fuel req).map fun p => ((req, p.1), p.2) else none

/-- A process with an empty book. -/
def BookState.initial (mem : Memory) (symbol : String) : BookState := ⟨mem, .empty symbol⟩

/-- The calls that keep a book well formed. -/
def Request.Clean (s : BookState) : Request → Prop
  | .submit o => o.type.Matchable ∧ 0 < o.quantity ∧ s.book.hasOrder o.id = false
  | .cancel _ => True
  | .modify _ newQuantity => 0 < newQuantity

instance (s : BookState) (req : Request) : Decidable (req.Clean s) := by
  cases req <;> (unfold Request.Clean; infer_instance)

/-- A clean call. -/
def BookState.CleanStep : Option FeeModel → BookState → Request × Outcome → BookState → Prop :=
  BookState.GuardedStep fun s req => req.Clean s

/-- What the WebSocket listener lets through. It also refuses an empty symbol and a limit
price that is not positive, which matching does not depend on. -/
def Request.Admitted : Request → Prop
  | .submit o => o.id ≠ "" ∧ o.type.Matchable ∧ 0 < o.quantity
  | .cancel _ => True
  | .modify _ newQuantity => 0 ≤ newQuantity

instance (req : Request) : Decidable req.Admitted := by
  cases req <;> (unfold Request.Admitted; infer_instance)

variable {feeModel : Option FeeModel} {s t : BookState} {e : Request × Outcome}

theorem BookState.step_of_call {fuel : ℕ} {req : Request} {out : Outcome}
    (h : s.call feeModel fuel req = some (out, t)) : BookState.Step feeModel s (req, out) t := by
  cases req with
  | submit o =>
    simp only [call] at h
    split at h
    · rename_i result hr
      obtain ⟨rfl, rfl⟩ := Prod.mk.inj (Option.some.inj h)
      exact .submit ⟨fuel, hr⟩
    · cases h
  | cancel orderId =>
    obtain ⟨rfl, rfl⟩ := Prod.mk.inj (Option.some.inj h)
    exact .cancel orderId
  | modify orderId q =>
    simp only [call] at h
    split at h
    · rename_i hm
      obtain ⟨rfl, rfl⟩ := Prod.mk.inj (Option.some.inj h)
      exact .modify hm
    · rename_i hm
      obtain ⟨rfl, rfl⟩ := Prod.mk.inj (Option.some.inj h)
      exact .modifyUnknown hm

/-- Executed calls make up a run. -/
theorem BookState.run_of_exec {ok : BookState → Request → Prop}
    [∀ s req, Decidable (ok s req)] {fuel : ℕ} {reqs : List Request}
    {events : List (Request × Outcome)}
    (h : Run.exec (BookState.guarded ok feeModel fuel) s reqs = some (events, t)) :
    Run (BookState.GuardedStep ok feeModel) s events t := by
  refine Run.of_exec (fun s req e t he => ?_) h
  unfold guarded at he
  split_ifs at he with hok
  simp only [Option.map_eq_some_iff, Prod.mk.injEq] at he
  obtain ⟨⟨out, u⟩, hcall, rfl, rfl⟩ := he
  exact ⟨hok, step_of_call hcall⟩

theorem lookup_of_hasOrder {b : OrderBook} {id : String} (h : b.hasOrder id = false) :
    b.orderMap.lookup id = none := by
  simpa [OrderBook.hasOrder] using h

/-- A clean step keeps a book well formed. -/
theorem WellFormed.step (h : WellFormed s.mem s.book) (hstep : s.CleanStep feeModel e t) :
    WellFormed t.mem t.book := by
  obtain ⟨hclean, hstep⟩ := hstep
  cases hstep with
  | submit hr =>
    obtain ⟨-, hq, hid⟩ := hclean
    refine (h.of_alloc _).processOrder (h.fresh _) ?_ hr
    rw [Memory.alloc_order_self]
    exact lookup_of_hasOrder hid
  | cancel orderId => exact h.cancelOrder orderId
  | modify hm => exact h.modifyOrder hclean hm
  | modifyUnknown => exact h

/-- Every clean call on a well-formed book returns. -/
theorem WellFormed.exists_step (feeModel : Option FeeModel) (h : WellFormed s.mem s.book)
    {req : Request} (hclean : req.Clean s) : ∃ out t, s.CleanStep feeModel (req, out) t := by
  cases req with
  | submit o =>
    obtain ⟨htype, hq, hid⟩ := hclean
    have hready : Ready (s.mem.alloc o).1 s.book s.mem.next := by
      refine (h.of_alloc o).ready (h.fresh o) ?_
      rw [Memory.alloc_order_self]
      exact lookup_of_hasOrder hid
    obtain ⟨t, -, -, -, -, hrun⟩ := processOrder_fills feeModel hready.acceptable
      (by simpa using hq) (by simpa using htype)
    exact ⟨_, _, ⟨htype, hq, hid⟩, .submit ⟨2, hrun 2 le_rfl⟩⟩
  | cancel orderId => exact ⟨_, _, trivial, .cancel orderId⟩
  | modify orderId q =>
    cases hm : s.book.modifyOrder s.mem orderId q with
    | error e => exact ⟨_, _, hclean, .modifyUnknown hm⟩
    | ok r =>
      obtain ⟨mem, book⟩ := r
      exact ⟨_, _, hclean, .modify hm⟩

/-! ## What the observers of a well-formed book see -/

section Resting

variable {mem : Memory} {b : OrderBook}

theorem Sane.nodup_resting (h : Sane mem b) : b.resting.Nodup := by
  refine (h.nodup_items .buy).append (h.nodup_items .sell) fun r hbuy hsell => ?_
  have hside := h.side_of_mem hbuy
  rw [h.side_of_mem hsell] at hside
  exact absurd hside (by decide)

/-- No two resting orders share an id. -/
theorem Indexed.nodup_ids (h : Indexed mem b) :
    (b.resting.map fun r => (mem.order r).id).Nodup := by
  refine h.nodup_resting.map_on fun r hr r' hr' heq => ?_
  exact h.eq_of_id (OrderBook.mem_resting.mp hr) (h.found r' (OrderBook.mem_resting.mp hr')) heq

end Resting

namespace WellFormed

variable {mem : Memory} {b : OrderBook}

/-- `getOrderCount` counts the resting orders. -/
theorem getOrderCount_eq (h : WellFormed mem b) : b.getOrderCount = b.resting.length := by
  have hkeys : b.orderMap.keys.Perm (b.resting.map fun r => (mem.order r).id) := by
    refine (List.perm_ext_iff_of_nodup b.orderMap.nodupKeys h.nodup_ids).mpr fun id => ?_
    change id ∈ b.orderMap.keys ↔ _
    rw [← AList.mem_keys, ← AList.lookup_isSome, Option.isSome_iff_exists, List.mem_map]
    constructor
    · rintro ⟨r, hr⟩
      exact ⟨r, OrderBook.mem_resting.mpr (h.resting id r hr), h.named id r hr⟩
    · rintro ⟨r, hr, rfl⟩
      exact ⟨r, h.found r (OrderBook.mem_resting.mp hr)⟩
  have hlen := hkeys.length_eq
  rw [List.length_map] at hlen
  rw [OrderBook.getOrderCount, ← hlen]
  exact (List.length_map ..).symm

/-- `hasOrder` knows the ids of the resting orders. -/
theorem hasOrder_iff (h : WellFormed mem b) {id : String} :
    b.hasOrder id = true ↔ ∃ r, b.Rests r ∧ (mem.order r).id = id := by
  rw [OrderBook.hasOrder, Option.isSome_iff_exists]
  exact exists_congr fun r => h.lookup_iff

/-- `getTopBids` and `getTopAsks` list the best prices with the quantity resting there. -/
theorem getTop_eq (h : WellFormed mem b) (side : Side) (depth : ℕ) :
    b.getTop side depth =
      ((b.queues side).take depth).map fun u => (u.key, mem.total u.items) := by
  rw [OrderBook.getTop, OrderBook.queues, ← List.map_take, List.map_map]
  refine List.map_congr_left fun l hl => ?_
  rw [h.total side l (List.mem_of_mem_take hl)]
  rfl

end WellFormed

/-- **Representation invariant.** After any run of clean calls on an empty book, the book is
well formed: levels sorted and nonempty, orders at the level of their side and price with
positive quantities, totals right, and the id map a bijection onto the resting orders, which
are what the observers describe. -/
theorem wellFormed_of_run {mem : Memory} {symbol : String} {events : List (Request × Outcome)}
    (h : Run (BookState.CleanStep feeModel) (.initial mem symbol) events s) :
    WellFormed s.mem s.book ∧
      (s.book.buyLevels.map PriceLevel.price).Pairwise (· > ·) ∧
      (s.book.sellLevels.map PriceLevel.price).Pairwise (· < ·) ∧
      (∀ id r, s.book.orderMap.lookup id = some r ↔
        s.book.Rests r ∧ (s.mem.order r).id = id) ∧
      s.book.getOrderCount = s.book.resting.length ∧
      (∀ id, s.book.hasOrder id = true ↔ ∃ r, s.book.Rests r ∧ (s.mem.order r).id = id) ∧
      ∀ side depth, s.book.getTop side depth =
        ((s.book.queues side).take depth).map fun u => (u.key, s.mem.total u.items) := by
  have hs : WellFormed s.mem s.book :=
    h.invariant (fun s => WellFormed s.mem s.book) (.empty mem symbol) fun _ _ _ => .step
  exact ⟨hs, List.pairwise_map.mpr (hs.sorted .buy), List.pairwise_map.mpr (hs.sorted .sell),
    fun id r => hs.lookup_iff, hs.getOrderCount_eq, fun id => hs.hasOrder_iff,
    hs.getTop_eq⟩

/-- An ask is resized, hit by a bid that rests its remainder, and the bid is cancelled. -/
theorem wellFormed_of_run_four_calls : ∃ events s,
    Run (BookState.CleanStep none) (.initial Memory.empty "S") events s ∧ events.length = 4 ∧
      WellFormed s.mem s.book := by
  let reqs : List Request := [.submit ⟨"a", "S", .sell, .limit, 100, 5⟩, .modify "a" 7,
    .submit ⟨"b", "S", .buy, .limit, 100, 9⟩, .cancel "b"]
  let final := Run.exec (BookState.guarded (fun s req => req.Clean s) none 3)
    (.initial Memory.empty "S") reqs
  have hsome : (final.map fun p => p.1.length) = some 4 := by decide +kernel
  obtain ⟨⟨events, s⟩, hfinal, hlen⟩ := Option.map_eq_some_iff.mp hsome
  have hrun := BookState.run_of_exec hfinal
  exact ⟨events, s, hrun, hlen, (wellFormed_of_run hrun).1⟩

end GoQuant
