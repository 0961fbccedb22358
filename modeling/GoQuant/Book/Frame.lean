import GoQuant.Book.Runs

/-!
# What matching leaves alone

Matching an order should touch only the makers that the returned trades name. It does as
long as the order's id leads to no order that rests: `executeTrade` also decreases whatever
the taker's id leads to, and `addOrder` redirects the id to the new order. Nothing rejects
an id in use, so a second order under the id of a resting one takes quantity from it, or
cuts it off from its id.

## Main definitions

* `Frame` — only the makers named changed, and by what the trades say.
* `Request.Separate` — the id of an incoming order leads to no other resting order.

## Main results

* `frame_of_run` — matching after a run of separate requests touches only named makers.
* `frame_fails_on_reused_id` — it does not once an id is used twice.
-/

namespace GoQuant

open MatchingAlgorithm

/-- The total of the trades that name an order id as maker. -/
def madeUnder (trades : List Trade) (id : String) : ℚ :=
  Fill.given (trades.map fun t => (t.makerOrderId, t.quantity)) id

/-- The orders of a book that no trade names as maker. -/
def unnamed (mem : Memory) (b : OrderBook) (trades : List Trade) (r : Ref) : Bool :=
  decide (b.Rests r ∧ (mem.order r).id ∉ trades.map Trade.makerOrderId)

/-- Matching touched only the makers named: every other order rests as before in the same
place and is found and cancelled through its id, and a named maker lost what the trades say. -/
structure Frame (mem : Memory) (b : OrderBook) (result : Matching) : Prop where
  kept : ∀ r, b.Rests r → (mem.order r).id ∉ result.trades.map Trade.makerOrderId →
    result.book.Rests r ∧ result.mem.order r = mem.order r ∧
      result.book.orderMap.lookup (mem.order r).id = some r ∧
      ¬ (result.book.cancelOrder result.mem (mem.order r).id).2.Rests r
  places : ∀ side, Ladder.retain (unnamed mem b result.trades) (result.book.queues side) =
    Ladder.retain (unnamed mem b result.trades) (b.queues side)
  taken : ∀ r, b.Rests r → (mem.order r).id ∈ result.trades.map Trade.makerOrderId →
    if result.book.Rests r then
      (result.mem.order r).quantity =
        (mem.order r).quantity - madeUnder result.trades (mem.order r).id
    else (mem.order r).quantity = madeUnder result.trades (mem.order r).id

/-- An order's id leads to no resting order but the first one it matches, which it uses up;
or the order is not a LIMIT order and matches nothing. -/
def Request.Separate (s : BookState) : Request → Prop
  | .submit o =>
    (∀ r ∈ s.book.resting, (s.mem.order r).id = o.id →
      (s.book.getMatchingOrders s.mem o).head? = some r ∧
        (s.mem.order r).quantity ≤ o.quantity) ∨
    o.type ≠ .limit ∧ (s.book.getMatchingOrders s.mem o = [] ∨
      o.type = .fok ∧
        availableQty s.mem o.quantity 0 (s.book.getMatchingOrders s.mem o) < o.quantity)
  | _ => True

instance (s : BookState) (req : Request) : Decidable (req.Separate s) :=
  match req with
  | .submit _ => by dsimp only [Request.Separate]; infer_instance
  | .cancel _ | .modify _ _ => isTrue trivial

section Frame

variable {feeModel : Option FeeModel} {mem : Memory} {b : OrderBook} {order : Ref}
  {result t : Matching}

/-- Trades naming the id of a resting order are fills of that order. -/
theorem madeUnder_eq (h : Indexed mem b)
    (hfills : (start mem b order).Fills feeModel order (takes mem b order) t) {r : Ref}
    (hr : b.Rests r) :
    madeUnder t.trades (mem.order r).id = Fill.given (takes mem b order) r ∧
      ((mem.order r).id ∈ t.trades.map Trade.makerOrderId ↔
        r ∈ (takes mem b order).map Prod.fst) := by
  have htrades := hfills.trades
  rw [start_trades, List.nil_append] at htrades
  have hinj : ∀ p ∈ takes mem b order, (mem.order p.1).id = (mem.order r).id → p.1 = r :=
    fun p hp heq => h.eq_of_id
      (OrderBook.rests_of_mem_reachRefs (mem_reachRefs_of_mem_takes hp)) (h.found r hr) heq
  constructor
  · rw [madeUnder, htrades, map_tradesOf _ (fun p => (p.1.id, p.2)) (fun _ _ => rfl),
      List.map_map]
    exact Fill.given_map (fun r => (mem.order r).id) hinj
  · rw [htrades, map_tradesOf _ (fun p => p.1.id) (fun _ _ => rfl), List.map_map]
    constructor
    · intro hin
      obtain ⟨p, hp, heq⟩ := List.mem_map.mp hin
      exact List.mem_map.mpr ⟨p, hp, hinj p hp heq⟩
    · intro hin
      obtain ⟨p, hp, rfl⟩ := List.mem_map.mp hin
      exact List.mem_map.mpr ⟨p, hp, rfl⟩

/-- Matching an acceptable order keeps the frame. -/
theorem Acceptable.frame (h : Acceptable mem b order) (hq : 0 < (mem.order order).quantity)
    (htype : (mem.order order).type.Matchable) (hr : Returns feeModel mem b order result) :
    Frame mem b result ∧ Indexed result.mem result.book ∧ NonNeg result.mem result.book := by
  obtain ⟨t, hprep, hready, htrading, hfills, rfl⟩ := hr.fills h hq htype
  have htaker : t.mem.order order = mem.order order := hfills.taker
  obtain ⟨hindexed, hnonneg⟩ := hprep.finish fun hlimit => hready (by
    rw [htaker] at hlimit
    simp [hlimit])
  have hnew : ∀ r, b.Rests r → r ≠ order := fun r hr heq => h.fresh.notResting (heq ▸ hr)
  have hnotGone : ∀ r, b.Rests r →
      (mem.order r).id ∉ t.trades.map Trade.makerOrderId → r ∉ (takes mem b order).map Prod.fst :=
    fun r hr hun hin => hun ((madeUnder_eq h.indexed hfills hr).2.mpr hin)
  have hext : mem.Extends (finish order t).mem := returns_extends hr
  refine ⟨⟨fun r hrests hun => ?_, fun side => ?_, fun r hrests hnamed => ?_⟩, hindexed, hnonneg⟩
  · rw [finish_trades] at hun
    have hkept := hnotGone r hrests hun
    have hgone : (r, (mem.order r).quantity) ∉ takes mem b order :=
      fun hin => hkept (List.mem_map.mpr ⟨_, hin, rfl⟩)
    have hresult : (finish order t).book.Rests r :=
      rests_finish_of_rests (hfills.rests_iff.mpr ⟨hrests, hgone⟩)
    have hlook : (finish order t).book.orderMap.lookup (mem.order r).id = some r := by
      rw [← hext.id_eq (h.indexed.restsAllocated r hrests)]
      exact hindexed.found r hresult
    refine ⟨hresult, ?_, hlook, fun hcancelled => ?_⟩
    · rw [order_finish (hnew r hrests)]
      exact hfills.order_of_not_mem hrests hkept
    · have hne := ((OrderBook.rests_of_queues (hindexed.cancelOrder_queues hlook)).mp
        hcancelled).2
      exact of_decide_eq_true hne rfl
  · rw [finish_trades, retain_queues_finish, hfills.queues, Ladder.retain_retain]
    · refine Ladder.retain_congr fun r hin => ?_
      cases hun : unnamed mem b t.trades r with
      | false => simp
      | true =>
        obtain ⟨hrests, hun⟩ := of_decide_eq_true hun
        have hgone : (r, (mem.order r).quantity) ∉ takes mem b order :=
          fun hin => hnotGone r hrests hun (List.mem_map.mpr ⟨_, hin, rfl⟩)
        rw [Bool.and_true]
        exact decide_eq_true hgone
    · exact decide_eq_false fun hc => h.fresh.notResting hc.1
  · rw [finish_trades] at hnamed ⊢
    obtain ⟨hmade, -⟩ := madeUnder_eq h.indexed hfills hrests
    rw [hmade]
    by_cases hgone : (r, (mem.order r).quantity) ∈ takes mem b order
    · have hout : ¬ (finish order t).book.Rests r := by
        intro hresult
        rcases rests_finish hresult with hresult | ⟨heq, -⟩
        · exact (hfills.rests_iff.mp hresult).2 hgone
        · exact hnew r hrests heq
      rw [if_neg hout, Fill.given_eq_of_mem (takes_nodup h.indexed.toSane) hgone]
    · have hin : (finish order t).book.Rests r :=
        rests_finish_of_rests (hfills.rests_iff.mpr ⟨hrests, hgone⟩)
      rw [if_pos hin, order_finish (hnew r hrests), hfills.makers r hrests hgone]
      rfl

theorem frame_start (h : Indexed mem b) : Frame mem b (start mem b order) := by
  refine ⟨fun r hr _ => ⟨hr, rfl, h.found r hr, fun hcancelled => ?_⟩, fun _ => rfl,
    fun r _ hnamed => by simp at hnamed⟩
  have hne := ((OrderBook.rests_of_queues (h.cancelOrder_queues (h.found r hr))).mp hcancelled).2
  exact of_decide_eq_true hne rfl

end Frame

/-! ## Runs of separate requests -/

section Runs

variable {feeModel : Option FeeModel} {s t : BookState} {o : Order}

/-- A separate order returns and keeps the frame. -/
theorem separate_submit (feeModel : Option FeeModel) (hi : Indexed s.mem s.book)
    (hn : NonNeg s.mem s.book)
    (ho : (Request.submit o).Admitted) (hsep : (Request.submit o).Separate s) :
    ∃ result, Returns feeModel (s.mem.alloc o).1 s.book s.mem.next result ∧
      Frame (s.mem.alloc o).1 s.book result ∧ Indexed result.mem result.book ∧
      NonNeg result.mem result.book := by
  obtain ⟨-, htype, hq⟩ := ho
  have hext : s.mem.Extends (s.mem.alloc o).1 := .alloc s.mem o
  have hi' : Indexed (s.mem.alloc o).1 s.book := hi.of_extends hext
  have hold : ∀ r, s.book.Rests r → (s.mem.alloc o).1.order r = s.mem.order r :=
    fun r hr => Memory.alloc_order_of_lt _ _ _ (hi.restsAllocated r hr)
  have hn' : NonNeg (s.mem.alloc o).1 s.book := fun r hr => by
    rw [hold r hr]
    exact hn r hr
  have hself : (s.mem.alloc o).1.order s.mem.next = o := Memory.alloc_order_self _ _
  rcases hsep with hfirst | ⟨hlimit, hnone⟩
  · have hacc : Acceptable (s.mem.alloc o).1 s.book s.mem.next := by
      refine ⟨⟨hi', hn', hi.fresh o⟩, fun r hr heq => ?_⟩
      rw [hself, hold r hr] at heq ⊢
      obtain ⟨hhead, hle⟩ := hfirst r (OrderBook.mem_resting.mpr hr) heq
      rw [OrderBook.getMatchingOrders_eq, Fill.head?_covering hq] at hhead
      exact ⟨hhead, hle⟩
    obtain ⟨t, -, -, -, -, hrun⟩ := processOrder_fills feeModel hacc (by rwa [hself])
      (by rwa [hself])
    have hr : Returns feeModel (s.mem.alloc o).1 s.book s.mem.next (finish s.mem.next t) :=
      ⟨2, hrun 2 le_rfl⟩
    exact ⟨_, hr, hacc.frame (by rwa [hself]) (by rwa [hself]) hr⟩
  · refine ⟨start (s.mem.alloc o).1 s.book s.mem.next, ?_, frame_start hi', hi', hn'⟩
    refine returns_start (by rwa [hself]) ?_
    rw [hself]
    exact OrderBook.Inert.congr (Or.inr ⟨hlimit, hnone⟩) hold

/-- What the listener admits, with separate ids. -/
def BookState.SeparateStep : Option FeeModel → BookState → Request × Outcome → BookState → Prop :=
  BookState.GuardedStep fun s req => req.Admitted ∧ req.Separate s

theorem indexed_step {e : Request × Outcome}
    (h : Indexed s.mem s.book ∧ NonNeg s.mem s.book) (hstep : s.SeparateStep feeModel e t) :
    Indexed t.mem t.book ∧ NonNeg t.mem t.book := by
  obtain ⟨⟨hadmitted, hsep⟩, hstep⟩ := hstep
  cases hstep with
  | submit hr =>
    obtain ⟨result, hr', -, hi, hn⟩ := separate_submit feeModel h.1 h.2 hadmitted hsep
    rw [hr.unique hr']
    exact ⟨hi, hn⟩
  | cancel orderId =>
    exact ⟨h.1.cancelOrder orderId,
      h.2.of_shrinks (OrderBook.cancelOrder_shrinks s.mem s.book orderId)⟩
  | modify hm => exact ⟨h.1.modifyOrder hm, h.2.modifyOrder hadmitted hm⟩
  | modifyUnknown => exact h

/-- **Frame.** After any run from an empty book of admitted requests with separate ids,
every further such order is matched and touches only the makers its trades name. -/
theorem frame_of_run {mem : Memory} {symbol : String} {events : List (Request × Outcome)}
    (h : Run (BookState.SeparateStep feeModel) (.initial mem symbol) events s)
    (ho : (Request.submit o).Admitted) (hsep : (Request.submit o).Separate s) :
    ∃ result, Returns feeModel (s.mem.alloc o).1 s.book s.mem.next result ∧
      Frame (s.mem.alloc o).1 s.book result := by
  obtain ⟨hi, hn⟩ := h.invariant (fun s => Indexed s.mem s.book ∧ NonNeg s.mem s.book)
    ⟨.empty mem symbol, .empty mem symbol⟩ fun _ _ _ => indexed_step
  obtain ⟨result, hr, hframe, -⟩ := separate_submit feeModel hi hn ho hsep
  exact ⟨result, hr, hframe⟩

/-- A bid takes one of two resting asks. -/
theorem frame_of_run_two_asks : ∃ events s,
    Run (BookState.SeparateStep none) (.initial Memory.empty "S") events s ∧
      events.length = 2 ∧ ∃ result,
        Returns none (s.mem.alloc ⟨"t", "S", .buy, .limit, 101, 7⟩).1 s.book s.mem.next result ∧
        Frame (s.mem.alloc ⟨"t", "S", .buy, .limit, 101, 7⟩).1 s.book result := by
  let o : Order := ⟨"t", "S", .buy, .limit, 101, 7⟩
  let reqs : List Request :=
    [.submit ⟨"a", "S", .sell, .limit, 100, 5⟩, .submit ⟨"b", "S", .sell, .limit, 101, 4⟩]
  let final := Run.exec (BookState.guarded (fun s req => req.Admitted ∧ req.Separate s) none 3)
    (.initial Memory.empty "S") reqs
  have hsome : (final.map fun p => (p.1.length, decide ((Request.submit o).Separate p.2))) =
      some (2, true) := by decide +kernel
  obtain ⟨⟨events, s⟩, hfinal, hlen⟩ := Option.map_eq_some_iff.mp hsome
  have hrun := BookState.run_of_exec hfinal
  exact ⟨events, s, hrun, (Prod.mk.inj hlen).1,
    frame_of_run hrun (by decide) (of_decide_eq_true (Prod.mk.inj hlen).2)⟩

/-- Every request here is admitted, and the last order reuses the id of the resting bid "x".
It is matched against the ask "m" only, which its trade names; "x" loses three lots all the
same. -/
theorem frame_fails_on_reused_id : ∃ events s result,
    Run (BookState.GuardedStep (fun _ req => req.Admitted) none) (.initial Memory.empty "S")
      events s ∧
    events.map Prod.fst = [.submit ⟨"x", "S", .buy, .limit, 90, 5⟩,
      .submit ⟨"m", "S", .sell, .limit, 100, 5⟩] ∧
    (Request.submit ⟨"x", "S", .buy, .limit, 100, 3⟩).Admitted ∧
    Returns none (s.mem.alloc ⟨"x", "S", .buy, .limit, 100, 3⟩).1 s.book s.mem.next result ∧
    result.trades.map Trade.makerOrderId = ["m"] ∧
    ¬ Frame (s.mem.alloc ⟨"x", "S", .buy, .limit, 100, 3⟩).1 s.book result := by
  let o : Order := ⟨"x", "S", .buy, .limit, 100, 3⟩
  let reqs : List Request :=
    [.submit ⟨"x", "S", .buy, .limit, 90, 5⟩, .submit ⟨"m", "S", .sell, .limit, 100, 5⟩]
  let final := Run.exec (BookState.guarded (fun _ req => req.Admitted) none 3)
    (.initial Memory.empty "S") reqs
  let matched (s : BookState) := processOrder none 3 (s.mem.alloc o).1 s.book s.mem.next
  let seen (s : BookState) (result : Matching) :=
    (result.trades.map Trade.makerOrderId, decide (s.book.Rests 0),
      ((s.mem.alloc o).1.order 0).id, ((s.mem.alloc o).1.order 0).quantity,
      (result.mem.order 0).quantity)
  have hsome : (final.bind fun p => (matched p.2).toOption.join.map fun result =>
      (p.1.map Prod.fst, seen p.2 result)) = some (reqs, ["m"], true, "x", 5, 2) := by
    decide +kernel
  obtain ⟨⟨events, s⟩, hfinal, hmatched⟩ := Option.bind_eq_some_iff.mp hsome
  obtain ⟨result, hresult, hseen⟩ := Option.map_eq_some_iff.mp hmatched
  have hreturns : matched s = .ok (some result) := by
    cases hm : matched s with
    | error message => simp [hm, Except.toOption] at hresult
    | ok r => simpa [hm, Except.toOption] using hresult
  simp only [Prod.mk.injEq, seen] at hseen
  obtain ⟨hreqs, hmakers, hrests, hid, hbefore, hafter⟩ := hseen
  refine ⟨events, s, result, BookState.run_of_exec hfinal, hreqs, by decide, ⟨3, hreturns⟩,
    hmakers, fun hframe => ?_⟩
  obtain ⟨-, hkept, -⟩ := hframe.kept 0 (of_decide_eq_true hrests) (by
    rw [hid, hmakers]
    decide)
  rw [hkept, hbefore] at hafter
  exact absurd hafter (by decide)

end Runs

end GoQuant
