import GoQuant.Book.Walk

/-!
# An order that never trades leaves no trace

Two runs are compared: one with an order that no trade names, and one from which every call on
that order is deleted. At each moment the ladders of the second run are those of the first
without the order. A walk that does not take the order goes the same way whether it is there
or not, so that the calls on other orders have the same outcomes.

## Main definitions

* `Greedy.without` — ladders without the order of an id.
* `Without` — two states of a book, the second one without the order of an id.

## Main results

* `Greedy.Proper.takes_without`, `after_without` — one walk on both ladders.
* `untraded_of_run` — deleting the order from a run.
-/

namespace GoQuant

open MatchingAlgorithm

/-- The id a call is about. -/
def Request.orderId : Request → String
  | .submit o => o.id
  | .cancel orderId => orderId
  | .modify orderId _ => orderId

/-- Quantities of orders, and the quantities they are changed to, are positive. -/
def Request.Positive : Request → Prop
  | .submit o => 0 < o.quantity
  | .cancel _ => True
  | .modify _ newQuantity => 0 < newQuantity

/-- The ids under which the calls submit orders. -/
def submittedIds (events : List (Request × Outcome)) : List String :=
  events.filterMap fun e =>
    match e.1 with
    | .submit o => some o.id
    | _ => none

namespace Greedy

variable {ladder : Side → List (Tier ℚ Order)} {taker : Order} {id : String} {s : Side}

/-- The ladders without the order of an id. -/
def without (id : String) (ladder : Side → List (Tier ℚ Order)) (s : Side) :
    List (Tier ℚ Order) :=
  Ladder.retain (fun o => o.id ≠ id) (ladder s)

theorem without_nil (h : ∀ s, ∀ t ∈ ladder s, t.items ≠ [])
    (hid : ∀ s, ∀ o ∈ Ladder.items (ladder s), o.id ≠ id) : without id ladder = ladder := by
  funext s
  exact Ladder.retain_eq_self (h s) fun o ho => decide_eq_true (hid s o ho)

/-- Settling and dropping an order can be done in either order. -/
theorem without_update (fs : List (Order × ℚ)) (ts : List (Tier ℚ Order)) :
    Ladder.retain (fun o => o.id ≠ id) (Ladder.update (settle fs) ts) =
      Ladder.update (settle fs) (Ladder.retain (fun o => o.id ≠ id) ts) := by
  rw [Ladder.retain, Ladder.update_update, Ladder.update_update]
  refine Ladder.update_congr ?_
  intro o _
  by_cases ho : o.id = id
  · cases hsettle : settle fs o with
    | none => simp [Option.guard, ho]
    | some o' => simp [Option.guard, ho, settle_id hsettle]
  · cases hsettle : settle fs o with
    | none => simp [Option.guard, ho, hsettle]
    | some o' => simp [Option.guard, ho, hsettle, settle_id hsettle]

namespace Proper

variable (h : Proper ladder) (h' : Proper (without id ladder))

include h h'

theorem makers_without : makers taker (without id ladder) =
    (makers taker ladder).filter fun o => o.id ≠ id := by
  rw [h.makers_eq, h'.makers_eq, without, Ladder.items_retain, List.filter_filter,
    List.filter_filter]
  exact List.filter_congr fun o _ => Bool.and_comm _ _

/-- A walk that does not take the order is the same without it. A FOK order that is turned away
takes nothing, and is turned away all the more where less is on offer. -/
theorem takes_without (hnone : ∀ x ∈ takes taker ladder, x.1.id ≠ id) :
    takes taker (without id ladder) = takes taker ladder ∧
      left taker (without id ladder) = left taker ladder := by
  have hmakers : makers taker (without id ladder) = _ := makers_without h h'
  by_cases hrejects : rejects taker ladder
  · have hrejects' : rejects taker (without id ladder) := by
      refine ⟨hrejects.1, ?_⟩
      unfold remainder
      rw [hmakers]
      exact Fill.unfilled_pos_of_sublist h.nonneg List.filter_sublist hrejects.2
    simp only [takes, left, if_pos hrejects, if_pos hrejects', and_self]
  · rw [takes, if_neg hrejects] at hnone
    obtain ⟨hfills, hunfilled⟩ := Fill.fills_filter
      (p := fun o : Order => decide (o.id ≠ id)) fun x hx => decide_eq_true (hnone x hx)
    have hremainder : remainder taker (without id ladder) = remainder taker ladder := by
      unfold remainder
      rw [hmakers, hunfilled]
    have hrejects' : ¬ rejects taker (without id ladder) := by
      unfold rejects
      rw [hremainder]
      exact hrejects
    simp only [takes, left, if_neg hrejects, if_neg hrejects', hremainder, and_true]
    unfold fills
    rw [hmakers, hfills]

/-- The ladders after a walk that does not take the order. -/
theorem after_without (hid : taker.id ≠ id) (hnone : ∀ x ∈ takes taker ladder, x.1.id ≠ id) :
    after taker (without id ladder) = without id (after taker ladder) := by
  obtain ⟨htakes, hleft⟩ := takes_without h h' hnone
  funext s
  rcases Side.eq_or_eq_opposite s taker.side with rfl | rfl
  · unfold without at hleft ⊢
    rw [after_own, after_own, hleft]
    split_ifs
    · exact (Ladder.retain_push_of_pos (h.sorted _) (decide_eq_true hid)).symm
    · rfl
  · rw [after_opposite (h'.nonempty _), without, without, after_opposite (h.nonempty _), htakes]
    exact (without_update _ _).symm

omit h' in
/-- An order that takes nothing comes to rest or is dropped. -/
theorem without_after (hid : taker.id = id) (hnone : takes taker ladder = []) :
    without id (after taker ladder) = without id ladder := by
  funext s
  rcases Side.eq_or_eq_opposite s taker.side with rfl | rfl
  · rw [without, after_own]
    split_ifs
    · exact Ladder.retain_push (by simp [hid])
    · rfl
  · have hsettle : settle [] = some := rfl
    rw [without, after_opposite (h.nonempty _), hnone, hsettle,
      Ladder.update_some (h.nonempty _)]
    rfl

end Proper

/-- A call on another order. -/
theorem call_without (h : Proper ladder) (h' : Proper (without id ladder)) {req : Request}
    (hid : req.orderId ≠ id) {feeModel : Option FeeModel} {n : ℕ}
    (hnone : ∀ t ∈ (outcome feeModel n ladder req).trades, id ∉ t.ids) :
    call (without id ladder) req = without id (call ladder req) ∧
      outcome feeModel n (without id ladder) req = outcome feeModel n ladder req := by
  cases req with
  | submit o =>
    have hmakers : (outcome feeModel n ladder (.submit o)).trades.map Trade.makerOrderId =
        (takes o ladder).map fun x => x.1.id := map_tradesOf _ _ (fun _ _ => rfl) n _
    have htakes : ∀ x ∈ takes o ladder, x.1.id ≠ id := by
      rintro x hx rfl
      have hmem : x.1.id ∈ (takes o ladder).map fun x => x.1.id := List.mem_map.mpr ⟨x, hx, rfl⟩
      rw [← hmakers] at hmem
      obtain ⟨t, ht, hmaker⟩ := List.mem_map.mp hmem
      exact hnone t ht (by simp [Trade.ids, hmaker])
    obtain ⟨hsame, hleft⟩ := h.takes_without h' htakes
    refine ⟨h.after_without h' hid htakes, ?_⟩
    simp only [outcome, hsame, hleft]
  | cancel orderId =>
    refine ⟨?_, rfl⟩
    funext s
    simp only [call, without, Ladder.retain_retain]
    exact Ladder.retain_congr fun o _ => Bool.and_comm _ _
  | modify orderId newQuantity =>
    refine ⟨?_, rfl⟩
    funext s
    simp only [call, without, Ladder.retain]
    rw [Ladder.map_update, Ladder.update_map]
    refine Ladder.update_congr ?_
    intro o _
    by_cases ho : o.id = id <;> simp [Option.guard, resize_id, ho]

/-- A call on the order itself. -/
theorem without_call (h : Proper ladder) {req : Request} (hid : req.orderId = id)
    {feeModel : Option FeeModel} {n : ℕ}
    (hnone : ∀ t ∈ (outcome feeModel n ladder req).trades, id ∉ t.ids) :
    without id (call ladder req) = without id ladder ∧
      (outcome feeModel n ladder req).trades = [] := by
  cases req with
  | submit o =>
    have htakes : takes o ladder = [] := by
      cases hfills : takes o ladder with
      | nil => rfl
      | cons x fs =>
        refine absurd ?_ (hnone (tradeOf feeModel o n x.1 x.2) ?_)
        · exact List.mem_cons_of_mem _ (List.mem_singleton.mpr hid.symm)
        · rw [outcome, hfills]
          exact List.mem_cons_self
    refine ⟨h.without_after hid htakes, ?_⟩
    rw [outcome, htakes]
    rfl
  | cancel orderId =>
    refine ⟨?_, rfl⟩
    obtain rfl : orderId = id := hid
    funext s
    simp only [call, without, Ladder.retain_retain, Bool.and_self]
  | modify orderId newQuantity =>
    refine ⟨?_, rfl⟩
    obtain rfl : orderId = id := hid
    funext s
    simp only [call, without, Ladder.retain]
    rw [Ladder.update_map]
    refine Ladder.update_congr ?_
    intro o _
    by_cases ho : o.id = orderId <;> simp [Option.guard, resize, ho]

end Greedy

/-! ## Two runs of a book -/

/-- Two states of a book, the second one without the order of an id. -/
structure Without (id : String) (s s' : BookState) : Prop where
  wellFormed : WellFormed s.mem s.book
  wellFormed' : WellFormed s'.mem s'.book
  ladder : s'.book.ladder s'.mem = Greedy.without id (s.book.ladder s.mem)
  counter : s'.mem.tradeCounter = s.mem.tradeCounter

namespace Without

variable {feeModel : Option FeeModel} {id : String} {s s' t : BookState} {req : Request}
  {out : Outcome}

theorem proper' (h : Without id s s') : Greedy.Proper (Greedy.without id (s.book.ladder s.mem)) :=
  h.ladder ▸ h.wellFormed'.proper

/-- What the second book holds the first one holds too. -/
theorem hasOrder (h : Without id s s') {orderId : String}
    (hid : s'.book.hasOrder orderId = true) : s.book.hasOrder orderId = true := by
  obtain ⟨side, o, ho, hname⟩ := h.wellFormed'.hasOrder_iff_ladder.mp hid
  rw [h.ladder, Greedy.without, Ladder.items_retain] at ho
  exact h.wellFormed.hasOrder_iff_ladder.mpr ⟨side, o, List.mem_of_mem_filter ho, hname⟩

theorem clean (h : Without id s s') (hclean : req.Clean s) : req.Clean s' := by
  cases req with
  | submit o =>
    refine ⟨hclean.1, hclean.2.1, ?_⟩
    rw [Bool.eq_false_iff]
    intro hid
    exact Bool.eq_false_iff.mp hclean.2.2 (h.hasOrder hid)
  | cancel orderId => trivial
  | modify orderId newQuantity => exact hclean

/-- A call on another order has the same outcome on both books. -/
theorem step_of_ne (h : Without id s s') (hstep : s.CleanStep feeModel (req, out) t)
    (hid : req.orderId ≠ id) (hnone : ∀ t ∈ out.trades, id ∉ t.ids) :
    ∃ t', s'.CleanStep feeModel (req, out) t' ∧ Without id t t' := by
  obtain ⟨hladder, rfl, hcounter⟩ := h.wellFormed.walk hstep
  obtain ⟨out', t', hstep'⟩ := h.wellFormed'.exists_step feeModel (h.clean hstep.1)
  obtain ⟨hladder', rfl, hcounter'⟩ := h.wellFormed'.walk hstep'
  obtain ⟨hcall, hout⟩ := Greedy.call_without h.wellFormed.proper h.proper' hid hnone
  rw [h.ladder] at hladder' hcounter' hstep'
  rw [h.counter, hout] at hstep' hcounter'
  refine ⟨t', hstep', h.wellFormed.step hstep, h.wellFormed'.step hstep', ?_, ?_⟩
  · rw [funext hladder', funext hladder, hcall]
  · rw [hcounter', hcounter]

/-- A call on the order itself is deleted. -/
theorem step_of_eq (h : Without id s s') (hstep : s.CleanStep feeModel (req, out) t)
    (hid : req.orderId = id) (hnone : ∀ t ∈ out.trades, id ∉ t.ids) : Without id t s' := by
  obtain ⟨hladder, rfl, hcounter⟩ := h.wellFormed.walk hstep
  obtain ⟨hcall, htrades⟩ := Greedy.without_call h.wellFormed.proper hid hnone
  refine ⟨h.wellFormed.step hstep, h.wellFormed', ?_, ?_⟩
  · rw [h.ladder, funext hladder, hcall]
  · rw [hcounter, htrades, h.counter]
    rfl

/-- When the order is gone, the books hold the same. -/
theorem sameContents (h : Without id s s') (hid : s.book.hasOrder id = false) :
    SameContents s.mem s.book s'.mem s'.book := by
  refine h.wellFormed.sameContents_of_ladder h.wellFormed' ?_
  intro side
  rw [h.ladder, Greedy.without_nil h.wellFormed.proper.nonempty]
  intro side' o ho hname
  have hknown := h.wellFormed.hasOrder_iff_ladder.mpr ⟨side', o, ho, hname⟩
  exact Bool.eq_false_iff.mp hid hknown

end Without

section Runs

variable {feeModel : Option FeeModel} {mem : Memory} {symbol id : String} {s t : BookState}
  {req : Request} {out out' : Outcome} {o : Order}
  {events before between later : List (Request × Outcome)}

/-- A run in which no id is submitted twice is clean, and the book knows submitted ids only. -/
theorem cleanRun_of_unique (hrun : Run (BookState.Step feeModel) (.initial mem symbol) events s)
    (hpositive : ∀ e ∈ events, e.1.Positive) (hunique : (submittedIds events).Nodup) :
    Run (BookState.CleanStep feeModel) (.initial mem symbol) events s ∧
      WellFormed s.mem s.book ∧
      ∀ id, s.book.hasOrder id = true → id ∈ submittedIds events := by
  refine hrun.history (fun events s => (∀ e ∈ events, e.1.Positive) →
    (submittedIds events).Nodup →
      Run (BookState.CleanStep feeModel) (.initial mem symbol) events s ∧
      WellFormed s.mem s.book ∧ ∀ id, s.book.hasOrder id = true → id ∈ submittedIds events)
    ?_ ?_ hpositive hunique
  · intro _ _
    refine ⟨.nil, .empty mem symbol, fun id hid => ?_⟩
    simp [BookState.initial, OrderBook.hasOrder, OrderBook.empty] at hid
  · rintro events t ⟨req, out⟩ u ih hstep hpositive hunique
    rw [List.forall_mem_append, List.forall_mem_singleton] at hpositive
    rw [submittedIds, List.filterMap_append] at hunique
    obtain ⟨hunique, -, hnew⟩ := List.nodup_append.mp hunique
    obtain ⟨hclean, hwell, hknown⟩ := ih hpositive.1 hunique
    have hcleanStep : t.CleanStep feeModel (req, out) u := by
      refine ⟨?_, hstep⟩
      cases hstep with
      | @submit o result hr =>
        refine ⟨by simpa using hr.matchable, hpositive.2, ?_⟩
        rw [Bool.eq_false_iff]
        intro hid
        exact hnew o.id (hknown o.id hid) o.id (List.mem_singleton.mpr rfl) rfl
      | cancel orderId => trivial
      | modify hm => exact hpositive.2
      | modifyUnknown hm => exact hpositive.2
    refine ⟨hclean.snoc hcleanStep, hwell.step hcleanStep, ?_⟩
    intro id hid
    rw [submittedIds, List.filterMap_append, List.mem_append]
    obtain hold | ⟨o, rfl, rfl⟩ := hwell.hasOrder_step hcleanStep hid
    · exact Or.inl (hknown id hold)
    · exact Or.inr (List.mem_singleton.mpr rfl)

/-- An id that the book does not know and nobody submits stays unknown. -/
theorem hasOrder_of_run (hrun : Run (BookState.CleanStep feeModel) s events t)
    (hwell : WellFormed s.mem s.book) (hid : s.book.hasOrder id = false)
    (hnew : id ∉ submittedIds events) : t.book.hasOrder id = false := by
  refine (hrun.history (fun events t => WellFormed t.mem t.book ∧
    (id ∉ submittedIds events → t.book.hasOrder id = false)) ⟨hwell, fun _ => hid⟩ ?_).2 hnew
  rintro events u ⟨req, out⟩ v ⟨hwell, ih⟩ hstep
  refine ⟨hwell.step hstep, ?_⟩
  intro hnew
  rw [submittedIds, List.filterMap_append, List.mem_append, not_or] at hnew
  rw [Bool.eq_false_iff]
  intro hid
  obtain hold | ⟨o, rfl, rfl⟩ := hwell.hasOrder_step hstep hid
  · exact Bool.eq_false_iff.mp (ih hnew.1) hold
  · exact hnew.2 (List.mem_singleton.mpr rfl)

/-- The run without the calls on an order that no trade names. -/
theorem without_of_run (hrun : Run (BookState.CleanStep feeModel) (.initial mem symbol) events s)
    (hnone : ∀ e ∈ events, ∀ t ∈ e.2.trades, id ∉ t.ids) :
    ∃ s', Run (BookState.CleanStep feeModel) (.initial mem symbol)
      (events.filter fun e => e.1.orderId ≠ id) s' ∧ Without id s s' := by
  refine hrun.history (fun events s => (∀ e ∈ events, ∀ t ∈ e.2.trades, id ∉ t.ids) →
    ∃ s', Run (BookState.CleanStep feeModel) (.initial mem symbol)
      (events.filter fun e => e.1.orderId ≠ id) s' ∧ Without id s s') ?_ ?_ hnone
  · intro _
    refine ⟨.initial mem symbol, .nil, .empty mem symbol, .empty mem symbol, ?_, rfl⟩
    funext side
    simp [BookState.initial, OrderBook.ladder, OrderBook.queues, Greedy.without, Ladder.retain,
      Ladder.update]
  · rintro events t ⟨req, out⟩ u ih hstep hnone
    rw [List.forall_mem_append, List.forall_mem_singleton] at hnone
    obtain ⟨t', hrun', hwithout⟩ := ih hnone.1
    rw [List.filter_append]
    by_cases hid : req.orderId = id
    · refine ⟨t', ?_, hwithout.step_of_eq hstep hid hnone.2⟩
      simpa [hid] using hrun'
    · obtain ⟨u', hstep', hwithout'⟩ := hwithout.step_of_ne hstep hid hnone.2
      refine ⟨u', ?_, hwithout'⟩
      simpa [hid] using hrun'.snoc hstep'

/-- **An order that never trades leaves no trace.** In a run from an empty book in which ids are
not reused and quantities are positive, let an order be submitted, named by no trade and
cancelled later, whatever happens before, between and after. Without all calls on that order the
run is still one, every other call has the same outcome in it, and the books hold the same in
the end. -/
theorem untraded_of_run (hrun : Run (BookState.Step feeModel) (.initial mem symbol) events s)
    (hpositive : ∀ e ∈ events, e.1.Positive) (hunique : (submittedIds events).Nodup)
    (hevents : events = before ++ (.submit o, out) :: between ++ (.cancel o.id, out') :: later)
    (hnone : ∀ e ∈ events, ∀ t ∈ e.2.trades, o.id ∉ t.ids) :
    ∃ s', Run (BookState.Step feeModel) (.initial mem symbol)
      (events.filter fun e => e.1.orderId ≠ o.id) s' ∧
        SameContents s.mem s.book s'.mem s'.book := by
  obtain ⟨hclean, -, -⟩ := cleanRun_of_unique hrun hpositive hunique
  obtain ⟨s', hrun', hwithout⟩ := without_of_run hclean hnone
  refine ⟨s', hrun'.mono fun _ _ _ hstep => hstep.2, hwithout.sameContents ?_⟩
  -- the order is gone after its cancellation, and its id is not submitted again
  rw [hevents] at hclean hunique
  obtain ⟨u, hu, hlater⟩ := Run.append_iff.mp hclean
  obtain ⟨v, hcancel, hlater⟩ := Run.cons_iff.mp hlater
  have hwell : WellFormed u.mem u.book :=
    hu.invariant (fun s => WellFormed s.mem s.book) (.empty mem symbol) fun _ _ _ => .step
  refine hasOrder_of_run hlater (hwell.step hcancel) (hwell.hasOrder_cancel hcancel) ?_
  intro hagain
  rw [submittedIds, List.filterMap_append, List.nodup_append] at hunique
  refine hunique.2.2 o.id ?_ o.id ?_ rfl
  · exact List.mem_filterMap.mpr ⟨(.submit o, out), by simp, rfl⟩
  · obtain ⟨e, he, hid⟩ := List.mem_filterMap.mp hagain
    exact List.mem_filterMap.mpr ⟨e, List.mem_cons_of_mem _ he, hid⟩

end Runs

/-- An ask behind another one is resized while a FOK order takes the better ask, and cancelled. -/
theorem untraded_of_run_fok : ∃ events s s',
    Run (BookState.Step none) (.initial Memory.empty "S") events s ∧
      events.map (fun e => e.2.trades.length) = [0, 0, 0, 1, 0] ∧
      Run (BookState.Step none) (.initial Memory.empty "S")
        (events.filter fun e => e.1.orderId ≠ "o") s' ∧
      SameContents s.mem s.book s'.mem s'.book := by
  let o : Order := ⟨"o", "S", .sell, .limit, 101, 5⟩
  let reqs : List Request := [.submit ⟨"a", "S", .sell, .limit, 100, 5⟩, .submit o,
    .modify "o" 7, .submit ⟨"t", "S", .buy, .fok, 101, 5⟩, .cancel "o"]
  let final :=
    Run.exec (BookState.guarded (fun _ _ => True) none 3) (.initial Memory.empty "S") reqs
  have hseen : final.map (fun p => (p.1.map Prod.fst, p.1.map (fun e => e.2.trades.length),
      p.1.flatMap (fun e => e.2.trades.flatMap Trade.ids))) =
        some (reqs, [0, 0, 0, 1, 0], ["a", "t"]) := by decide +kernel
  obtain ⟨⟨events, s⟩, hfinal, hseen⟩ := Option.map_eq_some_iff.mp hseen
  simp only [Prod.mk.injEq] at hseen
  obtain ⟨hreqs, hlengths, hids⟩ := hseen
  have hrun : Run (BookState.Step none) (.initial Memory.empty "S") events s :=
    (BookState.run_of_exec hfinal).mono fun _ _ _ hstep => hstep.2
  have hnone : ∀ e ∈ events, ∀ t ∈ e.2.trades, "o" ∉ t.ids := by
    intro e he t ht hid
    have hmem : "o" ∈ events.flatMap fun e => e.2.trades.flatMap Trade.ids :=
      List.mem_flatMap.mpr ⟨e, he, List.mem_flatMap.mpr ⟨t, ht, hid⟩⟩
    rw [hids] at hmem
    exact absurd hmem (by decide)
  obtain ⟨⟨_, out₁⟩, _, rfl, rfl, h₁⟩ := List.map_eq_cons_iff.mp hreqs
  obtain ⟨⟨_, out₂⟩, _, rfl, rfl, h₂⟩ := List.map_eq_cons_iff.mp h₁
  obtain ⟨⟨_, out₃⟩, _, rfl, rfl, h₃⟩ := List.map_eq_cons_iff.mp h₂
  obtain ⟨⟨_, out₄⟩, _, rfl, rfl, h₄⟩ := List.map_eq_cons_iff.mp h₃
  obtain ⟨⟨_, out₅⟩, _, rfl, rfl, h₅⟩ := List.map_eq_cons_iff.mp h₄
  obtain rfl := List.map_eq_nil_iff.mp h₅
  have hunique : ["a", "o", "t"].Nodup := by decide
  let before : List (Request × Outcome) := [(.submit ⟨"a", "S", .sell, .limit, 100, 5⟩, out₁)]
  let between : List (Request × Outcome) :=
    [(.modify "o" 7, out₃), (.submit ⟨"t", "S", .buy, .fok, 101, 5⟩, out₄)]
  obtain ⟨s', hrun', hsame⟩ := untraded_of_run hrun (by simp [Request.Positive, o]) hunique
    (show _ = before ++ (.submit o, out₂) :: between ++ [(.cancel o.id, out₅)] from rfl)
    hnone
  exact ⟨_, s, s', hrun, hlengths, hrun', hsame⟩

end GoQuant
