import GoQuant.Engine.Sections
import GoQuant.Lib.Run

/-!
# Calls under way

The engine serves several callers at once. A call is cut at its critical sections: what the
source does while it holds the engine's mutex is one step, and so is each call of a trade
callback, which it makes without the mutex. Between two steps of a call any steps of other
calls can happen. A caller that waits for each call to return sees the special case in which
nothing happens between them.

## Main definitions

* `Call`, `MatchingEngine.call` — the calls, executed without interruption.
* `Task` — what a call still has to do, `System.Step` — one step of one of the calls.

## Main results

* `System.run_of_call` — an uninterrupted call is a run of the system; `CallStep` — calls one
  after another.
* `SectionInvariant.run` — what every critical section keeps holds in every state reached.
-/

namespace GoQuant

/-- A call of a public function of the engine. The object of a submitted order is built for
the call, and the rate limiter has decided about it. -/
inductive Call where
  | submit (tryAcceptOrder : Bool) (o : Order)
  | cancel (orderId : String)
  | modify (orderId : String) (newQuantity : ℚ)
  | subscribeToMarketData (symbol : String) (callback : Subscriber)
  | subscribeToTrades (symbol : String) (callback : Subscriber)

/-- A call from beginning to end: the state when it has returned or thrown. -/
def MatchingEngine.call (fuel : ℕ) (e : MatchingEngine) : Call → Option MatchingEngine
  | .submit tryAcceptOrder o =>
    let (e, order) := e.alloc o
    (e.submitOrder fuel tryAcceptOrder order).map Prod.snd
  | .cancel orderId => some (e.cancelOrder orderId).2
  | .modify orderId newQuantity => some (e.modifyOrder orderId newQuantity).2
  | .subscribeToMarketData symbol callback => some (e.subscribeToMarketData symbol callback)
  | .subscribeToTrades symbol callback => some (e.subscribeToTrades symbol callback)

namespace MatchingEngine

/-- What a call does with an order that the locked part of `submitOrder` has looked at. -/
def publishResult (fuel : ℕ) (symbol : String) :
    Except String (Option (List Trade)) × MatchingEngine → Option MatchingEngine
  | (.ok (some trades), e) => (publishTrades fuel trades e).map (·.publishMarketDataUpdate symbol)
  | (_, e) => some e

theorem call_submit (fuel : ℕ) (e : MatchingEngine) (o : Order) :
    e.call fuel (.submit true o) =
      ((e.alloc o).1.acceptOrder fuel (e.alloc o).2).bind (publishResult fuel o.symbol) := by
  have hsymbol : ((e.alloc o).1.mem.order (e.alloc o).2).symbol = o.symbol :=
    congrArg Order.symbol (e.alloc_order_self o)
  simp only [call, submitOrder, if_true, hsymbol]
  rcases (e.alloc o).1.acceptOrder fuel (e.alloc o).2 with _ | ⟨_ | _ | trades, u⟩
  · rfl
  · rfl
  · rfl
  · exact Option.map_map ..

end MatchingEngine

/-- What a call still has to do after its first critical section. -/
inductive Task where
  | publish (trade : Trade)
  | deliver (callback : Subscriber) (t : Trade)
  | check (symbol : String) (price : ℚ)
  | read (symbol : String)
  | update (symbol : String) (update : MarketDataUpdate)

namespace MatchingEngine

variable (fuel : ℕ) (e : MatchingEngine)

/-- The first critical section of a call, and what remains to be done. -/
def start : Call → Option (List Task × MatchingEngine)
  | .submit tryAcceptOrder o =>
    let (e, order) := e.alloc o
    if tryAcceptOrder then
      match e.acceptOrder fuel order with
      | none => none
      | some (.ok (some trades), e) => some (trades.map .publish ++ [.read o.symbol], e)
      | some (_, e) => some ([], e)
    else some ([], e)
  | .cancel orderId =>
    let (affectedSymbol, e) := e.cancelOrderUnlocked orderId
    some (affectedSymbol.toList.map .read, e)
  | .modify orderId newQuantity =>
    let (affectedSymbol, e) := e.modifyOrderUnlocked orderId newQuantity
    some (affectedSymbol.toList.map .read, e)
  | .subscribeToMarketData symbol callback => some ([], e.subscribeToMarketData symbol callback)
  | .subscribeToTrades symbol callback => some ([], e.subscribeToTrades symbol callback)

variable {fuel e} in
/-- A submitted order passes through the first section, which leaves its trades to be published,
or it is refused. -/
theorem start_submit {tryAcceptOrder : Bool} {o : Order} {tasks : List Task} {e' : MatchingEngine}
    (h : e.start fuel (.submit tryAcceptOrder o) = some (tasks, e')) :
    (tryAcceptOrder = true ∧ ∃ r, (e.alloc o).1.acceptOrder fuel (e.alloc o).2 = some (r, e') ∧
      ((∃ trades, r = .ok (some trades) ∧ tasks = trades.map .publish ++ [.read o.symbol]) ∨
        (∀ trades, r ≠ .ok (some trades)) ∧ tasks = [])) ∨
    (tryAcceptOrder = false ∧ tasks = [] ∧ e' = (e.alloc o).1) := by
  simp only [start] at h
  split_ifs at h with htry
  · refine Or.inl ⟨htry, ?_⟩
    split at h
    · cases h
    · rename_i ha
      obtain ⟨rfl, rfl⟩ := Prod.mk.inj (Option.some.inj h)
      exact ⟨_, ha, Or.inl ⟨_, rfl, rfl⟩⟩
    · rename_i hnot ha
      obtain ⟨rfl, rfl⟩ := Prod.mk.inj (Option.some.inj h)
      exact ⟨_, ha, Or.inr ⟨hnot, rfl⟩⟩
  · obtain ⟨rfl, rfl⟩ := Prod.mk.inj (Option.some.inj h)
    exact Or.inr ⟨by simpa using htry, rfl, rfl⟩

/-- One task, and what it leaves to be done before the rest of the call. -/
def perform : Task → Option (List Task × MatchingEngine)
  | .publish trade =>
    let (t, callbacks, e) := e.recordTrade trade
    some (callbacks.map (.deliver · t) ++ [.check t.symbol t.price], e)
  | .deliver callback t => some ([], e.deliverTrade callback t)
  | .check symbol price => (e.checkTriggers fuel symbol price).map ([], ·)
  | .read symbol => some ([.update symbol (e.getMarketData symbol 10)], e)
  | .update symbol update => some ([], e.publishUpdate symbol update)

end MatchingEngine

/-- The engine with the calls under way; a call that has returned has no tasks left. -/
structure System where
  engine : MatchingEngine
  calls : List (List Task)

namespace System

/-- A step of the system: a call begins, or one under way goes on. -/
inductive Event where
  | begin (c : Call)
  | proceed (i : ℕ)

inductive Step (s : System) : Event → System → Prop
  | begin {fuel : ℕ} {c : Call} {tasks : List Task} {e : MatchingEngine} :
      s.engine.start fuel c = some (tasks, e) →
      Step s (.begin c) ⟨e, s.calls ++ [tasks]⟩
  | proceed {fuel i : ℕ} {task : Task} {rest tasks : List Task} {e : MatchingEngine} :
      s.calls[i]? = some (task :: rest) → s.engine.perform fuel task = some (tasks, e) →
      Step s (.proceed i) ⟨e, s.calls.set i (tasks ++ rest)⟩

/-- The same step, executed on fuel. -/
def advance (fuel : ℕ) (s : System) : Event → Option System
  | .begin c => (s.engine.start fuel c).map fun (tasks, e) => ⟨e, s.calls ++ [tasks]⟩
  | .proceed i =>
    match s.calls[i]? with
    | some (task :: rest) => (s.engine.perform fuel task).map fun (tasks, e) =>
        ⟨e, s.calls.set i (tasks ++ rest)⟩
    | _ => none

theorem step_of_advance {fuel : ℕ} {s t : System} {event : Event}
    (h : s.advance fuel event = some t) : s.Step event t := by
  cases event with
  | begin c =>
    obtain ⟨⟨tasks, e⟩, hstart, rfl⟩ := Option.map_eq_some_iff.mp h
    exact .begin hstart
  | proceed i =>
    simp only [advance] at h
    split at h
    · rename_i hcall
      obtain ⟨⟨tasks, e⟩, hperform, rfl⟩ := Option.map_eq_some_iff.mp h
      exact .proceed hcall hperform
    · cases h

/-- Executed steps make up a run. -/
theorem run_of_exec {fuel : ℕ} {s t : System} {events events' : List Event}
    (h : Run.exec (fun s event => (s.advance fuel event).map (event, ·)) s events =
      some (events', t)) : Run Step s events' t := by
  refine Run.of_exec (fun s event event' t he => ?_) h
  obtain ⟨u, hu, heq⟩ := Option.map_eq_some_iff.mp he
  obtain ⟨rfl, rfl⟩ := Prod.mk.inj heq
  exact step_of_advance hu

/-- The same step, if a condition on it holds. -/
def advanceIf (fuel : ℕ) (guard : System → Event → Prop) [∀ s event, Decidable (guard s event)]
    (s : System) (event : Event) : Option (Event × System) :=
  if guard s event then (s.advance fuel event).map (event, ·) else none

/-- Executed steps that meet a condition make up a run of such steps. -/
theorem run_of_execIf {fuel : ℕ} {guard : System → Event → Prop}
    [∀ s event, Decidable (guard s event)] {s t : System} {events events' : List Event}
    (h : Run.exec (advanceIf fuel guard) s events = some (events', t)) :
    Run (fun s event t => Step s event t ∧ guard s event) s events' t := by
  refine Run.of_exec (fun s event event' t he => ?_) h
  unfold advanceIf at he
  split_ifs at he with hs
  obtain ⟨u, hu, heq⟩ := Option.map_eq_some_iff.mp he
  obtain ⟨rfl, rfl⟩ := Prod.mk.inj heq
  exact ⟨step_of_advance hu, hs⟩

/-- The next task of a call. -/
def head? (s : System) (i : ℕ) : Option Task := s.calls[i]?.bind List.head?

theorem head?_of_calls {s : System} {i : ℕ} {task : Task} {rest : List Task}
    (h : s.calls[i]? = some (task :: rest)) : s.head? i = some task := by
  simp [head?, h]

/-- What the calls under way still have to do. -/
def tasks (s : System) : List Task := s.calls.flatten

theorem tasks_begin (s : System) (e : MatchingEngine) (tasks : List Task) :
    System.tasks ⟨e, s.calls ++ [tasks]⟩ = s.tasks ++ tasks := by
  simp [System.tasks]

/-- A task is replaced by what it leaves to be done, between the tasks of the calls that began
before and everything else. -/
theorem tasks_proceed_eq {s : System} {i : ℕ} {task : Task} {rest : List Task}
    (h : s.calls[i]? = some (task :: rest)) (e : MatchingEngine) (tasks : List Task) :
    ∃ later, s.tasks = (s.calls.take i).flatten ++ task :: later ∧
      System.tasks ⟨e, s.calls.set i (tasks ++ rest)⟩ =
        (s.calls.take i).flatten ++ (tasks ++ later) := by
  obtain ⟨hi, hcall⟩ := List.getElem?_eq_some_iff.mp h
  refine ⟨rest ++ (s.calls.drop (i + 1)).flatten, ?_, ?_⟩
  · have hcalls : s.calls = s.calls.take i ++ (task :: rest) :: s.calls.drop (i + 1) := by
      rw [← hcall, List.cons_getElem_drop_succ, List.take_append_drop]
    rw [System.tasks]
    conv_lhs => rw [hcalls]
    simp
  · rw [System.tasks, List.set_eq_take_append_cons_drop, if_pos hi]
    simp

/-- Wherever the task stood. -/
theorem tasks_proceed {s : System} {i : ℕ} {task : Task} {rest : List Task}
    (h : s.calls[i]? = some (task :: rest)) (e : MatchingEngine) (tasks : List Task) :
    ∃ others, s.tasks.Perm (task :: others) ∧
      (System.tasks ⟨e, s.calls.set i (tasks ++ rest)⟩).Perm (tasks ++ others) := by
  obtain ⟨later, hs, ht⟩ := tasks_proceed_eq h e tasks
  refine ⟨(s.calls.take i).flatten ++ later, ?_, ?_⟩
  · rw [hs]
    exact List.perm_middle
  · rw [ht]
    exact List.perm_append_comm_assoc _ _ _

/-- All calls have returned. -/
def Idle (s : System) : Prop := ∀ tasks ∈ s.calls, tasks = []

instance (s : System) : Decidable s.Idle :=
  inferInstanceAs (Decidable (∀ tasks ∈ s.calls, tasks = []))

end System

/-- A property of the order objects, books and pending trigger orders of an engine that every
critical section keeps. -/
structure SectionInvariant (P : MatchingEngine → Prop) : Prop where
  of_same : ∀ {e e'}, P e → e.SameBooks e' → P e'
  alloc : ∀ {e} o, P e → P (e.alloc o).1
  acceptOrder : ∀ {fuel e o r e'}, P e →
    (e.alloc o).1.acceptOrder fuel (e.alloc o).2 = some (r, e') → P e'
  cancelOrderUnlocked : ∀ {e} orderId, P e → P (e.cancelOrderUnlocked orderId).2
  modifyOrderUnlocked : ∀ {e} orderId newQuantity, P e →
    P (e.modifyOrderUnlocked orderId newQuantity).2
  checkTriggers : ∀ {fuel e symbol price e'}, P e →
    e.checkTriggers fuel symbol price = some e' → P e'

/-- The same for a property that the critical sections keep while every submitted order is of a
kind. -/
structure SectionInvariantOn (kind : Order → Prop) (P : MatchingEngine → Prop) : Prop where
  of_same : ∀ {e e'}, P e → e.SameBooks e' → P e'
  alloc : ∀ {e} o, P e → P (e.alloc o).1
  acceptOrder : ∀ {fuel e o r e'}, kind o → P e →
    (e.alloc o).1.acceptOrder fuel (e.alloc o).2 = some (r, e') → P e'
  cancelOrderUnlocked : ∀ {e} orderId, P e → P (e.cancelOrderUnlocked orderId).2
  modifyOrderUnlocked : ∀ {e} orderId newQuantity, P e →
    P (e.modifyOrderUnlocked orderId newQuantity).2
  checkTriggers : ∀ {fuel e symbol price e'}, P e →
    e.checkTriggers fuel symbol price = some e' → P e'

namespace SectionInvariantOn

variable {kind : Order → Prop} {P : MatchingEngine → Prop} {fuel : ℕ} {e e' : MatchingEngine}
  {tasks : List Task}

theorem start (hP : SectionInvariantOn kind P) (h : P e) {c : Call}
    (hkind : ∀ o, c = .submit true o → kind o) (hs : e.start fuel c = some (tasks, e')) : P e' := by
  cases c with
  | submit tryAcceptOrder o =>
    obtain ⟨rfl, r, ha, -⟩ | ⟨-, -, rfl⟩ := MatchingEngine.start_submit hs
    · exact hP.acceptOrder (hkind o rfl) h ha
    · exact hP.alloc o h
  | cancel orderId =>
    obtain ⟨-, rfl⟩ := Prod.mk.inj (Option.some.inj hs)
    exact hP.cancelOrderUnlocked orderId h
  | modify orderId newQuantity =>
    obtain ⟨-, rfl⟩ := Prod.mk.inj (Option.some.inj hs)
    exact hP.modifyOrderUnlocked orderId newQuantity h
  | subscribeToMarketData symbol callback =>
    obtain ⟨-, rfl⟩ := Prod.mk.inj (Option.some.inj hs)
    exact hP.of_same h (.subscribeToMarketData e symbol callback)
  | subscribeToTrades symbol callback =>
    obtain ⟨-, rfl⟩ := Prod.mk.inj (Option.some.inj hs)
    exact hP.of_same h (.subscribeToTrades e symbol callback)

theorem perform (hP : SectionInvariantOn kind P) (h : P e) {task : Task}
    (hp : e.perform fuel task = some (tasks, e')) : P e' := by
  cases task with
  | publish trade =>
    obtain ⟨-, rfl⟩ := Prod.mk.inj (Option.some.inj hp)
    exact hP.of_same h (.recordTrade e trade)
  | deliver callback t =>
    obtain ⟨-, rfl⟩ := Prod.mk.inj (Option.some.inj hp)
    exact hP.of_same h (.deliverTrade e callback t)
  | check symbol price =>
    obtain ⟨u, hu, heq⟩ := Option.map_eq_some_iff.mp hp
    obtain ⟨-, rfl⟩ := Prod.mk.inj heq
    exact hP.checkTriggers h hu
  | read symbol =>
    obtain ⟨-, rfl⟩ := Prod.mk.inj (Option.some.inj hp)
    exact h
  | update symbol update =>
    obtain ⟨-, rfl⟩ := Prod.mk.inj (Option.some.inj hp)
    exact hP.of_same h (.publishUpdate e symbol update)

theorem step (hP : SectionInvariantOn kind P) {s t : System} {event : System.Event}
    (h : P s.engine) (hkind : ∀ o, event = .begin (.submit true o) → kind o)
    (hs : s.Step event t) : P t.engine := by
  cases hs with
  | begin hstart => exact hP.start h (fun o hc => hkind o (congrArg _ hc)) hstart
  | proceed _ hperform => exact hP.perform h hperform

end SectionInvariantOn

namespace SectionInvariant

variable {P : MatchingEngine → Prop}

/-- Nothing is asked of the submitted orders. -/
theorem on (hP : SectionInvariant P) : SectionInvariantOn (fun _ => True) P where
  of_same h hs := hP.of_same h hs
  alloc o h := hP.alloc o h
  acceptOrder _ h ha := hP.acceptOrder h ha
  cancelOrderUnlocked orderId h := hP.cancelOrderUnlocked orderId h
  modifyOrderUnlocked orderId newQuantity h := hP.modifyOrderUnlocked orderId newQuantity h
  checkTriggers h hc := hP.checkTriggers h hc

theorem step (hP : SectionInvariant P) {s t : System} {event : System.Event} (h : P s.engine)
    (hs : s.Step event t) : P t.engine :=
  hP.on.step h (fun _ _ => trivial) hs

theorem run (hP : SectionInvariant P) {s t : System} {events : List System.Event}
    (h : Run System.Step s events t) (hs : P s.engine) : P t.engine :=
  h.invariant (fun t => P t.engine) hs fun _ _ _ => hP.step

end SectionInvariant

namespace System

/-! ## Uninterrupted calls -/

/-- The tasks of a call, one after another without interruption. -/
inductive Performs (fuel : ℕ) : List Task → MatchingEngine → MatchingEngine → Prop
  | nil {e : MatchingEngine} : Performs fuel [] e e
  | cons {task : Task} {tasks rest : List Task} {e e' e'' : MatchingEngine} :
      e.perform fuel task = some (tasks, e') → Performs fuel (tasks ++ rest) e' e'' →
      Performs fuel (task :: rest) e e''

variable {fuel : ℕ} {e e' e'' : MatchingEngine} {tasks tasks' : List Task}
  {calls : List (List Task)}

theorem Performs.append (h : Performs fuel tasks e e') (h' : Performs fuel tasks' e' e'') :
    Performs fuel (tasks ++ tasks') e e'' := by
  induction h with
  | nil => exact h'
  | cons hp _ ih => exact .cons hp (by simpa using ih h')

theorem Performs.one {task : Task} (h : e.perform fuel task = some ([], e')) :
    Performs fuel [task] e e' :=
  .cons h .nil

/-- The last call of a system, performed to its end. -/
theorem Performs.run (h : Performs fuel tasks e e') (calls : List (List Task)) :
    ∃ events, Run Step ⟨e, calls ++ [tasks]⟩ events ⟨e', calls ++ [[]]⟩ := by
  induction h with
  | nil => exact ⟨_, .nil⟩
  | @cons task tasks rest e e' e'' hp _ ih =>
    obtain ⟨events, hrun⟩ := ih
    have hstep : Step ⟨e, calls ++ [task :: rest]⟩ (.proceed calls.length)
        ⟨e', calls ++ [tasks ++ rest]⟩ := by
      have hset : (calls ++ [task :: rest]).set calls.length (tasks ++ rest) =
          calls ++ [tasks ++ rest] := by simp
      rw [← hset]
      exact .proceed (by simp) hp
    exact ⟨_, (Run.one hstep).trans hrun⟩

theorem performs_deliver (t : Trade) (callbacks : List Subscriber) (e : MatchingEngine) :
    Performs fuel (callbacks.map (.deliver · t)) e
      (callbacks.foldl (fun e cb => e.deliverTrade cb t) e) := by
  induction callbacks generalizing e with
  | nil => exact .nil
  | cons cb callbacks ih => exact .cons rfl (ih _)

theorem performs_publishTrade {t : Trade} (h : e.publishTrade fuel t = some e') :
    Performs fuel [.publish t] e e' := by
  refine .cons rfl ?_
  rw [List.append_nil]
  refine (performs_deliver _ _ _).append (.one ?_)
  exact congrArg (Option.map fun e => ([], e)) h

theorem performs_publishTrades {trades : List Trade}
    (h : MatchingEngine.publishTrades fuel trades e = some e') :
    Performs fuel (trades.map .publish) e e' := by
  induction trades generalizing e with
  | nil =>
    obtain rfl := Option.some.inj h
    exact .nil
  | cons t trades ih =>
    obtain ⟨u, hu, hrest⟩ := Option.bind_eq_some_iff.mp h
    exact (performs_publishTrade hu).append (ih hrest)

theorem performs_read (symbol : String) (e : MatchingEngine) :
    Performs fuel [.read symbol] e (e.publishMarketDataUpdate symbol) :=
  .cons rfl (.one rfl)

/-- A call is its first critical section, and then its tasks. -/
theorem exists_performs_of_call {c : Call} (h : e.call fuel c = some e') :
    ∃ tasks u, e.start fuel c = some (tasks, u) ∧ Performs fuel tasks u e' := by
  cases c with
  | submit tryAcceptOrder o =>
    cases tryAcceptOrder with
    | false =>
      obtain rfl := Option.some.inj h
      exact ⟨_, _, rfl, .nil⟩
    | true =>
      rw [MatchingEngine.call_submit] at h
      obtain ⟨⟨answer, u⟩, haccept, hpublish⟩ := Option.bind_eq_some_iff.mp h
      simp only [MatchingEngine.start, haccept, if_true]
      rcases answer with message | _ | trades
      · obtain rfl := Option.some.inj hpublish
        exact ⟨_, _, rfl, .nil⟩
      · obtain rfl := Option.some.inj hpublish
        exact ⟨_, _, rfl, .nil⟩
      · obtain ⟨w, hw, rfl⟩ := Option.map_eq_some_iff.mp hpublish
        exact ⟨_, _, rfl, (performs_publishTrades hw).append (performs_read _ _)⟩
  | cancel orderId =>
    obtain rfl := Option.some.inj h
    refine ⟨(e.cancelOrderUnlocked orderId).1.toList.map .read, (e.cancelOrderUnlocked orderId).2,
      rfl, ?_⟩
    unfold MatchingEngine.cancelOrder
    generalize e.cancelOrderUnlocked orderId = p
    obtain ⟨_ | symbol, u⟩ := p
    · exact .nil
    · exact performs_read symbol u
  | modify orderId newQuantity =>
    obtain rfl := Option.some.inj h
    refine ⟨(e.modifyOrderUnlocked orderId newQuantity).1.toList.map .read,
      (e.modifyOrderUnlocked orderId newQuantity).2, rfl, ?_⟩
    unfold MatchingEngine.modifyOrder
    generalize e.modifyOrderUnlocked orderId newQuantity = p
    obtain ⟨_ | symbol, u⟩ := p
    · exact .nil
    · exact performs_read symbol u
  | subscribeToMarketData symbol callback =>
    obtain rfl := Option.some.inj h
    exact ⟨_, _, rfl, .nil⟩
  | subscribeToTrades symbol callback =>
    obtain rfl := Option.some.inj h
    exact ⟨_, _, rfl, .nil⟩

/-- A call that is not interrupted is a run of the system. -/
theorem run_of_call {c : Call} (h : e.call fuel c = some e') (calls : List (List Task)) :
    ∃ events, Run Step ⟨e, calls⟩ events ⟨e', calls ++ [[]]⟩ := by
  obtain ⟨tasks, u, hstart, hperforms⟩ := exists_performs_of_call h
  obtain ⟨events, hrun⟩ := hperforms.run calls
  exact ⟨_, (Run.one (.begin hstart)).trans hrun⟩

end System

/-! ## Calls one after another -/

namespace MatchingEngine

variable {fuel fuel' : ℕ} {e e' e'' : MatchingEngine} {symbol : String} {price : ℚ} {ord : Ref}
  {vec : List Ref} {trades : List Trade} {c : Call}

theorem activate_mono (h : e.activate fuel symbol ord = some e') (hle : fuel ≤ fuel') :
    e.activate fuel' symbol ord = some e' := by
  unfold activate at h ⊢
  dsimp only at h ⊢
  split at h
  · rename_i hresult
    rw [MatchingAlgorithm.processOrder_mono hresult hle]
    exact h
  · cases h

theorem activateAll_mono {p : List Ref × MatchingEngine}
    (h : activateAll fuel symbol price vec e = some p) (hle : fuel ≤ fuel') :
    activateAll fuel' symbol price vec e = some p := by
  induction vec generalizing e p with
  | nil => exact h
  | cons ord vec ih =>
    simp only [activateAll] at h ⊢
    split_ifs at h ⊢
    · obtain ⟨u, hu, hrest⟩ := Option.bind_eq_some_iff.mp h
      rw [activate_mono hu hle]
      exact ih hrest
    · obtain ⟨q, hq, rfl⟩ := Option.map_eq_some_iff.mp h
      rw [ih hq]
      rfl

theorem checkTriggers_mono (h : e.checkTriggers fuel symbol price = some e') (hle : fuel ≤ fuel') :
    e.checkTriggers fuel' symbol price = some e' := by
  unfold checkTriggers at h ⊢
  split at h
  · exact h
  · obtain ⟨q, hq, rfl⟩ := Option.map_eq_some_iff.mp h
    rw [activateAll_mono hq hle]
    rfl

theorem publishTrades_mono (h : publishTrades fuel trades e = some e') (hle : fuel ≤ fuel') :
    publishTrades fuel' trades e = some e' := by
  induction trades generalizing e with
  | nil => exact h
  | cons t trades ih =>
    obtain ⟨u, hu, hrest⟩ := Option.bind_eq_some_iff.mp h
    have hu' : e.publishTrade fuel' t = some u := checkTriggers_mono hu hle
    rw [publishTrades, hu']
    exact ih hrest

theorem acceptOrder_mono {order : Ref} {p : Except String (Option (List Trade)) × MatchingEngine}
    (h : e.acceptOrder fuel order = some p) (hle : fuel ≤ fuel') :
    e.acceptOrder fuel' order = some p := by
  simp only [acceptOrder] at h ⊢
  split_ifs at h ⊢
  · exact h
  · split at h
    · rename_i hthrow
      rw [(MatchingAlgorithm.processOrder_error hthrow).2 fuel']
      exact h
    · cases h
    · rename_i hresult
      rw [MatchingAlgorithm.processOrder_mono hresult hle]
      exact h

/-- More fuel gives the same answer. -/
theorem call_mono (h : e.call fuel c = some e') (hle : fuel ≤ fuel') :
    e.call fuel' c = some e' := by
  cases c with
  | submit tryAcceptOrder o =>
    cases tryAcceptOrder with
    | false => exact h
    | true =>
      rw [call_submit] at h ⊢
      obtain ⟨⟨answer, u⟩, haccept, hpublish⟩ := Option.bind_eq_some_iff.mp h
      rw [acceptOrder_mono haccept hle, Option.bind_some]
      rcases answer with message | _ | trades
      · exact hpublish
      · exact hpublish
      · obtain ⟨w, hw, rfl⟩ := Option.map_eq_some_iff.mp hpublish
        rw [publishResult, publishTrades_mono hw hle]
        rfl
  | _ => exact h

/-- A call returns before the next one is made. -/
def CallStep (e : MatchingEngine) (c : Call) (e' : MatchingEngine) : Prop :=
  ∃ fuel, e.call fuel c = some e'

/-- A call has one outcome. -/
theorem CallStep.unique (h : e.CallStep c e') (h' : e.CallStep c e'') : e'' = e' := by
  obtain ⟨n, hn⟩ := h
  obtain ⟨m, hm⟩ := h'
  have hmax := call_mono hn (le_max_left n m)
  rw [call_mono hm (le_max_right n m)] at hmax
  exact Option.some.inj hmax

end MatchingEngine

/-- What the critical sections keep holds after a call. -/
theorem SectionInvariantOn.call {kind : Order → Prop} {P : MatchingEngine → Prop}
    (hP : SectionInvariantOn kind P) {fuel : ℕ} {e e' : MatchingEngine} {c : Call}
    (hkind : ∀ o, c = .submit true o → kind o) (h : e.call fuel c = some e') (he : P e) : P e' := by
  obtain ⟨tasks, u, hstart, hperforms⟩ := System.exists_performs_of_call h
  have hu := hP.start he hkind hstart
  clear hstart h
  induction hperforms with
  | nil => exact hu
  | cons hp _ ih => exact ih (hP.perform hu hp)

theorem SectionInvariant.call {P : MatchingEngine → Prop} (hP : SectionInvariant P) {fuel : ℕ}
    {e e' : MatchingEngine} {c : Call} (h : e.call fuel c = some e') (he : P e) : P e' :=
  hP.on.call (fun _ _ => trivial) h he

/-- And after any calls. -/
theorem SectionInvariant.calls {P : MatchingEngine → Prop} (hP : SectionInvariant P)
    {e e' : MatchingEngine} {calls : List Call} (h : Run MatchingEngine.CallStep e calls e')
    (he : P e) : P e' := by
  refine h.invariant P he ?_
  rintro e c e' he ⟨fuel, hcall⟩
  exact hP.call hcall he

namespace System

open MatchingEngine

variable {e u : MatchingEngine} {calls' : List Call}

/-- Executed calls make up a run. -/
theorem calls_of_exec {fuel : ℕ} {calls : List Call}
    (h : Run.exec (fun (e : MatchingEngine) c => (e.call fuel c).map (c, ·)) e calls =
      some (calls', u)) : Run CallStep e calls' u := by
  refine Run.of_exec (fun e c c' e' he => ?_) h
  obtain ⟨u, hu, heq⟩ := Option.map_eq_some_iff.mp he
  obtain ⟨rfl, rfl⟩ := Prod.mk.inj heq
  exact ⟨fuel, hu⟩

end System

end GoQuant
