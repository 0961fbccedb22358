import GoQuant.Engine.Executions
import GoQuant.Engine.Logging
import Mathlib.Algebra.Order.Group.Multiset
import Mathlib.Tactic.Abel

/-!
# Every execution is reported once

A run keeps account of the trades executed: each is published, or is waiting in a call under
way to be published, or was executed by an activated order and is lost. When all calls have
returned, executions and publications correspond one to one exactly if nothing was lost, and
this is so exactly if every check of the run was silent.

## Main definitions

* `Reported` — executions, publications, deliveries and records correspond.
* `SilentStep` — a step that is not a check executing trades.

## Main results

* `accounted_of_run` — the account of a run.
* `reported_iff` — when all calls have returned.
* `report_lost` — the trade of a stop order that nobody hears of.
-/

namespace GoQuant

/-- A trade without the number it gets when it is published. -/
def Trade.unstamped (t : Trade) : Trade := { t with seqNum := 0 }

/-- The task is not a check whose activated orders trade. -/
def Task.Silent (e : MatchingEngine) : Task → Prop
  | .check symbol price => e.Silent symbol price
  | _ => True

instance (e : MatchingEngine) : (task : Task) → Decidable (task.Silent e)
  | .check symbol price => inferInstanceAs (Decidable (e.Silent symbol price))
  | .publish _ | .deliver _ _ | .read _ | .update _ _ => inferInstanceAs (Decidable True)

namespace System

/-- The trades that calls under way will publish. -/
def unpublished (s : System) : List Trade := s.tasks.filterMap Task.publish?

/-- The deliveries that calls under way will make. -/
def undelivered (s : System) : List (Subscriber × Trade) := s.tasks.filterMap Task.deliver?

/-- A task that neither publishes nor delivers. -/
theorem unreported_proceed {s : System} {i : ℕ} {task : Task} {rest : List Task}
    (h : s.calls[i]? = some (task :: rest)) (e : MatchingEngine) (tasks : List Task)
    (hpublish : task.publish? = none) (hdeliver : task.deliver? = none)
    (hpublish' : tasks.filterMap Task.publish? = [])
    (hdeliver' : tasks.filterMap Task.deliver? = []) :
    ((unpublished ⟨e, s.calls.set i (tasks ++ rest)⟩).map Trade.unstamped : Multiset Trade) =
        s.unpublished.map Trade.unstamped ∧
      (undelivered ⟨e, s.calls.set i (tasks ++ rest)⟩ : Multiset (Subscriber × Trade)) =
        s.undelivered := by
  obtain ⟨others, hs, ht⟩ := tasks_proceed h e tasks
  have hpublished := hs.filterMap Task.publish?
  have hdelivered := hs.filterMap Task.deliver?
  have hpublished' := ht.filterMap Task.publish?
  have hdelivered' := ht.filterMap Task.deliver?
  rw [List.filterMap_cons_none hpublish] at hpublished
  rw [List.filterMap_cons_none hdeliver] at hdelivered
  rw [List.filterMap_append, hpublish', List.nil_append] at hpublished'
  rw [List.filterMap_append, hdeliver', List.nil_append] at hdelivered'
  exact ⟨Multiset.coe_eq_coe.mpr ((hpublished'.trans hpublished.symm).map _),
    Multiset.coe_eq_coe.mpr (hdelivered'.trans hdelivered.symm)⟩

end System

/-! ## The account -/

namespace MatchingEngine

/-- The deliveries that the published trades ask for. -/
def owed (e : MatchingEngine) : List (Subscriber × Trade) :=
  e.published.flatMap fun p => p.2.map (·, p.1)

/-- A trade is published: it is stamped and listed, and nothing else is reported. -/
theorem recordTrade_reports {e e' : MatchingEngine} {trade stamped : Trade}
    {callbacks : List Subscriber} (h : e.recordTrade trade = (stamped, callbacks, e')) :
    stamped = { trade with seqNum := (e.tradeSeqs.lookup trade.symbol).getD 0 + 1 } ∧
      e'.executed = e.executed ∧ e'.published = e.published ++ [(stamped, callbacks)] ∧
      e'.tradeSeqs = e.tradeSeqs.insert trade.symbol stamped.seqNum ∧
      e'.delivered = e.delivered ∧ Writes [stamped] e e' := by
  have hwrite (u : MatchingEngine) (record : WalRecord) :
      Executes trade.symbol [] u (u.writeWAL record) := .writeWAL u record
  have hlogs := Logs.recordTrade e trade
  rw [h] at hlogs
  unfold recordTrade at h
  obtain ⟨rfl, hrest⟩ := Prod.mk.inj h
  obtain ⟨rfl, rfl⟩ := Prod.mk.inj hrest
  exact ⟨rfl, (hwrite _ _).executed.trans (List.append_nil _), (hwrite _ _).published,
    (hwrite _ _).tradeSeqs, (hwrite _ _).delivered, hlogs.writes rfl⟩

/-- The trades published for a symbol are numbered from one. -/
def Numbered (e : MatchingEngine) : Prop := ∀ symbol,
  ((e.published.filter fun p => p.1.symbol = symbol).map fun p => p.1.seqNum) =
    List.range' 1 ((e.tradeSeqs.lookup symbol).getD 0)

/-- The next trade gets the next number. -/
theorem Numbered.recordTrade {e e' : MatchingEngine} {trade stamped : Trade}
    {callbacks : List Subscriber} (h : e.Numbered)
    (hr : e.recordTrade trade = (stamped, callbacks, e')) : e'.Numbered := by
  obtain ⟨hstamped, -, hpublished, hseqs, -⟩ := recordTrade_reports hr
  intro symbol
  rw [hpublished, hseqs, List.filter_append, List.map_append, h symbol]
  by_cases hsymbol : stamped.symbol = symbol
  · have hnumber : stamped.seqNum = (e.tradeSeqs.lookup symbol).getD 0 + 1 := by
      rw [hstamped] at hsymbol ⊢
      exact congrArg (fun name => (e.tradeSeqs.lookup name).getD 0 + 1) hsymbol
    have hkey : trade.symbol = symbol := by rw [hstamped] at hsymbol; exact hsymbol
    rw [hkey, AList.lookup_insert, Option.getD_some, hnumber, List.range'_1_concat]
    simp [hsymbol, hnumber, Nat.add_comm]
  · have hkey : symbol ≠ trade.symbol := by
      rw [hstamped] at hsymbol
      exact fun heq => hsymbol heq.symm
    rw [AList.lookup_insert_ne hkey]
    simp [hsymbol]

end MatchingEngine

/-- The account of a run that began in `e₀`, with the trades that were lost. -/
structure Accounted (e₀ : MatchingEngine) (lost : Multiset Trade) (s : System) : Prop where
  executed : (s.engine.executed.map fun p => p.2.unstamped : Multiset Trade) =
    (s.engine.published.map fun p => p.1.unstamped : Multiset Trade) +
      (s.unpublished.map Trade.unstamped : Multiset Trade) + lost
  labelled : ∀ p ∈ s.engine.executed, p.2.symbol = p.1
  delivered : (s.engine.owed : Multiset (Subscriber × Trade)) =
    (s.engine.delivered : Multiset (Subscriber × Trade)) +
      (s.undelivered : Multiset (Subscriber × Trade))
  numbered : s.engine.Numbered
  written : MatchingEngine.Writes (s.engine.published.map Prod.fst) e₀ s.engine

namespace Accounted

open MatchingEngine

variable {e₀ e : MatchingEngine} {lost : Multiset Trade} {s t : System} {symbol : String}
  {ts : List Trade}

/-- Trades are executed; some of them will be published, the others are lost. -/
theorem execute (h : Accounted e₀ lost s) {lost' : Multiset Trade}
    (hts : Executes symbol ts s.engine t.engine) (hsymbol : ∀ t ∈ ts, t.symbol = symbol)
    (hwrites : Writes [] s.engine t.engine)
    (hpublish : (ts.map Trade.unstamped : Multiset Trade) +
      (s.unpublished.map Trade.unstamped : Multiset Trade) =
        (t.unpublished.map Trade.unstamped : Multiset Trade) + lost')
    (hdeliver : (t.undelivered : Multiset (Subscriber × Trade)) = s.undelivered) :
    Accounted e₀ (lost + lost') t where
  executed := by
    have hmap : ((t.engine.executed.map fun p => p.2.unstamped : List Trade) : Multiset Trade) =
        (s.engine.executed.map fun p => p.2.unstamped : List Trade) +
          (ts.map Trade.unstamped : List Trade) := by
      rw [hts.executed, List.map_append, List.map_map]
      exact (Multiset.coe_add _ _).symm
    rw [hmap, h.executed, hts.published]
    generalize ((s.engine.published.map fun p => p.1.unstamped : List Trade) : Multiset Trade) =
      published
    calc published + (s.unpublished.map Trade.unstamped : List Trade) + lost +
          (ts.map Trade.unstamped : List Trade)
        = published + lost + ((ts.map Trade.unstamped : List Trade) +
            (s.unpublished.map Trade.unstamped : List Trade)) := by abel
      _ = published + (t.unpublished.map Trade.unstamped : List Trade) + (lost + lost') := by
        rw [hpublish]
        abel
  labelled p hp := by
    rw [hts.executed, List.mem_append, List.mem_map] at hp
    obtain hold | ⟨t, ht, rfl⟩ := hp
    · exact h.labelled p hold
    · exact hsymbol t ht
  delivered := by
    rw [owed, hts.published, hts.delivered, hdeliver]
    exact h.delivered
  numbered := by
    intro symbol'
    rw [hts.published, hts.tradeSeqs]
    exact h.numbered symbol'
  written := by
    rw [hts.published]
    simpa using h.written.trans hwrites

/-- A task that neither publishes nor delivers, and executes nothing. -/
theorem unreported {i : ℕ} {task : Task} {rest tasks : List Task} (h : Accounted e₀ lost s)
    (hcall : s.calls[i]? = some (task :: rest)) (he : Executes "" [] s.engine e)
    (hwrites : Writes [] s.engine e) (hpublish : task.publish? = none)
    (hdeliver : task.deliver? = none) (hpublish' : tasks.filterMap Task.publish? = [])
    (hdeliver' : tasks.filterMap Task.deliver? = []) :
    Accounted e₀ lost ⟨e, s.calls.set i (tasks ++ rest)⟩ := by
  obtain ⟨hunpublished, hundelivered⟩ :=
    System.unreported_proceed hcall e tasks hpublish hdeliver hpublish' hdeliver'
  have hnone : ∀ t ∈ ([] : List Trade), t.symbol = "" := fun t ht => absurd ht List.not_mem_nil
  have hexecute : Accounted e₀ (lost + 0) ⟨e, s.calls.set i (tasks ++ rest)⟩ :=
    h.execute he hnone hwrites (by rw [hunpublished, add_comm]; rfl) hundelivered
  rwa [add_zero] at hexecute

/-- A trade of a call under way is published. -/
theorem publish {trade stamped : Trade} {callbacks : List Subscriber} {i : ℕ} {rest : List Task}
    (h : Accounted e₀ lost s) (hcall : s.calls[i]? = some (.publish trade :: rest))
    (hr : s.engine.recordTrade trade = (stamped, callbacks, e)) :
    Accounted e₀ lost ⟨e, s.calls.set i
      (callbacks.map (.deliver · stamped) ++ [.check stamped.symbol stamped.price] ++ rest)⟩ := by
  obtain ⟨hstamped, hexecuted, hpublished, hseqs, hdelivered, hwrites⟩ := recordTrade_reports hr
  obtain ⟨others, hs, ht⟩ := System.tasks_proceed hcall e
    (callbacks.map (.deliver · stamped) ++ [.check stamped.symbol stamped.price])
  set t : System := ⟨e, s.calls.set i
    (callbacks.map (.deliver · stamped) ++ [.check stamped.symbol stamped.price] ++ rest)⟩
  have hunpublished : s.unpublished.Perm (trade :: t.unpublished) := by
    have ht' : t.unpublished.Perm (others.filterMap Task.publish?) := by
      simpa [System.unpublished, List.filterMap_append, List.filterMap_map, Function.comp_def,
        List.filterMap_cons, Task.publish?] using ht.filterMap Task.publish?
    exact (hs.filterMap Task.publish?).trans (ht'.symm.cons trade)
  have hundelivered : t.undelivered.Perm (callbacks.map (·, stamped) ++ s.undelivered) := by
    have hs' : s.undelivered.Perm (others.filterMap Task.deliver?) := hs.filterMap Task.deliver?
    have ht' : t.undelivered.Perm
        (callbacks.map (·, stamped) ++ others.filterMap Task.deliver?) := by
      simpa [System.undelivered, List.filterMap_append, List.filterMap_map, Function.comp_def,
        List.filterMap_cons, Task.deliver?] using ht.filterMap Task.deliver?
    exact ht'.trans (hs'.symm.append_left _)
  refine ⟨?_, ?_, ?_, ?_, ?_⟩
  · have hperm := Multiset.coe_eq_coe.mpr (hunpublished.map Trade.unstamped)
    have hsame : stamped.unstamped = trade.unstamped := by rw [hstamped]; rfl
    have hexec := h.executed
    rw [← hexecuted, hperm] at hexec
    rw [hexec, hpublished, List.map_append, ← Multiset.coe_add, List.map_singleton, hsame,
      List.map_cons, ← Multiset.cons_coe, ← Multiset.singleton_add, ← Multiset.coe_singleton]
    abel
  · intro p hp
    exact h.labelled p (hexecuted ▸ hp)
  · have howed : e.owed = s.engine.owed ++ callbacks.map (·, stamped) := by
      simp [owed, hpublished]
    rw [howed, ← Multiset.coe_add, h.delivered, hdelivered, Multiset.coe_eq_coe.mpr hundelivered,
      ← Multiset.coe_add]
    abel
  · exact h.numbered.recordTrade hr
  · rw [hpublished, List.map_append]
    exact h.written.trans hwrites

/-- A callback is called with a published trade. -/
theorem deliver {trade : Trade} {callback : Subscriber} {i : ℕ} {rest : List Task}
    (h : Accounted e₀ lost s) (hcall : s.calls[i]? = some (.deliver callback trade :: rest)) :
    Accounted e₀ lost ⟨s.engine.deliverTrade callback trade, s.calls.set i ([] ++ rest)⟩ := by
  obtain ⟨others, hs, ht⟩ :=
    System.tasks_proceed hcall (s.engine.deliverTrade callback trade) []
  set t : System := ⟨s.engine.deliverTrade callback trade, s.calls.set i ([] ++ rest)⟩
  have hunpublished : t.unpublished.Perm s.unpublished :=
    (ht.filterMap Task.publish?).trans (hs.filterMap Task.publish?).symm
  have hundelivered : s.undelivered.Perm ((callback, trade) :: t.undelivered) :=
    (hs.filterMap Task.deliver?).trans ((ht.filterMap Task.deliver?).symm.cons _)
  have hdelivered : t.engine.delivered = s.engine.delivered ++ [(callback, trade)] := by
    simp [t, MatchingEngine.delivered, deliverTrade, Delivery.trade?]
  refine ⟨?_, h.labelled, ?_, h.numbered, ?_⟩
  · rw [Multiset.coe_eq_coe.mpr (hunpublished.map Trade.unstamped)]
    exact h.executed
  · have howed := h.delivered
    rw [Multiset.coe_eq_coe.mpr hundelivered, ← Multiset.cons_coe, ← Multiset.singleton_add,
      ← Multiset.coe_singleton, ← add_assoc, Multiset.coe_add, ← hdelivered] at howed
    exact howed
  · have hidle : Writes [] s.engine t.engine := .idle rfl rfl rfl
    have hwritten := h.written.trans hidle
    rw [List.append_nil] at hwritten
    exact hwritten

end Accounted

namespace System

open MatchingEngine

variable {s t : System} {event : Event} {events : List Event} {e₀ : MatchingEngine}
  {lost : Multiset Trade}

/-- The next step is not a check whose activated orders trade. -/
def SilentAt (s : System) : Event → Prop
  | .begin _ => True
  | .proceed i => ∀ task ∈ s.calls[i]?.bind List.head?, task.Silent s.engine

instance (s : System) : (event : Event) → Decidable (s.SilentAt event)
  | .begin _ => inferInstanceAs (Decidable True)
  | .proceed i =>
    inferInstanceAs (Decidable (∀ task ∈ s.calls[i]?.bind List.head?, task.Silent s.engine))

theorem silentAt_proceed {i : ℕ} {task : Task} {rest : List Task}
    (h : s.calls[i]? = some (task :: rest)) : s.SilentAt (.proceed i) ↔ task.Silent s.engine := by
  simp [SilentAt, h]

/-- A step that is not a check whose activated orders trade. -/
def SilentStep (s : System) (event : Event) (t : System) : Prop := s.Step event t ∧ s.SilentAt event

/-- A step loses the trades of the orders it activates, and no others. -/
theorem accounted_step (h : Accounted e₀ lost s) (hl : s.engine.Labelled)
    (hs : s.engine.Books Sane) (hstep : s.Step event t) :
    ∃ lost', Accounted e₀ (lost + lost') t ∧ (lost' = 0 ↔ s.SilentAt event) := by
  cases hstep with
  | @begin fuel c tasks e hstart =>
    obtain ⟨symbol, ts, hts, hsymbol, hpublish, hdeliver⟩ := start_executes hl hstart
    have htasks := tasks_begin s e tasks
    refine ⟨0, h.execute hts hsymbol (start_writes hstart) ?_ ?_, iff_of_true rfl trivial⟩
    · simp only [unpublished, htasks, List.filterMap_append, hpublish, List.map_append,
        ← Multiset.coe_add]
      abel
    · simp only [undelivered, htasks, List.filterMap_append, hdeliver, List.append_nil]
  | @proceed fuel i task rest tasks e hcall hperform =>
    cases task with
    | publish trade =>
      obtain ⟨rfl, rfl⟩ := Prod.mk.inj (Option.some.inj hperform)
      refine ⟨0, ?_, iff_of_true rfl ((silentAt_proceed hcall).mpr trivial)⟩
      rw [add_zero]
      exact h.publish hcall rfl
    | deliver callback trade =>
      obtain ⟨rfl, rfl⟩ := Prod.mk.inj (Option.some.inj hperform)
      refine ⟨0, ?_, iff_of_true rfl ((silentAt_proceed hcall).mpr trivial)⟩
      rw [add_zero]
      exact h.deliver hcall
    | check symbol price =>
      obtain ⟨u, hu, heq⟩ := Option.map_eq_some_iff.mp hperform
      obtain ⟨rfl, rfl⟩ := Prod.mk.inj heq
      obtain ⟨ts, hts, hsymbol, hsilent⟩ := checkTriggers_executes hu hl hs
      obtain ⟨hunpublished, hundelivered⟩ := unreported_proceed hcall u [] rfl rfl rfl rfl
      refine ⟨(ts.map Trade.unstamped : List Trade),
        h.execute hts hsymbol (perform_writes hl.waits hperform) ?_ hundelivered, ?_⟩
      · rw [hunpublished, add_comm]
      · have hnone : ((ts.map Trade.unstamped : List Trade) : Multiset Trade) = 0 ↔ ts = [] := by
          rw [Multiset.coe_eq_zero, List.map_eq_nil_iff]
        rw [hnone, hsilent, silentAt_proceed hcall]
        exact Iff.rfl
    | read symbol =>
      obtain ⟨rfl, rfl⟩ := Prod.mk.inj (Option.some.inj hperform)
      refine ⟨0, ?_, iff_of_true rfl ((silentAt_proceed hcall).mpr trivial)⟩
      rw [add_zero]
      exact h.unreported hcall (.idle rfl rfl rfl rfl) (.idle rfl rfl rfl) rfl rfl rfl rfl
    | update symbol update =>
      obtain ⟨rfl, rfl⟩ := Prod.mk.inj (Option.some.inj hperform)
      refine ⟨0, ?_, iff_of_true rfl ((silentAt_proceed hcall).mpr trivial)⟩
      rw [add_zero]
      exact h.unreported hcall (.publishUpdate s.engine symbol update)
        ((Logs.publishUpdate s.engine symbol update).writes rfl) rfl rfl rfl rfl

/-- A run loses the trades of the orders it activates, and no others. -/
theorem accounted_of_run {s₀ : System} (hrun : Run Step s₀ events s)
    (h : Accounted e₀ 0 s₀) (hl : s₀.engine.Labelled) (hs : s₀.engine.Books Sane) :
    ∃ lost, Accounted e₀ lost s ∧ (lost = 0 → Run SilentStep s₀ events s) := by
  refine (hrun.history (fun events s => s.engine.Labelled ∧ s.engine.Books Sane ∧
    ∃ lost, Accounted e₀ lost s ∧ (lost = 0 → Run SilentStep s₀ events s))
    ⟨hl, hs, 0, h, fun _ => .nil⟩ ?_).2.2
  rintro events t event u ⟨hl, hs, lost, h, hsilent⟩ hstep
  refine ⟨labelled_sections.step hl hstep, bookInvariant_sane.sections.step hs hstep, ?_⟩
  obtain ⟨lost', h', hlost⟩ := accounted_step h hl hs hstep
  refine ⟨lost + lost', h', fun hnone => ?_⟩
  obtain ⟨hnone, hnone'⟩ : lost = 0 ∧ lost' = 0 := by
    rw [← Multiset.card_eq_zero, Multiset.card_add] at hnone
    rw [← Multiset.card_eq_zero, ← Multiset.card_eq_zero]
    omega
  exact (hsilent hnone).snoc ⟨hstep, hlost.mp hnone'⟩

/-- A silent run loses nothing. -/
theorem accounted_of_silent {s₀ : System} (hrun : Run SilentStep s₀ events s)
    (h : Accounted e₀ 0 s₀) (hl : s₀.engine.Labelled) (hs : s₀.engine.Books Sane) :
    Accounted e₀ 0 s := by
  refine (hrun.invariant (fun s => s.engine.Labelled ∧ s.engine.Books Sane ∧ Accounted e₀ 0 s)
    ⟨hl, hs, h⟩ ?_).2.2
  rintro t event u ⟨hl, hs, h⟩ ⟨hstep, hsilent⟩
  refine ⟨labelled_sections.step hl hstep, bookInvariant_sane.sections.step hs hstep, ?_⟩
  obtain ⟨lost', h', hlost⟩ := accounted_step h hl hs hstep
  rwa [hlost.mpr hsilent] at h'

end System

/-! ## When all calls have returned -/

namespace MatchingEngine

/-- Since the state `e₀` every execution against the book of a symbol was published once and
nothing else was, under the next number; every callback then present was called with it; and
it has its record in the log. -/
structure Reported (e₀ e : MatchingEngine) : Prop where
  published : ∀ symbol, ((e.executed.filter fun p => p.1 = symbol).map fun p => p.2.unstamped).Perm
    ((e.published.filter fun p => p.1.symbol = symbol).map fun p => p.1.unstamped)
  numbered : ∀ symbol, ((e.published.filter fun p => p.1.symbol = symbol).map fun p => p.1.seqNum) =
    List.range' 1 (e.published.filter fun p => p.1.symbol = symbol).length
  delivered : e.owed.Perm e.delivered
  recorded : Writes (e.published.map Prod.fst) e₀ e

end MatchingEngine

namespace Accounted

open MatchingEngine

variable {e₀ : MatchingEngine} {lost : Multiset Trade} {s : System}

/-- Nothing is waiting to be reported. -/
theorem of_idle (h : Accounted e₀ lost s) (hidle : s.Idle) :
    (s.engine.executed.map fun p => p.2.unstamped : Multiset Trade) =
        (s.engine.published.map fun p => p.1.unstamped : Multiset Trade) + lost ∧
      s.engine.owed.Perm s.engine.delivered := by
  have htasks : s.tasks = [] := List.flatten_eq_nil_iff.mpr hidle
  constructor
  · have hexecuted := h.executed
    simpa [System.unpublished, htasks] using hexecuted
  · have hdelivered := h.delivered
    simpa [System.undelivered, htasks] using hdelivered

/-- The executions of a symbol are its publications and its lost trades. -/
theorem of_symbol (h : Accounted e₀ lost s) (hidle : s.Idle) (symbol : String) :
    (((s.engine.executed.filter fun p => p.1 = symbol).map fun p => p.2.unstamped : List Trade) :
        Multiset Trade) =
      ((s.engine.published.filter fun p => p.1.symbol = symbol).map fun p => p.1.unstamped :
        List Trade) + lost.filter fun t => t.symbol = symbol := by
  have hfilter := congrArg (Multiset.filter fun t : Trade => t.symbol = symbol) (h.of_idle hidle).1
  rw [Multiset.filter_add, Multiset.filter_coe, Multiset.filter_coe, List.filter_map,
    List.filter_map] at hfilter
  have hlabel : s.engine.executed.filter (fun p => p.1 = symbol) =
      s.engine.executed.filter (fun p => p.2.unstamped.symbol = symbol) :=
    List.filter_congr fun p hp => by rw [← h.labelled p hp]; rfl
  rw [hlabel]
  exact hfilter

/-- If nothing was lost, everything is reported. -/
theorem reported (h : Accounted e₀ 0 s) (hidle : s.Idle) : Reported e₀ s.engine where
  published symbol := by
    have hsymbol := h.of_symbol hidle symbol
    rw [Multiset.filter_zero, add_zero] at hsymbol
    exact Multiset.coe_eq_coe.mp hsymbol
  numbered symbol := by
    have hnumbered := h.numbered symbol
    have hlength := congrArg List.length hnumbered
    rw [List.length_map, List.length_range'] at hlength
    rw [hnumbered, hlength]
  delivered := (h.of_idle hidle).2
  recorded := h.written

/-- A lost trade is missing among the publications of its symbol. -/
theorem lost_eq_zero (h : Accounted e₀ lost s) (hidle : s.Idle) (hr : Reported e₀ s.engine) :
    lost = 0 := by
  refine Multiset.eq_zero_of_forall_notMem fun t ht => ?_
  have hsymbol := h.of_symbol hidle t.symbol
  rw [Multiset.coe_eq_coe.mpr (hr.published t.symbol)] at hsymbol
  have hnone := (left_eq_add.mp hsymbol)
  exact Multiset.notMem_zero t (hnone ▸ Multiset.mem_filter.mpr ⟨ht, rfl⟩)

end Accounted

namespace MatchingEngine

variable {mem : Memory} {hashOrder : HashOrder} {feeModel : Option FeeModel}
  {file : Option (List Json)} {s : System} {events : List System.Event}

/-- A new engine owes no report. -/
theorem accounted_startWAL (mem : Memory) (hashOrder : HashOrder) (feeModel : Option FeeModel)
    (file : Option (List Json)) :
    Accounted ((fresh mem hashOrder feeModel).startWAL file).2 0
      ⟨((fresh mem hashOrder feeModel).startWAL file).2, []⟩ := by
  cases file <;> exact ⟨rfl, by simp [startWAL, fresh], rfl, fun symbol => rfl, .idle rfl rfl rfl⟩

/-- **Every execution is reported exactly once, unless an activated order trades.** In any run
of interleaved calls on a new engine, with its log on or off, when all calls have returned:
executions and reports correspond one to one exactly if no check of the run made an activated
order trade. -/
theorem reported_iff
    (h : Run System.Step ⟨((fresh mem hashOrder feeModel).startWAL file).2, []⟩ events s)
    (hidle : s.Idle) :
    Reported ((fresh mem hashOrder feeModel).startWAL file).2 s.engine ↔
      Run System.SilentStep ⟨((fresh mem hashOrder feeModel).startWAL file).2, []⟩ events s := by
  have hstart := accounted_startWAL mem hashOrder feeModel file
  have hlabelled := labelled_startWAL mem hashOrder feeModel file
  have hsane : ((fresh mem hashOrder feeModel).startWAL file).2.Books Sane :=
    bookInvariant_sane.fresh (by cases file <;> rfl)
  constructor
  · intro hreported
    obtain ⟨lost, haccounted, hsilent⟩ := System.accounted_of_run h hstart hlabelled hsane
    exact hsilent (haccounted.lost_eq_zero hidle hreported)
  · intro hsilent
    exact (System.accounted_of_silent hsilent hstart hlabelled hsane).reported hidle

/-- A stop order is activated when the bids are used up. One trade is executed, published,
delivered and recorded, each once. -/
theorem reported_iff_idle_stop : ∃ (s : System) (events : List System.Event),
    Run System.Step ⟨((fresh .empty .plain none).startWAL (some [])).2, []⟩ events s ∧ s.Idle ∧
    s.engine.delivered.map (fun p => (p.1, p.2.seqNum, p.2.quantity)) = [(7, 1, 1)] ∧
    s.engine.waiting "S" = [] ∧
    Reported ((fresh .empty .plain none).startWAL (some [])).2 s.engine := by
  let final := Run.exec (System.advanceIf 3 System.SilentAt)
    ⟨((fresh .empty .plain none).startWAL (some [])).2, []⟩ [
    .begin (.subscribeToTrades "S" 7),
    .begin (.submit true ⟨"stop", "S", .sell, .stopLoss, 10, 3⟩),
    .begin (.submit true ⟨"bid", "S", .buy, .limit, 10, 1⟩), .proceed 2, .proceed 2,
    .begin (.submit true ⟨"ask", "S", .sell, .market, 0, 1⟩),
    .proceed 3, .proceed 3, .proceed 3, .proceed 3, .proceed 3]
  have hseen : final.map (fun p => (decide p.2.Idle,
      p.2.engine.delivered.map (fun p => (p.1, p.2.seqNum, p.2.quantity)),
      p.2.engine.waiting "S")) = some (true, [(7, 1, 1)], []) := by decide +kernel
  obtain ⟨⟨events, s⟩, hfinal, hseen⟩ := Option.map_eq_some_iff.mp hseen
  obtain ⟨hidle, hseen⟩ := Prod.mk.inj hseen
  obtain ⟨hdelivered, hwaiting⟩ := Prod.mk.inj hseen
  have hsilent : Run System.SilentStep
      ⟨((fresh .empty .plain none).startWAL (some [])).2, []⟩ events s :=
    System.run_of_execIf hfinal
  have hrun := hsilent.mono fun _ _ _ h => h.1
  exact ⟨s, events, hrun, of_decide_eq_true hidle, hdelivered, hwaiting,
    (reported_iff hrun (of_decide_eq_true hidle)).mpr hsilent⟩

/-- **A trade that nobody hears of.** The trade of a market order activates a stop order, which
sells three lots to the same bid. Two trades are executed, one is published. -/
theorem report_lost : ∃ (s : System) (events : List System.Event),
    Run System.Step ⟨((fresh .empty .plain none).startWAL (some [])).2, []⟩ events s ∧ s.Idle ∧
    s.engine.executed.map (fun p => p.2.quantity) = [1, 3] ∧
    s.engine.published.map (fun p => p.1.quantity) = [1] ∧
    ¬ Reported ((fresh .empty .plain none).startWAL (some [])).2 s.engine := by
  let final := Run.exec (fun (s : System) event => (s.advance 3 event).map (event, ·))
    ⟨((fresh .empty .plain none).startWAL (some [])).2, []⟩ [
    .begin (.submit true ⟨"stop", "S", .sell, .stopLoss, 10, 3⟩),
    .begin (.submit true ⟨"bid", "S", .buy, .limit, 10, 5⟩), .proceed 1, .proceed 1,
    .begin (.submit true ⟨"ask", "S", .sell, .market, 0, 1⟩),
    .proceed 2, .proceed 2, .proceed 2, .proceed 2]
  have hseen : final.map (fun p => (decide p.2.Idle,
      p.2.engine.executed.map (fun p => p.2.quantity),
      p.2.engine.published.map (fun p => p.1.quantity),
      (p.2.engine.executed.filter fun p => p.1 = "S").length,
      (p.2.engine.published.filter fun p => p.1.symbol = "S").length)) =
        some (true, [1, 3], [1], 2, 1) := by decide +kernel
  obtain ⟨⟨events, s⟩, hfinal, hseen⟩ := Option.map_eq_some_iff.mp hseen
  simp only [Prod.mk.injEq] at hseen
  obtain ⟨hidle, hexecuted, hpublished, htwo, hone⟩ := hseen
  refine ⟨s, events, System.run_of_exec hfinal, of_decide_eq_true hidle, hexecuted, hpublished,
    fun hreported => ?_⟩
  have hlength := (hreported.published "S").length_eq
  rw [List.length_map, List.length_map, htwo, hone] at hlength
  omega

end MatchingEngine

end GoQuant
