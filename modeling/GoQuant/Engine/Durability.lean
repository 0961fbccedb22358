import GoQuant.Engine.Linearization
import GoQuant.Engine.Recovery

/-!
# Recovery after crashes

A process that is killed while calls are under way leaves a log that can lack its last records.
The next process replays it and appends to it. However often this happens, what a log holds is at
every record the books of some moment in the life of the process that wrote it, and a torn line
after that record does not keep them from being read. Only the last log may be torn: `startWAL`
appends behind a torn line, and what is written there is never replayed.

## Main definitions

* `replayText` — `replayWAL` of a file whose lines may fail to parse.
* `Restores` — a log that restores the books of an engine in every new process.
* `Lifetime.Crashes` — a lifetime that ends at any moment, and leaves a part of its log.

## Main results

* `durable_of_run` — the log restores the books at every moment, whatever calls are under way.
* `restores_of_crashes` — however many processes have crashed before.
-/

namespace GoQuant

open MatchingAlgorithm

namespace MatchingEngine

/-- The `while` loop of `replayWAL`, over lines that `json::parse` may reject. -/
def replayTextLines (fuel : ℕ) :
    List (Option Json) → MatchingEngine → Option (Bool × MatchingEngine)
  | [], e => some (true, e)
  | none :: _, e => some (false, e)
  | some line :: lines, e =>
    match WalRecord.ofJson line with
    | .error _ => some (false, e)
    | .ok none => replayTextLines fuel lines e
    | .ok (some record) =>
      match e.replayRecord fuel record with
      | none => none
      | some (.error _, e) => some (false, e)
      | some (.ok (), e) => replayTextLines fuel lines e

/-- `replayWAL` of a file whose lines may fail to parse. -/
def replayText (fuel : ℕ) (e : MatchingEngine) (text : List (Option Json)) :
    Option (Bool × MatchingEngine) :=
  (replayTextLines fuel text { e with replaying := true }).map fun (ok, e) =>
    (ok, { e with replaying := false })

variable {fuel : ℕ} {e e' r r' : MatchingEngine} {c : Call} {tasks : List Task} {task : Task}
  {lines : List Json} {text : List (Option Json)}

/-- Lines that all parse are replayed as before, and then the rest. -/
theorem replayTextLines_append (h : replayLines fuel lines e = some (true, e')) :
    replayTextLines fuel (lines.map some ++ text) e = replayTextLines fuel text e' := by
  induction lines generalizing e with
  | nil =>
    obtain ⟨-, rfl⟩ := Prod.mk.inj (Option.some.inj h)
    rfl
  | cons line lines ih =>
    simp only [replayLines] at h
    rcases hline : WalRecord.ofJson line with message | (_ | record)
    · simp only [hline] at h
      cases h
    · simp only [hline] at h
      simpa only [List.map_cons, List.cons_append, replayTextLines, hline] using ih h
    · rcases hrecord : e.replayRecord fuel record with _ | ⟨message | _, u⟩
      · simp only [hline, hrecord] at h
        cases h
      · simp only [hline, hrecord] at h
        cases h
      · simp only [hline, hrecord] at h
        simpa only [List.map_cons, List.cons_append, replayTextLines, hline, hrecord] using ih h

/-- The trades in a log are of no consequence. -/
theorem replayLines_filter (fuel : ℕ) (lines : List Json) (e : MatchingEngine) :
    replayLines fuel (lines.filter isOperation) e = replayLines fuel lines e := by
  induction lines generalizing e with
  | nil => rfl
  | cons line lines ih =>
    rcases hline : WalRecord.ofJson line with message | (_ | record)
    · have hkeep : isOperation line = true := by simp [isOperation, hline]
      simp only [List.filter_cons_of_pos hkeep, replayLines, hline]
    · have hskip : ¬ isOperation line = true := by simp [isOperation, hline]
      simp only [List.filter_cons_of_neg hskip, replayLines, hline, ih]
    · have hkeep : isOperation line = true := by simp [isOperation, hline]
      simp only [List.filter_cons_of_pos hkeep, replayLines, hline, ih]

/-! ## What a step writes -/

/-- A record of a call that leaves no trigger order behind. -/
def PlainRecord (record : WalRecord) : Prop := ∀ o, record = .submit o → o.type.Matchable

/-- The first critical section writes one record, or none. -/
theorem start_logs (hplain : c.Plain) (hs : e.start fuel c = some (tasks, e')) :
    ∃ record : Option WalRecord, Logs record.toList e e' ∧ ∀ x ∈ record, PlainRecord x := by
  have hidle (e' : MatchingEngine) (hlogs : Logs [] e e') :
      ∃ record : Option WalRecord, Logs record.toList e e' ∧ ∀ x ∈ record, PlainRecord x :=
    ⟨none, hlogs, fun _ hx => absurd hx (Option.not_mem_none _)⟩
  cases c with
  | submit tryAcceptOrder o =>
    obtain ⟨rfl, result, haccept, -⟩ | ⟨-, -, rfl⟩ := start_submit hs
    · have hself := e.alloc_order_self o
      have htype := hplain o rfl
      have halloc : Logs [] e (e.alloc o).1 := .idle rfl rfl rfl
      have hreceive := halloc.trans (.receive (e.alloc o).1 o)
      refine ⟨some (.submit o), ?_, fun x hx o' ho' => ?_⟩
      · obtain ⟨htrigger, -⟩ | ⟨-, matching, -, -, _, _, rfl⟩ | ⟨hthrow, -⟩ :=
          acceptOrder_cases haccept
        · rw [hself] at htrigger
          exact absurd htrigger (not_isTrigger_of_matchable htype)
        · rw [hself]
          exact hreceive.trans (.idle rfl rfl rfl)
        · rw [hself] at hthrow
          exact absurd htype hthrow
      · obtain rfl := Option.some.inj hx
        exact WalRecord.submit.inj ho' ▸ htype
    · exact hidle _ (.idle rfl rfl rfl)
  | cancel orderId =>
    have he' : (e.cancelOrderUnlocked orderId).2 = e' := (Prod.mk.inj (Option.some.inj hs)).2
    obtain hnone | ⟨_, _, -, u, hsome, -, hlogs⟩ := cancelOrderUnlocked_cases e orderId
    · rw [hnone] at he'
      exact hidle _ (he' ▸ .refl e)
    · rw [hsome] at he'
      refine ⟨some (.cancel orderId), he' ▸ hlogs, fun x hx o ho => ?_⟩
      obtain rfl := Option.some.inj hx
      cases ho
  | modify orderId newQuantity =>
    have he' : (e.modifyOrderUnlocked orderId newQuantity).2 = e' :=
      (Prod.mk.inj (Option.some.inj hs)).2
    obtain hnone | ⟨_, _, _, -, u, hsome, -, hlogs⟩ :=
      modifyOrderUnlocked_cases e orderId newQuantity
    · rw [hnone] at he'
      exact hidle _ (he' ▸ .refl e)
    · rw [hsome] at he'
      refine ⟨some (.modify orderId newQuantity), he' ▸ hlogs, fun x hx o ho => ?_⟩
      obtain rfl := Option.some.inj hx
      cases ho
  | subscribeToMarketData symbol callback =>
    obtain ⟨-, rfl⟩ := Prod.mk.inj (Option.some.inj hs)
    exact hidle _ (.idle rfl rfl rfl)
  | subscribeToTrades symbol callback =>
    obtain ⟨-, rfl⟩ := Prod.mk.inj (Option.some.inj hs)
    exact hidle _ (.idle rfl rfl rfl)

/-- So does a task. -/
theorem perform_logs (h : e.Untriggered) (hp : e.perform fuel task = some (tasks, e')) :
    ∃ record : Option WalRecord, Logs record.toList e e' ∧ ∀ x ∈ record, PlainRecord x := by
  have hidle (e' : MatchingEngine) (hlogs : Logs [] e e') :
      ∃ record : Option WalRecord, Logs record.toList e e' ∧ ∀ x ∈ record, PlainRecord x :=
    ⟨none, hlogs, fun _ hx => absurd hx (Option.not_mem_none _)⟩
  cases task with
  | publish trade =>
    obtain ⟨-, rfl⟩ := Prod.mk.inj (Option.some.inj hp)
    refine ⟨some (.trade (e.recordTrade trade).1), .recordTrade e trade, fun x hx o ho => ?_⟩
    obtain rfl := Option.some.inj hx
    cases ho
  | deliver callback t =>
    obtain ⟨-, rfl⟩ := Prod.mk.inj (Option.some.inj hp)
    exact hidle _ (.idle rfl rfl rfl)
  | check symbol price =>
    obtain ⟨u, hu, heq⟩ := Option.map_eq_some_iff.mp hp
    obtain ⟨-, rfl⟩ := Prod.mk.inj heq
    exact hidle _ (checkTriggers_idle h hu).2
  | read symbol =>
    obtain ⟨-, rfl⟩ := Prod.mk.inj (Option.some.inj hp)
    exact hidle _ (.refl e)
  | update symbol update =>
    obtain ⟨-, rfl⟩ := Prod.mk.inj (Option.some.inj hp)
    exact hidle _ (.publishUpdate e symbol update)

/-! ## Logs that restore the books -/

/-- A log of plain records that restores the books of an engine in every new process. -/
structure Restores (file : List Json) (e : MatchingEngine) : Prop where
  plain : ∀ line ∈ file, ∀ o, WalRecord.ofJson line = .ok (some (.submit o)) → o.type.Matchable
  rebuilds : ∀ mem hashOrder feeModel,
    Rebuilds file { fresh mem hashOrder feeModel with replaying := true } e

/-- An engine that writes its log, which restores its books. -/
structure Durable (e : MatchingEngine) : Prop where
  live : e.Live
  restores : Restores e.walStream e

theorem sameBooks_of_exchange (h : r.exchange = e.exchange) (hr : r.Untriggered)
    (he : e.Untriggered) : r.SameBooks e where
  mem := (congrArg (fun u : MatchingEngine => u.mem) h.symm :)
  book symbol := (congrArg (fun u : MatchingEngine => u.book symbol) h.symm :)
  pending symbol := (he symbol).trans (hr symbol).symm
  feeModel := (congrArg (fun u : MatchingEngine => u.feeModel) h.symm :)
  hashOrder := (congrArg (fun u : MatchingEngine => u.hashOrder) h.symm :)

theorem Live.of_exchange (hr : r.Live) (h : r.exchange = e.exchange) (he : e.Untriggered) :
    e.Live where
  walEnabled := (congrArg (fun u : MatchingEngine => u.walEnabled) h.symm :).trans hr.walEnabled
  replaying := (congrArg (fun u : MatchingEngine => u.replaying) h.symm :).trans hr.replaying
  sane := hr.sane.of_same (sameBooks_of_exchange h hr.untriggered he)
  distinct := hr.distinct.of_same (sameBooks_of_exchange h hr.untriggered he)
  untriggered := he

/-- A log restores the books whatever trades stand between its operations. -/
theorem Rebuilds.of_exchange {r₀ : MatchingEngine} (hrebuilds : Rebuilds r.walStream r₀ r)
    (h : r.exchange = e.exchange) (hr : r.Untriggered) (he : e.Untriggered) :
    Rebuilds e.walStream r₀ e := by
  obtain ⟨fuel, r', hreplay, htwin⟩ := hrebuilds
  have hoperations : r.walStream.filter isOperation = e.walStream.filter isOperation :=
    (congrArg (fun u : MatchingEngine => u.walStream) h :)
  refine ⟨fuel, r', ?_, htwin.of_same (sameBooks_of_exchange h hr he) (.refl r')⟩
  rw [← replayLines_filter, ← hoperations, replayLines_filter]
  exact hreplay

theorem logged_of_exchange (h : r.exchange = e.exchange) : r.Logged c ↔ e.Logged c := by
  have hsame : r.exchange.Logged c ↔ e.exchange.Logged c := by rw [h]
  cases c with
  | submit tryAcceptOrder o => exact hsame
  | _ => exact Iff.rfl

theorem Logged.plain (h : e.Logged c) : c.Plain := by
  rintro o rfl
  exact h.1

theorem exists_answer {p : List Task × MatchingEngine} (hs : e.start fuel c = some p) :
    ∃ a, e.answer fuel c = some a := by
  cases c with
  | submit tryAcceptOrder o =>
    obtain ⟨rfl, result, haccept, -⟩ | ⟨rfl, -⟩ := start_submit hs
    · exact ⟨_, by simp only [answer, if_true, haccept]; rfl⟩
    · exact ⟨_, rfl⟩
  | _ => exact ⟨_, rfl⟩

theorem start_durable (mem : Memory) (hashOrder : HashOrder) (feeModel : Option FeeModel) :
    Durable ((fresh mem hashOrder feeModel).startWAL (some [])).2 where
  live := by
    refine ⟨rfl, rfl, bookInvariant_sane.fresh rfl, ?_, fun symbol => rfl⟩
    intro id symbol symbol' hid
    cases hid
  restores := by
    refine ⟨fun line hline => absurd hline List.not_mem_nil, fun mem' hashOrder' feeModel' => ?_⟩
    refine ⟨0, _, rfl, id, ∅, ⟨?_, ?_, ?_⟩, fun symbol => .empty id ∅ symbol symbol⟩ <;> simp

end MatchingEngine

namespace System

open MatchingEngine

/-- A step in which only calls begin that the log can be trusted with. -/
structure LoggedEvent (s : System) (event : Event) (t : System) : Prop where
  step : s.Step event t
  logged : ∀ c ∈ event.begun, s.engine.Logged c

variable {s t : System} {event : Event} {events : List Event} {e r : MatchingEngine}

theorem LoggedEvent.plain (h : s.LoggedEvent event t) : ∀ c ∈ event.begun, c.Plain :=
  fun c hc => (h.logged c hc).plain

theorem LoggedEvent.untriggered (h : s.LoggedEvent event t) (hs : s.engine.Untriggered) :
    t.engine.Untriggered := by
  refine untriggered_sections.step hs (fun o hevent => ?_) h.step
  exact h.plain _ (by rw [hevent]; exact List.mem_singleton_self _) o rfl

/-- A step appends one plain record to the log, or nothing. -/
theorem LoggedEvent.logs (h : s.LoggedEvent event t) (hs : s.engine.Untriggered) :
    ∃ record : Option WalRecord, Logs record.toList s.engine t.engine ∧
      ∀ x ∈ record, PlainRecord x := by
  have hplain := h.plain
  cases h.step with
  | begin hstart => exact start_logs (hplain _ (List.mem_singleton_self _)) hstart
  | proceed _ hperform => exact perform_logs hs hperform

/-- The answer to a call is known when it has begun. -/
theorem LoggedEvent.answered (h : s.LoggedEvent event t) :
    ∃ calls, AnsweredStep s (event, calls) t := by
  have hplain := h.plain
  cases h.step with
  | @begin fuel c tasks e hstart =>
    obtain ⟨a, ha⟩ := exists_answer hstart
    refine ⟨[(c, a)], .begin hstart, rfl, fun p hp => ?_⟩
    obtain rfl := List.mem_singleton.mp hp
    exact ⟨hplain c (List.mem_singleton_self c), fuel, ha⟩
  | proceed hcall hperform =>
    exact ⟨[], .proceed hcall hperform, rfl, fun p hp => absurd hp List.not_mem_nil⟩

/-- A live engine follows with a whole call where one begins. -/
theorem LoggedEvent.follow (h : s.LoggedEvent event t) (hsame : r.exchange = s.engine.exchange)
    (hs : s.engine.Untriggered) (hr : r.Live) :
    ∃ r', Run LoggedStep r event.begun r' ∧ r'.exchange = t.engine.exchange ∧ r'.Live := by
  obtain ⟨calls, hanswered⟩ := h.answered
  obtain ⟨r', hrun, hsame', -⟩ := hanswered.reply hsame hs hr.untriggered
  suffices hrun' : Run LoggedStep r event.begun r' from
    ⟨r', hrun', hsame', (live_of_run hrun' hr).1⟩
  cases event with
  | proceed i =>
    obtain rfl := List.map_eq_nil_iff.mp hanswered.begun
    obtain rfl := Run.nil_iff.mp hrun
    exact .nil
  | begin c =>
    obtain ⟨⟨c', a⟩, rfl, rfl⟩ := List.map_eq_singleton_iff.mp hanswered.begun
    obtain ⟨u, hreply, hnil⟩ := Run.cons_iff.mp hrun
    obtain rfl := Run.nil_iff.mp hnil
    obtain ⟨fuel, hreply⟩ := hreply
    refine .one ⟨(logged_of_exchange hsame).mpr (h.logged c' (List.mem_singleton_self _)), fuel, ?_⟩
    rw [← reply_snd, hreply]
    rfl

/-- What a step writes is plain. -/
theorem LoggedEvent.plain_lines (h : s.LoggedEvent event t) (hs : s.engine.Untriggered)
    (hplain : ∀ line ∈ s.engine.walStream, ∀ o,
      WalRecord.ofJson line = .ok (some (.submit o)) → o.type.Matchable) :
    ∀ line ∈ t.engine.walStream, ∀ o,
      WalRecord.ofJson line = .ok (some (.submit o)) → o.type.Matchable := by
  obtain ⟨record, hlogs, hrecord⟩ := h.logs hs
  intro line hline o hread
  rw [hlogs.walStream, List.mem_append] at hline
  rcases hline with hold | hnew
  · exact hplain line hold o hread
  · split_ifs at hnew with hlog
    · obtain ⟨x, hx, rfl⟩ := List.mem_map.mp hnew
      refine hrecord x (by simpa using hx) o ?_
      by_cases htrade : ∃ t, x = .trade t
      · obtain ⟨t, rfl⟩ := htrade
        rw [WalRecord.ofJson_trade] at hread
        cases hread
      · rw [WalRecord.ofJson_toJson x fun t ht => htrade ⟨t, ht⟩] at hread
        exact Option.some.inj (Except.ok.inj hread)
    · cases hnew

/-- The log restores the books at every moment, whatever calls are under way. -/
theorem durable_of_run (h : Run LoggedEvent ⟨e, []⟩ events s) (he : e.Durable) :
    s.engine.Durable := by
  obtain ⟨hs, hplain⟩ := h.invariant (fun s => s.engine.Untriggered ∧
      ∀ line ∈ s.engine.walStream, ∀ o,
        WalRecord.ofJson line = .ok (some (.submit o)) → o.type.Matchable)
    ⟨he.live.untriggered, he.restores.plain⟩
    fun s event t hs hstep => ⟨hstep.untriggered hs.1, hstep.plain_lines hs.1 hs.2⟩
  obtain ⟨r, hrun, hsame, -, hr⟩ := h.simulates
    (fun s (r : MatchingEngine) => r.exchange = s.engine.exchange ∧ s.engine.Untriggered ∧ r.Live)
    Event.begun
    (fun s event t r ⟨hsame, hs, hr⟩ hstep =>
      let ⟨r', hrun, hsame', hr'⟩ := hstep.follow hsame hs hr
      ⟨r', hrun, hsame', hstep.untriggered hs, hr'⟩) ⟨rfl, he.live.untriggered, he.live⟩
  refine ⟨hr.of_exchange hsame hs, hplain, fun mem hashOrder feeModel => ?_⟩
  exact (rebuilds_of_run hrun he.live (he.restores.rebuilds mem hashOrder feeModel)).of_exchange
    hsame hr.untriggered hs

end System

/-! ## Lifetimes -/

namespace MatchingEngine

variable {file : List Json} {mem : Memory} {hashOrder : HashOrder} {feeModel : Option FeeModel}
  {fuel : ℕ} {ok : Bool} {e₀ e : MatchingEngine}

/-- Where nothing waits, no pending order is left when some are forgotten. -/
theorem Untriggered.setPending (h : e.Untriggered) {symbol : String} {vec : List Ref}
    (hvec : ∀ ord ∈ vec, ord ∈ e.pending symbol) : (e.setPending symbol vec).Untriggered := by
  intro s
  by_cases hs : s = symbol
  · subst hs
    rw [pending_setPending_self, List.eq_nil_iff_forall_not_mem]
    exact fun ord hord => absurd (h s ▸ hvec ord hord) List.not_mem_nil
  · rw [pending_setPending_of_ne _ _ hs]
    exact h s

/-- A new process that finds the log restores the books. -/
theorem Restores.twin (h : Restores file e₀)
    (hreplay : (fresh mem hashOrder feeModel).replayWAL fuel (some file) = some (ok, e)) :
    ok = true ∧ Twin e₀ (e.startWAL (some file)).2 := by
  obtain ⟨⟨ok', u⟩, hu, heq⟩ := Option.map_eq_some_iff.mp hreplay
  obtain ⟨rfl, rfl⟩ := Prod.mk.inj heq
  obtain ⟨fuel', r, hr, htwin⟩ := h.rebuilds mem hashOrder feeModel
  have hboth := (replayLines_mono hu (le_max_left fuel fuel')).symm.trans
    (replayLines_mono hr (le_max_right fuel fuel'))
  obtain ⟨rfl, rfl⟩ := Prod.mk.inj (Option.some.inj hboth)
  exact ⟨rfl, htwin.of_same (.refl e₀) ⟨rfl, fun _ => rfl, fun _ => rfl, rfl, rfl⟩⟩

/-- Nothing waits in an engine that has replayed a log without trigger orders. -/
theorem Restores.untriggered (h : Restores file e₀)
    (hreplay : (fresh mem hashOrder feeModel).replayWAL fuel (some file) = some (ok, e)) :
    e.Untriggered := by
  refine untriggered_sections.replayWAL (fun he hvec => he.setPending hvec) (fun _ => rfl) ?_
    hreplay
  rintro lines ⟨⟩
  exact h.plain

/-- The log of the new process restores the books again. -/
theorem Restores.restart (h : Restores file e₀) (hdistinct : e₀.Distinct)
    (hreplay : (fresh mem hashOrder feeModel).replayWAL fuel (some file) = some (ok, e)) :
    ok = true ∧ (e.startWAL (some file)).2.Durable := by
  obtain ⟨rfl, htwin⟩ := h.twin hreplay
  have hopen : e.SameBooks (e.startWAL (some file)).2 :=
    ⟨rfl, fun _ => rfl, fun _ => rfl, rfl, rfl⟩
  have hsane : e.Books Sane :=
    bookInvariant_sane.sections.replayWAL (fun hu _ => hu) (bookInvariant_sane.fresh rfl) hreplay
  have hreplaying : e.replaying = false := by
    obtain ⟨p, -, hp⟩ := Option.map_eq_some_iff.mp hreplay
    exact (congrArg (fun q => q.2.replaying) hp).symm
  refine ⟨rfl, ⟨rfl, hreplaying, hsane.of_same hopen, htwin.distinct hdistinct,
    (h.untriggered hreplay).of_same hopen⟩, h.plain, ?_⟩
  intro mem' hashOrder' feeModel'
  obtain ⟨fuel', r', hr', htwin'⟩ := h.rebuilds mem' hashOrder' feeModel'
  exact ⟨fuel', r', hr', htwin.symm.trans htwin'⟩

end MatchingEngine

open MatchingEngine

/-- A process finds a log, replays it and opens it to append to it. It ends after some steps of its
calls, whatever is still under way, and of what it has written a part is left. -/
def Lifetime.Crashes (file : List Json) (life : Lifetime) (file' : List Json) : Prop :=
  ∃ fuel ok e k,
    (fresh life.mem life.hashOrder life.feeModel).replayWAL fuel (some file) = some (ok, e) ∧
    Run System.LoggedEvent ⟨(e.startWAL (some file)).2, []⟩ life.events life.last ∧
    file.length ≤ k ∧ k ≤ life.last.engine.walStream.length ∧
    file' = life.last.engine.walStream.take k

/-- A process that has replayed a log without an error passes through a state. -/
def Lifetime.Passes (file : List Json) (life : Lifetime) (t : System) : Prop :=
  ∃ fuel e events₁ events₂,
    (fresh life.mem life.hashOrder life.feeModel).replayWAL fuel (some file) = some (true, e) ∧
    life.events = events₁ ++ events₂ ∧
    Run System.LoggedEvent ⟨(e.startWAL (some file)).2, []⟩ events₁ t ∧
    Run System.LoggedEvent t events₂ life.last

namespace Lifetime

variable {file file' : List Json} {life : Lifetime} {lives : List Lifetime}

/-- What is left of a log is the log of an earlier moment. -/
theorem Crashes.exists_passes {e₀ : MatchingEngine} (h : life.Crashes file file')
    (hr : Restores file e₀) (hdistinct : e₀.Distinct) :
    ∃ t, life.Passes file t ∧ t.engine.walStream = file' ∧ t.engine.Durable := by
  obtain ⟨fuel, ok, e, k, hreplay, hrun, hk, hk', rfl⟩ := h
  obtain ⟨rfl, hdurable⟩ := hr.restart hdistinct hreplay
  have hidle := hrun.restrict (fun s => s.engine.Untriggered) hdurable.live.untriggered
    fun s event t hs hstep => hstep.untriggered hs
  have hgrows : ∀ (s : System) event t, s.engine.Untriggered ∧ s.LoggedEvent event t →
      ∃ line : Option Json, t.engine.walStream = s.engine.walStream ++ line.toList := by
    rintro s event t ⟨hs, hstep⟩
    obtain ⟨record, hlogs, -⟩ := hstep.logs hs
    rw [hlogs.walStream]
    split_ifs
    · exact ⟨record.map WalRecord.toJson, by cases record <;> rfl⟩
    · exact ⟨none, rfl⟩
  obtain ⟨events₁, events₂, t, hevents, hfirst, hrest, hfile⟩ :=
    hidle.exists_take hgrows hk hk'
  have hfirst' := hfirst.mono fun _ _ _ h => h.2
  exact ⟨t, ⟨fuel, e, events₁, events₂, hreplay, hevents, hfirst', hrest.mono fun _ _ _ h => h.2⟩,
    hfile, System.durable_of_run hfirst' hdurable⟩

/-- However many processes have crashed before, each started on whole records, and wherever the log
of the last one is torn: a new process finds the books of a moment in the life of the last one, when
it had written just what is readable. -/
theorem restores_of_crashes (h : Run Lifetime.Crashes [] lives file)
    (hlife : life.Crashes file file') {torn : List (Option Json)}
    (htorn : ∀ line ∈ torn.head?, line = none) :
    ∃ t, life.Passes file t ∧ t.engine.walStream = file' ∧ ∀ mem hashOrder feeModel, ∃ fuel r,
      (fresh mem hashOrder feeModel).replayText fuel (file'.map some ++ torn) =
        some (torn.isEmpty, r) ∧
      ∀ symbol, SameContents t.engine.mem (t.engine.book symbol) r.mem (r.book symbol) := by
  obtain ⟨e₀, hr, hdistinct⟩ : ∃ e₀, Restores file e₀ ∧ e₀.Distinct := by
    refine h.invariant (fun file => ∃ e₀, Restores file e₀ ∧ e₀.Distinct) ?_ ?_
    · have hdurable := start_durable .empty .plain none
      exact ⟨_, hdurable.restores, hdurable.live.distinct⟩
    · rintro file life file' ⟨e₀, hr, hdistinct⟩ hcrash
      obtain ⟨t, -, rfl, hdurable⟩ := hcrash.exists_passes hr hdistinct
      exact ⟨t.engine, hdurable.restores, hdurable.live.distinct⟩
  obtain ⟨t, hpasses, hfile, hdurable⟩ := hlife.exists_passes hr hdistinct
  refine ⟨t, hpasses, hfile, fun mem hashOrder feeModel => ?_⟩
  obtain ⟨fuel, r, hreplay, htwin⟩ := hdurable.restores.rebuilds mem hashOrder feeModel
  refine ⟨fuel, { r with replaying := false }, ?_, htwin.sameContents⟩
  rw [hfile] at hreplay
  rw [replayText, replayTextLines_append hreplay]
  rcases torn with _ | ⟨line, torn⟩
  · rfl
  · obtain rfl := htorn line rfl
    rfl

/-- A lifetime of the steps that begin the given calls or go on with them, on fuel, of whose log
the first `k` lines are left. -/
def crash (fuel : ℕ) (file : List Json) (p : List System.Event × ℕ) :
    Option (Lifetime × List Json) :=
  ((fresh .empty .plain none).replayWAL fuel (some file)).bind fun q =>
    (Run.exec (System.advanceIf fuel fun s event => ∀ c ∈ event.begun, s.engine.Logged c)
      ⟨(q.2.startWAL (some file)).2, []⟩ p.1).bind fun r =>
        let file' := r.2.engine.walStream
        if file.length ≤ p.2 ∧ p.2 ≤ file'.length then
          some (⟨.empty, .plain, none, r.1, r.2⟩, file'.take p.2)
        else none

theorem crashes_of_crash {fuel : ℕ} {p : List System.Event × ℕ}
    (h : crash fuel file p = some (life, file')) : life.Crashes file file' := by
  obtain ⟨⟨ok, e⟩, hreplay, h⟩ := Option.bind_eq_some_iff.mp h
  obtain ⟨⟨events, last⟩, hexec, h⟩ := Option.bind_eq_some_iff.mp h
  dsimp only at h
  split_ifs at h with hk
  obtain ⟨rfl, rfl⟩ := Prod.mk.inj (Option.some.inj h)
  have hrun := (System.run_of_execIf hexec).mono fun s event t ⟨hstep, hlogged⟩ =>
    System.LoggedEvent.mk hstep hlogged
  exact ⟨fuel, ok, e, p.2, hreplay, hrun, hk.1, hk.2, rfl⟩

/-- The first process is killed before it has published its trade, the second one before its last
record has reached the file. -/
theorem restores_of_crashes_twice : ∃ (file file' : List Json) (t : System) (r : MatchingEngine)
    (fuel : ℕ), file.length = 2 ∧ file'.length = 3 ∧ t.engine.walStream = file' ∧
      (fresh .empty .plain none).replayText fuel (file'.map some ++ [none]) = some (false, r) ∧
      ∀ symbol, SameContents t.engine.mem (t.engine.book symbol) r.mem (r.book symbol) := by
  let final := Run.exec (crash 5) [] [([.begin (.submit true ⟨"ask", "S", .sell, .limit, 10, 5⟩),
    .begin (.submit true ⟨"bid", "S", .buy, .limit, 11, 3⟩)], 2)]
  let final' := final.bind fun q => crash 5 q.2 ([.begin (.modify "ask" 1), .proceed 0,
    .begin (.cancel "ask")], 3)
  have hlength : final.map (fun q => q.2.length) = some 2 := by decide +kernel
  have hlength' : final'.map (fun q => q.2.length) = some 3 := by decide +kernel
  obtain ⟨⟨lives, file⟩, hlives, hfile⟩ := Option.map_eq_some_iff.mp hlength
  obtain ⟨⟨life, file'⟩, hlife, hfile'⟩ := Option.map_eq_some_iff.mp hlength'
  have hcrash : crash 5 file ([.begin (.modify "ask" 1), .proceed 0, .begin (.cancel "ask")], 3) =
      some (life, file') := by
    simpa only [final', hlives, Option.bind_some] using hlife
  obtain ⟨t, -, ht, hrestores⟩ := restores_of_crashes
    (Run.of_exec (fun _ _ _ _ => crashes_of_crash) hlives) (crashes_of_crash hcrash)
    (by simp : ∀ line ∈ [(none : Option Json)].head?, line = none)
  obtain ⟨fuel, r, hreplay, hsame⟩ := hrestores .empty .plain none
  exact ⟨file, file', t, r, fuel, hfile, hfile', ht, hreplay, hsame⟩

end Lifetime

end GoQuant
