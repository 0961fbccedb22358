import GoQuant.Engine.Carriers
import GoQuant.Engine.Reports

/-!
# Engines that share a log

A process replays the log that it finds, goes on writing to it, and ends at any point; the next
one does the same. A replay brings back books and pending orders. It does not bring back the
numbers of the trades: every engine numbers the trades of a symbol from one.

## Main definitions

* `Lifetime`, `Lifetime.Lives` — a process from its replay of the log to its end.
* `numbers` — the symbols and numbers on the trade records of a log, `Increasing`.

## Main results

* `SectionInvariant.replayWAL` — what the critical sections keep holds after a replay.
* `increasing_iff` — the numbers increase along the log exactly if no process publishes a trade
  of a symbol that has trade records from earlier ones.
* `renumbered` — two processes that trade the same symbol.
-/

namespace GoQuant

open MatchingAlgorithm

/-! ## Invariants and replays -/

namespace SectionInvariantOn

open MatchingEngine

variable {kind : Order → Prop} {P : MatchingEngine → Prop} {fuel : ℕ} {e e' : MatchingEngine}
  {record : WalRecord} {r : Except String Unit}

/-- A submit record is redone like a call that writes nothing. -/
theorem replaySubmit (hP : SectionInvariantOn kind P) (he : P e) {o : Order} (ho : kind o)
    (h : e.replayRecord fuel (.submit o) = some (r, e')) : P e' := by
  have hself := e.alloc_order_self o
  have hsame := SameBooks.getOrCreateOrderBook (e.alloc o).1 o.symbol
  have hreceive := SameBooks.receive (e.alloc o).1 o
  simp only [MatchingEngine.replayRecord] at h
  split_ifs at h with htrigger hold
  · obtain ⟨-, rfl⟩ := Prod.mk.inj (Option.some.inj h)
    have haccept : (e.alloc o).1.acceptOrder fuel (e.alloc o).2 = some (.ok none,
        ((e.alloc o).1.receive o).addTrigger o.symbol (e.alloc o).2) := by
      simp only [MatchingEngine.acceptOrder, hself, htrigger, if_true]
    refine hP.of_same (hP.acceptOrder ho he haccept) ⟨hsame.mem.trans hreceive.mem.symm,
      fun s => (hsame.book s).trans (hreceive.book s).symm, fun s => ?_,
      hsame.feeModel.trans hreceive.feeModel.symm, hsame.hashOrder.trans hreceive.hashOrder.symm⟩
    by_cases hs : s = o.symbol
    · subst hs
      simp only [addTrigger, pending_setPending_self, hsame.pending, hreceive.pending]
    · simp only [addTrigger, pending_setPending_of_ne _ _ hs, hsame.pending, hreceive.pending]
  · obtain ⟨-, rfl⟩ := Prod.mk.inj (Option.some.inj h)
    exact hP.of_same (hP.alloc o he) hsame
  · rw [hsame.feeModel, hsame.mem, hsame.book] at h
    split at h
    · obtain ⟨-, rfl⟩ := Prod.mk.inj (Option.some.inj h)
      exact hP.of_same (hP.alloc o he) hsame
    · cases h
    · rename_i result hresult
      obtain ⟨-, rfl⟩ := Prod.mk.inj (Option.some.inj h)
      obtain ⟨m, n, haccept⟩ : ∃ m n, (e.alloc o).1.acceptOrder fuel (e.alloc o).2 =
          some (.ok (some result.trades), { ((e.alloc o).1.receive o).matched o.symbol result with
            metricOrdersMatched := m, metricTradesExecuted := n }) := by
        unfold MatchingEngine.acceptOrder
        dsimp only
        rw [hself, if_neg htrigger, hreceive.feeModel, hreceive.mem, hreceive.book, hresult]
        exact ⟨_, _, rfl⟩
      refine hP.of_same (hP.acceptOrder ho he haccept) ⟨rfl, fun s => ?_, fun s => ?_, ?_, ?_⟩
      · by_cases hs : s = o.symbol
        · subst hs
          exact (book_setBook_self _ result.book).trans (book_setBook_self _ result.book).symm
        · exact ((book_setBook_of_ne _ result.book hs).trans (hsame.book s)).trans
            ((book_setBook_of_ne _ result.book hs).trans (hreceive.book s)).symm
      · exact (hsame.pending s).trans (hreceive.pending s).symm
      · exact hsame.feeModel.trans hreceive.feeModel.symm
      · exact hsame.hashOrder.trans hreceive.hashOrder.symm

/-- The records of a log are redone one after another; an `activated` record forgets pending
orders. -/
theorem replayRecord (hP : SectionInvariantOn kind P)
    (hforget : ∀ {e symbol vec}, P e → (∀ ord ∈ vec, ord ∈ e.pending symbol) →
      P (e.setPending symbol vec)) (he : P e) (hkind : ∀ o, record = .submit o → kind o)
    (h : e.replayRecord fuel record = some (r, e')) : P e' := by
  cases record with
  | submit o => exact hP.replaySubmit he (hkind o rfl) h
  | cancel orderId =>
    obtain ⟨-, rfl⟩ := Prod.mk.inj (Option.some.inj h)
    exact hP.cancelOrderUnlocked orderId he
  | modify orderId newQuantity =>
    obtain ⟨-, rfl⟩ := Prod.mk.inj (Option.some.inj h)
    exact hP.modifyOrderUnlocked orderId newQuantity he
  | activated orderId symbol =>
    simp only [MatchingEngine.replayRecord] at h
    split at h
    · obtain ⟨-, rfl⟩ := Prod.mk.inj (Option.some.inj h)
      exact he
    · rename_i vec hvec
      obtain ⟨-, rfl⟩ := Prod.mk.inj (Option.some.inj h)
      refine hforget he fun ord hord => ?_
      rw [pending, hvec]
      exact List.mem_of_mem_filter hord
  | trade t =>
    obtain ⟨-, rfl⟩ := Prod.mk.inj (Option.some.inj h)
    exact he

/-- By induction on the lines, whether or not one of them throws. -/
theorem replayLines (hP : SectionInvariantOn kind P)
    (hforget : ∀ {e symbol vec}, P e → (∀ ord ∈ vec, ord ∈ e.pending symbol) →
      P (e.setPending symbol vec)) {lines : List Json} {ok : Bool} (he : P e)
    (hkind : ∀ line ∈ lines, ∀ o, WalRecord.ofJson line = .ok (some (.submit o)) → kind o)
    (h : replayLines fuel lines e = some (ok, e')) : P e' := by
  induction lines generalizing e with
  | nil =>
    obtain ⟨-, rfl⟩ := Prod.mk.inj (Option.some.inj h)
    exact he
  | cons line lines ih =>
    have hlines : ∀ line ∈ lines, ∀ o, WalRecord.ofJson line = .ok (some (.submit o)) → kind o :=
      fun line hline => hkind line (List.mem_cons_of_mem _ hline)
    simp only [MatchingEngine.replayLines] at h
    split at h
    · obtain ⟨-, rfl⟩ := Prod.mk.inj (Option.some.inj h)
      exact he
    · exact ih he hlines h
    · rename_i record hline
      have hsubmit : ∀ o, record = .submit o → kind o := fun o heq =>
        hkind line List.mem_cons_self o (heq ▸ hline)
      split at h
      · cases h
      · rename_i hrecord
        obtain ⟨-, rfl⟩ := Prod.mk.inj (Option.some.inj h)
        exact hP.replayRecord hforget he hsubmit hrecord
      · rename_i hrecord
        exact ih (hP.replayRecord hforget he hsubmit hrecord) hlines h

theorem replayWAL (hP : SectionInvariantOn kind P)
    (hforget : ∀ {e symbol vec}, P e → (∀ ord ∈ vec, ord ∈ e.pending symbol) →
      P (e.setPending symbol vec)) {file : Option (List Json)} {ok : Bool} (he : P e)
    (hkind : ∀ lines, file = some lines → ∀ line ∈ lines, ∀ o,
      WalRecord.ofJson line = .ok (some (.submit o)) → kind o)
    (h : e.replayWAL fuel file = some (ok, e')) : P e' := by
  have hflag (e : MatchingEngine) (b : Bool) : e.SameBooks { e with replaying := b } :=
    ⟨rfl, fun _ => rfl, fun _ => rfl, rfl, rfl⟩
  cases file with
  | none =>
    obtain ⟨-, rfl⟩ := Prod.mk.inj (Option.some.inj h)
    exact he
  | some lines =>
    obtain ⟨⟨ok', u⟩, hu, heq⟩ := Option.map_eq_some_iff.mp h
    obtain ⟨-, rfl⟩ := Prod.mk.inj heq
    exact hP.of_same (hP.replayLines hforget (hP.of_same he (hflag e true)) (hkind lines rfl) hu)
      (hflag u false)

end SectionInvariantOn

theorem SectionInvariant.replayWAL {P : MatchingEngine → Prop} (hP : SectionInvariant P)
    (hforget : ∀ {e symbol vec}, P e → (∀ ord ∈ vec, ord ∈ MatchingEngine.pending e symbol) →
      P (e.setPending symbol vec)) {fuel : ℕ} {e e' : MatchingEngine} {file : Option (List Json)}
    {ok : Bool} (he : P e) (h : e.replayWAL fuel file = some (ok, e')) : P e' :=
  hP.on.replayWAL hforget he (fun _ _ _ _ _ _ => trivial) h

namespace MatchingEngine

variable {fuel : ℕ} {e e' : MatchingEngine} {record : WalRecord}

/-- A replay publishes nothing and takes no number. -/
theorem replayRecord_unpublished {r : Except String Unit}
    (h : e.replayRecord fuel record = some (r, e')) :
    e'.published = e.published ∧ e'.tradeSeqs = e.tradeSeqs := by
  have hidle (u : MatchingEngine) (h : Executes "" [] e u) :
      u.published = e.published ∧ u.tradeSeqs = e.tradeSeqs := ⟨h.published, h.tradeSeqs⟩
  cases record with
  | submit o =>
    have halloc : Executes "" [] e (e.alloc o).1 := .idle rfl rfl rfl rfl
    have hcreated := hidle _ (halloc.then_idle (.getOrCreateOrderBook _ o.symbol))
    simp only [replayRecord] at h
    split_ifs at h
    · obtain ⟨-, rfl⟩ := Prod.mk.inj (Option.some.inj h)
      exact hcreated
    · obtain ⟨-, rfl⟩ := Prod.mk.inj (Option.some.inj h)
      exact hcreated
    · split at h
      · obtain ⟨-, rfl⟩ := Prod.mk.inj (Option.some.inj h)
        exact hcreated
      · cases h
      · obtain ⟨-, rfl⟩ := Prod.mk.inj (Option.some.inj h)
        exact hcreated
  | cancel orderId =>
    obtain ⟨-, rfl⟩ := Prod.mk.inj (Option.some.inj h)
    exact hidle _ (.cancelOrderUnlocked e orderId)
  | modify orderId newQuantity =>
    obtain ⟨-, rfl⟩ := Prod.mk.inj (Option.some.inj h)
    exact hidle _ (.modifyOrderUnlocked e orderId newQuantity)
  | activated orderId symbol =>
    simp only [replayRecord] at h
    split at h <;> obtain ⟨-, rfl⟩ := Prod.mk.inj (Option.some.inj h) <;> exact ⟨rfl, rfl⟩
  | trade t =>
    obtain ⟨-, rfl⟩ := Prod.mk.inj (Option.some.inj h)
    exact ⟨rfl, rfl⟩

/-- By induction on the lines. -/
theorem replayLines_unpublished {lines : List Json} {ok : Bool}
    (h : replayLines fuel lines e = some (ok, e')) :
    e'.published = e.published ∧ e'.tradeSeqs = e.tradeSeqs := by
  induction lines generalizing e with
  | nil =>
    obtain ⟨-, rfl⟩ := Prod.mk.inj (Option.some.inj h)
    exact ⟨rfl, rfl⟩
  | cons line lines ih =>
    simp only [replayLines] at h
    split at h
    · obtain ⟨-, rfl⟩ := Prod.mk.inj (Option.some.inj h)
      exact ⟨rfl, rfl⟩
    · exact ih h
    · split at h
      · cases h
      · rename_i hrecord
        obtain ⟨-, rfl⟩ := Prod.mk.inj (Option.some.inj h)
        exact replayRecord_unpublished hrecord
      · rename_i u hrecord
        obtain ⟨hpublished, hseqs⟩ := replayRecord_unpublished hrecord
        obtain ⟨hpublished', hseqs'⟩ := ih h
        exact ⟨hpublished'.trans hpublished, hseqs'.trans hseqs⟩

end MatchingEngine

/-! ## The numbers on a log -/

/-- The symbol and the number on a trade record. -/
def tradeNumber? (line : Json) : Option (String × ℤ) :=
  match line.value Json.getString "type" "" with
  | .ok "trade" => Except.toOption do
    let trade ← line.index "trade"
    let symbol ← (← trade.index "symbol").getString
    let seqNum ← (← trade.index "seqNum").getInt
    return (symbol, seqNum)
  | _ => none

/-- The symbols and numbers on the trade records of a log. -/
def numbers (file : List Json) : List (String × ℤ) := file.filterMap tradeNumber?

/-- The numbers of each symbol increase along the log. -/
def Increasing (file : List Json) : Prop :=
  (numbers file).Pairwise fun p q => p.1 = q.1 → p.2 < q.2

/-- What is written for a record is read back. -/
theorem tradeNumber?_toJson (record : WalRecord) :
    tradeNumber? record.toJson = record.trade?.map fun t => (t.symbol, (t.seqNum : ℤ)) := by
  cases record with
  | trade t =>
    have hnumber : (Json.num (t.seqNum : ℚ)).getInt = .ok (t.seqNum : ℤ) :=
      Json.getInt_intCast (t.seqNum : ℤ)
    simp [tradeNumber?, WalRecord.toJson, WalRecord.trade?, Json.index_cons_of_ne, hnumber,
      bind, Except.bind, pure, Except.pure, Except.toOption]
  | _ => simp [tradeNumber?, WalRecord.toJson, WalRecord.trade?]

theorem numbers_append_toJson (file : List Json) (records : List WalRecord) :
    numbers (file ++ records.map WalRecord.toJson) =
      numbers file ++
        (records.filterMap WalRecord.trade?).map fun t => (t.symbol, (t.seqNum : ℤ)) := by
  rw [numbers, List.filterMap_append, List.filterMap_map, List.map_filterMap]
  refine congrArg _ (List.filterMap_congr fun record _ => ?_)
  exact tradeNumber?_toJson record

/-! ## Lifetimes -/

/-- One lifetime of an engine: its process, its configuration, the steps and where they lead. -/
structure Lifetime where
  mem : Memory
  hashOrder : HashOrder
  feeModel : Option FeeModel
  events : List System.Event
  last : System

/-- A process finds a log and leaves one behind. It replays the log, opens it to append to it,
and ends after some steps of its calls, whatever is still under way. -/
def Lifetime.Lives (step : List Json → System → System.Event → System → Prop) (file : List Json)
    (life : Lifetime) (file' : List Json) : Prop :=
  ∃ fuel ok e,
    (MatchingEngine.fresh life.mem life.hashOrder life.feeModel).replayWAL fuel (some file) =
      some (ok, e) ∧
    Run (step file) ⟨(e.startWAL (some file)).2, []⟩ life.events life.last ∧
    file' = life.last.engine.walStream

namespace System

open MatchingEngine

variable {s t : System} {event : Event} {events : List Event} {file : List Json}
  {e₀ : MatchingEngine}

/-- The next step publishes no trade of a symbol that has trade records in a log. -/
def NovelAt (file : List Json) (s : System) : Event → Prop
  | .begin _ => True
  | .proceed i => ∀ trade, s.head? i = some (.publish trade) →
      ∀ p ∈ numbers file, p.1 ≠ trade.symbol

/-- What a lifetime keeps: the trades of a symbol are numbered from one, and have their records. -/
structure Recording (e₀ : MatchingEngine) (s : System) : Prop where
  labelled : s.engine.Labelled
  sane : s.engine.Books Sane
  numbered : s.engine.Numbered
  written : Writes (s.engine.published.map Prod.fst) e₀ s.engine

theorem recording_step (h : Recording e₀ s) (hstep : s.Step event t) : Recording e₀ t := by
  have hlabelled := labelled_sections.step h.labelled hstep
  have hsane := bookInvariant_sane.sections.step h.sane hstep
  have hidle {symbol : String} {ts : List Trade} {e : MatchingEngine}
      (hts : Executes symbol ts s.engine e) (hwrites : Writes [] s.engine e) :
      e.Numbered ∧ Writes (e.published.map Prod.fst) e₀ e := by
    constructor
    · intro symbol'
      rw [hts.published, hts.tradeSeqs]
      exact h.numbered symbol'
    · rw [hts.published]
      simpa using h.written.trans hwrites
  cases hstep with
  | begin hstart =>
    obtain ⟨symbol, ts, hts, -⟩ := start_executes h.labelled hstart
    obtain ⟨hnumbered, hwritten⟩ := hidle hts (start_writes hstart)
    exact ⟨hlabelled, hsane, hnumbered, hwritten⟩
  | @proceed fuel i task rest tasks e hcall hperform =>
    have hwrites := perform_writes h.labelled.waits hperform
    suffices hboth : e.Numbered ∧ Writes (e.published.map Prod.fst) e₀ e from
      ⟨hlabelled, hsane, hboth.1, hboth.2⟩
    cases task with
    | publish trade =>
      rcases hr : s.engine.recordTrade trade with ⟨stamped, callbacks, u⟩
      simp only [MatchingEngine.perform, hr] at hperform
      obtain ⟨-, rfl⟩ := Prod.mk.inj (Option.some.inj hperform)
      obtain ⟨-, -, hpublished, -, -, hwrites⟩ := recordTrade_reports hr
      refine ⟨h.numbered.recordTrade hr, ?_⟩
      rw [hpublished, List.map_append]
      exact h.written.trans hwrites
    | check symbol price =>
      obtain ⟨u, hu, heq⟩ := Option.map_eq_some_iff.mp hperform
      obtain ⟨-, rfl⟩ := Prod.mk.inj heq
      obtain ⟨ts, hts, -⟩ := checkTriggers_executes hu h.labelled h.sane
      exact hidle hts hwrites
    | update symbol update =>
      obtain ⟨-, rfl⟩ := Prod.mk.inj (Option.some.inj hperform)
      exact hidle (@Executes.publishUpdate symbol s.engine symbol update) hwrites
    | _ =>
      obtain ⟨-, rfl⟩ := Prod.mk.inj (Option.some.inj hperform)
      have hwritten : Writes (s.engine.published.map Prod.fst ++ []) e₀ _ := h.written.trans hwrites
      rw [List.append_nil] at hwritten
      exact ⟨h.numbered, hwritten⟩

theorem novelAt_iff : s.NovelAt file event ↔
    ∀ p ∈ s.stamps event, ∀ n ∈ numbers file, n.1 ≠ p.1.symbol := by
  cases event with
  | begin c => simp [NovelAt, stamps]
  | proceed i =>
    simp only [NovelAt, stamps]
    cases hhead : s.head? i with
    | none => simp
    | some task =>
      cases task with
      | publish trade => simp [recordTrade]
      | _ => simp

/-- A step that publishes no trade of a symbol that has trade records in a log. -/
def NovelStep (file : List Json) (s : System) (event : Event) (t : System) : Prop :=
  s.Step event t ∧ s.NovelAt file event

theorem recording_of_run (hrun : Run Step s events t) (h : Recording e₀ s) : Recording e₀ t :=
  hrun.invariant (Recording e₀) h fun _ _ _ => recording_step

/-- Then nothing of such a symbol is published. -/
theorem published_of_novel (hrun : Run (NovelStep file) s events t) (h : Recording e₀ s)
    (hnone : s.engine.published = []) :
    ∀ p ∈ t.engine.published, ∀ n ∈ numbers file, n.1 ≠ p.1.symbol := by
  refine (hrun.invariant (fun t => Recording e₀ t ∧
    ∀ p ∈ t.engine.published, ∀ n ∈ numbers file, n.1 ≠ p.1.symbol) ⟨h, ?_⟩ ?_).2
  · rw [hnone]
    nofun
  · rintro u event w ⟨hu, hpublished⟩ ⟨hstep, hnovel⟩
    refine ⟨recording_step hu hstep, ?_⟩
    rw [published_step hu.labelled hu.sane hstep, List.forall_mem_append]
    exact ⟨hpublished, novelAt_iff.mp hnovel⟩

/-- Otherwise something is. -/
theorem novel_of_published (hrun : Run Step s events t) (h : Recording e₀ s)
    (hpublished : ∀ p ∈ t.engine.published, ∀ n ∈ numbers file, n.1 ≠ p.1.symbol) :
    Run (NovelStep file) s events t := by
  refine (hrun.history (fun events t => Recording e₀ t ∧
    ((∀ p ∈ t.engine.published, ∀ n ∈ numbers file, n.1 ≠ p.1.symbol) →
      Run (NovelStep file) s events t)) ⟨h, fun _ => .nil⟩ ?_).2 hpublished
  rintro events u event w ⟨hu, hnovel⟩ hstep
  refine ⟨recording_step hu hstep, ?_⟩
  rw [published_step hu.labelled hu.sane hstep, List.forall_mem_append]
  rintro ⟨hold, hnew⟩
  exact (hnovel hold).snoc ⟨hstep, novelAt_iff.mpr hnew⟩

end System

namespace Lifetime

open MatchingEngine

variable {life : Lifetime} {file file' : List Json}

/-- An engine that has replayed a log and opened it. -/
theorem recording_start {mem : Memory} {hashOrder : HashOrder} {feeModel : Option FeeModel}
    {fuel : ℕ} {ok : Bool} {e : MatchingEngine}
    (h : (fresh mem hashOrder feeModel).replayWAL fuel (some file) = some (ok, e)) :
    System.Recording (e.startWAL (some file)).2 ⟨(e.startWAL (some file)).2, []⟩ ∧
      e.published = [] ∧ e.replaying = false := by
  have hopen : e.SameBooks (e.startWAL (some file)).2 :=
    ⟨rfl, fun _ => rfl, fun _ => rfl, rfl, rfl⟩
  have hlabelled : e.Labelled :=
    labelled_sections.replayWAL
      (fun hu hvec => labelled_iff.mpr ((labelled_iff.mp hu).setPending hvec))
      (labelled_startWAL mem hashOrder feeModel none) h
  have hsane : e.Books Sane :=
    bookInvariant_sane.sections.replayWAL (fun hu _ => hu) (bookInvariant_sane.fresh rfl) h
  obtain ⟨⟨ok', u⟩, hu, heq⟩ := Option.map_eq_some_iff.mp h
  obtain ⟨-, rfl⟩ := Prod.mk.inj heq
  obtain ⟨hpublished, hseqs⟩ := replayLines_unpublished hu
  refine ⟨⟨hlabelled.of_same hopen, hsane.of_same hopen, fun symbol => ?_, ?_⟩, hpublished, rfl⟩
  · have hnone : (({ u with replaying := false } : MatchingEngine).startWAL (some file)).2.published
        = [] := hpublished
    have hfirst :
        (({ u with replaying := false } : MatchingEngine).startWAL (some file)).2.tradeSeqs = ∅ :=
      hseqs
    rw [hnone, hfirst]
    rfl
  · have hnone : (({ u with replaying := false } : MatchingEngine).startWAL (some file)).2.published
        = [] := hpublished
    dsimp only
    rw [hnone]
    exact .idle rfl rfl rfl

theorem Lives.step (h : life.Lives System.NovelStep file file') :
    life.Lives (fun _ => System.Step) file file' := by
  obtain ⟨fuel, ok, e, hreplay, hrun, hfile⟩ := h
  exact ⟨fuel, ok, e, hreplay, hrun.mono fun _ _ _ hs => hs.1, hfile⟩

/-- What a lifetime adds to the log: for each symbol, trades with the numbers from one. -/
theorem Lives.numbered (h : life.Lives (fun _ => System.Step) file file') :
    ∃ published : List (String × ℤ), numbers file' = numbers file ++ published ∧
      (∀ symbol, ∃ n : ℕ, (published.filter fun p => p.1 = symbol).map Prod.snd =
        (List.range' 1 n).map Nat.cast) ∧
      ((∀ p ∈ published, ∀ n ∈ numbers file, n.1 ≠ p.1) ↔
        life.Lives System.NovelStep file file') := by
  obtain ⟨fuel, ok, e, hreplay, hrun, rfl⟩ := h
  obtain ⟨hrecording, hnone, hreplaying⟩ := recording_start hreplay
  have hlast := System.recording_of_run hrun hrecording
  obtain ⟨records, hlogs, hrecords⟩ := hlast.written
  refine ⟨life.last.engine.published.map fun p => (p.1.symbol, (p.1.seqNum : ℤ)), ?_,
    fun symbol => ?_, ?_⟩
  · have hstream : life.last.engine.walStream = file ++ records.map WalRecord.toJson := by
      rw [hlogs.walStream]
      simp [startWAL, hreplaying]
    rw [hstream, numbers_append_toJson, hrecords, List.map_map]
    rfl
  · have hnumbered := hlast.numbered symbol
    refine ⟨(life.last.engine.tradeSeqs.lookup symbol).getD 0, ?_⟩
    rw [← hnumbered, List.filter_map, List.map_map, List.map_map]
    rfl
  · rw [List.forall_mem_map]
    constructor
    · intro hnovel
      exact ⟨fuel, ok, e, hreplay, System.novel_of_published hrun hrecording hnovel, rfl⟩
    · rintro ⟨fuel', ok', e', hreplay', hrun', -⟩
      obtain ⟨hrecording', hnone', -⟩ := recording_start hreplay'
      exact System.published_of_novel hrun' hrecording' hnone'

/-- A lifetime leaves the numbers increasing exactly if it publishes no trade of a symbol that
has trade records already. -/
theorem Lives.increasing (h : life.Lives (fun _ => System.Step) file file')
    (hpos : ∀ n ∈ numbers file, 1 ≤ n.2) :
    (∀ n ∈ numbers file', 1 ≤ n.2) ∧
      (Increasing file' ↔ Increasing file ∧ life.Lives System.NovelStep file file') := by
  obtain ⟨published, hnumbers, hcount, hnovel⟩ := h.numbered
  have hsnd : ∀ p ∈ published, ∃ n : ℕ, p.2 ∈ (List.range' 1 n).map (Nat.cast : ℕ → ℤ) := by
    intro p hp
    obtain ⟨n, hn⟩ := hcount p.1
    exact ⟨n, hn ▸ List.mem_map_of_mem (List.mem_filter.mpr ⟨hp, by simp⟩)⟩
  have hnew : ∀ p ∈ published, 1 ≤ p.2 := by
    intro p hp
    obtain ⟨n, hmem⟩ := hsnd p hp
    obtain ⟨k, hk, hkp⟩ := List.mem_map.mp hmem
    rw [List.mem_range'_1] at hk
    omega
  have hincreasing : published.Pairwise fun p q => p.1 = q.1 → p.2 < q.2 := by
    refine Keyed.pairwise_of_filter fun symbol => ?_
    obtain ⟨n, hn⟩ := hcount symbol
    refine List.pairwise_map.mp ?_
    rw [hn]
    exact List.pairwise_map.mpr (List.Pairwise.imp Int.ofNat_lt.mpr List.pairwise_lt_range')
  refine ⟨?_, ?_⟩
  · rw [hnumbers, List.forall_mem_append]
    exact ⟨hpos, hnew⟩
  · rw [← hnovel, Increasing, hnumbers, List.pairwise_append]
    constructor
    · rintro ⟨hold, -, hacross⟩
      refine ⟨hold, fun p hp n hn heq => ?_⟩
      -- the first trade of the symbol in this lifetime has the number one
      obtain ⟨k, hk⟩ := hcount p.1
      have hmem : p.2 ∈ (List.range' 1 k).map (Nat.cast : ℕ → ℤ) :=
        hk ▸ List.mem_map_of_mem (List.mem_filter.mpr ⟨hp, by simp⟩)
      have hone : (1 : ℤ) ∈ (List.range' 1 k).map (Nat.cast : ℕ → ℤ) := by
        obtain ⟨j, hj, -⟩ := List.mem_map.mp hmem
        rw [List.mem_range'_1] at hj
        exact List.mem_map.mpr ⟨1, List.mem_range'_1.mpr ⟨le_rfl, by omega⟩, rfl⟩
      rw [← hk] at hone
      obtain ⟨q, hq, hqone⟩ := List.mem_map.mp hone
      obtain ⟨hq, hqsymbol⟩ := List.mem_filter.mp hq
      have hlt := hacross n hn q hq (heq.trans (of_decide_eq_true hqsymbol).symm)
      have hle := hpos n hn
      omega
    · rintro ⟨hold, hnone⟩
      exact ⟨hold, hincreasing, fun n hn p hp heq => absurd heq (hnone p hp n hn)⟩

end Lifetime

namespace MatchingEngine

/-- **The numbers on a log increase exactly if no symbol is traded in two lifetimes.** In every
history of engines that replay a log, append to it and end at any point: the numbers on the
trade records of each symbol increase along the whole log, if and only if no engine publishes a
trade of a symbol of which it found trade records. -/
theorem increasing_iff {lives : List Lifetime} {file : List Json}
    (h : Run (fun file (life : Lifetime) file' => life.Lives (fun _ => System.Step) file file')
      [] lives file) :
    Increasing file ↔
      Run (fun file (life : Lifetime) file' => life.Lives System.NovelStep file file')
        [] lives file := by
  have hnone : ∀ n ∈ numbers [], 1 ≤ n.2 := fun n hn => absurd hn List.not_mem_nil
  have hempty : Increasing [] := List.Pairwise.nil
  constructor
  · refine (h.history (fun lives file => (∀ n ∈ numbers file, 1 ≤ n.2) ∧ (Increasing file →
      Run (fun file (life : Lifetime) file' => life.Lives System.NovelStep file file')
        [] lives file)) ⟨hnone, fun _ => .nil⟩ ?_).2
    rintro lives file life file' ⟨hpos, hnovel⟩ hlives
    obtain ⟨hpos', hiff⟩ := hlives.increasing hpos
    refine ⟨hpos', fun hincreasing => ?_⟩
    obtain ⟨hold, hnew⟩ := hiff.mp hincreasing
    exact (hnovel hold).snoc hnew
  · intro hnovel
    refine (hnovel.invariant (fun file => (∀ n ∈ numbers file, 1 ≤ n.2) ∧ Increasing file)
      ⟨hnone, hempty⟩ ?_).2
    rintro file life file' ⟨hpos, hold⟩ hlives
    obtain ⟨hpos', hiff⟩ := hlives.step.increasing hpos
    exact ⟨hpos', hiff.mpr ⟨hold, hlives⟩⟩

/-- One lifetime after another, executed. -/
def live (fuel : ℕ) (file : List Json) (events : List System.Event) :
    Option (Lifetime × List Json) :=
  ((fresh .empty .plain none).replayWAL fuel (some file)).bind fun p =>
    (Run.exec (fun (s : System) event => (s.advance fuel event).map (event, ·))
      ⟨(p.2.startWAL (some file)).2, []⟩ events).map fun q =>
        (⟨.empty, .plain, none, q.1, q.2⟩, q.2.engine.walStream)

theorem lives_of_live {fuel : ℕ} {lives : List Lifetime} {file file' : List Json}
    {requests : List (List System.Event)}
    (h : Run.exec (live fuel) file requests = some (lives, file')) :
    Run (fun file (life : Lifetime) file' => life.Lives (fun _ => System.Step) file file')
      file lives file' := by
  refine Run.of_exec (fun file events life file' hlive => ?_) h
  obtain ⟨⟨ok, e⟩, hreplay, hrest⟩ := Option.bind_eq_some_iff.mp hlive
  obtain ⟨⟨events', s⟩, hexec, heq⟩ := Option.map_eq_some_iff.mp hrest
  obtain ⟨rfl, rfl⟩ := Prod.mk.inj heq
  exact ⟨fuel, ok, e, hreplay, System.run_of_exec hexec, rfl⟩

/-- Two processes trade two symbols. -/
theorem increasing_iff_two_symbols : ∃ (lives : List Lifetime) (file : List Json),
    Run (fun file (life : Lifetime) file' => life.Lives (fun _ => System.Step) file file')
      [] lives file ∧ lives.length = 2 ∧ numbers file = [("S", 1), ("S", 2), ("T", 1)] ∧
    Run (fun file (life : Lifetime) file' => life.Lives System.NovelStep file file')
      [] lives file := by
  let history := Run.exec (live 3) [] [[
    .begin (.submit true ⟨"bid", "S", .buy, .limit, 10, 5⟩),
    .begin (.submit true ⟨"ask", "S", .sell, .market, 0, 1⟩), .proceed 1,
    .begin (.submit true ⟨"ask2", "S", .sell, .market, 0, 1⟩), .proceed 2], [
    .begin (.submit true ⟨"bid2", "T", .buy, .limit, 10, 5⟩),
    .begin (.submit true ⟨"ask3", "T", .sell, .market, 0, 1⟩), .proceed 1]]
  have hseen : history.map (fun p => (p.1.length, numbers p.2)) =
      some (2, [("S", 1), ("S", 2), ("T", 1)]) := by decide +kernel
  obtain ⟨⟨lives, file⟩, hhistory, hseen⟩ := Option.map_eq_some_iff.mp hseen
  obtain ⟨hlength, hnumbers⟩ := Prod.mk.inj hseen
  have hlives := lives_of_live hhistory
  refine ⟨lives, file, hlives, hlength, hnumbers, (increasing_iff hlives).mp ?_⟩
  rw [Increasing, show numbers file = [("S", 1), ("S", 2), ("T", 1)] from hnumbers]
  decide

/-- **A number comes again.** A process trades a symbol, and so does the next one, with the order
that it found in the log. Both trades have the number one. -/
theorem renumbered : ∃ (lives : List Lifetime) (file : List Json),
    Run (fun file (life : Lifetime) file' => life.Lives (fun _ => System.Step) file file')
      [] lives file ∧ numbers file = [("S", 1), ("S", 1)] ∧ ¬ Increasing file := by
  let history := Run.exec (live 3) [] [[
    .begin (.submit true ⟨"bid", "S", .buy, .limit, 10, 5⟩),
    .begin (.submit true ⟨"ask", "S", .sell, .market, 0, 1⟩), .proceed 1], [
    .begin (.submit true ⟨"ask2", "S", .sell, .market, 0, 1⟩), .proceed 0]]
  have hseen : history.map (fun p => numbers p.2) = some [("S", 1), ("S", 1)] := by decide +kernel
  obtain ⟨⟨lives, file⟩, hhistory, hnumbers⟩ := Option.map_eq_some_iff.mp hseen
  refine ⟨lives, file, lives_of_live hhistory, hnumbers, ?_⟩
  rw [Increasing, show numbers file = [("S", 1), ("S", 1)] from hnumbers]
  decide

end MatchingEngine

end GoQuant
