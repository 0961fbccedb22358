import GoQuant.Engine.Symbols

/-!
# What a run writes to its log

Each critical section appends its records. A trade record is written by `publishTrade` alone,
one for each trade. No call turns the log on or off.

## Main results

* `start_writes`, `perform_writes` — the trade records of a section.
* `System.walEnabled_of_run` — the log stays on or off.
-/

namespace GoQuant

/-- The trade of a trade record. -/
def WalRecord.trade? : WalRecord → Option Trade
  | .trade t => some t
  | _ => none

/-- The trade a task writes a record for. -/
def Task.writes (e : MatchingEngine) : Task → List Trade
  | .publish trade => [(e.recordTrade trade).1]
  | _ => []

namespace MatchingEngine

variable {fuel : ℕ} {e e' e'' : MatchingEngine} {symbol : String} {price : ℚ}
  {task : Task} {tasks : List Task} {ts ts' : List Trade}

/-- Records are appended to the log, and the trade records among them are those of `ts`. -/
def Writes (ts : List Trade) (e e' : MatchingEngine) : Prop :=
  ∃ records, Logs records e e' ∧ records.filterMap WalRecord.trade? = ts

theorem Logs.writes {records : List WalRecord} (h : Logs records e e')
    (hts : records.filterMap WalRecord.trade? = ts) : Writes ts e e' :=
  ⟨records, h, hts⟩

theorem Writes.idle (hwal : e'.walStream = e.walStream) (henabled : e'.walEnabled = e.walEnabled)
    (hreplaying : e'.replaying = e.replaying) : Writes [] e e' :=
  (Logs.idle hwal henabled hreplaying).writes rfl

theorem Writes.trans (h : Writes ts e e') (h' : Writes ts' e' e'') : Writes (ts ++ ts') e e'' := by
  obtain ⟨records, hlogs, rfl⟩ := h
  obtain ⟨records', hlogs', rfl⟩ := h'
  exact (hlogs.trans hlogs').writes List.filterMap_append

theorem acceptOrder_writes {order : Ref} {r : Except String (Option (List Trade))}
    (h : e.acceptOrder fuel order = some (r, e')) : Writes [] e e' := by
  have hreceive : Writes [] e (e.receive (e.mem.order order)) :=
    (Logs.receive e (e.mem.order order)).writes rfl
  obtain ⟨-, -, rfl⟩ | ⟨-, result, -, -, m, n, rfl⟩ | ⟨-, _, -, rfl⟩ := acceptOrder_cases h
  · exact hreceive.trans (.idle rfl rfl rfl)
  · exact hreceive.trans (.idle rfl rfl rfl)
  · exact hreceive

theorem cancelOrderUnlocked_writes (e : MatchingEngine) (orderId : String) :
    Writes [] e (e.cancelOrderUnlocked orderId).2 := by
  obtain hnone | ⟨symbol, b, -, u, hsome, -, hlogs⟩ := cancelOrderUnlocked_cases e orderId
  · rw [hnone]
    exact .idle rfl rfl rfl
  · rw [hsome]
    exact hlogs.writes rfl

theorem modifyOrderUnlocked_writes (e : MatchingEngine) (orderId : String) (newQuantity : ℚ) :
    Writes [] e (e.modifyOrderUnlocked orderId newQuantity).2 := by
  obtain hnone | ⟨symbol, mem, b, -, u, hsome, -, hlogs⟩ :=
    modifyOrderUnlocked_cases e orderId newQuantity
  · rw [hnone]
    exact .idle rfl rfl rfl
  · rw [hsome]
    exact hlogs.writes rfl

/-- The first critical section of a call writes no trade. -/
theorem start_writes {c : Call} (h : e.start fuel c = some (tasks, e')) : Writes [] e e' := by
  cases c with
  | submit tryAcceptOrder o =>
    have halloc : Writes [] e (e.alloc o).1 := .idle rfl rfl rfl
    obtain ⟨-, r, ha, -⟩ | ⟨-, -, rfl⟩ := start_submit h
    · exact halloc.trans (acceptOrder_writes ha)
    · exact halloc
  | cancel orderId =>
    obtain ⟨-, rfl⟩ := Prod.mk.inj (Option.some.inj h)
    exact cancelOrderUnlocked_writes e orderId
  | modify orderId newQuantity =>
    obtain ⟨-, rfl⟩ := Prod.mk.inj (Option.some.inj h)
    exact modifyOrderUnlocked_writes e orderId newQuantity
  | subscribeToMarketData symbol callback =>
    obtain ⟨-, rfl⟩ := Prod.mk.inj (Option.some.inj h)
    exact .idle rfl rfl rfl
  | subscribeToTrades symbol callback =>
    obtain ⟨-, rfl⟩ := Prod.mk.inj (Option.some.inj h)
    exact .idle rfl rfl rfl

theorem perform_writes (hw : e.Waits) (h : e.perform fuel task = some (tasks, e')) :
    Writes (task.writes e) e e' := by
  cases task with
  | publish trade =>
    obtain ⟨-, rfl⟩ := Prod.mk.inj (Option.some.inj h)
    exact (Logs.recordTrade e trade).writes rfl
  | deliver callback t =>
    obtain ⟨-, rfl⟩ := Prod.mk.inj (Option.some.inj h)
    exact .idle rfl rfl rfl
  | check symbol price =>
    obtain ⟨u, hu, heq⟩ := Option.map_eq_some_iff.mp h
    obtain ⟨-, rfl⟩ := Prod.mk.inj heq
    refine (checkTriggers_spec hu hw).logs.writes ?_
    rw [List.filterMap_map]
    exact List.filterMap_eq_nil_iff.mpr fun _ _ => rfl
  | read symbol =>
    obtain ⟨-, rfl⟩ := Prod.mk.inj (Option.some.inj h)
    exact .idle rfl rfl rfl
  | update symbol update =>
    obtain ⟨-, rfl⟩ := Prod.mk.inj (Option.some.inj h)
    exact (Logs.publishUpdate e symbol update).writes rfl

/-- The log stays on or off, and nothing is being replayed. -/
theorem walEnabled_of_run {s t : System} {events : List System.Event}
    (h : Run System.Step s events t) (hs : s.engine.Labelled) :
    t.engine.walEnabled = s.engine.walEnabled ∧ t.engine.replaying = s.engine.replaying := by
  refine (h.invariant (fun t => t.engine.Labelled ∧ t.engine.walEnabled = s.engine.walEnabled ∧
    t.engine.replaying = s.engine.replaying) ⟨hs, rfl, rfl⟩ ?_).2
  rintro t event u ⟨hlabelled, henabled, hreplaying⟩ hstep
  refine ⟨labelled_sections.step hlabelled hstep, ?_⟩
  cases hstep with
  | begin hstart =>
    obtain ⟨_, hlogs, -⟩ := start_writes hstart
    exact ⟨hlogs.walEnabled.trans henabled, hlogs.replaying.trans hreplaying⟩
  | proceed _ hperform =>
    obtain ⟨_, hlogs, -⟩ := perform_writes hlabelled.waits hperform
    exact ⟨hlogs.walEnabled.trans henabled, hlogs.replaying.trans hreplaying⟩

end MatchingEngine

end GoQuant
