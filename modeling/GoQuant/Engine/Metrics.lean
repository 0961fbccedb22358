import GoQuant.Engine.Reports

/-!
# What the counters count

The counters of `getMetricsJSON` beside what happened in a run. Submitted, cancelled and matched
orders are counted as they should be. A trade of a submitted order is counted twice, when it is
matched and when it is published, and a trade of an activated trigger order not at all.

## Main definitions

* `Happened` — what a run did, counted from its steps.
* `System.QuietAt` — the next step executes no trade.

## Main results

* `Booked.step` — the counters keep step with what happens.
* `metrics_of_run` — the counters when all calls have returned.
* `metrics_double` — one trade that is counted twice.
-/

namespace GoQuant

open MatchingAlgorithm OrderBook

/-- What a run did: submitted orders that passed the rate limiter, calls of `cancelOrder` that
returned true, submitted orders whose matching executed a trade, and the trades executed for
submitted and for activated orders. -/
structure Happened where
  received : ℕ := 0
  cancelled : ℕ := 0
  matched : ℕ := 0
  submitted : ℕ := 0
  activated : ℕ := 0
  deriving DecidableEq

namespace System

/-- The number of trades that a step executes. -/
def tradesMade (s t : System) : ℕ := t.engine.executed.length - s.engine.executed.length

end System

namespace Happened

/-- What has happened after one more step. -/
def after (n : Happened) (s t : System) : System.Event → Happened
  | .begin (.submit true _) =>
    { n with
      received := n.received + 1
      matched := n.matched + if s.tradesMade t = 0 then 0 else 1
      submitted := n.submitted + s.tradesMade t }
  | .begin (.cancel orderId) =>
    { n with cancelled := n.cancelled + if (s.engine.cancelOrder orderId).1 then 1 else 0 }
  | .begin _ => n
  | .proceed _ => { n with activated := n.activated + s.tradesMade t }

end Happened

namespace System

/-- A step, with what has happened so far. -/
def CountedStep (p : System × Happened) (event : Event) (q : System × Happened) : Prop :=
  p.1.Step event q.1 ∧ q.2 = p.2.after p.1 q.1 event

/-- The next step executes no trade: a submitted order is a trigger order, or there is nothing
for it to trade with, and a check activates no order that there is something for. -/
def QuietAt (s : System) : Event → Prop
  | .begin (.submit true o) =>
    o.type.isTrigger ∨ (s.engine.book o.symbol).Tradeless s.engine.mem o
  | .begin _ => True
  | .proceed i => s.SilentAt (.proceed i)

instance (s : System) : (event : Event) → Decidable (s.QuietAt event)
  | .begin (.submit true o) => inferInstanceAs
    (Decidable (o.type.isTrigger ∨ (s.engine.book o.symbol).Tradeless s.engine.mem o))
  | .begin (.submit false _) | .begin (.cancel _) | .begin (.modify _ _)
  | .begin (.subscribeToMarketData _ _) | .begin (.subscribeToTrades _ _) =>
    inferInstanceAs (Decidable True)
  | .proceed i => inferInstanceAs (Decidable (s.SilentAt (.proceed i)))

def QuietStep (p : System × Happened) (event : Event) (q : System × Happened) : Prop :=
  CountedStep p event q ∧ p.1.QuietAt event

end System

namespace MatchingEngine

variable {fuel : ℕ} {e e' : MatchingEngine} {symbol orderId : String} {price : ℚ}
  {vec remaining : List Ref} {o : Order} {tasks : List Task}

/-- The four counters, with the number of trades executed. -/
structure Counters where
  received : ℕ
  cancelled : ℕ
  matched : ℕ
  trades : ℕ
  executed : ℕ

def counters (e : MatchingEngine) : Counters where
  received := e.metricOrdersReceived
  cancelled := e.metricOrdersCancelled
  matched := e.metricOrdersMatched
  trades := e.metricTradesExecuted
  executed := e.executed.length

@[simp] theorem counters_getOrCreateOrderBook (e : MatchingEngine) (symbol : String) :
    (e.getOrCreateOrderBook symbol).counters = e.counters := by
  unfold getOrCreateOrderBook
  split <;> rfl

@[simp] theorem counters_writeWAL (e : MatchingEngine) (record : WalRecord) :
    (e.writeWAL record).counters = e.counters := by
  unfold writeWAL
  split_ifs <;> rfl

@[simp] theorem counters_receive (e : MatchingEngine) (o : Order) :
    (e.receive o).counters = { e.counters with received := e.counters.received + 1 } := by
  rw [receive, counters_writeWAL, counters_getOrCreateOrderBook]
  rfl

@[simp] theorem counters_matched (e : MatchingEngine) (symbol : String) (result : Matching) :
    (e.matched symbol result).counters =
      { e.counters with executed := e.counters.executed + result.trades.length } := by
  simp [counters, matched, setBook]

/-- The trades of a submitted order are counted as they are executed. -/
theorem counters_counted (e : MatchingEngine) (symbol : String) (result : Matching) :
    counters { e.matched symbol result with
      metricOrdersMatched := e.metricOrdersMatched + if result.trades = [] then 0 else 1
      metricTradesExecuted := e.metricTradesExecuted + result.trades.length } =
    { e.counters with
      matched := e.counters.matched + if result.trades.length = 0 then 0 else 1
      trades := e.counters.trades + result.trades.length
      executed := e.counters.executed + result.trades.length } := by
  simp [counters, matched, setBook]

@[simp] theorem counters_publishUpdate (e : MatchingEngine) (symbol : String)
    (update : MarketDataUpdate) : (e.publishUpdate symbol update).counters = e.counters := by
  unfold publishUpdate
  dsimp only
  split
  · rfl
  · split_ifs <;> rfl

theorem counters_recordTrade (e : MatchingEngine) (trade : Trade) :
    (e.recordTrade trade).2.2.counters =
      { e.counters with trades := e.counters.trades + 1 } := by
  unfold recordTrade writeWAL
  dsimp only
  split_ifs <;> rfl

theorem counters_cancelOrderUnlocked (e : MatchingEngine) (orderId : String) :
    (e.cancelOrderUnlocked orderId).2.counters = { e.counters with
      cancelled := e.counters.cancelled + if (e.cancelOrder orderId).1 then 1 else 0 } := by
  rw [cancelOrder_fst]
  unfold cancelOrderUnlocked
  split
  · rfl
  · rw [counters_writeWAL]
    rfl

theorem counters_modifyOrderUnlocked (e : MatchingEngine) (orderId : String) (newQuantity : ℚ) :
    (e.modifyOrderUnlocked orderId newQuantity).2.counters = e.counters := by
  unfold modifyOrderUnlocked
  split
  · rfl
  · rw [counters_writeWAL]
    rfl

/-- Activated orders are not counted, and neither are their trades. -/
theorem counters_activateAll (h : activateAll fuel symbol price vec e = some (remaining, e')) :
    ∃ k, e'.counters = { e.counters with executed := e.counters.executed + k } := by
  induction vec generalizing e remaining with
  | nil =>
    obtain ⟨-, rfl⟩ := Prod.mk.inj (Option.some.inj h)
    exact ⟨0, rfl⟩
  | cons ord vec ih =>
    simp only [activateAll] at h
    split_ifs at h
    · obtain ⟨u, hu, hall⟩ := Option.bind_eq_some_iff.mp h
      obtain ⟨result, -, rfl⟩ := activate_eq_some hu
      obtain ⟨k, hk⟩ := ih hall
      rw [counters_writeWAL, counters_matched, counters_getOrCreateOrderBook] at hk
      exact ⟨result.trades.length + k, by rw [hk, ← Nat.add_assoc]; rfl⟩
    · obtain ⟨⟨remaining', u⟩, hu, heq⟩ := Option.map_eq_some_iff.mp h
      obtain ⟨-, rfl⟩ := Prod.mk.inj heq
      exact ih hu

theorem counters_checkTriggers (h : e.checkTriggers fuel symbol price = some e') :
    ∃ k, e'.counters = { e.counters with executed := e.counters.executed + k } := by
  unfold checkTriggers at h
  split at h
  · obtain rfl := Option.some.inj h
    exact ⟨0, rfl⟩
  · obtain ⟨⟨remaining, u⟩, hu, rfl⟩ := Option.map_eq_some_iff.mp h
    obtain ⟨k, hk⟩ := counters_activateAll hu
    exact ⟨k, hk⟩

/-- A trigger order executes nothing yet, and neither does an order of no known type. -/
theorem counters_acceptOrder {order : Ref} {r : Except String (Option (List Trade))}
    (h : e.acceptOrder fuel order = some (r, e')) :
    ∃ k, e'.counters = { e.counters with
        received := e.counters.received + 1
        matched := e.counters.matched + if k = 0 then 0 else 1
        trades := e.counters.trades + k
        executed := e.counters.executed + k } ∧
      (∀ trades, r = .ok (some trades) → trades.length = k) ∧
      ((∀ trades, r ≠ .ok (some trades)) → k = 0) := by
  have hreceive := counters_receive e (e.mem.order order)
  unfold acceptOrder at h
  dsimp only at h
  split_ifs at h with htype
  · obtain ⟨rfl, rfl⟩ := Prod.mk.inj (Option.some.inj h)
    refine ⟨0, hreceive, fun trades htrades => ?_, fun _ => rfl⟩
    cases htrades
  · split at h
    · obtain ⟨rfl, rfl⟩ := Prod.mk.inj (Option.some.inj h)
      refine ⟨0, hreceive, fun trades htrades => ?_, fun _ => rfl⟩
      cases htrades
    · cases h
    · rename_i result hresult
      obtain ⟨rfl, rfl⟩ := Prod.mk.inj (Option.some.inj h)
      refine ⟨result.trades.length, ?_, fun trades htrades => ?_, fun hne => ?_⟩
      · rw [counters_counted, hreceive]
      · obtain rfl := Option.some.inj (Except.ok.inj htrades)
        rfl
      · exact absurd rfl (hne result.trades)

/-- A submitted order that passed the rate limiter, and the trades it leaves to be published. -/
theorem counters_start (h : e.start fuel (.submit true o) = some (tasks, e')) :
    ∃ k, e'.counters = { e.counters with
        received := e.counters.received + 1
        matched := e.counters.matched + if k = 0 then 0 else 1
        trades := e.counters.trades + k
        executed := e.counters.executed + k } ∧ (tasks.filterMap Task.publish?).length = k := by
  obtain ⟨-, r, ha, hr⟩ | ⟨hfalse, -⟩ := start_submit h
  · obtain ⟨k, hcounters, htrades, hnone⟩ := counters_acceptOrder ha
    refine ⟨k, hcounters, ?_⟩
    rcases hr with ⟨trades, rfl, rfl⟩ | ⟨hne, rfl⟩
    · rw [← htrades trades rfl]
      simp [List.filterMap_append, List.filterMap_map, Function.comp_def, Task.publish?]
    · exact (hnone hne).symm
  · cases hfalse

/-- What a call does next counts a trade if it publishes one. -/
theorem counters_perform {task : Task} (h : e.perform fuel task = some (tasks, e')) :
    ∃ k, e'.counters = { e.counters with
        trades := e.counters.trades + ([task].filterMap Task.publish?).length
        executed := e.counters.executed + k } ∧ tasks.filterMap Task.publish? = [] := by
  cases task with
  | publish trade =>
    obtain ⟨rfl, rfl⟩ := Prod.mk.inj (Option.some.inj h)
    refine ⟨0, counters_recordTrade e trade, ?_⟩
    simp [List.filterMap_append, List.filterMap_map, Function.comp_def, Task.publish?]
  | deliver callback t =>
    obtain ⟨rfl, rfl⟩ := Prod.mk.inj (Option.some.inj h)
    exact ⟨0, rfl, rfl⟩
  | check symbol price =>
    obtain ⟨u, hu, heq⟩ := Option.map_eq_some_iff.mp h
    obtain ⟨rfl, rfl⟩ := Prod.mk.inj heq
    obtain ⟨k, hcounters⟩ := counters_checkTriggers hu
    exact ⟨k, hcounters, rfl⟩
  | read symbol =>
    obtain ⟨rfl, rfl⟩ := Prod.mk.inj (Option.some.inj h)
    exact ⟨0, rfl, rfl⟩
  | update symbol update =>
    obtain ⟨rfl, rfl⟩ := Prod.mk.inj (Option.some.inj h)
    exact ⟨0, counters_publishUpdate e symbol update, rfl⟩

end MatchingEngine

/-! ## The account -/

/-- The counters, the executions and the trades to be published, beside what happened. -/
structure Booked (p : System × Happened) : Prop where
  received : p.1.engine.counters.received = p.2.received
  cancelled : p.1.engine.counters.cancelled = p.2.cancelled
  matched : p.1.engine.counters.matched = p.2.matched
  executed : p.1.engine.counters.executed = p.2.submitted + p.2.activated
  trades : p.1.engine.counters.trades + p.1.unpublished.length = 2 * p.2.submitted

namespace Booked

open MatchingEngine

variable {s t : System} {n : Happened} {e : MatchingEngine} {tasks rest : List Task} {fuel i : ℕ}

theorem length_unpublished_begin (s : System) (e : MatchingEngine) (tasks : List Task) :
    (System.unpublished ⟨e, s.calls ++ [tasks]⟩).length =
      s.unpublished.length + (tasks.filterMap Task.publish?).length := by
  rw [System.unpublished, System.tasks_begin, List.filterMap_append, List.length_append]
  rfl

theorem length_unpublished_proceed {task : Task} (h : s.calls[i]? = some (task :: rest))
    (e : MatchingEngine) (tasks : List Task) :
    (System.unpublished ⟨e, s.calls.set i (tasks ++ rest)⟩).length +
        ([task].filterMap Task.publish?).length =
      s.unpublished.length + (tasks.filterMap Task.publish?).length := by
  obtain ⟨others, hs, ht⟩ := System.tasks_proceed h e tasks
  have hbefore := (hs.filterMap Task.publish?).length_eq
  have hafter := (ht.filterMap Task.publish?).length_eq
  rw [← List.singleton_append, List.filterMap_append, List.length_append] at hbefore
  rw [List.filterMap_append, List.length_append] at hafter
  simp only [System.unpublished]
  omega

/-- A call begins. Only a submitted order that passes the rate limiter executes trades, and each
is counted now and still to be published. -/
theorem begin {c : Call} (h : Booked (s, n)) (hstart : s.engine.start fuel c = some (tasks, e)) :
    Booked (⟨e, s.calls ++ [tasks]⟩, n.after s ⟨e, s.calls ++ [tasks]⟩ (.begin c)) := by
  obtain ⟨hreceived, hcancelled, hmatched, hexecuted, htrades⟩ := h
  have hlength := length_unpublished_begin s e tasks
  have hread (symbol : Option String) :
      (symbol.toList.map Task.read).filterMap Task.publish? = [] := by
    cases symbol <;> rfl
  cases c with
  | submit tryAcceptOrder o =>
    cases tryAcceptOrder with
    | true =>
      obtain ⟨k, hcounters, hk⟩ := counters_start hstart
      have hmade : s.tradesMade ⟨e, s.calls ++ [tasks]⟩ = k := by
        have hlist : e.executed.length = s.engine.executed.length + k :=
          congrArg Counters.executed hcounters
        simp [System.tradesMade, hlist]
      constructor <;> simp only [hcounters, Happened.after, hmade] <;> dsimp only at * <;> omega
    | false =>
      obtain ⟨rfl, rfl⟩ := Prod.mk.inj (Option.some.inj hstart)
      exact ⟨hreceived, hcancelled, hmatched, hexecuted, hlength ▸ htrades⟩
  | cancel orderId =>
    have hcounters := counters_cancelOrderUnlocked s.engine orderId
    have hstate : (s.engine.cancelOrderUnlocked orderId).2 = e :=
      (Prod.mk.inj (Option.some.inj hstart)).2
    have hpublish : tasks.filterMap Task.publish? = [] :=
      (Prod.mk.inj (Option.some.inj hstart)).1 ▸ hread _
    rw [hstate] at hcounters
    rw [hpublish, List.length_nil, add_zero] at hlength
    constructor <;> simp only [hcounters, Happened.after, hlength] <;> first
      | assumption
      | exact congrArg (· + _) hcancelled
  | modify orderId newQuantity =>
    have hcounters := counters_modifyOrderUnlocked s.engine orderId newQuantity
    have hstate : (s.engine.modifyOrderUnlocked orderId newQuantity).2 = e :=
      (Prod.mk.inj (Option.some.inj hstart)).2
    have hpublish : tasks.filterMap Task.publish? = [] :=
      (Prod.mk.inj (Option.some.inj hstart)).1 ▸ hread _
    rw [hstate] at hcounters
    rw [hpublish, List.length_nil, add_zero] at hlength
    constructor <;> simp only [hcounters, Happened.after, hlength] <;> assumption
  | subscribeToMarketData symbol callback =>
    obtain ⟨rfl, rfl⟩ := Prod.mk.inj (Option.some.inj hstart)
    exact ⟨hreceived, hcancelled, hmatched, hexecuted, hlength ▸ htrades⟩
  | subscribeToTrades symbol callback =>
    obtain ⟨rfl, rfl⟩ := Prod.mk.inj (Option.some.inj hstart)
    exact ⟨hreceived, hcancelled, hmatched, hexecuted, hlength ▸ htrades⟩

/-- A call goes on. A published trade is counted once more; the trades of activated orders are
not counted. -/
theorem proceed {task : Task} (h : Booked (s, n)) (hcall : s.calls[i]? = some (task :: rest))
    (hperform : s.engine.perform fuel task = some (tasks, e)) :
    Booked (⟨e, s.calls.set i (tasks ++ rest)⟩,
      n.after s ⟨e, s.calls.set i (tasks ++ rest)⟩ (.proceed i)) := by
  obtain ⟨hreceived, hcancelled, hmatched, hexecuted, htrades⟩ := h
  obtain ⟨k, hcounters, hpublish⟩ := counters_perform hperform
  have hlength := length_unpublished_proceed hcall e tasks
  rw [hpublish, List.length_nil, add_zero] at hlength
  have hmade : s.tradesMade ⟨e, s.calls.set i (tasks ++ rest)⟩ = k := by
    have hlist : e.executed.length = s.engine.executed.length + k :=
      congrArg Counters.executed hcounters
    simp [System.tradesMade, hlist]
  constructor <;> simp only [hcounters, Happened.after, hmade] <;> dsimp only at * <;> omega

theorem step {p q : System × Happened} {event : System.Event} (h : Booked p)
    (hstep : System.CountedStep p event q) : Booked q := by
  obtain ⟨s, n⟩ := p
  obtain ⟨t, n'⟩ := q
  obtain ⟨hstep, hafter⟩ := hstep
  have hn : n' = n.after s t event := hafter
  subst hn
  cases hstep with
  | begin hstart => exact h.begin hstart
  | proceed hcall hperform => exact h.proceed hcall hperform

end Booked

/-! ## Steps that execute nothing -/

namespace System

open MatchingEngine

variable {s t : System} {event : Event}

/-- A submitted order that the book has nothing for executes nothing. -/
theorem start_quiet {fuel : ℕ} {e e' : MatchingEngine} {o : Order} {tasks : List Task}
    (hs : e.Books Sane) (hquiet : o.type.isTrigger ∨ (e.book o.symbol).Tradeless e.mem o)
    (h : e.start fuel (.submit true o) = some (tasks, e')) : e'.executed = e.executed := by
  obtain ⟨-, r, ha, -⟩ | ⟨hfalse, -⟩ := start_submit h
  · have hself := e.alloc_order_self o
    have hreceive : ((e.alloc o).1.receive o).executed = e.executed := by
      have hexecutes : Executes o.symbol [] (e.alloc o).1 ((e.alloc o).1.receive o) :=
        .receive (e.alloc o).1 o
      exact hexecutes.executed.trans (List.append_nil _)
    obtain ⟨-, rfl, rfl⟩ | ⟨htype, result, hr, rfl, m, n, rfl⟩ | ⟨-, _, rfl, rfl⟩ :=
      acceptOrder_cases ha
    all_goals rw [hself] at *
    · exact hreceive
    · have hbook : (e.alloc o).1.book o.symbol = e.book o.symbol := rfl
      have hcongr (r : Ref) (hr : (e.book o.symbol).Rests r) :
          (e.alloc o).1.mem.order r = e.mem.order r :=
        Memory.alloc_order_of_lt e.mem r o ((hs o.symbol).restsAllocated r hr)
      have hsane : Sane (e.alloc o).1.mem (e.book o.symbol) :=
        (hs o.symbol).of_extends (.alloc _ _)
      have htrades : result.trades = [] := by
        rw [hbook] at hr
        rw [returns_trades_eq_nil_iff hsane hr, e.alloc_order_self]
        exact OrderBook.Tradeless.congr (hquiet.resolve_left htype) hcongr
      simpa [MatchingEngine.matched, htrades] using hreceive
    · exact hreceive
  · cases hfalse

/-- A quiet step leaves the counts of trades alone. -/
theorem after_quiet {n : Happened} (hl : s.engine.Labelled) (hs : s.engine.Books Sane)
    (hstep : s.Step event t) (hquiet : s.QuietAt event) :
    (n.after s t event).submitted = n.submitted ∧ (n.after s t event).activated = n.activated := by
  cases hstep with
  | @begin fuel c tasks e hstart =>
    rcases c with ⟨_ | _, o⟩ | _ | _ | _ | _
    · exact ⟨rfl, rfl⟩
    · have hexecuted := start_quiet hs hquiet hstart
      simp [Happened.after, tradesMade, hexecuted]
    all_goals exact ⟨rfl, rfl⟩
  | @proceed fuel i task rest tasks e hcall hperform =>
    obtain hsilent := (silentAt_proceed hcall).mp hquiet
    have hexecuted : e.executed = s.engine.executed := by
      cases task with
      | publish trade =>
        obtain ⟨-, rfl⟩ := Prod.mk.inj (Option.some.inj hperform)
        exact (recordTrade_reports rfl).2.1
      | deliver callback t =>
        obtain ⟨-, rfl⟩ := Prod.mk.inj (Option.some.inj hperform)
        rfl
      | check symbol price =>
        obtain ⟨u, hu, heq⟩ := Option.map_eq_some_iff.mp hperform
        obtain ⟨-, rfl⟩ := Prod.mk.inj heq
        obtain ⟨ts, hts, -, hnone⟩ := checkTriggers_executes hu hl hs
        rw [hts.executed, hnone.mpr hsilent, List.map_nil, List.append_nil]
      | read symbol =>
        obtain ⟨-, rfl⟩ := Prod.mk.inj (Option.some.inj hperform)
        rfl
      | update symbol update =>
        obtain ⟨-, rfl⟩ := Prod.mk.inj (Option.some.inj hperform)
        have hexecutes : Executes symbol [] s.engine (s.engine.publishUpdate symbol update) :=
          .publishUpdate s.engine symbol update
        exact hexecutes.executed.trans (List.append_nil _)
    simp [Happened.after, tradesMade, hexecuted]

/-- Steps that are executed and counted, while a condition on them holds. -/
def advanceCounted (fuel : ℕ) (guard : System → Event → Prop) [∀ s event, Decidable (guard s event)]
    (p : System × Happened) (event : Event) : Option (Event × System × Happened) :=
  (advanceIf fuel guard p.1 event).map fun q => (q.1, q.2, p.2.after p.1 q.2 event)

theorem run_of_execCounted {fuel : ℕ} {guard : System → Event → Prop}
    [∀ s event, Decidable (guard s event)] {p q : System × Happened} {events events' : List Event}
    (h : Run.exec (advanceCounted fuel guard) p events = some (events', q)) :
    Run (fun p event q => CountedStep p event q ∧ guard p.1 event) p events' q := by
  refine Run.of_exec (fun p event event' q he => ?_) h
  unfold advanceCounted advanceIf at he
  split_ifs at he with hguard
  · obtain ⟨r, hr, heq⟩ := Option.map_eq_some_iff.mp he
    obtain ⟨u, hu, rfl⟩ := Option.map_eq_some_iff.mp hr
    obtain ⟨rfl, rfl⟩ := Prod.mk.inj heq
    exact ⟨⟨step_of_advance hu, rfl⟩, hguard⟩
  · cases he

end System

/-! ## When all calls have returned -/

namespace MatchingEngine

variable {mem : Memory} {hashOrder : HashOrder} {feeModel : Option FeeModel}
  {file : Option (List Json)} {s : System} {n : Happened} {events : List System.Event}

theorem booked_startWAL (mem : Memory) (hashOrder : HashOrder) (feeModel : Option FeeModel)
    (file : Option (List Json)) :
    Booked (⟨((fresh mem hashOrder feeModel).startWAL file).2, []⟩, {}) := by
  cases file <;> exact ⟨rfl, rfl, rfl, rfl, rfl⟩

/-- A run of quiet steps executes nothing. -/
theorem executes_nothing_of_quiet
    (h : Run System.QuietStep (⟨((fresh mem hashOrder feeModel).startWAL file).2, []⟩, {}) events
      (s, n)) : n.submitted = 0 ∧ n.activated = 0 := by
  have hsane : ((fresh mem hashOrder feeModel).startWAL file).2.Books Sane :=
    bookInvariant_sane.fresh (by cases file <;> rfl)
  refine (h.invariant (fun p => p.1.engine.Labelled ∧ p.1.engine.Books Sane ∧
    p.2.submitted = 0 ∧ p.2.activated = 0)
    ⟨labelled_startWAL mem hashOrder feeModel file, hsane, rfl, rfl⟩ ?_).2.2
  rintro ⟨s, n⟩ event ⟨t, n'⟩ ⟨hl, hs, hsubmitted, hactivated⟩ ⟨⟨hstep, hafter⟩, hquiet⟩
  obtain ⟨hsubmitted', hactivated'⟩ := System.after_quiet (n := n) hl hs hstep hquiet
  refine ⟨labelled_sections.step hl hstep, bookInvariant_sane.sections.step hs hstep, ?_, ?_⟩
  · exact (congrArg Happened.submitted hafter).trans (hsubmitted'.trans hsubmitted)
  · exact (congrArg Happened.activated hafter).trans (hactivated'.trans hactivated)

/-- **The counters say what happened, but for the trades.** In any run of interleaved calls on a
new engine, with its log on or off, when all calls have returned: submitted, cancelled and
matched orders are reported exactly. The number of trades is reported exactly if as many trades
were executed for submitted orders as for activated ones, and so it is where no step of the run
executes a trade. -/
theorem metrics_of_run
    (h : Run System.CountedStep (⟨((fresh mem hashOrder feeModel).startWAL file).2, []⟩, {}) events
      (s, n)) (hidle : s.Idle) :
    s.engine.getMetricsJSON.get? "orders_received" = some (.num n.received) ∧
    s.engine.getMetricsJSON.get? "orders_cancelled" = some (.num n.cancelled) ∧
    s.engine.getMetricsJSON.get? "orders_matched" = some (.num n.matched) ∧
    (s.engine.getMetricsJSON.get? "trades_executed" = some (.num s.engine.executed.length) ↔
      n.submitted = n.activated) ∧
    (Run System.QuietStep (⟨((fresh mem hashOrder feeModel).startWAL file).2, []⟩, {}) events
        (s, n) →
      s.engine.getMetricsJSON.get? "trades_executed" = some (.num s.engine.executed.length)) := by
  have hbooked := h.invariant Booked (booked_startWAL mem hashOrder feeModel file)
    fun _ _ _ hp hstep => hp.step hstep
  have hunpublished : s.unpublished = [] := by
    rw [System.unpublished, System.tasks, List.flatten_eq_nil_iff.mpr hidle]
    rfl
  have htrades : s.engine.metricTradesExecuted + s.unpublished.length = 2 * n.submitted :=
    hbooked.trades
  have hexecuted : s.engine.executed.length = n.submitted + n.activated := hbooked.executed
  rw [hunpublished, List.length_nil, add_zero] at htrades
  have hiff : s.engine.getMetricsJSON.get? "trades_executed" =
      some (.num s.engine.executed.length) ↔ n.submitted = n.activated := by
    have hget : s.engine.getMetricsJSON.get? "trades_executed" =
      some (.num s.engine.metricTradesExecuted) := rfl
    rw [hget, htrades, hexecuted, Option.some.injEq, Json.num.injEq, Nat.cast_inj]
    omega
  refine ⟨?_, ?_, ?_, hiff, fun hquiet => ?_⟩
  · exact congrArg (fun k : ℕ => some (Json.num k)) hbooked.received
  · exact congrArg (fun k : ℕ => some (Json.num k)) hbooked.cancelled
  · exact congrArg (fun k : ℕ => some (Json.num k)) hbooked.matched
  · obtain ⟨hsubmitted, hactivated⟩ := executes_nothing_of_quiet hquiet
    exact hiff.mpr (hsubmitted.trans hactivated.symm)

/-- An order rests, a second one is refused by the rate limiter, and the first is cancelled. -/
theorem metrics_of_run_cancelled : ∃ (s : System) (n : Happened) (events : List System.Event),
    Run System.CountedStep (⟨((fresh .empty .plain none).startWAL (some [])).2, []⟩, {}) events
      (s, n) ∧ s.Idle ∧ n = ⟨1, 1, 0, 0, 0⟩ ∧
    s.engine.getMetricsJSON.get? "orders_received" = some (.num n.received) ∧
    s.engine.getMetricsJSON.get? "trades_executed" = some (.num s.engine.executed.length) := by
  let final := Run.exec (System.advanceCounted 3 System.QuietAt)
    (⟨((fresh .empty .plain none).startWAL (some [])).2, []⟩, {}) [
    .begin (.submit true ⟨"bid", "S", .buy, .limit, 10, 5⟩), .proceed 0,
    .begin (.submit false ⟨"ask", "S", .sell, .limit, 10, 3⟩), .proceed 0,
    .begin (.cancel "bid"), .proceed 2, .proceed 2]
  have hseen : final.map (fun p => (decide p.2.1.Idle, decide (p.2.2 = ⟨1, 1, 0, 0, 0⟩))) =
      some (true, true) := by decide +kernel
  obtain ⟨⟨events, s, n⟩, hfinal, hseen⟩ := Option.map_eq_some_iff.mp hseen
  obtain ⟨hidle, hcounts⟩ := Prod.mk.inj hseen
  have hquiet : Run System.QuietStep
      (⟨((fresh .empty .plain none).startWAL (some [])).2, []⟩, {}) events (s, n) :=
    System.run_of_execCounted hfinal
  have hrun := hquiet.mono fun _ _ _ h => h.1
  obtain ⟨hreceived, -, -, -, htrades⟩ := metrics_of_run hrun (of_decide_eq_true hidle)
  exact ⟨s, n, events, hrun, of_decide_eq_true hidle, of_decide_eq_true hcounts, hreceived,
    htrades hquiet⟩

/-- **One trade that is counted twice**: when the order is matched, and when it is published. -/
theorem metrics_double : ∃ (s : System) (n : Happened) (events : List System.Event),
    Run System.CountedStep (⟨((fresh .empty .plain none).startWAL (some [])).2, []⟩, {}) events
      (s, n) ∧ s.Idle ∧ s.engine.executed.length = 1 ∧
    s.engine.getMetricsJSON.get? "trades_executed" = some (.num 2) ∧
    s.engine.getMetricsJSON.get? "trades_executed" ≠ some (.num s.engine.executed.length) := by
  let final := Run.exec (System.advanceCounted 3 fun _ _ => True)
    (⟨((fresh .empty .plain none).startWAL (some [])).2, []⟩, {}) [
    .begin (.submit true ⟨"bid", "S", .buy, .limit, 10, 5⟩), .proceed 0, .proceed 0,
    .begin (.submit true ⟨"ask", "S", .sell, .limit, 10, 3⟩),
    .proceed 1, .proceed 1, .proceed 1, .proceed 1]
  have hseen : final.map (fun p => (decide p.2.1.Idle, p.2.1.engine.executed.length,
      p.2.1.engine.metricTradesExecuted)) = some (true, 1, 2) := by decide +kernel
  obtain ⟨⟨events, s, n⟩, hfinal, hseen⟩ := Option.map_eq_some_iff.mp hseen
  simp only [Prod.mk.injEq] at hseen
  obtain ⟨hidle, hexecuted, htrades⟩ := hseen
  have hget : s.engine.getMetricsJSON.get? "trades_executed" = some (.num 2) := by
    have hfield : s.engine.getMetricsJSON.get? "trades_executed" =
      some (.num s.engine.metricTradesExecuted) := rfl
    rw [hfield, htrades]
    rfl
  refine ⟨s, n, events, (System.run_of_execCounted hfinal).mono fun _ _ _ h => h.1,
    of_decide_eq_true hidle, hexecuted, hget, ?_⟩
  rw [hget, hexecuted]
  simp

end MatchingEngine

end GoQuant
