import GoQuant.Engine.Termination

/-!
# Concurrent calls and calls one after another

While no trigger order is submitted, only the first critical section of a call touches the books.
Calls that interleave therefore do to the books what the same calls do one after another, in the
order of their first critical sections, and each is answered the same. The log holds the same
orders, cancellations and modifications too, whatever trades stand between them.

## Main definitions

* `exchange` — an engine without its feeds, and without the trades in its log.
* `answer` — what the first critical section of a call decides to answer.
* `reply` — what a call that is made alone returns or throws, and the state then.

## Main results

* `start_exchange`, `perform_exchange` — the first section works on the exchange, the others leave
  it alone.
* `linearizable` — every interleaving agrees with a sequence of calls.
-/

namespace GoQuant

open MatchingAlgorithm

/-- What a call returns; where nothing is returned it is `true`. -/
abbrev CallResult := Except String Bool

/-- A line of the log that asks for something to be redone. -/
def isOperation (line : Json) : Bool :=
  match WalRecord.ofJson line with
  | .ok none => false
  | _ => true

namespace MatchingEngine

/-- The engine without its feeds. What is left of the log are the operations. -/
def exchange (e : MatchingEngine) : MatchingEngine where
  orderBooks := e.orderBooks
  feeModel := e.feeModel
  walStream := e.walStream.filter isOperation
  walEnabled := e.walEnabled
  replaying := e.replaying
  metricOrdersReceived := e.metricOrdersReceived
  metricOrdersCancelled := e.metricOrdersCancelled
  metricOrdersMatched := e.metricOrdersMatched
  mem := e.mem
  hashOrder := e.hashOrder
  executed := e.executed

/-- What a call is going to answer. Its first critical section decides it. -/
def answer (fuel : ℕ) (e : MatchingEngine) : Call → Option CallResult
  | .submit tryAcceptOrder o =>
    let (e, order) := e.alloc o
    if tryAcceptOrder then (e.acceptOrder fuel order).map fun p => p.1.map fun _ => true
    else some (.error ("Rate limit exceeded for symbol: " ++ o.symbol))
  | .cancel orderId => some (.ok (e.cancelOrderUnlocked orderId).1.isSome)
  | .modify orderId newQuantity => some (.ok (e.modifyOrderUnlocked orderId newQuantity).1.isSome)
  | .subscribeToMarketData _ _ => some (.ok true)
  | .subscribeToTrades _ _ => some (.ok true)

/-- A call from beginning to end, with what it returns or throws. -/
def reply (fuel : ℕ) (e : MatchingEngine) : Call → Option (CallResult × MatchingEngine)
  | .submit tryAcceptOrder o =>
    let (e, order) := e.alloc o
    (e.submitOrder fuel tryAcceptOrder order).map fun p => (p.1.map fun _ => true, p.2)
  | .cancel orderId => some ((e.cancelOrder orderId).map .ok id)
  | .modify orderId newQuantity => some ((e.modifyOrder orderId newQuantity).map .ok id)
  | .subscribeToMarketData symbol callback =>
    some (.ok true, e.subscribeToMarketData symbol callback)
  | .subscribeToTrades symbol callback => some (.ok true, e.subscribeToTrades symbol callback)

variable {fuel : ℕ} {e e' r r' u : MatchingEngine} {c : Call} {tasks : List Task} {o : Order}
  {task : Task} {symbol : String} {a : CallResult}

theorem reply_snd (fuel : ℕ) (e : MatchingEngine) (c : Call) :
    (e.reply fuel c).map Prod.snd = e.call fuel c := by
  cases c with
  | submit tryAcceptOrder o =>
    simp only [reply, call, Option.map_map]
    rfl
  | _ => rfl

/-! ## The sections that only publish -/

theorem ofJson_filter_trade (t : Trade) : isOperation (WalRecord.trade t).toJson = false := by
  unfold isOperation
  rw [WalRecord.ofJson_trade]

theorem isOperation_toJson {record : WalRecord} (h : ∀ t, record ≠ .trade t) :
    isOperation record.toJson = true := by
  unfold isOperation
  rw [WalRecord.ofJson_toJson record h]

/-- An operation is logged on both levels. -/
theorem exchange_writeWAL {record : WalRecord} (h : ∀ t, record ≠ .trade t) (e : MatchingEngine) :
    e.exchange.writeWAL record = (e.writeWAL record).exchange := by
  have hoperation := isOperation_toJson h
  by_cases hlog : (e.walEnabled && !e.replaying) = true
  · have hlog' : (e.exchange.walEnabled && !e.exchange.replaying) = true := hlog
    rw [writeWAL, writeWAL, if_pos hlog, if_pos hlog']
    simp [exchange, List.filter_append, hoperation]
  · have hlog' : ¬ (e.exchange.walEnabled && !e.exchange.replaying) = true := hlog
    rw [writeWAL, writeWAL, if_neg hlog, if_neg hlog']

/-- A trade is not. -/
theorem exchange_writeWAL_trade (e : MatchingEngine) (t : Trade) :
    (e.writeWAL (.trade t)).exchange = e.exchange := by
  have htrade := ofJson_filter_trade t
  unfold writeWAL
  split_ifs with hlog
  · simp [exchange, List.filter_append, htrade]
  · rfl

theorem exchange_recordTrade (e : MatchingEngine) (t : Trade) :
    (e.recordTrade t).2.2.exchange = e.exchange := by
  have hstamped := fun u t => exchange_writeWAL_trade u t
  simp only [exchange, MatchingEngine.mk.injEq] at hstamped
  simp only [recordTrade, exchange, hstamped]

/-- What follows the first critical section leaves the exchange alone. -/
theorem perform_exchange (h : e.Untriggered)
    (hp : e.perform fuel task = some (tasks, e')) : e'.exchange = e.exchange := by
  cases task with
  | publish trade =>
    obtain ⟨-, rfl⟩ := Prod.mk.inj (Option.some.inj hp)
    exact exchange_recordTrade e trade
  | deliver callback t =>
    obtain ⟨-, rfl⟩ := Prod.mk.inj (Option.some.inj hp)
    rfl
  | check symbol price =>
    obtain ⟨u, hu, heq⟩ := Option.map_eq_some_iff.mp hp
    obtain ⟨-, rfl⟩ := Prod.mk.inj heq
    have hpending : (e.triggerOrders.lookup symbol).getD [] = [] := h symbol
    unfold checkTriggers at hu
    cases hlookup : e.triggerOrders.lookup symbol with
    | none =>
      rw [hlookup] at hu
      rw [Option.some.inj hu]
    | some vec =>
      obtain rfl : vec = [] := by simpa [hlookup] using hpending
      rw [hlookup] at hu
      rw [← Option.some.inj hu]
      rfl
  | read symbol =>
    obtain ⟨-, rfl⟩ := Prod.mk.inj (Option.some.inj hp)
    rfl
  | update symbol update =>
    obtain ⟨-, rfl⟩ := Prod.mk.inj (Option.some.inj hp)
    unfold publishUpdate
    dsimp only
    split
    · rfl
    · split_ifs <;> rfl

theorem performs_exchange (h : System.Performs fuel tasks e e') (hidle : e.Untriggered) :
    e'.exchange = e.exchange := by
  induction h with
  | nil => rfl
  | cons hp _ ih =>
    exact (ih (untriggered_sections.perform hidle hp)).trans (perform_exchange hidle hp)

/-! ## The first critical section -/

@[simp] theorem exchange_exchange (e : MatchingEngine) : e.exchange.exchange = e.exchange := by
  simp [exchange, List.filter_filter]

theorem exchange_getOrCreateOrderBook (e : MatchingEngine) (symbol : String) :
    e.exchange.getOrCreateOrderBook symbol = (e.getOrCreateOrderBook symbol).exchange := by
  have hlookup : e.exchange.orderBooks.lookup symbol = e.orderBooks.lookup symbol := rfl
  unfold getOrCreateOrderBook
  rw [hlookup]
  cases e.orderBooks.lookup symbol <;> rfl

theorem exchange_receive (e : MatchingEngine) (o : Order) :
    e.exchange.receive o = (e.receive o).exchange := by
  have hcount := exchange_getOrCreateOrderBook
    { e with metricOrdersReceived := e.metricOrdersReceived + 1 } o.symbol
  unfold receive
  rw [← exchange_writeWAL (fun t => WalRecord.noConfusion), ← hcount]
  rfl

theorem acceptOrder_exchange (fuel : ℕ) (e : MatchingEngine) (order : Ref) :
    (e.exchange.acceptOrder fuel order).map (Prod.map id exchange) =
      (e.acceptOrder fuel order).map (Prod.map id exchange) := by
  have hmem : e.exchange.mem = e.mem := rfl
  unfold acceptOrder
  rw [hmem]
  dsimp only
  rw [exchange_receive]
  set o := e.mem.order order
  set u := e.receive o
  have hlog : (u.exchange.walStream).filter isOperation = u.walStream.filter isOperation := by
    simp [exchange, List.filter_filter]
  split_ifs with htrigger
  · simp only [Option.map_some, Prod.map_apply, id_eq]
    unfold exchange at hlog ⊢
    simp only [addTrigger, setPending, pending, hlog]
  · have hprocess : processOrder u.exchange.feeModel fuel u.exchange.mem
        (u.exchange.book o.symbol) order =
          processOrder u.feeModel fuel u.mem (u.book o.symbol) order := rfl
    rw [hprocess]
    cases processOrder u.feeModel fuel u.mem (u.book o.symbol) order with
    | error message => simp only [Option.map_some, Prod.map_apply, id_eq, exchange_exchange]
    | ok result =>
      cases result with
      | none => rfl
      | some result =>
        simp only [Option.map_some, Prod.map_apply, id_eq]
        unfold exchange at hlog ⊢
        simp only [matched, setBook, hlog]

theorem cancelIn_exchange (e : MatchingEngine) (orderId : String) (symbols : List String) :
    e.exchange.cancelIn orderId symbols = e.cancelIn orderId symbols := by
  induction symbols with
  | nil => rfl
  | cons symbol symbols ih =>
    rw [cancelIn, cancelIn, ih]
    rfl

theorem modifyIn_exchange (e : MatchingEngine) (orderId : String) (newQuantity : ℚ)
    (symbols : List String) :
    e.exchange.modifyIn orderId newQuantity symbols = e.modifyIn orderId newQuantity symbols := by
  induction symbols with
  | nil => rfl
  | cons symbol symbols ih =>
    rw [modifyIn, modifyIn, ih]
    rfl

theorem cancelOrderUnlocked_exchange (e : MatchingEngine) (orderId : String) :
    e.exchange.cancelOrderUnlocked orderId =
      (e.cancelOrderUnlocked orderId).map id exchange := by
  have hsymbols : e.exchange.hashOrder.symbols e.exchange.orderBooks.keys =
      e.hashOrder.symbols e.orderBooks.keys := rfl
  unfold cancelOrderUnlocked
  rw [cancelIn_exchange, hsymbols]
  cases e.cancelIn orderId (e.hashOrder.symbols e.orderBooks.keys) with
  | none => rfl
  | some p =>
    have hlog := @exchange_writeWAL (.cancel orderId) (fun t => WalRecord.noConfusion)
      { e.setBook p.1 p.2 with metricOrdersCancelled := e.metricOrdersCancelled + 1 }
    exact congrArg (some p.1, ·) hlog

theorem modifyOrderUnlocked_exchange (e : MatchingEngine) (orderId : String) (newQuantity : ℚ) :
    e.exchange.modifyOrderUnlocked orderId newQuantity =
      (e.modifyOrderUnlocked orderId newQuantity).map id exchange := by
  have hsymbols : e.exchange.hashOrder.symbols e.exchange.orderBooks.keys =
      e.hashOrder.symbols e.orderBooks.keys := rfl
  unfold modifyOrderUnlocked
  rw [modifyIn_exchange, hsymbols]
  cases e.modifyIn orderId newQuantity (e.hashOrder.symbols e.orderBooks.keys) with
  | none => rfl
  | some p =>
    have hlog := @exchange_writeWAL (.modify orderId newQuantity)
      (fun t => WalRecord.noConfusion) { e.setBook p.1 p.2.2 with mem := p.2.1 }
    exact congrArg (some p.1, ·) hlog

/-- An engine begins a call like its exchange. -/
theorem start_exchange (fuel : ℕ) (e : MatchingEngine) (c : Call) :
    (e.exchange.start fuel c).map (Prod.map id exchange) =
      (e.start fuel c).map (Prod.map id exchange) := by
  cases c with
  | submit tryAcceptOrder o =>
    have halloc : e.exchange.alloc o = (e.alloc o).map exchange id := rfl
    have haccept := acceptOrder_exchange fuel (e.alloc o).1 (e.alloc o).2
    simp only [start, halloc, Prod.map_fst, Prod.map_snd, id_eq]
    generalize (e.alloc o).1.exchange.acceptOrder fuel (e.alloc o).2 = x at haccept ⊢
    generalize (e.alloc o).1.acceptOrder fuel (e.alloc o).2 = y at haccept ⊢
    cases tryAcceptOrder with
    | false => simp
    | true =>
      -- both throw, both keep the order for later, or both leave the same trades to be published
      rcases x with _ | ⟨_ | _ | _, _⟩ <;> rcases y with _ | ⟨_ | _ | _, _⟩ <;> simp_all
  | cancel orderId =>
    simp [start, cancelOrderUnlocked_exchange]
  | modify orderId newQuantity =>
    simp [start, modifyOrderUnlocked_exchange]
  | subscribeToMarketData symbol callback =>
    exact congrArg (fun w => some (([] : List Task), w)) (exchange_exchange e)
  | subscribeToTrades symbol callback =>
    exact congrArg (fun w => some (([] : List Task), w)) (exchange_exchange e)

theorem answer_exchange (fuel : ℕ) (e : MatchingEngine) (c : Call) :
    e.exchange.answer fuel c = e.answer fuel c := by
  cases c with
  | submit tryAcceptOrder o =>
    have haccept := acceptOrder_exchange fuel (e.alloc o).1 (e.alloc o).2
    cases tryAcceptOrder with
    | false => rfl
    | true =>
      have hanswer := congrArg (Option.map fun p => p.1.map fun _ => true) haccept
      rw [Option.map_map, Option.map_map] at hanswer
      exact hanswer
  | cancel orderId =>
    simp only [answer, cancelOrderUnlocked_exchange]
    rfl
  | modify orderId newQuantity =>
    simp only [answer, modifyOrderUnlocked_exchange]
    rfl
  | subscribeToMarketData symbol callback => rfl
  | subscribeToTrades symbol callback => rfl

theorem start_mono {fuel' : ℕ} (h : e.start fuel c = some (tasks, u)) (hle : fuel ≤ fuel') :
    e.start fuel' c = some (tasks, u) := by
  cases c with
  | submit tryAcceptOrder o =>
    cases tryAcceptOrder with
    | false => exact h
    | true =>
      simp only [start, if_true] at h ⊢
      rcases haccept : (e.alloc o).1.acceptOrder fuel (e.alloc o).2 with _ | p
      · rw [haccept] at h
        cases h
      · rw [acceptOrder_mono haccept hle, ← haccept]
        exact h
  | _ => exact h

theorem answer_mono {fuel' : ℕ} (h : e.answer fuel c = some a) (hle : fuel ≤ fuel') :
    e.answer fuel' c = some a := by
  cases c with
  | submit tryAcceptOrder o =>
    cases tryAcceptOrder with
    | false => exact h
    | true =>
      simp only [answer, if_true, Option.map_eq_some_iff] at h ⊢
      obtain ⟨p, haccept, hp⟩ := h
      exact ⟨p, acceptOrder_mono haccept hle, hp⟩
  | _ => exact h

/-- Engines with the same exchange begin a call alike. -/
theorem exists_start (h : r.exchange = e.exchange) (hs : e.start fuel c = some (tasks, u)) :
    ∃ u', r.start fuel c = some (tasks, u') ∧ u'.exchange = u.exchange := by
  have hmap := (start_exchange fuel r c).symm.trans (h ▸ start_exchange fuel e c)
  rw [hs] at hmap
  obtain ⟨⟨tasks', u'⟩, hs', heq⟩ := Option.map_eq_some_iff.mp hmap
  obtain ⟨rfl, hu⟩ := Prod.mk.inj heq
  exact ⟨u', hs', hu⟩

/-! ## Calls one after another -/

theorem modifyOrder_fst (e : MatchingEngine) (orderId : String) (newQuantity : ℚ) :
    (e.modifyOrder orderId newQuantity).1 =
      (e.modifyOrderUnlocked orderId newQuantity).1.isSome := by
  unfold modifyOrder
  rcases e.modifyOrderUnlocked orderId newQuantity with ⟨_ | symbol, u⟩ <;> rfl

/-- A call that is made alone returns what its first critical section decides. -/
theorem exists_reply (h : e.Untriggered) (hkind : ∀ o, c = .submit true o → o.type.Matchable)
    (hs : e.start fuel c = some (tasks, u)) (ha : e.answer fuel c = some a) :
    ∃ e', e.reply fuel c = some (a, e') := by
  cases c with
  | submit tryAcceptOrder o =>
    have hself := e.alloc_order_self o
    cases tryAcceptOrder with
    | false =>
      have hrefused : Except.error ("Rate limit exceeded for symbol: " ++ o.symbol) = a :=
        Option.some.inj ha
      exact ⟨(e.alloc o).1, by simp [reply, submitOrder, hself, ← hrefused, Except.map]⟩
    | true =>
      obtain ⟨result, w, haccept, hresult⟩ : ∃ result w,
          (e.alloc o).1.acceptOrder fuel (e.alloc o).2 = some (result, w) ∧
            result.map (fun _ => true) = a := by
        obtain ⟨⟨result, w⟩, haccept, hresult⟩ := Option.map_eq_some_iff.mp ha
        exact ⟨result, w, haccept, hresult⟩
      have hw : w.Untriggered := untriggered_sections.acceptOrder (hkind o rfl) h haccept
      rcases result with message | (_ | trades)
      · exact ⟨w, by simp [reply, submitOrder, haccept, ← hresult, Except.map]⟩
      · exact ⟨w, by simp [reply, submitOrder, haccept, ← hresult, Except.map]⟩
      · obtain ⟨v, hv⟩ := hw.exists_publishTrades fuel trades
        exact ⟨v.publishMarketDataUpdate o.symbol, by
          simp [reply, submitOrder, haccept, hv, hself, ← hresult, Except.map]⟩
  | cancel orderId =>
    have hanswer : Except.ok (e.cancelOrder orderId).1 = a := by
      rw [cancelOrder_fst]
      exact Option.some.inj ha
    exact ⟨(e.cancelOrder orderId).2, by rw [← hanswer]; rfl⟩
  | modify orderId newQuantity =>
    have hanswer : Except.ok (e.modifyOrder orderId newQuantity).1 = a := by
      rw [modifyOrder_fst]
      exact Option.some.inj ha
    exact ⟨(e.modifyOrder orderId newQuantity).2, by rw [← hanswer]; rfl⟩
  | subscribeToMarketData symbol callback =>
    obtain rfl := Option.some.inj ha
    exact ⟨_, rfl⟩
  | subscribeToTrades symbol callback =>
    obtain rfl := Option.some.inj ha
    exact ⟨_, rfl⟩

/-- A call does the same to the exchange, whatever its other sections meet. -/
theorem exchange_of_reply (h : e.Untriggered) (hkind : ∀ o, c = .submit true o → o.type.Matchable)
    (hs : e.start fuel c = some (tasks, u)) (hr : e.reply fuel c = some (a, e')) :
    e'.exchange = u.exchange := by
  have hcall : e.call fuel c = some e' := by
    rw [← reply_snd, hr]
    rfl
  obtain ⟨tasks', u', hs', hperforms⟩ := System.exists_performs_of_call hcall
  obtain ⟨-, rfl⟩ := Prod.mk.inj (Option.some.inj (hs.symm.trans hs'))
  exact performs_exchange hperforms (untriggered_sections.start h hkind hs)

end MatchingEngine

/-- A call that leaves no trigger order behind. -/
def Call.Plain (c : Call) : Prop := ∀ o, c = .submit true o → o.type.Matchable

instance : DecidablePred Call.Plain := fun c =>
  match c with
  | .submit true o => decidable_of_iff o.type.Matchable
      ⟨fun h _ heq => (Call.submit.inj heq).2 ▸ h, fun h => h o rfl⟩
  | .submit false _ => isTrue fun _ h => absurd (Call.submit.inj h).1 Bool.false_ne_true
  | .cancel _ => isTrue fun _ h => nomatch h
  | .modify _ _ => isTrue fun _ h => nomatch h
  | .subscribeToMarketData _ _ => isTrue fun _ h => nomatch h
  | .subscribeToTrades _ _ => isTrue fun _ h => nomatch h

/-- One call after another, each with what it returns or throws. -/
def ReplyStep (e : MatchingEngine) (p : Call × CallResult) (e' : MatchingEngine) : Prop :=
  ∃ fuel, e.reply fuel p.1 = some (p.2, e')

namespace System

open MatchingEngine

/-- The call that begins in a step. -/
def Event.begun : Event → List Call
  | .begin c => [c]
  | .proceed _ => []

/-- A step, with the answer that is going to be given to the call that begins in it. -/
structure AnsweredStep (s : System) (l : Event × List (Call × CallResult)) (t : System) : Prop where
  step : s.Step l.1 t
  begun : l.2.map Prod.fst = l.1.begun
  answer : ∀ p ∈ l.2, p.1.Plain ∧ ∃ fuel, s.engine.answer fuel p.1 = some p.2

variable {s t : System} {e r : MatchingEngine} {l : Event × List (Call × CallResult)}
  {ls : List (Event × List (Call × CallResult))}

/-- The engine follows with a whole call where one begins. -/
theorem AnsweredStep.reply (hstep : s.AnsweredStep l t) (hsame : r.exchange = s.engine.exchange)
    (hs : s.engine.Untriggered) (hr : r.Untriggered) :
    ∃ r', Run ReplyStep r l.2 r' ∧ r'.exchange = t.engine.exchange ∧ r'.Untriggered := by
  obtain ⟨event, calls⟩ := l
  obtain ⟨hstep, hbegun, hanswer⟩ := hstep
  cases hstep with
  | proceed _ hperform =>
    obtain rfl := List.map_eq_nil_iff.mp hbegun
    exact ⟨r, .nil, hsame.trans (perform_exchange hs hperform).symm, hr⟩
  | @begin fuel c tasks u hstart =>
    obtain ⟨⟨c', a⟩, rfl, rfl⟩ := List.map_eq_singleton_iff.mp hbegun
    obtain ⟨hkind, fuel', hanswer⟩ := hanswer _ (List.mem_singleton_self _)
    obtain ⟨u', hstart', hu'⟩ := exists_start hsame (start_mono hstart (le_max_left fuel fuel'))
    have hanswer' : r.answer (max fuel fuel') c' = some a := by
      rw [← answer_exchange, hsame, answer_exchange]
      exact answer_mono hanswer (le_max_right fuel fuel')
    obtain ⟨r', hreply⟩ := exists_reply hr hkind hstart' hanswer'
    have hcall : r.call (max fuel fuel') c' = some r' := by
      rw [← reply_snd, hreply]
      rfl
    exact ⟨r', .one ⟨_, hreply⟩, (exchange_of_reply hr hkind hstart' hreply).trans hu',
      untriggered_sections.call hkind hcall hr⟩

theorem AnsweredStep.untriggered (hstep : s.AnsweredStep l t) (hs : s.engine.Untriggered) :
    t.engine.Untriggered := by
  obtain ⟨event, calls⟩ := l
  obtain ⟨hstep, hbegun, hanswer⟩ := hstep
  refine untriggered_sections.step hs (fun o hevent => ?_) hstep
  obtain ⟨p, hp, hcall⟩ : ∃ p ∈ calls, p.1 = .submit true o := by
    rw [hevent] at hbegun
    exact List.mem_map.mp (hbegun ▸ List.mem_singleton_self _)
  exact (hanswer p hp).1 o hcall

/-- Calls that interleave do to the exchange what they do one after another, and are answered the
same. -/
theorem linearizable (h : Run AnsweredStep ⟨e, []⟩ ls s) (he : e.Untriggered) :
    ∃ r, Run ReplyStep e (ls.flatMap Prod.snd) r ∧ r.exchange = s.engine.exchange := by
  obtain ⟨r, hrun, hsame, -⟩ := h.simulates
    (fun s (r : MatchingEngine) => r.exchange = s.engine.exchange ∧ s.engine.Untriggered ∧
      r.Untriggered) Prod.snd
    (fun s l t r ⟨hsame, hs, hr⟩ hstep =>
      let ⟨r', hrun, hsame', hr'⟩ := hstep.reply hsame hs hr
      ⟨r', hrun, hsame', hstep.untriggered hs, hr'⟩) ⟨rfl, he, he⟩
  exact ⟨r, hrun, hsame⟩

/-- The same step, executed on fuel. -/
def advanceAnswered (fuel : ℕ) (s : System) (event : Event) :
    Option ((Event × List (Call × CallResult)) × System) :=
  (s.advance fuel event).bind fun t =>
    match event with
    | .begin c =>
      if c.Plain then (s.engine.answer fuel c).map fun a => ((event, [(c, a)]), t) else none
    | .proceed _ => some ((event, []), t)

theorem answeredStep_of_advance {fuel : ℕ} {event : Event}
    (h : s.advanceAnswered fuel event = some (l, t)) : s.AnsweredStep l t := by
  obtain ⟨u, hu, hl⟩ := Option.bind_eq_some_iff.mp h
  cases event with
  | begin c =>
    simp only at hl
    split_ifs at hl with hplain
    obtain ⟨a, ha, heq⟩ := Option.map_eq_some_iff.mp hl
    obtain ⟨rfl, rfl⟩ := Prod.mk.inj heq
    exact ⟨step_of_advance hu, rfl, fun p hp => List.mem_singleton.mp hp ▸ ⟨hplain, fuel, ha⟩⟩
  | proceed i =>
    obtain ⟨rfl, rfl⟩ := Prod.mk.inj (Option.some.inj hl)
    exact ⟨step_of_advance hu, rfl, fun p hp => absurd hp List.not_mem_nil⟩

/-- The rest of an order is cancelled while its trade has not been published yet. -/
theorem linearizable_cancel : ∃ (ls : List (Event × List (Call × CallResult))) (s : System)
    (r : MatchingEngine), (ls.flatMap Prod.snd).map Prod.snd = [.ok true, .ok true, .ok true] ∧
      s.engine.executed.length = 1 ∧ s.engine.published = [] ∧
      Run ReplyStep (fresh .empty .plain none) (ls.flatMap Prod.snd) r ∧
      r.exchange = s.engine.exchange := by
  let final := Run.exec (advanceAnswered 5) ⟨fresh .empty .plain none, []⟩
    [.begin (.submit true ⟨"ask", "S", .sell, .limit, 10, 5⟩), .proceed 0,
      .begin (.submit true ⟨"bid", "S", .buy, .limit, 11, 3⟩), .begin (.cancel "ask"), .proceed 2]
  have hfinal : final.map (fun p => ((p.1.flatMap Prod.snd).map Prod.snd,
      p.2.engine.executed.length, p.2.engine.published)) =
        some ([.ok true, .ok true, .ok true], 1, []) := by decide +kernel
  obtain ⟨⟨ls, s⟩, hexec, heq⟩ := Option.map_eq_some_iff.mp hfinal
  obtain ⟨hanswers, heq⟩ := Prod.mk.inj heq
  obtain ⟨hexecuted, hpublished⟩ := Prod.mk.inj heq
  obtain ⟨r, hrun, hsame⟩ := linearizable
    (Run.of_exec (fun _ _ _ _ => answeredStep_of_advance) hexec) fun _ => rfl
  exact ⟨ls, s, r, hanswers, hexecuted, hpublished, hrun, hsame⟩

end System

end GoQuant
