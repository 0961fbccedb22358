import GoQuant.RateLimiter
import GoQuant.Engine.Deliveries
import GoQuant.Listener.Answers

/-!
# The sessions of a listener

`Listener::Impl` of `listener.cpp`: the sessions that are connected, and the one engine that all of
them call. A session is accepted, sends messages, and is closed. The engine keeps the callbacks of
a closed session, which send nothing any more. The rate limiter belongs to the engine and is asked
about every order that is submitted.

## Main definitions

* `Listener.Step` — a session is accepted or closed, or sends a message.
* `Listener.sentTo` — the texts that a session was given to send.
* `Listener.Requested` — a text answers a message of the session, or is data that it asked for.

## Main results

* `Listener.Step.message_cases` — what a message does.
* `Listener.requested_of_run` — a session sends its client only what the client asked for.
-/

namespace GoQuant

open WebSocketSession

/-- `Listener::Impl`, with its engine and the rate limiter of that engine. A session is known by
the number of sessions accepted before. `sent` is bookkeeping of the model: the texts that were
handed to `WebSocketSession::send`, and by which session. Whether they arrive is up to the
network. -/
structure Listener where
  engine : MatchingEngine
  rateLimiter : RateLimiterManager := {}
  accepted : ℕ := 0
  sessions : List Subscriber := []
  sent : List (Subscriber × Json) := []

namespace Listener

/-- What happens to a listener. A message comes with two readings of the clock that the rate
limiter takes if it submits an order. -/
inductive Event where
  | accept
  | close (session : Subscriber)
  | message (session : Subscriber) (created now : ℚ) (parsed : Except ByteArray Json)

/-- What a callback hands to `send`. That of a closed session finds its weak pointer expired. -/
def callback (sessions : List Subscriber) (d : Delivery) : Option (Subscriber × Json) :=
  if d.subscriber ∈ sessions then (dataMessage d.subscriber d).map (d.subscriber, ·) else none

/-- The rate limiter is asked about the order that a message submits. -/
def tryAcceptOrder (l : Listener) (session : Subscriber) (created now : ℚ)
    (parsed : Except ByteArray Json) : Bool × RateLimiterManager :=
  match (readLoop 0 true session l.engine parsed).calls with
  | [.submit _ o] => l.rateLimiter.tryAcceptOrder created now o.symbol
  | _ => (true, l.rateLimiter)

/-- A session handles a message: the callbacks that the engine calls and the handler itself hand
texts to `send`. There is no result if a call does not return, or if the process ends. -/
def readMessage (fuel : ℕ) (l : Listener) (session : Subscriber) (created now : ℚ)
    (parsed : Except ByteArray Json) : Option Listener :=
  let (accept, rateLimiter) := l.tryAcceptOrder session created now parsed
  (readLoop fuel accept session l.engine parsed).outcome.map fun (replies, engine) =>
    { l with
      engine
      rateLimiter
      sent := l.sent ++ (engine.feed.drop l.engine.feed.length).filterMap (callback l.sessions) ++
        replies.map (session, ·) }

/-- One event. Only a connected session sends messages. -/
def next (fuel : ℕ) (l : Listener) : Event → Option Listener
  | .accept => some { l with accepted := l.accepted + 1, sessions := l.sessions ++ [l.accepted] }
  | .close session => some { l with sessions := l.sessions.filter (· ≠ session) }
  | .message session created now parsed =>
    if session ∈ l.sessions then l.readMessage fuel session created now parsed else none

def Step (l : Listener) (event : Event) (l' : Listener) : Prop :=
  ∃ fuel, l.next fuel event = some l'

theorem run_of_exec {fuel : ℕ} {l l' : Listener} {events events' : List Event}
    (h : Run.exec (fun l event => (next fuel l event).map (event, ·)) l events =
      some (events', l')) : Run Step l events' l' := by
  refine Run.of_exec (fun l event event' l' hnext => ?_) h
  obtain ⟨l₁, hl₁, heq⟩ := Option.map_eq_some_iff.mp hnext
  obtain ⟨rfl, rfl⟩ := Prod.mk.inj heq
  exact ⟨fuel, hl₁⟩

/-- The engine is new, and nobody is connected. -/
def start (mem : Memory) (hashOrder : HashOrder) (feeModel : Option FeeModel)
    (file : Option (List Json)) : Listener where
  engine := ((MatchingEngine.fresh mem hashOrder feeModel).startWAL file).2

/-- What a session was given to send. -/
def sentTo (l : Listener) (session : Subscriber) : List Json :=
  (l.sent.filter fun p => p.1 = session).map Prod.snd

/-- What a message does: replies are sent, and data messages to the sessions that are connected.
The engine is called as the message asks, or not at all if it asks for nothing. -/
structure Reads (session : Subscriber) (parsed : Except ByteArray Json) (replies : List Json)
    (l l' : Listener) : Prop where
  connected : session ∈ l.sessions
  accepted : l'.accepted = l.accepted
  sessions : l'.sessions = l.sessions
  sent : l'.sent = l.sent ++
    (l'.engine.feed.drop l.engine.feed.length).filterMap (callback l.sessions) ++
      replies.map (session, ·)
  engine : (l'.engine = l.engine ∧ (∀ reply ∈ replies, (status? reply).isSome) ∧
      ∃ accept, ∀ j c, parsed = .ok j → ¬ Asks accept session j c) ∨
    ∃ fuel accept j c, parsed = .ok j ∧ Asks accept session j c ∧
      served fuel l.engine c = some (replies, l'.engine)

variable {fuel : ℕ} {l₀ l l' : Listener} {session s : Subscriber} {created now : ℚ}
  {parsed : Except ByteArray Json} {event : Event} {events : List Event} {replies : List Json}
  {mem : Memory} {hashOrder : HashOrder} {feeModel : Option FeeModel} {file : Option (List Json)}

theorem Step.message_cases (h : l.Step (.message session created now parsed) l') :
    ∃ replies, Reads session parsed replies l l' := by
  obtain ⟨fuel, h⟩ := h
  simp only [next, Option.ite_none_right_eq_some] at h
  obtain ⟨hconnected, h⟩ := h
  unfold readMessage at h
  generalize l.tryAcceptOrder session created now parsed = p at h
  obtain ⟨accept, rateLimiter⟩ := p
  obtain ⟨⟨replies, e⟩, houtcome, rfl⟩ := Option.map_eq_some_iff.mp h
  refine ⟨replies, hconnected, rfl, rfl, rfl, ?_⟩
  have hhandles := handles_readLoop fuel accept session l.engine parsed
  have hcalls : ∀ j c, parsed = .ok j → Asks accept session j c →
      c ∈ (readLoop fuel accept session l.engine parsed).calls := by
    rintro j c rfl hasks
    exact mem_calls_readLoop.mpr hasks
  generalize readLoop fuel accept session l.engine parsed = handled at houtcome hhandles hcalls
  cases hhandles with
  | escaped => cases houtcome
  | refused _ _ hreply =>
    obtain ⟨rfl, rfl⟩ := Prod.mk.inj (Option.some.inj houtcome)
    refine Or.inl ⟨rfl, fun reply hmem => ?_, accept, fun j c hj hasks => ?_⟩
    · rw [List.mem_singleton.mp hmem, hreply]
      rfl
    · exact absurd (hcalls j c hj hasks) List.not_mem_nil
  | ignored =>
    obtain ⟨rfl, rfl⟩ := Prod.mk.inj (Option.some.inj houtcome)
    refine Or.inl ⟨rfl, fun reply hmem => absurd hmem List.not_mem_nil, accept,
      fun j c hj hasks => ?_⟩
    exact absurd (hcalls j c hj hasks) List.not_mem_nil
  | metrics =>
    obtain ⟨rfl, rfl⟩ := Prod.mk.inj (Option.some.inj houtcome)
    refine Or.inl ⟨rfl, fun reply hmem => ?_, accept, fun j c hj hasks => ?_⟩
    · rw [List.mem_singleton.mp hmem]
      rfl
    · exact absurd (hcalls j c hj hasks) List.not_mem_nil
  | called hasks => exact Or.inr ⟨fuel, accept, _, _, rfl, hasks, houtcome⟩

theorem dataMessage_of_ne {d : Delivery} (h : d.subscriber ≠ s) : dataMessage s d = none := by
  cases d <;> exact if_neg h

theorem exists_dataMessage (d : Delivery) : ∃ j, dataMessage d.subscriber d = some j := by
  cases d <;> exact ⟨_, if_pos rfl⟩

/-- What the callbacks send to a session. -/
theorem filter_callback (sessions : List Subscriber) (ds : List Delivery) (s : Subscriber) :
    ((ds.filterMap (callback sessions)).filter fun p => p.1 = s).map Prod.snd =
      if s ∈ sessions then ds.filterMap (dataMessage s) else [] := by
  induction ds with
  | nil => simp
  | cons d ds ih =>
    by_cases hd : d.subscriber ∈ sessions
    · obtain ⟨j, hj⟩ := exists_dataMessage d
      have hcallback : callback sessions d = some (d.subscriber, j) := by
        rw [callback, if_pos hd, hj, Option.map_some]
      rw [List.filterMap_cons_some hcallback]
      by_cases hs : d.subscriber = s
      · subst hs
        rw [List.filter_cons_of_pos (by simp), List.map_cons, ih, if_pos hd, if_pos hd,
          List.filterMap_cons_some hj]
      · rw [List.filter_cons_of_neg (by simpa using hs), ih,
          List.filterMap_cons_none (dataMessage_of_ne hs)]
    · have hcallback : callback sessions d = none := if_neg hd
      rw [List.filterMap_cons_none hcallback, ih]
      split_ifs with hs
      · rw [List.filterMap_cons_none (dataMessage_of_ne fun heq => hd (heq ▸ hs))]
      · rfl

theorem Reads.sentTo (h : Reads session parsed replies l l') (s : Subscriber) :
    l'.sentTo s = l.sentTo s ++
      (if s ∈ l.sessions then
        (l'.engine.feed.drop l.engine.feed.length).filterMap (dataMessage s) else []) ++
      if s = session then replies else [] := by
  have hreplies : ((replies.map (session, ·)).filter fun p => p.1 = s).map Prod.snd =
      if s = session then replies else [] := by
    split_ifs with hs
    · subst hs
      rw [List.filter_eq_self.mpr fun p hp => ?_]
      · simp
      · obtain ⟨j, -, rfl⟩ := List.mem_map.mp hp
        simp
    · refine List.map_eq_nil_iff.mpr (List.filter_eq_nil_iff.mpr fun p hp => ?_)
      obtain ⟨j, -, rfl⟩ := List.mem_map.mp hp
      simpa using Ne.symm hs
  rw [Listener.sentTo, Listener.sentTo, h.sent, List.filter_append, List.filter_append,
    List.map_append, List.map_append, filter_callback, hreplies]

/-- What a client makes of the messages of a connected session, if it makes something of what the
callbacks of the session send. -/
theorem Reads.filterMap_sentTo {β : Type} {read : Json → Option β} {view : Delivery → Option β}
    {ds : List Delivery} (h : Reads session parsed replies l l') (hs : s ∈ l.sessions)
    (hfeed : l'.engine.feed = l.engine.feed ++ ds)
    (hview : ∀ d, (dataMessage s d).bind read = view d) :
    (l'.sentTo s).filterMap read = (l.sentTo s).filterMap read ++ ds.filterMap view ++
      if s = session then replies.filterMap read else [] := by
  have hdata : (ds.filterMap (dataMessage s)).filterMap read = ds.filterMap view := by
    rw [List.filterMap_filterMap]
    exact List.filterMap_congr fun d _ => hview d
  rw [h.sentTo, if_pos hs, hfeed, List.drop_left, List.filterMap_append, List.filterMap_append,
    hdata, apply_ite (List.filterMap read), List.filterMap_nil]

/-! ## Who hears what -/

/-- `j` is among the replies that the handler of a session has for a message, in the state in which
it is read. -/
def RepliesWith (l : Listener) (session : Subscriber) (created now : ℚ)
    (parsed : Except ByteArray Json) (j : Json) : Prop :=
  ∃ fuel replies e, (readLoop fuel (l.tryAcceptOrder session created now parsed).1 session l.engine
    parsed).outcome = some (replies, e) ∧ j ∈ replies

/-- A session has asked for what it is sent: it is the reply to a message of its own, in the state
that the messages before have led to, or the data of a symbol. -/
inductive Requested (l₀ : Listener) (events : List Event) (session : Subscriber) (j : Json) : Prop
  | reply {before after : List Event} {l : Listener} {created now : ℚ}
      {parsed : Except ByteArray Json} :
      events = before ++ .message session created now parsed :: after → Run Step l₀ before l →
      l.RepliesWith session created now parsed j → (status? j).isSome →
      Requested l₀ events session j
  | marketData {created now : ℚ} {request : Json} {symbol : String} :
      .message session created now (.ok request) ∈ events →
      request.get? "type" = some (.str "subscribe_market_data") →
      request.get? "symbol" = some (.str symbol) → j.get? "symbol" = some (.str symbol) →
      (j.get? "type" = some (.str "market_data_snapshot") ∨
        j.get? "type" = some (.str "market_data_increment")) → Requested l₀ events session j
  | trades {created now : ℚ} {request : Json} {symbol : String} :
      .message session created now (.ok request) ∈ events →
      request.get? "type" = some (.str "subscribe_trades") →
      request.get? "symbol" = some (.str symbol) → j.get? "symbol" = some (.str symbol) →
      j.get? "type" = some (.str "trade") → Requested l₀ events session j

/-- What has been sent was asked for, and what will be sent to those who are registered, too. -/
structure Addressed (l₀ : Listener) (events : List Event) (l : Listener) : Prop where
  run : Run Step l₀ events l
  registered : ∀ d : Delivery, d.subscriber ∈ l.engine.listeners d →
    ∀ j, dataMessage d.subscriber d = some j → Requested l₀ events d.subscriber j
  sent : ∀ p ∈ l.sent, Requested l₀ events p.1 p.2

theorem Requested.mono {j : Json} (h : Requested l₀ events session j) (event : Event) :
    Requested l₀ (events ++ [event]) session j := by
  cases h with
  | reply hevents hrun hreply hstatus =>
    have hlater := congrArg (· ++ [event]) hevents
    rw [List.append_assoc, List.cons_append] at hlater
    exact .reply hlater hrun hreply hstatus
  | marketData hmem htype hsymbol hsame hdata =>
    exact .marketData (List.mem_append_left _ hmem) htype hsymbol hsame hdata
  | trades hmem htype hsymbol hsame hdata =>
    exact .trades (List.mem_append_left _ hmem) htype hsymbol hsame hdata

theorem get?_updateMessage (update : MarketDataUpdate) :
    (updateMessage update).get? "symbol" = some (.str update.symbol) ∧
      ((updateMessage update).get? "type" = some (.str "market_data_snapshot") ∨
        (updateMessage update).get? "type" = some (.str "market_data_increment")) := by
  unfold updateMessage
  split
  · exact ⟨rfl, Or.inl rfl⟩
  · exact ⟨rfl, Or.inr rfl⟩

/-- The replies to a call have a status, but for the snapshot that follows a subscription. -/
theorem status_of_served {c : Call} {e e' : MatchingEngine}
    (h : served fuel e c = some (replies, e')) :
    (∀ reply ∈ replies, (status? reply).isSome) ∨
      ∃ symbol cb reply, c = .subscribeToMarketData symbol cb ∧ (status? reply).isSome ∧
        replies = [reply, updateMessage (e'.getMarketData symbol 10)] := by
  have hone {reply : Json} (hstatus : (status? reply).isSome) (hreplies : [reply] = replies) :
      ∀ reply ∈ replies, (status? reply).isSome := by
    rintro reply' hmem
    rw [← hreplies, List.mem_singleton] at hmem
    exact hmem ▸ hstatus
  cases c with
  | submit tryAcceptOrder o =>
    obtain ⟨⟨out, u⟩, -, heq⟩ := Option.map_eq_some_iff.mp h
    refine Or.inl ?_
    cases out with
    | error what => exact hone rfl (Prod.mk.inj heq).1
    | ok => exact hone rfl (Prod.mk.inj heq).1
  | cancel orderId => exact Or.inl (hone rfl (Prod.mk.inj (Option.some.inj h)).1)
  | modify orderId newQuantity =>
    refine Or.inl (hone ?_ (Prod.mk.inj (Option.some.inj h)).1)
    unfold modifyReply
    split <;> rfl
  | subscribeToMarketData symbol cb =>
    obtain ⟨rfl, rfl⟩ := Prod.mk.inj (Option.some.inj h)
    refine Or.inr ⟨symbol, cb, _, rfl, ?_, rfl⟩
    rfl
  | subscribeToTrades symbol cb => exact Or.inl (hone rfl (Prod.mk.inj (Option.some.inj h)).1)

/-- What a step sends in reply is what the handler replies with. -/
theorem Step.repliesWith (h : l.Step (.message session created now parsed) l')
    (hreads : Reads session parsed replies l l') {j : Json} (hj : j ∈ replies) :
    l.RepliesWith session created now parsed j := by
  obtain ⟨fuel, h⟩ := h
  simp only [next, Option.ite_none_right_eq_some] at h
  obtain ⟨-, h⟩ := h
  obtain ⟨⟨replies', e⟩, houtcome, rfl⟩ := Option.map_eq_some_iff.mp h
  have hsame : replies'.map (session, ·) = replies.map (session, ·) :=
    List.append_cancel_left hreads.sent
  have hinjective : Function.Injective fun j : Json => (session, j) := fun _ _ heq =>
    (Prod.mk.inj heq).2
  obtain rfl := List.map_injective_iff.mpr hinjective hsame
  exact ⟨fuel, replies', e, houtcome, hj⟩

/-- The replies to a call are replies to the message that asked for it. -/
theorem Addressed.answered {accept : Bool} {request : Json} {c : Call}
    (h : Addressed l₀ events l) (hasks : Asks accept session request c)
    (hserved : served fuel l.engine c = some (replies, l'.engine))
    (hreplied : ∀ j ∈ replies, l.RepliesWith session created now (.ok request) j) :
    ∀ j ∈ replies,
      Requested l₀ (events ++ [.message session created now (.ok request)]) session j := by
  intro j hj
  have hreply : (status? j).isSome → Requested l₀ (events ++ [.message session created now
      (.ok request)]) session j := .reply rfl h.run (hreplied j hj)
  obtain hstatus | ⟨symbol, cb, reply, rfl, hstatus, rfl⟩ := status_of_served hserved
  · exact hreply (hstatus j hj)
  · rcases List.mem_cons.mp hj with rfl | hj
    · exact hreply hstatus
    · cases hasks with
      | subscribeToMarketData htype hsymbol =>
        rw [List.mem_singleton.mp hj]
        obtain ⟨hname, hdata⟩ := get?_updateMessage (l'.engine.getMarketData symbol 10)
        rw [MatchingEngine.symbol_getMarketData] at hname
        exact .marketData (List.mem_append_right _ List.mem_cons_self) htype hsymbol hname hdata

/-- A session that is registered asked for it before, or does so with its last message. -/
theorem Addressed.served {accept : Bool} {request : Json} {c : Call}
    (h : Addressed l₀ events l) (hasks : Asks accept session request c)
    (hserved : served fuel l.engine c = some (replies, l'.engine)) :
    (∀ d : Delivery, d.subscriber ∈ l'.engine.listeners d →
      ∀ j, dataMessage d.subscriber d = some j →
        Requested l₀ (events ++ [.message session created now (.ok request)]) d.subscriber j) ∧
      ∀ d ∈ l'.engine.feed.drop l.engine.feed.length, d.subscriber ∈ l.engine.listeners d := by
  have hmem : Event.message session created now (.ok request) ∈
      events ++ [.message session created now (.ok request)] :=
    List.mem_append_right _ (List.mem_singleton_self _)
  have hold (d : Delivery) (hd : d.subscriber ∈ l.engine.listeners d) (j : Json)
      (hj : dataMessage d.subscriber d = some j) :
      Requested l₀ (events ++ [.message session created now (.ok request)]) d.subscriber j :=
    (h.registered d hd j hj).mono _
  obtain ⟨ds, hds⟩ | ⟨symbol, cb, rfl⟩ | ⟨symbol, cb, rfl⟩ :=
    MatchingEngine.call_sends (call_of_served hserved)
  · refine ⟨fun d hd => hold d (hds.listeners d ▸ hd), fun d hd => hds.registered d ?_⟩
    rwa [hds.feed, List.drop_left] at hd
  · obtain ⟨-, hengine⟩ := Prod.mk.inj (Option.some.inj hserved)
    cases hasks with
    | subscribeToMarketData htype hsymbol =>
      refine ⟨fun d hd j hj => ?_, fun d hd => ?_⟩
      · rw [← hengine] at hd
        obtain hd | ⟨hself, cb, update, rfl, rfl⟩ :=
          MatchingEngine.mem_listeners_subscribeToMarketData hd
        · exact hold d hd j hj
        · obtain rfl := Option.some.inj ((if_pos rfl).symm.trans hj)
          obtain ⟨hname, hdata⟩ := get?_updateMessage update
          rw [hself]
          exact .marketData hmem htype hsymbol hname hdata
      · rw [← hengine, MatchingEngine.subscribeToMarketData, List.drop_length] at hd
        exact absurd hd List.not_mem_nil
  · obtain ⟨-, hengine⟩ := Prod.mk.inj (Option.some.inj hserved)
    cases hasks with
    | subscribeToTrades htype hsymbol =>
      refine ⟨fun d hd j hj => ?_, fun d hd => ?_⟩
      · rw [← hengine] at hd
        obtain hd | ⟨hself, cb, t, rfl, rfl⟩ := MatchingEngine.mem_listeners_subscribeToTrades hd
        · exact hold d hd j hj
        · obtain rfl := Option.some.inj ((if_pos rfl).symm.trans hj)
          rw [hself]
          exact .trades hmem htype hsymbol rfl rfl
      · rw [← hengine, MatchingEngine.subscribeToTrades, List.drop_length] at hd
        exact absurd hd List.not_mem_nil

theorem Addressed.step (h : Addressed l₀ events l) (hstep : l.Step event l') :
    Addressed l₀ (events ++ [event]) l' := by
  have hrun := h.run.snoc hstep
  have hkept (hengine : l'.engine = l.engine) (d : Delivery)
      (hd : d.subscriber ∈ l'.engine.listeners d) (j : Json)
      (hj : dataMessage d.subscriber d = some j) :
      Requested l₀ (events ++ [event]) d.subscriber j :=
    (h.registered d (hengine ▸ hd) j hj).mono event
  cases event with
  | accept =>
    obtain ⟨fuel, hnext⟩ := hstep
    obtain rfl := Option.some.inj hnext
    exact ⟨hrun, hkept rfl, fun p hp => (h.sent p hp).mono _⟩
  | close session =>
    obtain ⟨fuel, hnext⟩ := hstep
    obtain rfl := Option.some.inj hnext
    exact ⟨hrun, hkept rfl, fun p hp => (h.sent p hp).mono _⟩
  | message session created now parsed =>
    obtain ⟨replies, hreads⟩ := hstep.message_cases
    have hreplied := fun j hj => hstep.repliesWith hreads (j := j) hj
    obtain ⟨hregistered, hdata, hreplies⟩ : _ ∧ (∀ d ∈ l'.engine.feed.drop l.engine.feed.length,
        d.subscriber ∈ l.engine.listeners d) ∧ ∀ j ∈ replies,
          Requested l₀ (events ++ [.message session created now parsed]) session j := by
      obtain ⟨hsame, hstatus, -⟩ | ⟨fuel, accept, request, c, hparsed, hasks, hserved⟩ :=
        hreads.engine
      · refine ⟨hkept hsame, fun d hd => ?_, fun j hj => ?_⟩
        · rw [hsame, List.drop_length] at hd
          exact absurd hd List.not_mem_nil
        · exact .reply rfl h.run (hreplied j hj) (hstatus j hj)
      · subst hparsed
        obtain ⟨hregistered, hdata⟩ := h.served hasks hserved
        exact ⟨hregistered, hdata, h.answered hasks hserved hreplied⟩
    refine ⟨hrun, hregistered, fun p hp => ?_⟩
    rw [hreads.sent, List.mem_append, List.mem_append] at hp
    rcases hp with (hp | hp) | hp
    · exact (h.sent p hp).mono _
    · obtain ⟨d, hd, hcallback⟩ := List.mem_filterMap.mp hp
      unfold callback at hcallback
      obtain ⟨-, hsome⟩ := Option.ite_none_right_eq_some.mp hcallback
      obtain ⟨j, hj, rfl⟩ := Option.map_eq_some_iff.mp hsome
      exact (h.registered d (hdata d hd) j hj).mono _
    · obtain ⟨j, hj, rfl⟩ := List.mem_map.mp hp
      exact hreplies j hj

theorem addressed_start (mem : Memory) (hashOrder : HashOrder) (feeModel : Option FeeModel)
    (file : Option (List Json)) : Addressed (start mem hashOrder feeModel file) []
      (start mem hashOrder feeModel file) := by
  refine ⟨.nil, fun d hd => ?_, fun p hp => absurd hp List.not_mem_nil⟩
  have hnobody : (start mem hashOrder feeModel file).engine.listeners d = [] := by
    cases file <;> cases d <;> rfl
  rw [hnobody] at hd
  exact absurd hd List.not_mem_nil

/-- A session that is gone does not come back, and is sent nothing. -/
theorem Step.silent (h : l.Step event l') (hgone : s ∉ l.sessions) (hold : s < l.accepted) :
    s ∉ l'.sessions ∧ s < l'.accepted ∧ l'.sentTo s = l.sentTo s := by
  cases event with
  | accept =>
    obtain ⟨fuel, hnext⟩ := h
    obtain rfl := Option.some.inj hnext
    refine ⟨fun hmem => ?_, Nat.lt_succ_of_lt hold, rfl⟩
    rcases List.mem_append.mp hmem with hmem | hmem
    · exact hgone hmem
    · exact hold.ne (List.mem_singleton.mp hmem)
  | close session =>
    obtain ⟨fuel, hnext⟩ := h
    obtain rfl := Option.some.inj hnext
    exact ⟨fun hmem => hgone (List.mem_filter.mp hmem).1, hold, rfl⟩
  | message session created now parsed =>
    obtain ⟨replies, hreads⟩ := h.message_cases
    have hne : s ≠ session := fun heq => hgone (heq ▸ hreads.connected)
    refine ⟨hreads.sessions ▸ hgone, hreads.accepted ▸ hold, ?_⟩
    rw [hreads.sentTo, if_neg hgone, if_neg hne, List.append_nil, List.append_nil]

/-- **A session sends the replies to its own messages, and the data of symbols that it subscribed to
itself. When it has been closed it sends nothing.** -/
theorem requested_of_run (hrun : Run Step (start mem hashOrder feeModel file) events l) :
    (∀ p ∈ l.sent, Requested (start mem hashOrder feeModel file) events p.1 p.2) ∧
      ∀ session ∉ l.sessions, session < l.accepted → ∀ (later : List Event) (l' : Listener),
        Run Step l later l' → l'.sentTo session = l.sentTo session := by
  constructor
  · have haddressed : Addressed (start mem hashOrder feeModel file) events l :=
      hrun.history (Addressed _) (addressed_start mem hashOrder feeModel file)
        fun _ _ _ _ h hstep => h.step hstep
    exact haddressed.sent
  · intro session hgone hold later l' hlater
    have hsilent : session ∉ l'.sessions ∧ session < l'.accepted ∧
        l'.sentTo session = l.sentTo session := by
      refine hlater.invariant (fun l' => session ∉ l'.sessions ∧ session < l'.accepted ∧
        l'.sentTo session = l.sentTo session) ⟨hgone, hold, rfl⟩ ?_
      rintro l₁ event l₂ ⟨hgone, hold, hsame⟩ hstep
      obtain ⟨hgone', hold', hsame'⟩ := hstep.silent hgone hold
      exact ⟨hgone', hold', hsame'.trans hsame⟩
    exact hsilent.2.2

/-- A session subscribes and is closed. -/
theorem requested_of_run_closed : ∃ l, Run Step (start .empty .plain none none)
    [.accept, .message 0 0 0 (.ok (.obj [("type", .str "subscribe_trades"), ("symbol", .str "S")])),
      .close 0] l ∧ l.engine.tradeSubscribers.lookup "S" = some [0] ∧ l.sentTo 0 ≠ [] ∧
    ∀ (later : List Event) (l' : Listener), Run Step l later l' → l'.sentTo 0 = l.sentTo 0 := by
  let final := Run.exec (fun l event => (next 3 l event).map (event, ·))
    (start .empty .plain none none) [.accept,
      .message 0 0 0 (.ok (.obj [("type", .str "subscribe_trades"), ("symbol", .str "S")])),
      .close 0]
  have hsome : final.map (fun p => decide (p.2.sessions = [] ∧ 0 < p.2.accepted ∧
      p.2.engine.tradeSubscribers.lookup "S" = some [0] ∧ (p.2.sentTo 0).length = 1)) =
        some true := by decide +kernel
  obtain ⟨⟨events, l⟩, hfinal, hseen⟩ := Option.map_eq_some_iff.mp hsome
  obtain ⟨hsessions, haccepted, hregistered, hlength⟩ := of_decide_eq_true hseen
  obtain rfl := Run.exec_events hfinal
  have hrun := run_of_exec hfinal
  refine ⟨l, hrun, hregistered, fun hnil => ?_, (requested_of_run hrun).2 0 ?_ haccepted⟩
  · rw [hnil] at hlength
    cases hlength
  · rw [hsessions]
    exact List.not_mem_nil

end Listener

end GoQuant
