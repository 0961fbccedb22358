import GoQuant.Listener.Client

/-!
# The trades that clients hear of

The listener submits no trigger orders, so that every trade is executed by a submitted order and
published by the same call. A session whose client subscribes once to the trades of a symbol
therefore hands every later trade to `send` once, in the order of execution and under consecutive
numbers. The trades that come from activated trigger orders, which nobody hears of, do not occur
here. As before, delivery by the network is not modelled.

## Main definitions

* `Listener.heardTrades` — the trades of a symbol in the texts that a session was given to send.

## Main results

* `Listener.heardTrades_of_run` — they are those that were executed since it subscribed.
-/

namespace GoQuant

open WebSocketSession

namespace MatchingEngine

variable {e e' : MatchingEngine} {cb : Subscriber} {symbol s : String} {fuel : ℕ} {c : Call}
  {ts : List Trade}

theorem executedFor_append (h : e'.executed = e.executed ++ ts.map (s, ·)) (symbol : String) :
    e'.executedFor symbol = e.executedFor symbol ++ if s = symbol then ts else [] := by
  have hnew : ((ts.map (s, ·)).filter fun p => p.1 = symbol).map Prod.snd =
      if s = symbol then ts else [] := by
    split_ifs with hs
    · rw [List.filter_eq_self.mpr fun p hp => ?_, List.map_map]
      · exact List.map_id ts
      · obtain ⟨t, -, rfl⟩ := List.mem_map.mp hp
        simpa using hs
    · refine List.map_eq_nil_iff.mpr (List.filter_eq_nil_iff.mpr fun p hp => ?_)
      obtain ⟨t, -, rfl⟩ := List.mem_map.mp hp
      simpa using hs
  rw [executedFor, h, List.filter_append, List.map_append, hnew]
  rfl

/-- The number of the last trade is how many there are. -/
structure Counts (e : MatchingEngine) : Prop where
  labelled : e.Labelled
  untriggered : e.Untriggered
  lastNumber : ∀ symbol, e.lastNumber symbol = (e.executedFor symbol).length

/-- What a call does to the trades of a symbol, and to those who listen to them. -/
structure Extends (cb : Subscriber) (symbol : String) (e e' : MatchingEngine) : Prop where
  counts : e'.Counts
  tape : ∃ ts, e'.executedFor symbol = e.executedFor symbol ++ ts ∧
    e'.tape cb symbol = e.tape cb symbol ++
      (numberedFrom (e.executedFor symbol).length ts).flatMap
        (List.replicate (e.listens cb symbol))

theorem Counts.call (h : e.Counts) (hkind : ∀ o, c = .submit true o → o.type.Matchable)
    (hcall : e.call fuel c = some e') (cb : Subscriber) (symbol : String) :
    Extends cb symbol e e' := by
  have hlabelled : e'.Labelled := labelled_sections.call hcall h.labelled
  have huntriggered : e'.Untriggered := untriggered_sections.call hkind hcall h.untriggered
  obtain ⟨s, ts, hexecuted, hprints⟩ | ⟨symbol', cb', rfl⟩ :=
    call_prints h.labelled h.untriggered hkind hcall
  · have hfor := executedFor_append hexecuted
    refine ⟨⟨hlabelled, huntriggered, fun symbol' => ?_⟩, _, hfor symbol, ?_⟩
    · rw [(hprints symbol').lastNumber, h.lastNumber, hfor, List.length_append]
    · rw [(hprints symbol).tape cb, h.lastNumber]
  · obtain rfl := Option.some.inj hcall
    exact ⟨⟨hlabelled, huntriggered, h.lastNumber⟩, [], (List.append_nil _).symm,
      (List.append_nil _).symm⟩

/-- Who listens after a call listened before, or subscribes with it. -/
theorem listens_call (h : e.call fuel c = some e') :
    (c ≠ .subscribeToTrades symbol cb → e'.listens cb symbol = e.listens cb symbol) ∧
      (c = .subscribeToTrades symbol cb → e'.listens cb symbol = e.listens cb symbol + 1) := by
  obtain ⟨ds, hds⟩ | ⟨symbol', cb', rfl⟩ | ⟨symbol', cb', rfl⟩ := call_sends h
  · have hsame : e'.listens cb symbol = e.listens cb symbol := by
      rw [listens, hds.tradeSubscribers]
      rfl
    refine ⟨fun _ => hsame, ?_⟩
    rintro rfl
    obtain rfl := Option.some.inj h
    have hlength := congrArg (fun subscribers => ((subscribers.lookup symbol).getD []).length)
      hds.tradeSubscribers
    simp [MatchingEngine.subscribeToTrades] at hlength
  · obtain rfl := Option.some.inj h
    exact ⟨fun _ => rfl, fun hc => Call.noConfusion hc⟩
  · obtain rfl := Option.some.inj h
    constructor
    · intro hne
      simp only [listens, MatchingEngine.subscribeToTrades]
      by_cases hs : symbol = symbol'
      · subst hs
        have hcb : cb' ≠ cb := fun heq => hne (heq ▸ rfl)
        rw [AList.lookup_insert, Option.getD_some, List.count_append,
          List.count_singleton, if_neg (by simpa using hcb), Nat.add_zero]
      · rw [AList.lookup_insert_ne hs]
    · rintro hc
      injection hc with hs hcb
      subst hs hcb
      simp [listens, MatchingEngine.subscribeToTrades]

end MatchingEngine

namespace Listener

open MatchingEngine Client

variable {fuel : ℕ} {l₀ l l₁ l' : Listener} {session s : Subscriber} {created now : ℚ}
  {parsed : Except ByteArray Json} {event : Event} {events later : List Event}
  {replies : List Json} {symbol : String} {c : Call} {j : Json}
  {mem : Memory} {hashOrder : HashOrder} {feeModel : Option FeeModel} {file : Option (List Json)}

/-- The trades of a symbol in the texts that a session was given to send, as its client reads
them. -/
def heardTrades (l : Listener) (session : Subscriber) (symbol : String) : List Trade :=
  (l.sentTo session).filterMap (tradeIn symbol)

/-- The message subscribes a session to the trades of a symbol. -/
def SubscribesToTrades (s : Subscriber) (symbol : String) : Event → Prop
  | .message session _ _ (.ok j) => session = s ∧
      j.get? "type" = some (.str "subscribe_trades") ∧ j.get? "symbol" = some (.str symbol)
  | _ => False

theorem tradeIn_dataMessage (s : Subscriber) (symbol : String) (d : Delivery) :
    (dataMessage s d).bind (tradeIn symbol) = d.tradeFor s symbol := by
  cases d with
  | marketData subscriber update =>
    by_cases hs : subscriber = s
    · rw [dataMessage, if_pos hs, Option.bind_some, tradeIn_updateMessage]
      rfl
    · rw [dataMessage, if_neg hs]
      rfl
  | trade subscriber t =>
    by_cases hs : subscriber = s
    · rw [dataMessage, if_pos hs, Option.bind_some, tradeIn_tradeMessage]
      by_cases hsymbol : t.symbol = symbol <;> simp [Delivery.tradeFor, hs, hsymbol]
    · rw [dataMessage, if_neg hs]
      simp [Delivery.tradeFor, hs]

/-- A reply is no trade. -/
theorem tradeIn_served {e e' : MatchingEngine} (h : served fuel e c = some (replies, e')) :
    replies.filterMap (tradeIn symbol) = [] := by
  obtain hstatus | ⟨symbol', cb, reply, -, hstatus, rfl⟩ := status_of_served h
  · exact List.filterMap_eq_nil_iff.mpr fun reply hreply => tradeIn_of_status (hstatus reply hreply)
  · rw [List.filterMap_cons_none (tradeIn_of_status hstatus),
      List.filterMap_cons_none (tradeIn_updateMessage _), List.filterMap_nil]

theorem asks_matchable {accept : Bool} (hasks : Asks accept session j c) (o : Order)
    (hc : c = .submit true o) : o.type.Matchable := by
  subst hc
  cases hasks with
  | submit _ _ hpasses => exact hpasses.type

/-- What happens to the trades that a connected session hears of, while it stays connected. The
trades executed meanwhile are sent once for each time it is registered. -/
structure Hears (s : Subscriber) (symbol : String) (event : Event) (l l' : Listener) : Prop where
  counts : l'.engine.Counts
  trades : ∃ ts, l'.engine.executedFor symbol = l.engine.executedFor symbol ++ ts ∧
    (s ∈ l.sessions → l'.heardTrades s symbol = l.heardTrades s symbol ++
      (numberedFrom (l.engine.executedFor symbol).length ts).flatMap
        (List.replicate (l.engine.listens s symbol)))
  same : ¬ SubscribesToTrades s symbol event →
    l'.engine.listens s symbol = l.engine.listens s symbol
  more : SubscribesToTrades s symbol event → symbol ≠ "" →
    l'.engine.listens s symbol = l.engine.listens s symbol + 1

theorem Step.hears (h : l.Step event l') (hcounts : l.engine.Counts) (s : Subscriber)
    (symbol : String) : Hears s symbol event l l' := by
  have hidle {l' : Listener} (hengine : l'.engine = l.engine) (hsent : l'.sent = l.sent)
      (hevent : ¬ SubscribesToTrades s symbol event) : Hears s symbol event l l' := by
    refine ⟨hengine ▸ hcounts, ⟨[], ?_, fun _ => ?_⟩, fun _ => by rw [hengine],
      fun hsub => absurd hsub hevent⟩
    · rw [hengine, List.append_nil]
    · rw [heardTrades, sentTo, hsent]
      exact (List.append_nil _).symm
  cases event with
  | accept =>
    obtain ⟨fuel, hnext⟩ := h
    obtain rfl := Option.some.inj hnext
    exact hidle rfl rfl id
  | close session =>
    obtain ⟨fuel, hnext⟩ := h
    obtain rfl := Option.some.inj hnext
    exact hidle rfl rfl id
  | message session created now parsed =>
    obtain ⟨replies, hreads⟩ := h.message_cases
    obtain ⟨hengine, hstatus, accept, hnone⟩ | ⟨fuel, accept, j, c, rfl, hasks, hserved⟩ :=
      hreads.engine
    · have hfeed : l'.engine.feed = l.engine.feed ++ [] := by rw [hengine, List.append_nil]
      refine ⟨hengine ▸ hcounts, ⟨[], ?_, fun hs => ?_⟩, fun _ => by rw [hengine],
        fun hsub hne => ?_⟩
      · rw [hengine, List.append_nil]
      · have hreplies : replies.filterMap (tradeIn symbol) = [] :=
          List.filterMap_eq_nil_iff.mpr fun reply hreply =>
            tradeIn_of_status (hstatus reply hreply)
        rw [heardTrades, hreads.filterMap_sentTo hs hfeed (tradeIn_dataMessage s symbol), hreplies,
          ite_self, List.filterMap_nil, List.append_nil]
        rfl
      · cases parsed with
        | error => exact hsub.elim
        | ok j =>
          obtain ⟨-, htype, hsymbol⟩ := hsub
          exact absurd (.subscribeToTrades htype hsymbol hne) (hnone j _ rfl)
    · have hcall := call_of_served hserved
      obtain ⟨ds, hfeed⟩ := call_feed hcall
      obtain ⟨hcounts', ts, hexecuted, htape⟩ :=
        hcounts.call (asks_matchable hasks) hcall s symbol
      obtain ⟨hsame, hmore⟩ := @listens_call _ _ s symbol _ _ hcall
      refine ⟨hcounts', ⟨ts, hexecuted, fun hs => ?_⟩, fun hnot => hsame fun hc => hnot ?_,
        fun hsub hne => hmore ?_⟩
      · have hnew : ds.filterMap (Delivery.tradeFor s symbol) =
            (numberedFrom (l.engine.executedFor symbol).length ts).flatMap
              (List.replicate (l.engine.listens s symbol)) := by
          rw [tape, hfeed, List.filterMap_append] at htape
          exact List.append_cancel_left htape
        rw [heardTrades, hreads.filterMap_sentTo hs hfeed (tradeIn_dataMessage s symbol), hnew,
          tradeIn_served hserved, ite_self, List.append_nil]
        rfl
      · subst hc
        cases hasks with
        | subscribeToTrades htype hsymbol => exact ⟨rfl, htype, hsymbol⟩
      · obtain ⟨rfl, htype, hsymbol⟩ := hsub
        let m : Message := ⟨.ok j, session, accept⟩
        have hthis : m.Asks c := ⟨j, rfl, hasks⟩
        exact (hthis.unique ⟨j, rfl, .subscribeToTrades htype hsymbol hne⟩).symm

/-! ## Before the subscription -/

theorem readTrade_eq_ok {t : Trade} (h : readTrade j = .ok t) :
    j.get? "type" = some (.str "trade") ∧ j.get? "symbol" = some (.str t.symbol) := by
  obtain ⟨v, hv, hword⟩ := Except.bind_eq_ok.mp h
  obtain ⟨type, htype, hread⟩ := Except.bind_eq_ok.mp hword
  obtain rfl := Json.getString_eq_ok.mp htype
  by_cases htrade : type = "trade"
  · subst htrade
    refine ⟨Json.atKey_eq_ok.mp hv, ?_⟩
    rw [if_neg (not_not_intro rfl)] at hread
    simp only [Except.bind_eq_ok, Json.atKey_eq_ok, Json.getString_eq_ok] at hread
    obtain ⟨_, _, _, _, _, hsymbol, symbol, rfl, hread⟩ := hread
    obtain ⟨_, _, _, _, _, _, _, _, _, _, _, _, _, _, _, _, hread⟩ := hread
    obtain ⟨_, _, _, _, _, _, _, _, _, _, _, _, _, _, _, _, hread⟩ := hread
    rw [← Except.ok.inj hread]
    exact hsymbol
  · rw [if_pos htrade] at hread
    cases hread

/-- A client that has not subscribed is not registered, and has heard of no trade. -/
theorem Addressed.unheard (h : Addressed l₀ events l)
    (hnone : ∀ event ∈ events, ¬ SubscribesToTrades s symbol event) :
    l.heardTrades s symbol = [] ∧ l.engine.listens s symbol = 0 := by
  constructor
  · refine List.filterMap_eq_nil_iff.mpr fun j hj => ?_
    obtain ⟨⟨s', j'⟩, hfiltered, rfl⟩ := List.mem_map.mp hj
    obtain ⟨hmem, hs⟩ := List.mem_filter.mp hfiltered
    obtain rfl : s' = s := of_decide_eq_true hs
    have hother (hread : ∀ t, readTrade j' = .ok t → t.symbol ≠ symbol) :
        tradeIn symbol j' = none := by
      unfold tradeIn
      cases hr : readTrade j' with
      | error => simp [Except.toOption]
      | ok t => simp [Except.toOption, Option.filter, hread t hr]
    cases h.sent (s', j') hmem with
    | reply _ _ _ hstatus => exact tradeIn_of_status hstatus
    | marketData _ _ _ _ hdata =>
      refine hother fun t hr => ?_
      rw [(readTrade_eq_ok hr).1] at hdata
      simp at hdata
    | trades hevent htype hsymbol hsame =>
      refine hother fun t hr heq => hnone _ hevent ⟨rfl, htype, ?_⟩
      rw [(readTrade_eq_ok hr).2] at hsame
      injection hsame with hsame
      injection hsame with hsame
      rw [hsymbol, ← hsame, heq]
  · refine List.count_eq_zero.mpr fun hmem => ?_
    let t : Trade := ⟨"", symbol, 0, 0, 0, 0, "", "", .buy, 0⟩
    cases h.registered (.trade s t) hmem (tradeMessage t) (if_pos rfl) with
    | reply _ _ _ hstatus => cases hstatus
    | marketData _ _ _ _ hdata =>
      have htrade : (tradeMessage t).get? "type" = some (.str "trade") := rfl
      rw [htrade] at hdata
      simp at hdata
    | trades hevent htype hsymbol hsame =>
      refine hnone _ hevent ⟨rfl, htype, ?_⟩
      have htrade : (tradeMessage t).get? "symbol" = some (.str symbol) := rfl
      rw [htrade] at hsame
      injection hsame with hsame
      injection hsame with hsame
      rw [hsymbol, hsame]

/-! ## Since the subscription -/

theorem counts_start (mem : Memory) (hashOrder : HashOrder) (feeModel : Option FeeModel)
    (file : Option (List Json)) : (start mem hashOrder feeModel file).engine.Counts where
  labelled := labelled_startWAL mem hashOrder feeModel file
  untriggered symbol := by cases file <;> rfl
  lastNumber symbol := by cases file <;> rfl

/-- A connected session was connected before, or has just been accepted. -/
theorem Step.connected (h : l.Step event l') (hs : s ∈ l'.sessions) :
    s ∈ l.sessions ∨ s = l.accepted := by
  cases event with
  | accept =>
    obtain ⟨fuel, hnext⟩ := h
    obtain rfl := Option.some.inj hnext
    exact (List.mem_append.mp hs).imp_right List.mem_singleton.mp
  | close session =>
    obtain ⟨fuel, hnext⟩ := h
    obtain rfl := Option.some.inj hnext
    exact Or.inl (List.mem_filter.mp hs).1
  | message session created now parsed =>
    obtain ⟨replies, hreads⟩ := h.message_cases
    exact Or.inl (hreads.sessions ▸ hs)

theorem Step.accepted_le (h : l.Step event l') : l.accepted ≤ l'.accepted := by
  cases event with
  | accept =>
    obtain ⟨fuel, hnext⟩ := h
    obtain rfl := Option.some.inj hnext
    exact Nat.le_succ _
  | close session =>
    obtain ⟨fuel, hnext⟩ := h
    obtain rfl := Option.some.inj hnext
    exact le_rfl
  | message session created now parsed =>
    obtain ⟨replies, hreads⟩ := h.message_cases
    exact hreads.accepted.ge

/-- A client that is registered once, and has heard of all trades but the first ones. -/
structure Keeps (s : Subscriber) (symbol : String) (n : ℕ) (l : Listener) : Prop where
  counts : l.engine.Counts
  accepted : s < l.accepted
  first : n ≤ (l.engine.executedFor symbol).length
  once : l.engine.listens s symbol = 1
  heard : s ∈ l.sessions →
    l.heardTrades s symbol = (numberedFrom 0 (l.engine.executedFor symbol)).drop n

theorem Keeps.step {n : ℕ} (h : Keeps s symbol n l) (hstep : l.Step event l')
    (hnot : ¬ SubscribesToTrades s symbol event) : Keeps s symbol n l' := by
  have hhears := hstep.hears h.counts s symbol
  obtain ⟨ts, hexecuted, hheard⟩ := hhears.trades
  have hlength : (l.engine.executedFor symbol).length ≤ (l'.engine.executedFor symbol).length := by
    rw [hexecuted, List.length_append]
    exact Nat.le_add_right _ _
  refine ⟨hhears.counts, h.accepted.trans_le hstep.accepted_le, h.first.trans hlength,
    (hhears.same hnot).trans h.once, fun hs => ?_⟩
  have hs' := (hstep.connected hs).resolve_right h.accepted.ne
  have hone (ts : List Trade) : ts.flatMap (List.replicate 1) = ts := by
    induction ts with
    | nil => rfl
    | cons t ts ih => rw [List.flatMap_cons, ih]; rfl
  rw [hheard hs', h.heard hs', h.once, hone, hexecuted, numberedFrom_append, Nat.zero_add,
    List.drop_append_of_le_length]
  rw [numberedFrom, List.length_mapIdx]
  exact h.first

/-- **A client that subscribes once to the trades of a symbol is sent every trade that is executed
from then on, once, in the order of execution**, and under the number that counts the executions
of the symbol, whatever all sessions send, as long as it stays connected. The trades are those of
the texts handed to `send`. -/
theorem heardTrades_of_run (hrun : Run Step (start mem hashOrder feeModel file) events l)
    (hstep : l.Step event l₁) (hsubscribes : SubscribesToTrades s symbol event) (hne : symbol ≠ "")
    (hrun' : Run Step l₁ later l') (hs : s ∈ l'.sessions)
    (honce : ∀ event ∈ events ++ later, ¬ SubscribesToTrades s symbol event) :
    l'.heardTrades s symbol = (numberedFrom 0 (l'.engine.executedFor symbol)).drop
      (l₁.engine.executedFor symbol).length := by
  have hcounts : l.engine.Counts :=
    hrun.invariant (fun l => l.engine.Counts) (counts_start mem hashOrder feeModel file)
      fun _ _ _ h hstep => (hstep.hears h s symbol).counts
  have hbefore : Addressed (start mem hashOrder feeModel file) events l ∧ Informed events l :=
    hrun.history (fun events l => Addressed _ events l ∧ Informed events l)
      ⟨addressed_start mem hashOrder feeModel file, informed_start mem hashOrder feeModel file⟩
      fun _ _ _ _ h hstep => ⟨h.1.step hstep, h.2.step hstep⟩
  obtain ⟨hnothing, hnobody⟩ :=
    hbefore.1.unheard fun event hevent => honce event (List.mem_append_left _ hevent)
  have hhears := hstep.hears hcounts s symbol
  have hconnected : s ∈ l.sessions := by
    cases event with
    | message session created now parsed =>
      cases parsed with
      | error => exact hsubscribes.elim
      | ok j =>
        obtain ⟨replies, hreads⟩ := hstep.message_cases
        exact hsubscribes.1 ▸ hreads.connected
    | _ => exact hsubscribes.elim
  have hkeeps : Keeps s symbol (l₁.engine.executedFor symbol).length l₁ := by
    obtain ⟨ts, -, hheard⟩ := hhears.trades
    refine ⟨hhears.counts, (hbefore.2.accepted s hconnected).trans_le hstep.accepted_le, le_rfl,
      ?_, fun _ => ?_⟩
    · rw [hhears.more hsubscribes hne, hnobody]
    · rw [hheard hconnected, hnothing, hnobody, List.drop_eq_nil_of_le]
      · simp
      · rw [numberedFrom, List.length_mapIdx]
  have hlater : Keeps s symbol (l₁.engine.executedFor symbol).length l' := by
    refine hrun'.history (fun later l' => (∀ event ∈ later, ¬ SubscribesToTrades s symbol event) →
      Keeps s symbol (l₁.engine.executedFor symbol).length l') (fun _ => hkeeps) ?_
      fun event hevent => honce event (List.mem_append_right _ hevent)
    intro later l₂ event l₃ h hstep hnot
    exact (h fun event hevent => hnot event (List.mem_append_left _ hevent)).step hstep
      (hnot event (List.mem_append_right _ (List.mem_singleton_self _)))
  exact hlater.heard hs

def askRequest (id : String) : Json :=
  .obj [("type", .str "submit_order"), ("id", .str id), ("symbol", .str "S"),
    ("side", .str "sell"), ("order_type", .str "limit"), ("quantity", .num 2), ("price", .num 10)]

def bidRequest (id : String) : Json :=
  .obj [("type", .str "submit_order"), ("id", .str id), ("symbol", .str "S"),
    ("side", .str "buy"), ("order_type", .str "ioc"), ("quantity", .num 2), ("price", .num 10)]

def tradesRequest : Json := .obj [("type", .str "subscribe_trades"), ("symbol", .str "S")]

/-- A trade before a client subscribes, and one after. -/
def tradeEvents : List Event := [.accept, .accept, .message 1 0 0 (.ok (askRequest "a")),
  .message 1 0 0 (.ok (bidRequest "b"))]

def laterTradeEvents : List Event := [.message 1 1 1 (.ok (askRequest "c")),
  .message 1 1 1 (.ok (bidRequest "d")), .close 1]

theorem heardTrades_of_run_late : ∃ l : Listener, (l.heardTrades 0 "S").map
      (fun t => (t.seqNum, t.makerOrderId, t.takerOrderId)) = [(2, "c", "d")] ∧
    (l.engine.executedFor "S").length = 2 ∧
    l.heardTrades 0 "S" = (numberedFrom 0 (l.engine.executedFor "S")).drop 1 := by
  let exec (l : Listener) := Run.exec (fun l event => (next 3 l event).map (event, ·)) l
  let subscription : Event := .message 0 0 0 (.ok tradesRequest)
  let before := exec (start .empty .plain none none) tradeEvents
  let after := before.bind fun p => (next 3 p.2 subscription).bind fun l =>
    (exec l laterTradeEvents).map fun q => decide ((l.engine.executedFor "S").length = 1 ∧
      q.2.sessions = [0] ∧ (q.2.engine.executedFor "S").length = 2 ∧ (q.2.heardTrades 0 "S").map
        (fun t => (t.seqNum, t.makerOrderId, t.takerOrderId)) = [(2, "c", "d")])
  have hsome : after = some true := by decide +kernel
  obtain ⟨⟨events, l⟩, hbefore, hrest⟩ := Option.bind_eq_some_iff.mp hsome
  obtain ⟨l₁, hnext, hrest⟩ := Option.bind_eq_some_iff.mp hrest
  obtain ⟨⟨later, l'⟩, hafter, hseen⟩ := Option.map_eq_some_iff.mp hrest
  obtain ⟨hone, hsessions, htwo, hheard⟩ := of_decide_eq_true hseen
  obtain rfl := Run.exec_events hbefore
  obtain rfl := Run.exec_events hafter
  have hconnected : 0 ∈ l'.sessions := hsessions ▸ List.mem_singleton_self 0
  have honce : ∀ event ∈ tradeEvents ++ laterTradeEvents,
      ¬ SubscribesToTrades 0 "S" event := by
    simp [tradeEvents, laterTradeEvents, SubscribesToTrades]
  have htrades := heardTrades_of_run (run_of_exec hbefore) ⟨3, hnext⟩
    ⟨rfl, rfl, rfl⟩ (by decide) (run_of_exec hafter) hconnected honce
  exact ⟨l', hheard, htwo, hone ▸ htrades⟩

end Listener

end GoQuant
