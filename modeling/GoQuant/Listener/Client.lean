import GoQuant.Listener.Sessions

/-!
# What the clients see

A client reads the texts that its session hands to `send`, in that order, and keeps the levels of a
symbol: a snapshot replaces them, and an increment is applied to them. It passes over replies, and
over the data of other symbols. After every message that the listener handles, the clients of all
sessions that are connected and subscribed hold the levels that the book shows. This is about what
is given to the network; how the network brings it to the client is not modelled.

## Main definitions

* `Client.readUpdate`, `Client.readTrade` — the data that a message carries.
* `Listener.heard` — the market data of a symbol in the texts that a session was given to send.

## Main results

* `Client.readUpdate_updateMessage`, `Client.readTrade_tradeMessage` — messages can be read back.
* `Listener.held_of_run` — what the clients hold.
-/

namespace GoQuant

open WebSocketSession

/-! ## Reading messages -/

namespace Client

/-- An array is read element by element. -/
def readArray {α : Type} (read : Json → Except String α) : Json → Except String (List α)
  | .arr items => items.mapM read
  | _ => .error "no array"

/-- A truth value. -/
def readBool : Json → Except String Bool
  | .bool b => .ok b
  | _ => .error "no truth value"

/-- A price and a quantity. -/
def readLevel : Json → Except String (ℚ × ℚ)
  | .arr [.num price, .num quantity] => .ok (price, quantity)
  | _ => .error "no level"

/-- A change of a level. -/
def readChange (j : Json) : Except String LevelChange := do
  let price ← (← j.atKey "price").getDouble
  match ← (← j.atKey "op").getString with
  | "add" => return ⟨.add, price, ← (← j.atKey "quantity").getDouble⟩
  | "update" => return ⟨.update, price, ← (← j.atKey "quantity").getDouble⟩
  | _ => return ⟨.remove, price, 0⟩

/-- A market-data message. -/
def readUpdate (j : Json) : Except String MarketDataUpdate := do
  let update : MarketDataUpdate :=
    { symbol := ← (← j.atKey "symbol").getString
      bestBidPrice := ← (← j.atKey "bestBidPrice").getDouble
      bestBidQuantity := ← (← j.atKey "bestBidQuantity").getDouble
      bestAskPrice := ← (← j.atKey "bestAskPrice").getDouble
      bestAskQuantity := ← (← j.atKey "bestAskQuantity").getDouble
      seqNum := (← (← j.atKey "seqNum").getInt).toNat
      type := .snapshot }
  match ← (← j.atKey "type").getString with
  | "market_data_snapshot" =>
    return { update with
      bids := ← readArray readLevel (← j.atKey "bids")
      asks := ← readArray readLevel (← j.atKey "asks") }
  | "market_data_increment" =>
    return { update with
      type := .increment
      prevSeqNum := (← (← j.atKey "prevSeqNum").getInt).toNat
      gap := ← readBool (← j.atKey "gap")
      bidsChanges := ← readArray readChange (← j.atKey "bids_changes")
      asksChanges := ← readArray readChange (← j.atKey "asks_changes") }
  | _ => .error "no market data"

/-- The word for a side. -/
def readSide : String → Side
  | "buy" => .buy
  | _ => .sell

/-- A trade message. -/
def readTrade (j : Json) : Except String Trade := do
  let type ← (← j.atKey "type").getString
  if type ≠ "trade" then .error "no trade"
  else return {
    tradeId := ← (← j.atKey "trade_id").getString
    symbol := ← (← j.atKey "symbol").getString
    price := ← (← j.atKey "price").getDouble
    quantity := ← (← j.atKey "quantity").getDouble
    makerFee := ← (← j.atKey "maker_fee").getDouble
    takerFee := ← (← j.atKey "taker_fee").getDouble
    makerOrderId := ← (← j.atKey "maker_order_id").getString
    takerOrderId := ← (← j.atKey "taker_order_id").getString
    aggressorSide := readSide (← (← j.atKey "aggressor_side").getString)
    seqNum := (← (← j.atKey "seqNum").getInt).toNat }

end Client

/-- What a message tells about a change: not the quantity of a level that is removed. -/
def LevelChange.shown (c : LevelChange) : LevelChange :=
  match c.op with
  | .remove => { c with quantity := 0 }
  | _ => c

/-- What a message tells about the levels of a symbol. -/
def MarketDataUpdate.shown (u : MarketDataUpdate) : MarketDataUpdate :=
  match u.type with
  | .snapshot => { u with bidsChanges := [], asksChanges := [], prevSeqNum := 0, gap := false }
  | .increment => { u with
      bids := []
      asks := []
      bidsChanges := u.bidsChanges.map LevelChange.shown
      asksChanges := u.asksChanges.map LevelChange.shown }

@[simp] theorem MarketDataUpdate.symbol_shown (u : MarketDataUpdate) :
    u.shown.symbol = u.symbol := by
  unfold shown
  split <;> rfl

namespace Client

variable {u : MarketDataUpdate} {t : Trade} {j : Json}

theorem readArray_map {α : Type} {read : Json → Except String α} {write : α → Json} {shown : α → α}
    (h : ∀ a, read (write a) = .ok (shown a)) (as : List α) :
    readArray read (.arr (as.map write)) = .ok (as.map shown) := by
  change (as.map write).mapM read = .ok (as.map shown)
  induction as with
  | nil => rfl
  | cons a as ih =>
    rw [List.map_cons, List.mapM_cons, h, ih]
    rfl

theorem readArray_levelsJson (levels : List (ℚ × ℚ)) :
    readArray readLevel (levelsJson levels) = .ok levels := by
  have hread := @readArray_map _ readLevel (fun level => .arr [.num level.1, .num level.2]) id
    (fun _ => rfl) levels
  rwa [List.map_id] at hread

theorem readChange_changeJson (c : LevelChange) : readChange (changeJson c) = .ok c.shown := by
  obtain ⟨op, price, quantity⟩ := c
  cases op <;> rfl

@[simp] theorem getInt_natCast (n : ℕ) : Json.getInt (.num n) = .ok n := Json.getInt_intCast n

/-- **A market-data message can be read back.** -/
theorem readUpdate_updateMessage (u : MarketDataUpdate) :
    readUpdate (updateMessage u) = .ok u.shown := by
  cases htype : u.type with
  | snapshot =>
    simp [readUpdate, updateMessage, htype, updateFields, Json.atKey, Json.getString,
      Json.getDouble, List.lookup_cons, readArray_levelsJson, MarketDataUpdate.shown, bind,
      Except.bind, pure, Except.pure]
  | increment =>
    simp [readUpdate, updateMessage, htype, updateFields, Json.atKey, Json.getString,
      Json.getDouble, List.lookup_cons, readArray_map readChange_changeJson, readBool,
      MarketDataUpdate.shown, bind, Except.bind, pure, Except.pure]

/-- **A trade message can be read back.** -/
theorem readTrade_tradeMessage (t : Trade) : readTrade (tradeMessage t) = .ok t := by
  have hside : readSide t.aggressorSide.name = t.aggressorSide := by cases t.aggressorSide <;> rfl
  simp [readTrade, tradeMessage, Json.atKey, Json.getString, Json.getDouble, List.lookup_cons,
    hside, bind, Except.bind, pure, Except.pure]

/-- The market data of a symbol in a message; replies are passed over. -/
def updateIn (symbol : String) (j : Json) : Option MarketDataUpdate :=
  if (status? j).isSome then none
  else (readUpdate j).toOption.filter fun u => u.symbol = symbol

/-- The trade of a symbol in a message. -/
def tradeIn (symbol : String) (j : Json) : Option Trade :=
  if (status? j).isSome then none
  else (readTrade j).toOption.filter fun t => t.symbol = symbol

variable {symbol : String}

theorem updateIn_updateMessage (u : MarketDataUpdate) : updateIn symbol (updateMessage u) =
    if u.symbol = symbol then some u.shown else none := by
  rw [updateIn, status?_updateMessage, readUpdate_updateMessage]
  simp [Except.toOption, Option.filter, MarketDataUpdate.symbol_shown]

theorem tradeIn_tradeMessage (t : Trade) : tradeIn symbol (tradeMessage t) =
    if t.symbol = symbol then some t else none := by
  have hstatus : status? (tradeMessage t) = none := rfl
  rw [tradeIn, hstatus, readTrade_tradeMessage]
  simp [Except.toOption, Option.filter]

theorem updateIn_tradeMessage (t : Trade) : updateIn symbol (tradeMessage t) = none := rfl

theorem tradeIn_updateMessage (u : MarketDataUpdate) : tradeIn symbol (updateMessage u) = none := by
  unfold updateMessage
  split <;> rfl

theorem updateIn_of_status (h : (status? j).isSome) : updateIn symbol j = none := if_pos h

theorem tradeIn_of_status (h : (status? j).isSome) : tradeIn symbol j = none := if_pos h

end Client

/-- The market data of a symbol that a callback is called with. -/
def Delivery.updateFor (cb : Subscriber) (symbol : String) (d : Delivery) :
    Option MarketDataUpdate :=
  match d with
  | .marketData subscriber update =>
    if subscriber = cb ∧ update.symbol = symbol then some update else none
  | .trade _ _ => none

namespace MarketDataUpdate

variable {u : MarketDataUpdate} {messages : List MarketDataUpdate} {depth depth' : Depth}

@[simp] theorem type_shown : u.shown.type = u.type := by
  unfold shown
  split <;> simp_all

theorem showsBest_shown : u.shown.ShowsBest depth ↔ u.ShowsBest depth := by
  have hbest : u.shown.best = u.best := by
    funext side
    unfold shown
    split <;> cases side <;> rfl
  rw [ShowsBest, ShowsBest, hbest]

theorem toChange_shown (c : LevelChange) : c.shown.toChange = c.toChange := by
  obtain ⟨op, price, quantity⟩ := c
  cases op <;> rfl

theorem applyTo_shown : u.shown.applyTo depth = u.applyTo depth := by
  funext side
  cases htype : u.type with
  | snapshot => cases side <;> simp [applyTo, shown, htype, levels]
  | increment =>
    have hchanges (cs : List LevelChange) :
        (cs.map LevelChange.shown).map LevelChange.toChange = cs.map LevelChange.toChange := by
      rw [List.map_map]
      exact List.map_congr_left fun c _ => toChange_shown c
    cases side <;> simp only [applyTo, shown, htype, changes, hchanges]

/-- What was heard before a snapshot is forgotten. -/
theorem held_append_of_snapshot {earlier : List MarketDataUpdate}
    (h : ∃ u ∈ messages.head?, u.type = .snapshot) :
    held (earlier ++ messages) = held messages := by
  obtain ⟨u, hu, htype⟩ := h
  obtain ⟨rest, rfl⟩ := List.head?_eq_some_iff.mp hu
  have hforget (depth depth' : Depth) : u.applyTo depth = u.applyTo depth' := by
    simp only [applyTo, htype]
  rw [held_append, List.foldl_cons, hforget (held earlier) fun _ => []]
  rfl

theorem held_shown (messages : List MarketDataUpdate) :
    held (messages.map shown) = held messages := by
  unfold held
  rw [List.foldl_map]
  exact congrArg (List.foldl · (fun _ => []) messages)
    (funext fun depth => funext fun u => applyTo_shown)

end MarketDataUpdate

namespace MatchingEngine

variable {e e' : MatchingEngine} {ds : List Delivery} {cb : Subscriber} {symbol : String}

theorem received_eq (e : MatchingEngine) (cb : Subscriber) (symbol : String) :
    e.received cb symbol = e.feed.filterMap (Delivery.updateFor cb symbol) := by
  unfold received updates
  induction e.feed with
  | nil => rfl
  | cons d ds ih =>
    cases d with
    | trade => exact ih
    | marketData subscriber update =>
      by_cases hfor : subscriber = cb ∧ update.symbol = symbol
      · rw [List.filterMap_cons_some (by exact rfl), List.filter_cons_of_pos (by simpa using hfor),
          List.map_cons, ih, List.filterMap_cons_some (by exact if_pos hfor)]
      · rw [List.filterMap_cons_some (by exact rfl), List.filter_cons_of_neg (by simpa using hfor),
          ih, List.filterMap_cons_none (by exact if_neg hfor)]

/-- A call appends to the feed. -/
theorem call_feed {fuel : ℕ} {c : Call} (h : e.call fuel c = some e') :
    ∃ ds, e'.feed = e.feed ++ ds := by
  obtain ⟨ds, hds⟩ | ⟨symbol, cb, rfl⟩ | ⟨symbol, cb, rfl⟩ := call_sends h
  · exact ⟨ds, hds.feed⟩
  · obtain rfl := Option.some.inj h
    exact ⟨[], (List.append_nil _).symm⟩
  · obtain rfl := Option.some.inj h
    exact ⟨[], (List.append_nil _).symm⟩

end MatchingEngine

namespace System

/-- A call that has returned leaves nothing to be done. -/
theorem Prepared.returned {e : MatchingEngine} (h : Prepared ⟨e, [[]]⟩) : Prepared ⟨e, []⟩ where
  apart := h.apart
  labelled := h.labelled
  sorted := h.sorted
  updates _ _ hu := absurd hu List.not_mem_nil
  followed _ htasks := absurd htasks List.not_mem_nil

end System

namespace Listener

open MatchingEngine Client

variable {fuel : ℕ} {l l' : Listener} {session s : Subscriber} {created now : ℚ}
  {parsed : Except ByteArray Json} {event : Event} {events : List Event} {replies : List Json}
  {symbol : String} {c : Call} {ds : List Delivery}
  {mem : Memory} {hashOrder : HashOrder} {feeModel : Option FeeModel} {file : Option (List Json)}

/-! ## What has been heard -/

/-- The market data of a symbol in the texts that a session was given to send, as its client reads
them. -/
def heard (l : Listener) (session : Subscriber) (symbol : String) : List MarketDataUpdate :=
  (l.sentTo session).filterMap (updateIn symbol)

/-- A client reads what the callbacks of its session are called with. -/
theorem updateIn_dataMessage (s : Subscriber) (symbol : String) (d : Delivery) :
    (dataMessage s d).bind (updateIn symbol) =
      (d.updateFor s symbol).map MarketDataUpdate.shown := by
  cases d with
  | trade subscriber t =>
    by_cases hs : subscriber = s
    · rw [dataMessage, if_pos hs, Option.bind_some, updateIn_tradeMessage]
      rfl
    · rw [dataMessage, if_neg hs]
      rfl
  | marketData subscriber update =>
    by_cases hs : subscriber = s
    · rw [dataMessage, if_pos hs, Option.bind_some, updateIn_updateMessage]
      by_cases hsymbol : update.symbol = symbol <;> simp [Delivery.updateFor, hs, hsymbol]
    · rw [dataMessage, if_neg hs]
      simp [Delivery.updateFor, hs]

theorem Reads.heard (h : Reads session parsed replies l l')
    (hfeed : l'.engine.feed = l.engine.feed ++ ds) (hs : s ∈ l.sessions) (symbol : String) :
    l'.heard s symbol = l.heard s symbol ++
      (ds.filterMap (Delivery.updateFor s symbol)).map MarketDataUpdate.shown ++
        if s = session then replies.filterMap (updateIn symbol) else [] := by
  rw [Listener.heard, h.filterMap_sentTo hs hfeed (updateIn_dataMessage s symbol),
    List.map_filterMap]
  rfl

theorem updateIn_replies (symbol : String) (h : ∀ reply ∈ replies, (status? reply).isSome) :
    replies.filterMap (updateIn symbol) = [] :=
  List.filterMap_eq_nil_iff.mpr fun reply hreply => updateIn_of_status (h reply hreply)

/-! ## The levels that clients hold -/

/-- A client has heard a snapshot, and everything that was published since. -/
def Follows (l : Listener) (s : Subscriber) (symbol : String) : Prop :=
  ∃ earlier messages, l.heard s symbol = earlier ++ messages.map MarketDataUpdate.shown ∧
    MatchingEngine.Follows s symbol messages l.engine ∧
      ∃ u ∈ messages.head?, u.type = .snapshot

/-- What holds after every message. Nobody is registered who has not been accepted, and who has
asked to be is. -/
structure Informed (events : List Event) (l : Listener) : Prop where
  prepared : System.Prepared ⟨l.engine, []⟩
  current : ∀ symbol, l.engine.lastPublished symbol = l.engine.visible symbol
  accepted : ∀ s ∈ l.sessions, s < l.accepted
  known : ∀ symbol, ∀ s ∈ (l.engine.marketDataSubscribers.lookup symbol).getD [], s < l.accepted
  follows : ∀ s ∈ l.sessions, ∀ symbol,
    s ∈ (l.engine.marketDataSubscribers.lookup symbol).getD [] → l.Follows s symbol
  registered : ∀ s created now j symbol, .message s created now (.ok j) ∈ events →
    j.get? "type" = some (.str "subscribe_market_data") → j.get? "symbol" = some (.str symbol) →
    symbol ≠ "" → s ∈ (l.engine.marketDataSubscribers.lookup symbol).getD []

/-- What was heard is heard on while a call is made. -/
theorem Follows.called (h : l.Follows s symbol) (hp : System.Prepared ⟨l.engine, []⟩)
    (hreads : Reads session parsed replies l l') (hs : s ∈ l.sessions)
    (hcall : l.engine.call fuel c = some l'.engine)
    (hnone : s = session → replies.filterMap (updateIn symbol) = []) : l'.Follows s symbol := by
  obtain ⟨earlier, messages, hheard, hfollows, hsnapshot⟩ := h
  obtain ⟨ds, hfeed⟩ := call_feed hcall
  obtain ⟨steps, hrun⟩ := System.freshRun_of_call hp.labelled hcall []
  obtain ⟨messages', hreceived, hfollows'⟩ := System.follows_of_run hrun hp hfollows
  have hmessages : messages' = ds.filterMap (Delivery.updateFor s symbol) := by
    have hboth : l'.engine.received s symbol = l.engine.received s symbol ++ messages' := hreceived
    rw [received_eq, hfeed, List.filterMap_append, ← received_eq] at hboth
    exact (List.append_cancel_left hboth).symm
  refine ⟨earlier, messages ++ messages', ?_, hfollows', ?_⟩
  · have hreplies : (if s = session then replies.filterMap (updateIn symbol) else []) = [] := by
      split_ifs with hself
      · exact hnone hself
      · rfl
    rw [hreads.heard hfeed hs, hreplies, List.append_nil, hheard, ← hmessages, List.map_append,
      List.append_assoc]
  · obtain ⟨u, hu, htype⟩ := hsnapshot
    obtain ⟨rest, rfl⟩ := List.head?_eq_some_iff.mp hu
    exact ⟨u, rfl, htype⟩

/-- A session that subscribes starts from the snapshot that it is sent. -/
theorem follows_subscribed
    (hcurrent : l.engine.lastPublished symbol = l.engine.visible symbol) {reply : Json}
    (hreads : Reads session parsed
      [reply, updateMessage (l'.engine.getMarketData symbol 10)] l l')
    (hstatus : (status? reply).isSome)
    (hengine : l'.engine = l.engine.subscribeToMarketData symbol session) :
    l'.Follows session symbol := by
  have hidle : System.Idle ⟨l.engine, []⟩ := fun tasks htasks => absurd htasks List.not_mem_nil
  have hstep : System.Step ⟨l.engine, []⟩ (.begin (.subscribeToMarketData symbol session))
      ⟨l.engine.subscribeToMarketData symbol session, [[]]⟩ := @System.Step.begin _ 0 _ _ _ rfl
  obtain ⟨-, hfollows⟩ := System.follows_subscribe (Or.inl hcurrent) hidle hstep
  have hfeed : l'.engine.feed = l.engine.feed ++ [] := by
    rw [hengine, List.append_nil]
    rfl
  refine ⟨l.heard session symbol, [l'.engine.getMarketData symbol 10], ?_, ?_, _, rfl, ?_⟩
  · rw [hreads.heard hfeed hreads.connected, if_pos rfl]
    have hdata : [reply, updateMessage (l'.engine.getMarketData symbol 10)].filterMap
        (updateIn symbol) = [(l'.engine.getMarketData symbol 10).shown] := by
      have hsome : updateIn symbol (updateMessage (l'.engine.getMarketData symbol 10)) =
          some (l'.engine.getMarketData symbol 10).shown := by
        rw [updateIn_updateMessage, if_pos (symbol_getMarketData _ _ _)]
      rw [List.filterMap_cons_none (updateIn_of_status hstatus), List.filterMap_cons_some hsome,
        List.filterMap_nil]
    rw [hdata, List.filterMap_nil, List.map_nil, List.append_nil, List.map_singleton]
  · rw [hengine]
    exact hfollows
  · rw [getMarketData_eq]

/-- The snapshot of another symbol. -/
theorem updateIn_subscribed {reply : Json} (hstatus : (status? reply).isSome) (e : MatchingEngine)
    {symbol' : String} (hne : symbol ≠ symbol') :
    [reply, updateMessage (e.getMarketData symbol' 10)].filterMap (updateIn symbol) = [] := by
  have hnone : updateIn symbol (updateMessage (e.getMarketData symbol' 10)) = none := by
    rw [updateIn_updateMessage, symbol_getMarketData, if_neg (Ne.symm hne)]
  rw [List.filterMap_cons_none (updateIn_of_status hstatus), List.filterMap_cons_none hnone,
    List.filterMap_nil]

/-- Who is registered after a call was so before, or subscribes with it. -/
theorem mem_marketDataSubscribers_call {e e' : MatchingEngine} {cb : Subscriber}
    (h : e.call fuel c = some e') :
    cb ∈ (e'.marketDataSubscribers.lookup symbol).getD [] ↔
      cb ∈ (e.marketDataSubscribers.lookup symbol).getD [] ∨
        c = .subscribeToMarketData symbol cb := by
  obtain ⟨ds, hds⟩ | ⟨symbol', cb', rfl⟩ | ⟨symbol', cb', rfl⟩ := call_sends h
  · rw [hds.marketDataSubscribers]
    refine (or_iff_left ?_).symm
    rintro rfl
    obtain rfl := Option.some.inj h
    have hlength := congrArg (fun subscribers => ((subscribers.lookup symbol).getD []).length)
      hds.marketDataSubscribers
    simp [MatchingEngine.subscribeToMarketData] at hlength
  · obtain rfl := Option.some.inj h
    simp only [MatchingEngine.subscribeToMarketData]
    by_cases hs : symbol = symbol'
    · subst hs
      simp [eq_comm]
    · rw [AList.lookup_insert_ne hs]
      simp [Ne.symm hs]
  · obtain rfl := Option.some.inj h
    simp [MatchingEngine.subscribeToTrades]

/-- A message that calls the engine. -/
theorem Informed.called (h : Informed events l) {accept : Bool} {j : Json}
    (hreads : Reads session (.ok j) replies l l') (hasks : Asks accept session j c)
    (hserved : served fuel l.engine c = some (replies, l'.engine)) :
    Informed (events ++ [.message session created now (.ok j)]) l' := by
  have hcall := call_of_served hserved
  have hmem (s : Subscriber) (symbol : String) :=
    @mem_marketDataSubscribers_call _ symbol _ _ _ s hcall
  have hself {symbol : String} {cb : Subscriber} (hc : c = .subscribeToMarketData symbol cb) :
      cb = session := by
    subst hc
    cases hasks
    rfl
  obtain ⟨steps, hrun⟩ := System.freshRun_of_call h.prepared.labelled hcall []
  obtain ⟨hprepared, hcurrent⟩ :=
    System.current_of_run hrun h.prepared fun symbol => Or.inl (h.current symbol)
  have hidle : System.Idle ⟨l'.engine, [] ++ [[]]⟩ := by simp [System.Idle]
  refine ⟨hprepared.returned, fun symbol => (hcurrent symbol).of_idle hidle,
    fun s hs => ?_, fun symbol s hs => ?_, fun s hs symbol hsub => ?_,
    fun s created' now' j' symbol hevent htype hsymbol hne => ?_⟩
  · rw [hreads.accepted]
    exact h.accepted s (hreads.sessions ▸ hs)
  · rw [hreads.accepted]
    rcases (hmem s symbol).mp hs with hs | hc
    · exact h.known symbol s hs
    · exact hself hc ▸ h.accepted session hreads.connected
  · rw [hreads.sessions] at hs
    obtain hstatus | ⟨symbol', cb, reply, rfl, hstatus, rfl⟩ := status_of_served hserved
    · rcases (hmem s symbol).mp hsub with hsub | rfl
      · exact (h.follows s hs symbol hsub).called h.prepared hreads hs hcall fun _ =>
          updateIn_replies symbol hstatus
      · obtain ⟨rfl, -⟩ := Prod.mk.inj (Option.some.inj hserved)
        have hsnapshot := hstatus _ (List.mem_cons_of_mem _ (List.mem_singleton_self _))
        rw [status?_updateMessage] at hsnapshot
        cases hsnapshot
    · obtain rfl := hself rfl
      have hold (hold : s ∈ (l.engine.marketDataSubscribers.lookup symbol).getD [])
          (hother : s = cb → symbol ≠ symbol') : l'.Follows s symbol :=
        (h.follows s hs symbol hold).called h.prepared hreads hs hcall fun heq =>
          updateIn_subscribed hstatus _ (hother heq)
      by_cases hnew : s = cb ∧ symbol = symbol'
      · obtain ⟨rfl, rfl⟩ := hnew
        exact follows_subscribed (h.current symbol) hreads hstatus
          (Prod.mk.inj (Option.some.inj hserved)).2.symm
      · refine hold (((hmem s symbol).mp hsub).resolve_right fun hc => ?_)
          fun hs hsymbol => hnew ⟨hs, hsymbol⟩
        injection hc with hsymbol hs
        exact hnew ⟨hs.symm, hsymbol.symm⟩
  · rw [hmem]
    rcases List.mem_append.mp hevent with hevent | hevent
    · exact Or.inl (h.registered s created' now' j' symbol hevent htype hsymbol hne)
    · injection List.mem_singleton.mp hevent with hs _ _ hj
      obtain rfl := hs
      obtain rfl := Except.ok.inj hj
      have hasks' : Asks accept s j' (.subscribeToMarketData symbol s) :=
        .subscribeToMarketData htype hsymbol hne
      let m : Message := ⟨.ok j', s, accept⟩
      have hthis : m.Asks c := ⟨j', rfl, hasks⟩
      exact Or.inr (hthis.unique ⟨j', rfl, hasks'⟩).symm

theorem Informed.step (h : Informed events l) (hstep : l.Step event l') :
    Informed (events ++ [event]) l' := by
  -- no message of the session that is accepted, or closed, has come in
  have hevents {s : Subscriber} {created now : ℚ} {j : Json}
      (hevent : .message s created now (.ok j) ∈ events ++ [event])
      (hother : ∀ s created now parsed, event ≠ .message s created now parsed) :
      .message s created now (.ok j) ∈ events := by
    rcases List.mem_append.mp hevent with hevent | hevent
    · exact hevent
    · exact absurd (List.mem_singleton.mp hevent).symm (hother _ _ _ _)
  cases event with
  | accept =>
    obtain ⟨fuel, hnext⟩ := hstep
    obtain rfl := Option.some.inj hnext
    refine ⟨h.prepared, h.current, fun s hs => ?_, fun symbol s hs => ?_,
      fun s hs symbol hsub => ?_, fun s created now j symbol hevent => ?_⟩
    · rcases List.mem_append.mp hs with hs | hs
      · exact Nat.lt_succ_of_lt (h.accepted s hs)
      · exact (List.mem_singleton.mp hs) ▸ Nat.lt_succ_self _
    · exact Nat.lt_succ_of_lt (h.known symbol s hs)
    · rcases List.mem_append.mp hs with hs | hs
      · exact h.follows s hs symbol hsub
      · have hlt := h.known symbol s hsub
        rw [List.mem_singleton.mp hs] at hlt
        exact absurd hlt (lt_irrefl _)
    · exact h.registered s created now j symbol (hevents hevent (by simp))
  | close session =>
    obtain ⟨fuel, hnext⟩ := hstep
    obtain rfl := Option.some.inj hnext
    exact ⟨h.prepared, h.current, fun s hs => h.accepted s (List.mem_filter.mp hs).1, h.known,
      fun s hs => h.follows s (List.mem_filter.mp hs).1,
      fun s created now j symbol hevent =>
        h.registered s created now j symbol (hevents hevent (by simp))⟩
  | message session created now parsed =>
    obtain ⟨replies, hreads⟩ := hstep.message_cases
    obtain ⟨hengine, hstatus, accept, hnone⟩ | ⟨fuel, accept, j, c, rfl, hasks, hserved⟩ :=
      hreads.engine
    · have hfeed : l'.engine.feed = l.engine.feed ++ [] := by rw [hengine, List.append_nil]
      have hheard {s : Subscriber} (hs : s ∈ l.sessions) (symbol : String) :
          l'.heard s symbol = l.heard s symbol := by
        rw [hreads.heard hfeed hs, updateIn_replies symbol hstatus, ite_self]
        simp
      refine ⟨hengine ▸ h.prepared, hengine ▸ h.current, fun s hs => ?_, fun symbol s hs => ?_,
        fun s hs symbol hsub => ?_, fun s created' now' j symbol hevent htype hsymbol hne => ?_⟩
      · exact hreads.accepted ▸ h.accepted s (hreads.sessions ▸ hs)
      · exact hreads.accepted ▸ h.known symbol s (hengine ▸ hs)
      · have hs' : s ∈ l.sessions := hreads.sessions ▸ hs
        have hfollows := h.follows s hs' symbol (hengine ▸ hsub)
        unfold Follows at hfollows ⊢
        rw [hheard hs', hengine]
        exact hfollows
      · rw [hengine]
        rcases List.mem_append.mp hevent with hevent | hevent
        · exact h.registered s created' now' j symbol hevent htype hsymbol hne
        · injection List.mem_singleton.mp hevent with hs _ _ hj
          obtain rfl := hs
          exact absurd (.subscribeToMarketData htype hsymbol hne) (hnone j _ hj.symm)
    · exact h.called hreads hasks hserved

theorem informed_start (mem : Memory) (hashOrder : HashOrder) (feeModel : Option FeeModel)
    (file : Option (List Json)) : Informed [] (start mem hashOrder feeModel file) where
  prepared := System.prepared_fresh mem hashOrder feeModel file
  current symbol := (System.current_fresh mem hashOrder feeModel file symbol).of_idle
    fun tasks htasks => absurd htasks List.not_mem_nil
  accepted s hs := absurd hs List.not_mem_nil
  known symbol s hs := by cases file <;> exact absurd hs List.not_mem_nil
  follows s hs := absurd hs List.not_mem_nil
  registered s created now j symbol hevent := absurd hevent List.not_mem_nil

/-- **What is sent to a client that has subscribed makes up the levels that the book shows.** So it
is for each session that is connected, whatever messages all of them have sent, after every message
that was handled: what the JSON texts handed to `send` say, applied one after another, is the depth
of the book, and the last of them shows the best bid and ask. -/
theorem held_of_run (hrun : Run Step (start mem hashOrder feeModel file) events l)
    (hs : s ∈ l.sessions) {j : Json} (hevent : .message s created now (.ok j) ∈ events)
    (htype : j.get? "type" = some (.str "subscribe_market_data"))
    (hsymbol : j.get? "symbol" = some (.str symbol)) (hne : symbol ≠ "") :
    (∀ side, held (l.heard s symbol) side = (l.engine.book symbol).getTop side 10) ∧
      ∃ u ∈ (l.heard s symbol).getLast?,
        u.ShowsBest fun side => (l.engine.book symbol).getTop side 10 := by
  have hinformed : Informed events l :=
    hrun.history Informed (informed_start mem hashOrder feeModel file) fun _ _ _ _ h hstep =>
      h.step hstep
  obtain ⟨earlier, messages, hheard, hfollows, hsnapshot⟩ := hinformed.follows s hs symbol
    (hinformed.registered s created now j symbol hevent htype hsymbol hne)
  have hcurrent := hinformed.current symbol
  constructor
  · intro side
    have hheld : held (l.heard s symbol) = held messages := by
      rw [hheard, MarketDataUpdate.held_append_of_snapshot, MarketDataUpdate.held_shown]
      obtain ⟨u, hu, htype⟩ := hsnapshot
      obtain ⟨rest, rfl⟩ := List.head?_eq_some_iff.mp hu
      exact ⟨u.shown, rfl, MarketDataUpdate.type_shown.trans htype⟩
    rw [hheld, hfollows.held, hcurrent]
    rfl
  · obtain ⟨u, hu, -⟩ := hsnapshot
    obtain ⟨rest, rfl⟩ := List.head?_eq_some_iff.mp hu
    have hlast := List.getLast?_eq_some_getLast (List.cons_ne_nil u rest)
    generalize (u :: rest).getLast _ = last at hlast
    refine ⟨last.shown, ?_, MarketDataUpdate.showsBest_shown.mpr ?_⟩
    · rw [hheard, List.getLast?_append, List.getLast?_map, hlast]
      rfl
    · have hbest := hfollows.best last hlast
      rwa [hcurrent] at hbest

def subscribeRequest : Json :=
  .obj [("type", .str "subscribe_market_data"), ("symbol", .str "S")]

/-- A session offers something, another one subscribes, and the first one buys a part of it and
is closed. -/
def depthEvents : List Event := [.accept, .accept,
  .message 1 0 0 (.ok (.obj [("type", .str "submit_order"), ("id", .str "ask"),
    ("symbol", .str "S"), ("side", .str "sell"), ("order_type", .str "limit"),
    ("quantity", .num 5), ("price", .num 10)])),
  .message 0 0 0 (.ok subscribeRequest),
  .message 1 1 1 (.ok (.obj [("type", .str "submit_order"), ("id", .str "bid"),
    ("symbol", .str "S"), ("side", .str "buy"), ("order_type", .str "market"),
    ("quantity", .num 3)])),
  .close 1]

theorem held_of_run_two_sessions : ∃ l, Run Step (start .empty .plain none none) depthEvents l ∧
    l.sessions = [0] ∧ (l.heard 0 "S").length = 2 ∧ held (l.heard 0 "S") .sell = [(10, 2)] := by
  let final := Run.exec (fun l event => (next 3 l event).map (event, ·))
    (start .empty .plain none none) depthEvents
  have hsome : final.map (fun p => decide (p.2.sessions = [0] ∧ (p.2.heard 0 "S").length = 2 ∧
      (p.2.engine.book "S").getTop .sell 10 = [(10, 2)])) = some true := by decide +kernel
  obtain ⟨⟨events, l⟩, hfinal, hseen⟩ := Option.map_eq_some_iff.mp hsome
  obtain ⟨hsessions, hlength, htop⟩ := of_decide_eq_true hseen
  obtain rfl := Run.exec_events hfinal
  have hrun := run_of_exec hfinal
  have hevent : Event.message 0 0 0 (.ok subscribeRequest) ∈ depthEvents := by
    simp [depthEvents]
  have hconnected : 0 ∈ l.sessions := hsessions ▸ List.mem_singleton_self 0
  obtain ⟨hheld, -⟩ := held_of_run hrun hconnected hevent rfl rfl (by decide)
  exact ⟨l, hrun, hsessions, hlength, (hheld .sell).trans htop⟩

end Listener

end GoQuant
