import GoQuant.Engine.Depth
import GoQuant.Engine.Termination

/-!
# What a call delivers

A call appends messages to the feed, each to a callback that is registered for its symbol. While no
trigger order waits, the trades among them are those that the call executes: every callback of the
symbol is called with each of them, in the order of execution, and they are numbered on.

## Main definitions

* `Sends` — messages are appended, to callbacks of their symbols.
* `Prints` — trades of a symbol are delivered as they were executed.

## Main results

* `call_sends`, `call_prints` — what a call does of this.
-/

namespace GoQuant

open MatchingAlgorithm

/-- The callback that is called. -/
def Delivery.subscriber : Delivery → Subscriber
  | .marketData subscriber _ | .trade subscriber _ => subscriber

/-- The trade of a symbol that a callback is called with. -/
def Delivery.tradeFor (cb : Subscriber) (symbol : String) (d : Delivery) : Option Trade :=
  match d with
  | .trade subscriber t => if subscriber = cb ∧ t.symbol = symbol then some t else none
  | .marketData _ _ => none

namespace MatchingEngine

/-- The callbacks that get a message. -/
def listeners (e : MatchingEngine) : Delivery → List Subscriber
  | .marketData _ update => (e.marketDataSubscribers.lookup update.symbol).getD []
  | .trade _ t => (e.tradeSubscribers.lookup t.symbol).getD []

/-- Messages are appended to the feed, each to somebody who is registered for it. -/
structure Sends (ds : List Delivery) (e e' : MatchingEngine) : Prop where
  feed : e'.feed = e.feed ++ ds
  registered : ∀ d ∈ ds, d.subscriber ∈ e.listeners d
  marketDataSubscribers : e'.marketDataSubscribers = e.marketDataSubscribers
  tradeSubscribers : e'.tradeSubscribers = e.tradeSubscribers

/-- The trades of a symbol that a callback was called with. -/
def tape (e : MatchingEngine) (cb : Subscriber) (symbol : String) : List Trade :=
  e.feed.filterMap (Delivery.tradeFor cb symbol)

/-- The trades that were executed against the book of a symbol. -/
def executedFor (e : MatchingEngine) (symbol : String) : List Trade :=
  (e.executed.filter fun p => p.1 = symbol).map Prod.snd

/-- Trades that are numbered from `n + 1` on. -/
def numberedFrom (n : ℕ) (ts : List Trade) : List Trade :=
  ts.mapIdx fun i t => { t with seqNum := n + i + 1 }

/-- The number of the last trade of a symbol. -/
def lastNumber (e : MatchingEngine) (symbol : String) : ℕ := (e.tradeSeqs.lookup symbol).getD 0

/-- How often a callback is registered for the trades of a symbol. -/
def listens (e : MatchingEngine) (cb : Subscriber) (symbol : String) : ℕ :=
  ((e.tradeSubscribers.lookup symbol).getD []).count cb

/-- Trades of a symbol are delivered, each to every callback, with the next numbers. -/
structure Prints (symbol : String) (ts : List Trade) (e e' : MatchingEngine) : Prop where
  tradeSubscribers : e'.tradeSubscribers = e.tradeSubscribers
  lastNumber : e'.lastNumber symbol = e.lastNumber symbol + ts.length
  tape : ∀ cb, e'.tape cb symbol = e.tape cb symbol ++
    (numberedFrom (e.lastNumber symbol) ts).flatMap (List.replicate (e.listens cb symbol))

variable {fuel : ℕ} {e e' e'' : MatchingEngine} {symbol s : String} {ds ds' : List Delivery}
  {ts ts' : List Trade} {c : Call} {cb : Subscriber} {update : MarketDataUpdate} {t : Trade}

/-! ## To whom -/

namespace Sends

theorem of_same (h : e.SameFeeds e') : Sends [] e e' where
  feed := h.feed.trans (List.append_nil _).symm
  registered _ hd := absurd hd List.not_mem_nil
  marketDataSubscribers := h.marketDataSubscribers
  tradeSubscribers := h.tradeSubscribers

theorem listeners (h : Sends ds e e') (d : Delivery) : e'.listeners d = e.listeners d := by
  cases d with
  | marketData cb update => simp only [MatchingEngine.listeners, h.marketDataSubscribers]
  | trade cb t => simp only [MatchingEngine.listeners, h.tradeSubscribers]

theorem trans (h : Sends ds e e') (h' : Sends ds' e' e'') : Sends (ds ++ ds') e e'' where
  feed := by rw [h'.feed, h.feed, List.append_assoc]
  registered d hd := by
    rcases List.mem_append.mp hd with hd | hd
    · exact h.registered d hd
    · exact h.listeners d ▸ h'.registered d hd
  marketDataSubscribers := h'.marketDataSubscribers.trans h.marketDataSubscribers
  tradeSubscribers := h'.tradeSubscribers.trans h.tradeSubscribers

theorem announce (e : MatchingEngine) (trade : Trade) : ∃ ds, Sends ds e (e.announce trade) := by
  obtain ⟨lines, published, counted, h⟩ := e.announce_eq trade
  rw [h]
  refine ⟨_, rfl, fun d hd => ?_, rfl, rfl⟩
  obtain ⟨cb, hcb, rfl⟩ := List.mem_map.mp hd
  exact hcb

theorem deliverMarketData (e : MatchingEngine) (update : MarketDataUpdate) :
    ∃ ds, Sends ds e (e.deliverMarketData update.symbol update) := by
  refine ⟨_, rfl, fun d hd => ?_, rfl, rfl⟩
  obtain ⟨cb, hcb, rfl⟩ := List.mem_map.mp hd
  exact hcb

theorem publishUpdate (e : MatchingEngine) (hsymbol : update.symbol = symbol) :
    ∃ ds, Sends ds e (e.publishUpdate symbol update) := by
  subst hsymbol
  unfold MatchingEngine.publishUpdate
  dsimp only
  split
  · obtain ⟨ds, hds⟩ := deliverMarketData _ _
    exact ⟨ds, hds.feed, hds.registered, hds.marketDataSubscribers, hds.tradeSubscribers⟩
  · split_ifs
    · exact ⟨[], (List.append_nil _).symm, fun d hd => absurd hd List.not_mem_nil, rfl, rfl⟩
    · obtain ⟨ds, hds⟩ := deliverMarketData _ _
      exact ⟨ds, hds.feed, hds.registered, hds.marketDataSubscribers, hds.tradeSubscribers⟩

theorem publishMarketDataUpdate (e : MatchingEngine) (symbol : String) :
    ∃ ds, Sends ds e (e.publishMarketDataUpdate symbol) :=
  publishUpdate e (symbol_getMarketData e symbol 10)

theorem publishTrades (h : MatchingEngine.publishTrades fuel ts e = some e') :
    ∃ ds, Sends ds e e' := by
  induction ts generalizing e with
  | nil =>
    obtain rfl := Option.some.inj h
    exact ⟨[], .of_same (.refl e)⟩
  | cons t ts ih =>
    obtain ⟨u, hu, hrest⟩ := Option.bind_eq_some_iff.mp h
    obtain ⟨ds, hds⟩ := announce e t
    obtain ⟨ds', hds'⟩ := ih hrest
    exact ⟨_, (hds.trans (.of_same (SameFeeds.checkTriggers hu))).trans hds'⟩

end Sends

/-- Whoever listens after a subscription is the one who subscribes, or did before. -/
theorem mem_listeners_subscribeToMarketData {self : Subscriber} {d : Delivery}
    (h : cb ∈ (e.subscribeToMarketData symbol self).listeners d) : cb ∈ e.listeners d ∨
      cb = self ∧ ∃ cb' update, d = .marketData cb' update ∧ update.symbol = symbol := by
  cases d with
  | trade cb' t => exact Or.inl h
  | marketData cb' update =>
    simp only [listeners, MatchingEngine.subscribeToMarketData] at h
    by_cases hs : update.symbol = symbol
    · subst hs
      rw [AList.lookup_insert, Option.getD_some, List.mem_append, List.mem_singleton] at h
      exact h.imp_right fun hself => ⟨hself, cb', update, rfl, rfl⟩
    · rw [AList.lookup_insert_ne hs] at h
      exact Or.inl h

theorem mem_listeners_subscribeToTrades {self : Subscriber} {d : Delivery}
    (h : cb ∈ (e.subscribeToTrades symbol self).listeners d) : cb ∈ e.listeners d ∨
      cb = self ∧ ∃ cb' t, d = .trade cb' t ∧ t.symbol = symbol := by
  cases d with
  | marketData cb' update => exact Or.inl h
  | trade cb' t =>
    simp only [listeners, MatchingEngine.subscribeToTrades] at h
    by_cases hs : t.symbol = symbol
    · subst hs
      rw [AList.lookup_insert, Option.getD_some, List.mem_append, List.mem_singleton] at h
      exact h.imp_right fun hself => ⟨hself, cb', t, rfl, rfl⟩
    · rw [AList.lookup_insert_ne hs] at h
      exact Or.inl h

/-- A call that does not subscribe sends messages to those who are registered. -/
theorem call_sends (h : e.call fuel c = some e') :
    (∃ ds, Sends ds e e') ∨ (∃ symbol cb, c = .subscribeToMarketData symbol cb) ∨
      ∃ symbol cb, c = .subscribeToTrades symbol cb := by
  cases c with
  | submit tryAcceptOrder o =>
    refine Or.inl ?_
    cases tryAcceptOrder with
    | false =>
      obtain rfl := Option.some.inj h
      exact ⟨[], .of_same (.alloc e o)⟩
    | true =>
      rw [call_submit] at h
      obtain ⟨⟨r, u⟩, haccept, hresult⟩ := Option.bind_eq_some_iff.mp h
      have hsends := Sends.of_same ((SameFeeds.alloc e o).trans (.acceptOrder haccept))
      unfold publishResult at hresult
      split at hresult
      · rename_i heq
        obtain ⟨rfl, rfl⟩ := Prod.mk.inj heq
        obtain ⟨w, hw, rfl⟩ := Option.map_eq_some_iff.mp hresult
        obtain ⟨ds, hds⟩ := Sends.publishTrades hw
        obtain ⟨ds', hds'⟩ := Sends.publishMarketDataUpdate w o.symbol
        exact ⟨_, (hsends.trans hds).trans hds'⟩
      · rename_i heq
        obtain ⟨-, rfl⟩ := Prod.mk.inj heq
        obtain rfl := Option.some.inj hresult
        exact ⟨[], hsends⟩
  | cancel orderId =>
    refine Or.inl ?_
    obtain rfl := Option.some.inj h
    have hsends := Sends.of_same (SameFeeds.cancelOrderUnlocked e orderId)
    unfold cancelOrder
    generalize e.cancelOrderUnlocked orderId = p at hsends ⊢
    obtain ⟨affectedSymbol, u⟩ := p
    cases affectedSymbol with
    | none => exact ⟨_, hsends⟩
    | some symbol =>
      obtain ⟨ds, hds⟩ := Sends.publishMarketDataUpdate u symbol
      exact ⟨_, hsends.trans hds⟩
  | modify orderId newQuantity =>
    refine Or.inl ?_
    obtain rfl := Option.some.inj h
    have hsends := Sends.of_same (SameFeeds.modifyOrderUnlocked e orderId newQuantity)
    unfold modifyOrder
    generalize e.modifyOrderUnlocked orderId newQuantity = p at hsends ⊢
    obtain ⟨affectedSymbol, u⟩ := p
    cases affectedSymbol with
    | none => exact ⟨_, hsends⟩
    | some symbol =>
      obtain ⟨ds, hds⟩ := Sends.publishMarketDataUpdate u symbol
      exact ⟨_, hsends.trans hds⟩
  | subscribeToMarketData symbol cb => exact Or.inr (Or.inl ⟨symbol, cb, rfl⟩)
  | subscribeToTrades symbol cb => exact Or.inr (Or.inr ⟨symbol, cb, rfl⟩)

/-! ## Which trades -/

theorem numberedFrom_append (n : ℕ) (ts ts' : List Trade) :
    numberedFrom n (ts ++ ts') = numberedFrom n ts ++ numberedFrom (n + ts.length) ts' := by
  simp only [numberedFrom, List.mapIdx_append]
  congr 1
  refine congrArg (List.mapIdx · ts') (funext fun i => funext fun t => ?_)
  rw [show n + (i + ts.length) + 1 = n + ts.length + i + 1 by omega]

/-- Market data is not on the tape. -/
theorem tape_congr (h : e'.delivered = e.delivered) (cb : Subscriber) (symbol : String) :
    e'.tape cb symbol = e.tape cb symbol := by
  have htape (e : MatchingEngine) : e.tape cb symbol = e.delivered.filterMap fun p =>
      if p.1 = cb ∧ p.2.symbol = symbol then some p.2 else none := by
    rw [delivered, List.filterMap_filterMap]
    exact List.filterMap_congr fun d _ => by cases d <;> rfl
  rw [htape, htape, h]

namespace Prints

theorem of_same (h : e.SameFeeds e') : Prints symbol [] e e' where
  tradeSubscribers := h.tradeSubscribers
  lastNumber := by rw [MatchingEngine.lastNumber, h.tradeSeqs]; rfl
  tape cb := by
    rw [MatchingEngine.tape, h.feed]
    exact (List.append_nil _).symm

theorem listens (h : Prints symbol ts e e') (cb : Subscriber) (symbol : String) :
    e'.listens cb symbol = e.listens cb symbol := by
  rw [MatchingEngine.listens, h.tradeSubscribers]
  rfl

theorem trans (h : Prints symbol ts e e') (h' : Prints symbol ts' e' e'') :
    Prints symbol (ts ++ ts') e e'' where
  tradeSubscribers := h'.tradeSubscribers.trans h.tradeSubscribers
  lastNumber := by rw [h'.lastNumber, h.lastNumber, List.length_append, Nat.add_assoc]
  tape cb := by
    rw [h'.tape, h.tape, h.lastNumber, h.listens, numberedFrom_append, List.flatMap_append,
      List.append_assoc]

/-- The trades that are delivered when a trade is announced. -/
theorem tape_announce (e : MatchingEngine) (t : Trade) (cb : Subscriber) (symbol : String) :
    (e.announce t).tape cb symbol = e.tape cb symbol ++
      if t.symbol = symbol then
        List.replicate (e.listens cb symbol) { t with seqNum := e.lastNumber symbol + 1 }
      else [] := by
  obtain ⟨lines, published, counted, h⟩ := e.announce_eq t
  rw [h]
  have hnew (stamped : Trade) (callbacks : List Subscriber) :
      (callbacks.map (Delivery.trade · stamped)).filterMap (Delivery.tradeFor cb symbol) =
        if stamped.symbol = symbol then List.replicate (callbacks.count cb) stamped else [] := by
    rw [List.filterMap_map]
    induction callbacks with
    | nil => simp
    | cons cb' callbacks ih =>
      by_cases hs : stamped.symbol = symbol <;> by_cases hcb : cb' = cb <;>
        simp_all [Delivery.tradeFor, List.replicate_succ]
  simp only [MatchingEngine.tape, List.filterMap_append, hnew]
  split_ifs with hsymbol
  · subst hsymbol
    rfl
  · rfl

theorem announce (e : MatchingEngine) (t : Trade) : Prints t.symbol [t] e (e.announce t) where
  tradeSubscribers := by
    obtain ⟨lines, published, counted, h⟩ := e.announce_eq t
    rw [h]
  lastNumber := by
    obtain ⟨lines, published, counted, h⟩ := e.announce_eq t
    rw [h, MatchingEngine.lastNumber, AList.lookup_insert]
    rfl
  tape cb := by
    rw [tape_announce, if_pos rfl]
    simp [numberedFrom]

/-- A trade of another symbol. -/
theorem announce_of_ne (e : MatchingEngine) (hne : t.symbol ≠ symbol) :
    Prints symbol [] e (e.announce t) where
  tradeSubscribers := by
    obtain ⟨lines, published, counted, h⟩ := e.announce_eq t
    rw [h]
  lastNumber := by
    obtain ⟨lines, published, counted, h⟩ := e.announce_eq t
    rw [h, MatchingEngine.lastNumber, AList.lookup_insert_ne (Ne.symm hne)]
    rfl
  tape cb := by
    rw [tape_announce, if_neg hne]
    rfl

/-- Market data is no trade. -/
theorem publishUpdate (e : MatchingEngine) (s : String) (update : MarketDataUpdate) :
    Prints symbol [] e (e.publishUpdate s update) := by
  have hexecutes : Executes symbol [] e (e.publishUpdate s update) := .publishUpdate e s update
  refine ⟨?_, ?_, fun cb => ?_⟩
  · unfold MatchingEngine.publishUpdate deliverMarketData
    dsimp only
    split
    · rfl
    · split_ifs <;> rfl
  · rw [MatchingEngine.lastNumber, hexecutes.tradeSeqs]
    rfl
  · rw [tape_congr hexecutes.delivered]
    exact (List.append_nil _).symm

/-- All trades of a symbol, between which trigger orders may be activated. -/
theorem publishTrades (hsymbol : ∀ t ∈ ts, t.symbol = s)
    (h : MatchingEngine.publishTrades fuel ts e = some e') :
    Prints symbol (if s = symbol then ts else []) e e' := by
  induction ts generalizing e with
  | nil =>
    obtain rfl := Option.some.inj h
    rw [ite_self]
    exact .of_same (.refl e)
  | cons t ts ih =>
    obtain ⟨u, hu, hrest⟩ := Option.bind_eq_some_iff.mp h
    obtain ⟨ht, hsymbol⟩ := List.forall_mem_cons.mp hsymbol
    have hrest' := ih hsymbol hrest
    have hcheck : Prints symbol [] (e.announce t) u := .of_same (SameFeeds.checkTriggers hu)
    by_cases hs : s = symbol
    · subst hs
      rw [if_pos rfl] at hrest' ⊢
      have hannounce := announce e t
      rw [ht] at hannounce
      exact (hannounce.trans hcheck).trans hrest'
    · rw [if_neg hs] at hrest' ⊢
      exact ((announce_of_ne e (ht ▸ hs)).trans hcheck).trans hrest'

end Prints

/-! ## Calls while no trigger order waits -/

theorem Untriggered.executed_checkTriggers (h : e.Untriggered) {price : ℚ}
    (hc : e.checkTriggers fuel symbol price = some e') : e'.executed = e.executed := by
  have hpending := h symbol
  unfold checkTriggers at hc
  unfold pending at hpending
  split at hc
  · obtain rfl := Option.some.inj hc
    rfl
  · rename_i vec hvec
    rw [hvec, Option.getD_some] at hpending
    subst hpending
    obtain rfl := Option.some.inj hc
    rfl

theorem Untriggered.executed_publishTrades (h : e.Untriggered)
    (hp : publishTrades fuel ts e = some e') : e'.executed = e.executed := by
  induction ts generalizing e with
  | nil =>
    obtain rfl := Option.some.inj hp
    rfl
  | cons t ts ih =>
    obtain ⟨u, hu, hrest⟩ := Option.bind_eq_some_iff.mp hp
    have hcheck := (h.of_same (.announce e t)).executed_checkTriggers hu
    have hannounce : (e.announce t).executed = e.executed := by
      obtain ⟨lines, published, counted, heq⟩ := e.announce_eq t
      rw [heq]
    rw [ih (h.of_same (publishTrade_idle h hu).1) hrest, hcheck, hannounce]

/-- What is executed, and delivered to the callbacks of every symbol. -/
def Prints.All (s : String) (ts : List Trade) (e e' : MatchingEngine) : Prop :=
  e'.executed = e.executed ++ ts.map (s, ·) ∧
    ∀ symbol, Prints symbol (if s = symbol then ts else []) e e'

theorem Prints.All.of_same (h : e.SameFeeds e') (hexecuted : e'.executed = e.executed) :
    Prints.All s [] e e' := by
  refine ⟨hexecuted.trans (List.append_nil _).symm, fun symbol => ?_⟩
  rw [ite_self]
  exact .of_same h

/-- A publication of market data follows. -/
theorem Prints.All.publishMarketDataUpdate (h : Prints.All s ts e e') (symbol : String) :
    Prints.All s ts e (e'.publishMarketDataUpdate symbol) := by
  obtain ⟨hexecuted, hprints⟩ := h
  refine ⟨?_, fun symbol' => ?_⟩
  · have hmarket : Executes s [] e' (e'.publishMarketDataUpdate symbol) :=
      .publishUpdate e' symbol (e'.getMarketData symbol 10)
    exact (hmarket.executed.trans (List.append_nil _)).trans hexecuted
  · have htrans := (hprints symbol').trans
      (.publishUpdate e' symbol (e'.getMarketData symbol 10))
    rwa [List.append_nil] at htrans

/-- **A call delivers what it executes**, if it is none that subscribes to trades. -/
theorem call_prints (hl : e.Labelled) (hidle : e.Untriggered)
    (hkind : ∀ o, c = .submit true o → o.type.Matchable) (h : e.call fuel c = some e') :
    (∃ s ts, Prints.All s ts e e') ∨ ∃ symbol cb, c = .subscribeToTrades symbol cb := by
  cases c with
  | submit tryAcceptOrder o =>
    refine Or.inl ⟨o.symbol, ?_⟩
    cases tryAcceptOrder with
    | false =>
      obtain rfl := Option.some.inj h
      exact ⟨[], .of_same (.alloc e o) rfl⟩
    | true =>
      rw [call_submit] at h
      obtain ⟨⟨r, u⟩, haccept, hresult⟩ := Option.bind_eq_some_iff.mp h
      have hsame := (SameFeeds.alloc e o).trans (.acceptOrder haccept)
      have hu : u.Untriggered := untriggered_sections.acceptOrder (hkind o rfl) hidle haccept
      obtain ⟨ts, hexecutes, hsymbol, htrades, hnone⟩ := acceptOrder_executes hl haccept
      unfold publishResult at hresult
      split at hresult
      · rename_i trades w heq
        obtain ⟨rfl, rfl⟩ := Prod.mk.inj heq
        obtain ⟨w, hw, rfl⟩ := Option.map_eq_some_iff.mp hresult
        obtain rfl := htrades trades rfl
        refine ⟨ts, Prints.All.publishMarketDataUpdate ⟨?_, fun symbol => ?_⟩ o.symbol⟩
        · exact (hu.executed_publishTrades hw).trans hexecutes.executed
        · exact (Prints.of_same hsame).trans (.publishTrades hsymbol hw)
      · rename_i hnot heq
        obtain ⟨rfl, rfl⟩ := Prod.mk.inj heq
        obtain rfl := Option.some.inj hresult
        obtain rfl := hnone fun trades hr => hnot trades hr
        exact ⟨[], .of_same hsame (hexecutes.executed.trans (List.append_nil _))⟩
  | cancel orderId =>
    obtain rfl := Option.some.inj h
    have hexecutes : Executes "" [] e (e.cancelOrderUnlocked orderId).2 :=
      .cancelOrderUnlocked e orderId
    have hall : Prints.All "" [] e (e.cancelOrderUnlocked orderId).2 :=
      .of_same (.cancelOrderUnlocked e orderId) (hexecutes.executed.trans (List.append_nil _))
    refine Or.inl ⟨"", [], ?_⟩
    unfold cancelOrder
    generalize e.cancelOrderUnlocked orderId = p at hall ⊢
    obtain ⟨affectedSymbol, u⟩ := p
    cases affectedSymbol with
    | none => exact hall
    | some symbol => exact hall.publishMarketDataUpdate symbol
  | modify orderId newQuantity =>
    obtain rfl := Option.some.inj h
    have hexecutes : Executes "" [] e (e.modifyOrderUnlocked orderId newQuantity).2 :=
      .modifyOrderUnlocked e orderId newQuantity
    have hall : Prints.All "" [] e (e.modifyOrderUnlocked orderId newQuantity).2 :=
      .of_same (.modifyOrderUnlocked e orderId newQuantity)
        (hexecutes.executed.trans (List.append_nil _))
    refine Or.inl ⟨"", [], ?_⟩
    unfold modifyOrder
    generalize e.modifyOrderUnlocked orderId newQuantity = p at hall ⊢
    obtain ⟨affectedSymbol, u⟩ := p
    cases affectedSymbol with
    | none => exact hall
    | some symbol => exact hall.publishMarketDataUpdate symbol
  | subscribeToMarketData symbol cb =>
    obtain rfl := Option.some.inj h
    refine Or.inl ⟨"", [], (List.append_nil _).symm, fun symbol' => ?_⟩
    rw [ite_self]
    exact ⟨rfl, rfl, fun cb' => (List.append_nil _).symm⟩
  | subscribeToTrades symbol cb => exact Or.inr ⟨symbol, cb, rfl⟩

end MatchingEngine

end GoQuant
