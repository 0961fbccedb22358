import GoQuant.Engine.Feeds

/-!
# The markets of an engine

All that an engine keeps, it keeps for one symbol or another: a book, pending trigger orders,
and the feeds of trades and of market data. What its functions do for a symbol shows in the
market of that symbol, and the markets of the other symbols stay as they are.

## Main definitions

* `Feed`, `Market` — what an engine keeps for one symbol.
* `Feed.publishTrade`, `Feed.publishUpdate` — publications, seen by the feeds of their symbol.
* `SameMarkets` — two engine states that keep the same.

## Main results

* `market_announce_self`, `market_publishUpdate_self` — a publication is one of the feeds.
* `market_announce_of_ne`, `market_publishUpdate_of_ne` — and concerns no other symbol.
-/

namespace GoQuant

/-- The symbol that a message is about. -/
def Delivery.symbol : Delivery → String
  | .marketData _ update => update.symbol
  | .trade _ t => t.symbol

/-- The feeds of a symbol: who listens, what was sent, and what the next message builds on. -/
structure Feed where
  marketDataSubscribers : List Subscriber
  tradeSubscribers : List Subscriber
  lastMarketSnapshot : Option MarketDataUpdate
  tradeHistory : List Trade
  marketDataSeq : ℕ
  tradeSeq : ℕ
  messages : List Delivery

namespace Feed

/-- A trade is numbered, kept and sent. -/
def publishTrade (feed : Feed) (trade : Trade) : Feed :=
  let t := { trade with seqNum := feed.tradeSeq + 1 }
  let dq := feed.tradeHistory ++ [t]
  { feed with
    tradeHistory := if 1000 < dq.length then dq.tail else dq
    tradeSeq := feed.tradeSeq + 1
    messages := feed.messages ++ feed.tradeSubscribers.map (.trade · t) }

/-- The levels are published, if they have changed. -/
def publishUpdate (hashOrder : HashOrder) (feed : Feed) (update : MarketDataUpdate) : Feed :=
  let seq := feed.marketDataSeq + 1
  let feed := { feed with marketDataSeq := seq }
  let update := { update with seqNum := seq }
  let deliver (feed : Feed) (update : MarketDataUpdate) : Feed :=
    { feed with messages := feed.messages ++ feed.marketDataSubscribers.map (.marketData · update) }
  match feed.lastMarketSnapshot with
  | none =>
    let update := { update with type := .snapshot }
    deliver { feed with lastMarketSnapshot := some update } update
  | some prev =>
    let bidsChanges := MatchingEngine.computeChanges hashOrder prev.bids update.bids
    let asksChanges := MatchingEngine.computeChanges hashOrder prev.asks update.asks
    if bidsChanges = [] ∧ asksChanges = [] then feed
    else
      deliver { feed with lastMarketSnapshot := some update }
        { symbol := update.symbol
          seqNum := update.seqNum
          prevSeqNum := prev.seqNum
          gap := prev.seqNum + 1 ≠ update.seqNum
          type := .increment
          bestBidPrice := update.bestBidPrice
          bestBidQuantity := update.bestBidQuantity
          bestAskPrice := update.bestAskPrice
          bestAskQuantity := update.bestAskQuantity
          bidsChanges := bidsChanges
          asksChanges := asksChanges }

end Feed

/-- What an engine keeps for a symbol. -/
structure Market where
  orderBook : Option OrderBook
  triggerOrders : Option (List Ref)
  feed : Feed

namespace MatchingEngine

variable {fuel : ℕ} {e e' e'' : MatchingEngine} {symbol s : String} {update : MarketDataUpdate}
  {trade : Trade} {r : Except String (Option (List Trade))} {order : Ref}

/-- The feeds of a symbol. -/
def feedOf (e : MatchingEngine) (symbol : String) : Feed where
  marketDataSubscribers := (e.marketDataSubscribers.lookup symbol).getD []
  tradeSubscribers := (e.tradeSubscribers.lookup symbol).getD []
  lastMarketSnapshot := e.lastMarketSnapshot.lookup symbol
  tradeHistory := (e.tradeHistory.lookup symbol).getD []
  marketDataSeq := (e.marketDataSeqs.lookup symbol).getD 0
  tradeSeq := (e.tradeSeqs.lookup symbol).getD 0
  messages := e.feed.filter fun d => d.symbol = symbol

/-- What the engine keeps for a symbol. -/
def market (e : MatchingEngine) (symbol : String) : Market where
  orderBook := e.orderBooks.lookup symbol
  triggerOrders := e.triggerOrders.lookup symbol
  feed := e.feedOf symbol

theorem book_eq (e : MatchingEngine) (symbol : String) :
    e.book symbol = (e.market symbol).orderBook.getD (.empty symbol) := rfl

theorem pending_eq (e : MatchingEngine) (symbol : String) :
    e.pending symbol = (e.market symbol).triggerOrders.getD [] := rfl

/-- Two engine states that differ in the log and in counters at most. -/
structure SameMarkets (e e' : MatchingEngine) : Prop where
  market : ∀ symbol, e'.market symbol = e.market symbol
  mem : e'.mem = e.mem
  feeModel : e'.feeModel = e.feeModel
  hashOrder : e'.hashOrder = e.hashOrder

namespace SameMarkets

theorem refl (e : MatchingEngine) : e.SameMarkets e := ⟨fun _ => rfl, rfl, rfl, rfl⟩

theorem trans (h : e.SameMarkets e') (h' : e'.SameMarkets e'') : e.SameMarkets e'' where
  market symbol := (h'.market symbol).trans (h.market symbol)
  mem := h'.mem.trans h.mem
  feeModel := h'.feeModel.trans h.feeModel
  hashOrder := h'.hashOrder.trans h.hashOrder

theorem book (h : e.SameMarkets e') (symbol : String) : e'.book symbol = e.book symbol := by
  rw [book_eq, book_eq, h.market]

theorem pending (h : e.SameMarkets e') (symbol : String) :
    e'.pending symbol = e.pending symbol := by
  rw [pending_eq, pending_eq, h.market]

theorem writeWAL (e : MatchingEngine) (record : WalRecord) :
    e.SameMarkets (e.writeWAL record) := by
  unfold MatchingEngine.writeWAL
  split_ifs
  · exact ⟨fun _ => rfl, rfl, rfl, rfl⟩
  · exact .refl e

end SameMarkets

/-! ## Books and pending orders -/

@[simp] theorem market_setBook_self (e : MatchingEngine) (symbol : String) (b : OrderBook) :
    (e.setBook symbol b).market symbol = { e.market symbol with orderBook := some b } := by
  simp [market, setBook, feedOf]

theorem market_setBook_of_ne (e : MatchingEngine) (b : OrderBook) (h : s ≠ symbol) :
    (e.setBook symbol b).market s = e.market s := by
  simp [market, setBook, feedOf, AList.lookup_insert_ne h]

@[simp] theorem market_setPending_self (e : MatchingEngine) (symbol : String)
    (orders : List Ref) : (e.setPending symbol orders).market symbol =
      { e.market symbol with triggerOrders := some orders } := by
  simp [market, setPending, feedOf]

theorem market_setPending_of_ne (e : MatchingEngine) (orders : List Ref) (h : s ≠ symbol) :
    (e.setPending symbol orders).market s = e.market s := by
  simp [market, setPending, feedOf, AList.lookup_insert_ne h]

/-- A book that is created is empty. -/
theorem market_getOrCreateOrderBook_self (e : MatchingEngine) (symbol : String) :
    (e.getOrCreateOrderBook symbol).market symbol =
      { e.market symbol with orderBook := some (e.book symbol) } := by
  unfold getOrCreateOrderBook book
  cases h : e.orderBooks.lookup symbol with
  | none => exact market_setBook_self e symbol _
  | some b => simp [market, h]

theorem market_getOrCreateOrderBook_of_ne (e : MatchingEngine) (h : s ≠ symbol) :
    (e.getOrCreateOrderBook symbol).market s = e.market s := by
  unfold getOrCreateOrderBook
  split
  · exact market_setBook_of_ne e _ h
  · rfl

/-! ## Publications -/

theorem filter_deliveries (deliver : Subscriber → Delivery) (s : String)
    (hsymbol : ∀ cb, (deliver cb).symbol = symbol) (callbacks : List Subscriber) :
    ((callbacks.map deliver).filter fun d => d.symbol = s) =
      if symbol = s then callbacks.map deliver else [] := by
  simp only [List.filter_map, Function.comp_def, hsymbol]
  split_ifs with hs <;> simp [hs]

theorem filter_trades (t : Trade) (s : String) (callbacks : List Subscriber) :
    ((callbacks.map (Delivery.trade · t)).filter fun d => d.symbol = s) =
      if t.symbol = s then callbacks.map (Delivery.trade · t) else [] :=
  filter_deliveries (Delivery.trade · t) s (fun _ => rfl) callbacks

theorem filter_updates (update : MarketDataUpdate) (s : String) (callbacks : List Subscriber) :
    ((callbacks.map (Delivery.marketData · update)).filter fun d => d.symbol = s) =
      if update.symbol = s then callbacks.map (Delivery.marketData · update) else [] :=
  filter_deliveries (Delivery.marketData · update) s (fun _ => rfl) callbacks

/-- `publishTrade`, up to the check of the pending trigger orders. -/
def announce (e : MatchingEngine) (trade : Trade) : MatchingEngine :=
  let (t, callbacks, e) := e.recordTrade trade
  callbacks.foldl (fun e cb => e.deliverTrade cb t) e

theorem publishTrade_eq (fuel : ℕ) (e : MatchingEngine) (trade : Trade) :
    e.publishTrade fuel trade =
      (e.announce trade).checkTriggers fuel trade.symbol trade.price := rfl

theorem deliverTrades_eq (t : Trade) (callbacks : List Subscriber) (e : MatchingEngine) :
    callbacks.foldl (fun e cb => e.deliverTrade cb t) e =
      { e with feed := e.feed ++ callbacks.map (.trade · t) } := by
  induction callbacks generalizing e with
  | nil => simp
  | cons cb callbacks ih =>
    rw [List.foldl_cons, ih]
    simp [deliverTrade]

/-- The announced trade. -/
theorem announce_eq (e : MatchingEngine) (trade : Trade) : ∃ lines published counted,
    e.announce trade =
      let t := { trade with seqNum := (e.feedOf trade.symbol).tradeSeq + 1 }
      { e with
        tradeSeqs := e.tradeSeqs.insert trade.symbol ((e.feedOf trade.symbol).tradeSeq + 1)
        tradeHistory := e.tradeHistory.insert trade.symbol
          ((e.feedOf trade.symbol).publishTrade trade).tradeHistory
        feed := e.feed ++ (e.feedOf trade.symbol).tradeSubscribers.map (.trade · t)
        walStream := lines
        published := published
        metricTradesExecuted := counted } := by
  unfold announce recordTrade writeWAL
  dsimp only
  rw [deliverTrades_eq]
  by_cases hlog : (e.walEnabled && !e.replaying) = true
  · rw [if_pos hlog]
    exact ⟨_, _, _, rfl⟩
  · rw [if_neg hlog]
    exact ⟨_, _, _, rfl⟩

@[simp] theorem market_announce_self (e : MatchingEngine) (trade : Trade) :
    (e.announce trade).market trade.symbol = { e.market trade.symbol with
      feed := (e.feedOf trade.symbol).publishTrade trade } := by
  obtain ⟨lines, published, counted, h⟩ := e.announce_eq trade
  rw [h]
  simp only [market, feedOf, AList.lookup_insert, List.filter_append]
  rw [filter_trades, if_pos rfl]
  rfl

theorem market_announce_of_ne (e : MatchingEngine) (h : s ≠ trade.symbol) :
    (e.announce trade).market s = e.market s := by
  obtain ⟨lines, published, counted, heq⟩ := e.announce_eq trade
  rw [heq]
  simp only [market, feedOf, AList.lookup_insert_ne h, List.filter_append]
  rw [filter_trades, if_neg (Ne.symm h), List.append_nil]

theorem SameBooks.announce (e : MatchingEngine) (trade : Trade) :
    e.SameBooks (e.announce trade) :=
  (SameBooks.recordTrade e trade).trans (deliverTrades_idle _ _ _).1

theorem symbol_getMarketData (e : MatchingEngine) (symbol : String) (depth : ℕ) :
    (e.getMarketData symbol depth).symbol = symbol := by
  unfold getMarketData
  split <;> rfl

/-- The feeds of the symbol take note, unless nothing has changed. -/
theorem market_publishUpdate_self (e : MatchingEngine) (update : MarketDataUpdate) :
    (e.publishUpdate update.symbol update).market update.symbol = { e.market update.symbol with
      feed := (e.feedOf update.symbol).publishUpdate e.hashOrder update } := by
  unfold publishUpdate Feed.publishUpdate
  cases h : e.lastMarketSnapshot.lookup update.symbol with
  | none =>
    simp only [market, feedOf, h, deliverMarketData, AList.lookup_insert, List.filter_append]
    rw [filter_updates, if_pos rfl]
    rfl
  | some prev =>
    simp only [market, feedOf, h]
    split_ifs with hnil
    · simp [h]
    · simp only [deliverMarketData, AList.lookup_insert, List.filter_append]
      rw [filter_updates, if_pos rfl]
      rfl

theorem market_publishUpdate_of_ne (e : MatchingEngine) (hsymbol : update.symbol = symbol)
    (h : s ≠ symbol) : (e.publishUpdate symbol update).market s = e.market s := by
  subst hsymbol
  unfold publishUpdate
  dsimp only
  split
  · simp only [market, feedOf, deliverMarketData, AList.lookup_insert_ne h, List.filter_append]
    rw [filter_updates, if_neg (Ne.symm h), List.append_nil]
  · split_ifs
    · simp only [market, feedOf, AList.lookup_insert_ne h]
    · simp only [market, feedOf, deliverMarketData, AList.lookup_insert_ne h, List.filter_append]
      rw [filter_updates, if_neg (Ne.symm h), List.append_nil]

end MatchingEngine

end GoQuant
