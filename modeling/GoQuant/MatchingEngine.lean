import GoQuant.WriteAheadLog

/-!
# The matching engine

`MatchingEngine` of `matching_engine.h` and `matching_engine.cpp`: the books of all symbols,
the pending trigger orders, the trade and market-data feeds and the write-ahead log. Where
the source holds the engine's mutex the block is a function of its own; the public
functions call these blocks one after another.

Left out are time stamps, the Prometheus metrics, the order pool and the ring buffers
nothing fills. The rate limiter's decision is an argument. Whatever an exception leaves
undone is undone here too: a result is the state it leaves, with a message if it threw.
An answer `none` means that the fuel of a matching loop ran out.
-/

namespace GoQuant

/-- `MarketDataUpdate::ChangeOp`. -/
inductive ChangeOp where
  | add | update | remove
  deriving DecidableEq

/-- `MarketDataUpdate::LevelChange`. -/
structure LevelChange where
  op : ChangeOp
  price : ℚ
  quantity : ℚ
  deriving DecidableEq

/-- `MarketDataUpdate::Type`. -/
inductive UpdateType where
  | snapshot | increment
  deriving DecidableEq

/-- `MarketDataUpdate`. -/
structure MarketDataUpdate where
  symbol : String
  bestBidPrice : ℚ
  bestBidQuantity : ℚ
  bestAskPrice : ℚ
  bestAskQuantity : ℚ
  bids : List (ℚ × ℚ) := []
  asks : List (ℚ × ℚ) := []
  bidsChanges : List LevelChange := []
  asksChanges : List LevelChange := []
  prevSeqNum : ℕ := 0
  gap : Bool := false
  type : UpdateType
  seqNum : ℕ
  deriving DecidableEq

/-- A callback, known by a number. -/
abbrev Subscriber := ℕ

/-- One call of a callback. -/
inductive Delivery where
  | marketData (subscriber : Subscriber) (update : MarketDataUpdate)
  | trade (subscriber : Subscriber) (t : Trade)
  deriving DecidableEq

/-- The order in which the hash maps of a process enumerate their keys. -/
structure HashOrder where
  symbols : List String → List String
  prices : List ℚ → List ℚ
  symbols_perm : ∀ keys, (symbols keys).Perm keys
  prices_perm : ∀ keys, (prices keys).Perm keys

/-- The keys as they come. -/
def HashOrder.plain : HashOrder := ⟨id, id, fun _ => .refl _, fun _ => .refl _⟩

/-- `MatchingEngine`, with what it touches of its process. `executed` and `published` are
bookkeeping of the model: the trades that `processOrder` returned, with the symbol of the
book, and those that `publishTrade` stamped, with the callbacks it copied. -/
structure MatchingEngine where
  orderBooks : AList fun _ : String => OrderBook := ∅
  feeModel : Option FeeModel := none
  marketDataSubscribers : AList fun _ : String => List Subscriber := ∅
  tradeSubscribers : AList fun _ : String => List Subscriber := ∅
  lastMarketSnapshot : AList fun _ : String => MarketDataUpdate := ∅
  triggerOrders : AList fun _ : String => List Ref := ∅
  tradeHistory : AList fun _ : String => List Trade := ∅
  marketDataSeqs : AList fun _ : String => ℕ := ∅
  tradeSeqs : AList fun _ : String => ℕ := ∅
  walStream : List Json := []
  walEnabled : Bool := false
  replaying : Bool := false
  metricOrdersReceived : ℕ := 0
  metricOrdersCancelled : ℕ := 0
  metricOrdersMatched : ℕ := 0
  metricTradesExecuted : ℕ := 0
  mem : Memory
  hashOrder : HashOrder
  feed : List Delivery := []
  executed : List (String × Trade) := []
  published : List (Trade × List Subscriber) := []

namespace MatchingEngine

/-- `MatchingEngine()`, and `setFeeModel`. -/
def fresh (mem : Memory) (hashOrder : HashOrder) (feeModel : Option FeeModel) : MatchingEngine :=
  { feeModel, mem, hashOrder }

/-- The book of a symbol; one that does not exist yet has no orders. -/
def book (e : MatchingEngine) (symbol : String) : OrderBook :=
  (e.orderBooks.lookup symbol).getD (.empty symbol)

/-- The pending trigger orders of a symbol. -/
def pending (e : MatchingEngine) (symbol : String) : List Ref :=
  (e.triggerOrders.lookup symbol).getD []

def setBook (e : MatchingEngine) (symbol : String) (b : OrderBook) : MatchingEngine :=
  { e with orderBooks := e.orderBooks.insert symbol b }

def setPending (e : MatchingEngine) (symbol : String) (orders : List Ref) : MatchingEngine :=
  { e with triggerOrders := e.triggerOrders.insert symbol orders }

/-- `std::make_shared<Order>`. -/
def alloc (e : MatchingEngine) (o : Order) : MatchingEngine × Ref :=
  ({ e with mem := (e.mem.alloc o).1 }, e.mem.next)

/-- `getOrCreateOrderBook`: afterwards the book exists. -/
def getOrCreateOrderBook (e : MatchingEngine) (symbol : String) : MatchingEngine :=
  match e.orderBooks.lookup symbol with
  | none => e.setBook symbol (.empty symbol)
  | some _ => e

/-- `if (walEnabled && !replaying)`: append a record to the log. -/
def writeWAL (e : MatchingEngine) (record : WalRecord) : MatchingEngine :=
  if e.walEnabled && !e.replaying then { e with walStream := e.walStream ++ [record.toJson] }
  else e

/-- The state after a call of `processOrder` on the book of a symbol. -/
def matched (e : MatchingEngine) (symbol : String) (result : Matching) : MatchingEngine :=
  { e.setBook symbol result.book with
    mem := result.mem
    executed := e.executed ++ result.trades.map (symbol, ·) }

/-- `triggerOrders[symbol].push_back(order)`. -/
def addTrigger (e : MatchingEngine) (symbol : String) (order : Ref) : MatchingEngine :=
  e.setPending symbol (e.pending symbol ++ [order])

/-! ## Market data -/

/-- `getMarketData`. -/
def getMarketData (e : MatchingEngine) (symbol : String) (depth : ℕ) : MarketDataUpdate :=
  match e.orderBooks.lookup symbol with
  | none =>
    { symbol := symbol, bestBidPrice := 0, bestBidQuantity := 0, bestAskPrice := 0
      bestAskQuantity := 0, type := .snapshot, seqNum := 0 }
  | some b =>
    { symbol := symbol
      bids := b.getTop .buy depth
      asks := b.getTop .sell depth
      type := .snapshot
      seqNum := 0
      bestBidPrice := b.getBestPrice .buy
      bestBidQuantity := b.getBestQuantity .buy
      bestAskPrice := b.getBestPrice .sell
      bestAskQuantity := b.getBestQuantity .sell }

/-- `for (const auto &lv : v) map[lv.first] = lv.second`. -/
def levelMap (v : List (ℚ × ℚ)) : AList fun _ : ℚ => ℚ :=
  v.foldl (fun m lv => m.insert lv.1 lv.2) ∅

/-- `computeChanges`. -/
def computeChanges (hashOrder : HashOrder) (oldV newV : List (ℚ × ℚ)) : List LevelChange :=
  let oldMap := levelMap oldV
  let newMap := levelMap newV
  ((hashOrder.prices newMap.keys).filterMap fun price =>
    let quantity := (newMap.lookup price).getD 0
    match oldMap.lookup price with
    | none => some ⟨.add, price, quantity⟩
    | some old => if old ≠ quantity then some ⟨.update, price, quantity⟩ else none) ++
  ((hashOrder.prices oldMap.keys).filterMap fun price =>
    match newMap.lookup price with
    | none => some ⟨.remove, price, 0⟩
    | some _ => none)

/-- Call every market-data callback of a symbol. -/
def deliverMarketData (e : MatchingEngine) (symbol : String) (update : MarketDataUpdate) :
    MatchingEngine :=
  { e with feed := e.feed ++
      ((e.marketDataSubscribers.lookup symbol).getD []).map fun s => .marketData s update }

/-- The locked part of `publishMarketDataUpdate`, after it has read `update`. -/
def publishUpdate (e : MatchingEngine) (symbol : String) (update : MarketDataUpdate) :
    MatchingEngine :=
  let seq := (e.marketDataSeqs.lookup symbol).getD 0 + 1
  let e := { e with marketDataSeqs := e.marketDataSeqs.insert symbol seq }
  let update := { update with seqNum := seq }
  match e.lastMarketSnapshot.lookup symbol with
  | none =>
    let update := { update with type := .snapshot }
    { e with lastMarketSnapshot := e.lastMarketSnapshot.insert symbol update }.deliverMarketData
      symbol update
  | some prev =>
    let bidsChanges := computeChanges e.hashOrder prev.bids update.bids
    let asksChanges := computeChanges e.hashOrder prev.asks update.asks
    if bidsChanges = [] ∧ asksChanges = [] then e
    else
      { e with lastMarketSnapshot := e.lastMarketSnapshot.insert symbol update }.deliverMarketData
        symbol
        { symbol := symbol
          seqNum := update.seqNum
          prevSeqNum := prev.seqNum
          gap := prev.seqNum + 1 ≠ update.seqNum
          type := .increment
          bestBidPrice := update.bestBidPrice
          bestBidQuantity := update.bestBidQuantity
          bestAskPrice := update.bestAskPrice
          bestAskQuantity := update.bestAskQuantity
          bidsChanges := bidsChanges
          asksChanges := asksChanges }

/-- `publishMarketDataUpdate`. -/
def publishMarketDataUpdate (e : MatchingEngine) (symbol : String) : MatchingEngine :=
  e.publishUpdate symbol (e.getMarketData symbol 10)

/-! ## Trigger orders -/

/-- Whether a trade at a price activates a pending order. -/
def triggered (ord : Order) (lastTradePrice : ℚ) : Bool :=
  match ord.type, ord.side with
  | .stopLoss, .sell => lastTradePrice ≤ ord.price
  | .stopLoss, .buy => ord.price ≤ lastTradePrice
  | .takeProfit, .sell => ord.price ≤ lastTradePrice
  | .takeProfit, .buy => lastTradePrice ≤ ord.price
  | .stopLimit, .sell => lastTradePrice ≤ ord.price
  | .stopLimit, .buy => ord.price ≤ lastTradePrice
  | _, _ => false

/-- The order an activated trigger order becomes. -/
def activeOrder (ord : Order) : Order :=
  if ord.type = .stopLimit then { ord with type := .limit }
  else { ord with type := .market, price := 0 }

/-- Activate one pending order. `processOrder` accepts both types it can become, so that
there is no exception here. -/
def activate (fuel : ℕ) (e : MatchingEngine) (symbol : String) (ord : Ref) :
    Option MatchingEngine :=
  let (e, act) := e.alloc (activeOrder (e.mem.order ord))
  let e := e.getOrCreateOrderBook symbol
  match MatchingAlgorithm.processOrder e.feeModel fuel e.mem (e.book symbol) act with
  | .ok (some result) =>
    some ((e.matched symbol result).writeWAL (.activated (e.mem.order ord).id symbol))
  | _ => none

/-- The loop of `checkTriggers`: the orders that stay pending, and the state. -/
def activateAll (fuel : ℕ) (symbol : String) (lastTradePrice : ℚ) :
    List Ref → MatchingEngine → Option (List Ref × MatchingEngine)
  | [], e => some ([], e)
  | ord :: vec, e =>
    if triggered (e.mem.order ord) lastTradePrice then
      (e.activate fuel symbol ord).bind fun e => activateAll fuel symbol lastTradePrice vec e
    else
      (activateAll fuel symbol lastTradePrice vec e).map fun (remaining, e) => (ord :: remaining, e)

/-- `checkTriggers`. -/
def checkTriggers (fuel : ℕ) (e : MatchingEngine) (symbol : String) (lastTradePrice : ℚ) :
    Option MatchingEngine :=
  match e.triggerOrders.lookup symbol with
  | none => some e
  | some vec =>
    (activateAll fuel symbol lastTradePrice vec e).map fun (remaining, e) =>
      e.setPending symbol remaining

/-! ## Trades -/

/-- The locked part of `publishTrade`: the stamped trade, and the callbacks to call. -/
def recordTrade (e : MatchingEngine) (trade : Trade) :
    Trade × List Subscriber × MatchingEngine :=
  let tseq := (e.tradeSeqs.lookup trade.symbol).getD 0 + 1
  let t := { trade with seqNum := tseq }
  let dq := (e.tradeHistory.lookup t.symbol).getD [] ++ [t]
  let dq := if 1000 < dq.length then dq.tail else dq
  let callbacks := (e.tradeSubscribers.lookup t.symbol).getD []
  let e := { e with
    tradeSeqs := e.tradeSeqs.insert trade.symbol tseq
    tradeHistory := e.tradeHistory.insert t.symbol dq
    published := e.published ++ [(t, callbacks)] }.writeWAL (.trade t)
  (t, callbacks, { e with metricTradesExecuted := e.metricTradesExecuted + 1 })

/-- Call one trade callback. -/
def deliverTrade (e : MatchingEngine) (subscriber : Subscriber) (t : Trade) : MatchingEngine :=
  { e with feed := e.feed ++ [.trade subscriber t] }

/-- `publishTrade`. -/
def publishTrade (fuel : ℕ) (e : MatchingEngine) (trade : Trade) : Option MatchingEngine :=
  let (t, callbacks, e) := e.recordTrade trade
  (callbacks.foldl (fun e cb => e.deliverTrade cb t) e).checkTriggers fuel t.symbol t.price

/-- `for (const auto &t : trades) publishTrade(t)`. -/
def publishTrades (fuel : ℕ) : List Trade → MatchingEngine → Option MatchingEngine
  | [], e => some e
  | t :: trades, e => (e.publishTrade fuel t).bind fun e => publishTrades fuel trades e

/-- `getRecentTrades`; `none` for an index out of range. -/
def getRecentTrades (e : MatchingEngine) (symbol : String) (count : ℕ) : Option (List Trade) :=
  match e.tradeHistory.lookup symbol with
  | none => some []
  | some dq =>
    let num := min count dq.length
    ((List.range dq.length).drop (dq.length - num)).mapM fun i => dq[i]?

/-! ## Order operations -/

/-- The beginning of `submitOrder`: the order is counted, its book exists and its record is
written. -/
def receive (e : MatchingEngine) (o : Order) : MatchingEngine :=
  let e := { e with metricOrdersReceived := e.metricOrdersReceived + 1 }
  (e.getOrCreateOrderBook o.symbol).writeWAL (.submit o)

/-- The locked part of `submitOrder`: the trades to publish, or nothing to publish for a
trigger order. -/
def acceptOrder (fuel : ℕ) (e : MatchingEngine) (order : Ref) :
    Option (Except String (Option (List Trade)) × MatchingEngine) :=
  let o := e.mem.order order
  let e := e.receive o
  if o.type.isTrigger then some (.ok none, e.addTrigger o.symbol order)
  else
    match MatchingAlgorithm.processOrder e.feeModel fuel e.mem (e.book o.symbol) order with
    | .error message => some (.error message, e)
    | .ok none => none
    | .ok (some result) =>
      some (.ok (some result.trades),
        { e.matched o.symbol result with
          metricOrdersMatched := e.metricOrdersMatched + if result.trades = [] then 0 else 1
          metricTradesExecuted := e.metricTradesExecuted + result.trades.length })

/-- `submitOrder`; the rate limiter may refuse the order. -/
def submitOrder (fuel : ℕ) (e : MatchingEngine) (tryAcceptOrder : Bool) (order : Ref) :
    Option (Except String Unit × MatchingEngine) :=
  let symbol := (e.mem.order order).symbol
  if tryAcceptOrder then
    match e.acceptOrder fuel order with
    | none => none
    | some (.error message, e) => some (.error message, e)
    | some (.ok none, e) => some (.ok (), e)
    | some (.ok (some trades), e) =>
      (publishTrades fuel trades e).map fun e => (.ok (), e.publishMarketDataUpdate symbol)
  else some (.error ("Rate limit exceeded for symbol: " ++ symbol), e)

/-- The loop of `cancelOrderUnlocked`: the first book that cancels the order. -/
def cancelIn (e : MatchingEngine) (orderId : String) : List String → Option (String × OrderBook)
  | [] => none
  | symbol :: symbols =>
    match (e.book symbol).cancelOrder e.mem orderId with
    | (true, b) => some (symbol, b)
    | (false, _) => cancelIn e orderId symbols

/-- `cancelOrderUnlocked`: the affected symbol, if there is one. -/
def cancelOrderUnlocked (e : MatchingEngine) (orderId : String) :
    Option String × MatchingEngine :=
  match e.cancelIn orderId (e.hashOrder.symbols e.orderBooks.keys) with
  | none => (none, e)
  | some (symbol, b) =>
    (some symbol, { e.setBook symbol b with
      metricOrdersCancelled := e.metricOrdersCancelled + 1 }.writeWAL (.cancel orderId))

/-- `cancelOrder`. -/
def cancelOrder (e : MatchingEngine) (orderId : String) : Bool × MatchingEngine :=
  match e.cancelOrderUnlocked orderId with
  | (some symbol, e) => (true, e.publishMarketDataUpdate symbol)
  | (none, e) => (false, e)

/-- The loop of `modifyOrderUnlocked`: the first book that does not throw. -/
def modifyIn (e : MatchingEngine) (orderId : String) (newQuantity : ℚ) :
    List String → Option (String × Memory × OrderBook)
  | [] => none
  | symbol :: symbols =>
    match (e.book symbol).modifyOrder e.mem orderId newQuantity with
    | .ok (mem, b) => some (symbol, mem, b)
    | .error _ => modifyIn e orderId newQuantity symbols

/-- `modifyOrderUnlocked`: the affected symbol, if there is one. -/
def modifyOrderUnlocked (e : MatchingEngine) (orderId : String) (newQuantity : ℚ) :
    Option String × MatchingEngine :=
  match e.modifyIn orderId newQuantity (e.hashOrder.symbols e.orderBooks.keys) with
  | none => (none, e)
  | some (symbol, mem, b) =>
    (some symbol, { e.setBook symbol b with mem := mem }.writeWAL (.modify orderId newQuantity))

/-- `modifyOrder`. -/
def modifyOrder (e : MatchingEngine) (orderId : String) (newQuantity : ℚ) :
    Bool × MatchingEngine :=
  match e.modifyOrderUnlocked orderId newQuantity with
  | (some symbol, e) => (true, e.publishMarketDataUpdate symbol)
  | (none, e) => (false, e)

/-- `subscribeToMarketData`. -/
def subscribeToMarketData (e : MatchingEngine) (symbol : String) (callback : Subscriber) :
    MatchingEngine :=
  let callbacks := (e.marketDataSubscribers.lookup symbol).getD [] ++ [callback]
  { e with marketDataSubscribers := e.marketDataSubscribers.insert symbol callbacks }

/-- `subscribeToTrades`. -/
def subscribeToTrades (e : MatchingEngine) (symbol : String) (callback : Subscriber) :
    MatchingEngine :=
  let callbacks := (e.tradeSubscribers.lookup symbol).getD [] ++ [callback]
  { e with tradeSubscribers := e.tradeSubscribers.insert symbol callbacks }

/-! ## Metrics -/

/-- `getMetricsJSON`. -/
def getMetricsJSON (e : MatchingEngine) : Json :=
  .obj [("orders_received", .num e.metricOrdersReceived),
    ("orders_cancelled", .num e.metricOrdersCancelled),
    ("orders_matched", .num e.metricOrdersMatched),
    ("trades_executed", .num e.metricTradesExecuted),
    ("symbols_tracked", .num e.orderBooks.keys.length),
    ("order_latency", .str "histogram"), ("rate_limiter_tokens", .str "gauge"),
    ("symbol_stats", .str "gauge"), ("order_book_depth", .str "gauge"),
    ("memory_pool_usage", .str "gauge"),
    ("symbols", .arr ((e.hashOrder.symbols e.orderBooks.keys).map .str))]

/-! ## Order ids

Nothing else reads or writes `orderIdCounter_`, so it is kept beside the engine. -/

/-- `generateOrderId`: the id, and the counter afterwards. -/
def generateOrderId (orderIdCounter : ℕ) : String × ℕ :=
  let orderIdCounter := (orderIdCounter + 1) % 2 ^ 64
  ("O" ++ toString orderIdCounter, orderIdCounter)

/-- `createOrder`: the order to submit, and the counter afterwards. -/
def createOrder (orderIdCounter : ℕ) (symbol : String) (side : Side) (type : OrderType)
    (price quantity : ℚ) : Order × ℕ :=
  let (id, orderIdCounter) := generateOrderId orderIdCounter
  ({ id, symbol, side, type, price, quantity }, orderIdCounter)

/-! ## The write-ahead log -/

/-- `startWAL`: records are appended to what the file holds; `none` for a file that cannot be
opened. -/
def startWAL (e : MatchingEngine) (file : Option (List Json)) : Bool × MatchingEngine :=
  match file with
  | none => (false, e)
  | some lines => (true, { e with walStream := lines, walEnabled := true })

/-- `stopWAL`. -/
def stopWAL (e : MatchingEngine) : MatchingEngine := { e with walEnabled := false }

/-- What `replayWAL` does for one record: the state, with the message of an exception. -/
def replayRecord (fuel : ℕ) (e : MatchingEngine) :
    WalRecord → Option (Except String Unit × MatchingEngine)
  | .submit o =>
    let (e, order) := e.alloc o
    let e := e.getOrCreateOrderBook o.symbol
    if o.type.isTrigger then some (.ok (), e.addTrigger o.symbol order)
    else if (e.book o.symbol).hasOrder o.id then some (.ok (), e)
    else
      match MatchingAlgorithm.processOrder e.feeModel fuel e.mem (e.book o.symbol) order with
      | .error message => some (.error message, e)
      | .ok none => none
      | .ok (some result) => some (.ok (), e.matched o.symbol result)
  | .cancel orderId => some (.ok (), (e.cancelOrderUnlocked orderId).2)
  | .modify orderId newQty => some (.ok (), (e.modifyOrderUnlocked orderId newQty).2)
  | .activated orderId symbol =>
    match e.triggerOrders.lookup symbol with
    | none => some (.ok (), e)
    | some vec =>
      some (.ok (), e.setPending symbol (vec.filter fun ord => (e.mem.order ord).id ≠ orderId))
  | .trade _ => some (.ok (), e)

/-- The `while` loop of `replayWAL` over the lines of the file. -/
def replayLines (fuel : ℕ) : List Json → MatchingEngine → Option (Bool × MatchingEngine)
  | [], e => some (true, e)
  | line :: lines, e =>
    match WalRecord.ofJson line with
    | .error _ => some (false, e)
    | .ok none => replayLines fuel lines e
    | .ok (some record) =>
      match e.replayRecord fuel record with
      | none => none
      | some (.error _, e) => some (false, e)
      | some (.ok (), e) => replayLines fuel lines e

/-- `replayWAL`; `none` for a file that cannot be opened. -/
def replayWAL (fuel : ℕ) (e : MatchingEngine) (file : Option (List Json)) :
    Option (Bool × MatchingEngine) :=
  match file with
  | none => some (false, e)
  | some lines =>
    (replayLines fuel lines { e with replaying := true }).map fun (ok, e) =>
      (ok, { e with replaying := false })

end MatchingEngine

end GoQuant
