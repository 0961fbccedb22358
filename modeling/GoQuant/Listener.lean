import GoQuant.Engine.System

/-!
# The listener

`WebSocketSession` of `listener.cpp`: what a session does with one text message. It reads the
message, calls the engine at most once, and replies. A message is what the JSON parser makes of
the text: a value, or the text of an exception, which quotes a part of the message and need not
be UTF-8. Objects are compared by their fields, whatever order these are written in.

The network below a session is left out, and so are time stamps. To send a reply is to hand its text
to `send`; what the asynchronous write that this starts makes of it, and whether it arrives, is not
modelled. The sessions of a process are served by one thread, so that a message is handled before
the next one is read.
-/

namespace GoQuant

namespace WebSocketSession

/-- What handling a message comes to: the calls of the engine, and the replies with the engine
afterwards. There is no outcome if a call does not return, or if an exception escapes, which
ends the process. -/
structure Handled where
  calls : List Call
  outcome : Option (List Json × MatchingEngine)

/-- The engine is not called. -/
def answer (e : MatchingEngine) (reply : Json) : Handled := ⟨[], some ([reply], e)⟩

/-! ## Messages -/

/-- An error reply with a code. -/
def refusal (code message : String) : Json :=
  .obj [("status", .str "error"), ("code", .str code), ("message", .str message)]

/-- The error reply for an exception. -/
def failure (what : String) : Json := .obj [("status", .str "error"), ("message", .str what)]

/-- `std::vector<std::pair<double, double>>`. -/
def levelsJson (levels : List (ℚ × ℚ)) : Json :=
  .arr (levels.map fun level => .arr [.num level.1, .num level.2])

/-- A change of a level. -/
def changeJson (c : LevelChange) : Json :=
  match c.op with
  | .add => .obj [("op", .str "add"), ("price", .num c.price), ("quantity", .num c.quantity)]
  | .update => .obj [("op", .str "update"), ("price", .num c.price), ("quantity", .num c.quantity)]
  | .remove => .obj [("op", .str "remove"), ("price", .num c.price)]

/-- The fields of every market-data message. -/
def updateFields (update : MarketDataUpdate) : List (String × Json) :=
  [("symbol", .str update.symbol), ("bestBidPrice", .num update.bestBidPrice),
    ("bestBidQuantity", .num update.bestBidQuantity), ("bestAskPrice", .num update.bestAskPrice),
    ("bestAskQuantity", .num update.bestAskQuantity), ("seqNum", .num update.seqNum)]

/-- The message that a market-data callback sends, and the one after a subscription. -/
def updateMessage (update : MarketDataUpdate) : Json :=
  match update.type with
  | .snapshot => .obj (updateFields update ++ [("type", .str "market_data_snapshot"),
      ("bids", levelsJson update.bids), ("asks", levelsJson update.asks)])
  | .increment => .obj (updateFields update ++ [("type", .str "market_data_increment"),
      ("prevSeqNum", .num update.prevSeqNum), ("gap", .bool update.gap),
      ("bids_changes", .arr (update.bidsChanges.map changeJson)),
      ("asks_changes", .arr (update.asksChanges.map changeJson))])

/-- The message that a trade callback sends. -/
def tradeMessage (trade : Trade) : Json :=
  .obj [("type", .str "trade"), ("trade_id", .str trade.tradeId), ("symbol", .str trade.symbol),
    ("price", .num trade.price), ("quantity", .num trade.quantity),
    ("maker_order_id", .str trade.makerOrderId), ("taker_order_id", .str trade.takerOrderId),
    ("maker_fee", .num trade.makerFee), ("taker_fee", .num trade.takerFee),
    ("aggressor_side", .str trade.aggressorSide.name), ("seqNum", .num trade.seqNum)]

/-- What a session sends when one of its callbacks is called. -/
def dataMessage (self : Subscriber) : Delivery → Option Json
  | .marketData subscriber update => if subscriber = self then some (updateMessage update) else none
  | .trade subscriber trade => if subscriber = self then some (tradeMessage trade) else none

/-! ## Requests -/

variable (fuel : ℕ) (tryAcceptOrder : Bool) (self : Subscriber) (e : MatchingEngine) (j : Json)

/-- The word of a message for an order type. -/
def orderType? : String → Option OrderType
  | "market" => some .market
  | "limit" => some .limit
  | "ioc" => some .ioc
  | "fok" => some .fok
  | _ => none

/-- The checks of a `submit_order` message: the order, or the reply that refuses it. -/
def checkOrder (id symbol side orderType : String) (quantity price : ℚ) : Except Json Order :=
  if id = "" ∨ symbol = "" ∨ quantity ≤ 0 then
    .error (refusal "invalid_params" "invalid id/symbol/quantity")
  else if orderType = "limit" ∧ price ≤ 0 then
    .error (refusal "invalid_price" "limit orders require price > 0")
  else if side ≠ "buy" ∧ side ≠ "sell" then
    .error (refusal "invalid_side" "side must be 'buy' or 'sell'")
  else
    let s := if side = "buy" then Side.buy else Side.sell
    match orderType? orderType with
    | none => .error (refusal "invalid_order_type" "unsupported order_type")
    | some t => .ok ⟨id, symbol, s, t, price, quantity⟩

/-- A `submit_order` message that has the required fields is read and checked. -/
def readOrder : Except String (Except Json Order) := do
  let id ← (← j.atKey "id").getString
  let symbol ← (← j.atKey "symbol").getString
  let side ← (← j.atKey "side").getString
  let orderType ← (← j.atKey "order_type").getString
  let quantity ← (← j.atKey "quantity").getDouble
  let price ← j.value Json.getDouble "price" 0
  return checkOrder id symbol side orderType quantity price

/-- The reply to an order that `submitOrder` has returned from. -/
def submitReply (id : String) : Except String Unit → Json
  | .ok () => .obj [("status", .str "ok"), ("message", .str "order_submitted"),
      ("order_id", .str id)]
  | .error what => refusal "processing_error" what

/-- `submit_order`. -/
def onSubmitOrder : Except String Handled :=
  if ["id", "symbol", "side", "order_type", "quantity"].any fun key => (j.get? key).isNone then
    .ok (answer e (refusal "invalid_request" "missing required fields"))
  else do
    match ← readOrder j with
    | .error reply => return answer e reply
    | .ok o =>
      let (e, order) := e.alloc o
      return ⟨[.submit tryAcceptOrder o], (e.submitOrder fuel tryAcceptOrder order).map
        fun (out, e) => ([submitReply o.id out], e)⟩

/-- The reply to a cancellation. -/
def cancelReply (orderId : String) (success : Bool) : Json :=
  .obj [("status", .str (if success then "ok" else "error")), ("order_id", .str orderId)]

/-- `cancel_order`. -/
def onCancelOrder : Except String Handled :=
  if (j.get? "order_id").isNone then
    .ok (answer e (refusal "invalid_request" "missing order_id"))
  else do
    let orderId ← (← j.atKey "order_id").getString
    if orderId = "" then return answer e (refusal "invalid_request" "order_id empty")
    else
      let (success, e) := e.cancelOrder orderId
      return ⟨[.cancel orderId], some ([cancelReply orderId success], e)⟩

/-- `subscribe_market_data` and `subscribe_trades`: the part in common, which reads the symbol. -/
def onSubscribe (subscribed : String → Handled) : Except String Handled :=
  if (j.get? "symbol").isNone then
    .ok (answer e (refusal "invalid_request" "missing symbol"))
  else do
    let symbol ← (← j.atKey "symbol").getString
    if symbol = "" then return answer e (refusal "invalid_request" "symbol empty")
    else return subscribed symbol

/-- `subscribe_market_data`. A first snapshot follows the reply. -/
def onSubscribeMarketData : Except String Handled :=
  onSubscribe e j fun symbol =>
    let e := e.subscribeToMarketData symbol self
    ⟨[.subscribeToMarketData symbol self],
      some ([.obj [("status", .str "ok"), ("message", .str "subscribed_market_data"),
        ("symbol", .str symbol)], updateMessage (e.getMarketData symbol 10)], e)⟩

/-- `subscribe_trades`. -/
def onSubscribeTrades : Except String Handled :=
  onSubscribe e j fun symbol =>
    ⟨[.subscribeToTrades symbol self],
      some ([.obj [("status", .str "ok"), ("message", .str "subscribed_trades"),
        ("symbol", .str symbol)]], e.subscribeToTrades symbol self)⟩

/-- `get_metrics`. -/
def onGetMetrics : Handled :=
  answer e (.obj [("status", .str "ok"), ("metrics", e.getMetricsJSON)])

/-- The reply to a change of quantity. -/
def modifyReply (orderId : String) (newQty : ℚ) (ok : Bool) : Json :=
  if ok then
    .obj [("status", .str "ok"), ("message", .str "order_modified"), ("order_id", .str orderId),
      ("new_quantity", .num newQty)]
  else refusal "not_found" "order not found or could not be modified"

/-- `modify_order`. -/
def onModifyOrder : Except String Handled :=
  if (j.get? "order_id").isNone ∨ (j.get? "new_quantity").isNone then
    .ok (answer e (refusal "invalid_request" "missing order_id or new_quantity"))
  else do
    let orderId ← (← j.atKey "order_id").getString
    let newQty ← (← j.atKey "new_quantity").getDouble
    if orderId = "" ∨ newQty < 0 then
      return answer e (refusal "invalid_params" "invalid order_id or quantity")
    else
      let (ok, e) := e.modifyOrder orderId newQty
      return ⟨[.modify orderId newQty], some ([modifyReply orderId newQty ok], e)⟩

/-! ## The read loop -/

/-- A parsed message, by its type. Nothing is sent for a type that is not known. -/
def onMessage : Except String Handled := do
  let type ← j.value Json.getString "type" ""
  match type with
  | "submit_order" => onSubmitOrder fuel tryAcceptOrder e j
  | "cancel_order" => onCancelOrder e j
  | "subscribe_market_data" => onSubscribeMarketData self e j
  | "subscribe_trades" => onSubscribeTrades self e j
  | "get_metrics" => return onGetMetrics e
  | "modify_order" => onModifyOrder e j
  | _ => return ⟨[], some ([], e)⟩

/-- The body of `readLoop` on what `json::parse` makes of a text. An exception is answered with
its text; the reply cannot be printed, and the exception escapes, if that is not UTF-8. -/
def readLoop (parsed : Except ByteArray Json) : Handled :=
  match parsed with
  | .error what =>
    match String.fromUTF8? what with
    | some what => answer e (failure what)
    | none => ⟨[], none⟩
  | .ok j =>
    match onMessage fuel tryAcceptOrder self e j with
    | .ok handled => handled
    | .error what => answer e (failure what)

end WebSocketSession

end GoQuant
