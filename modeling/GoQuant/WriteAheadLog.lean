import GoQuant.Lib.Json
import GoQuant.MatchingAlgorithm

/-!
# The write-ahead log

The records of the write-ahead log of `matching_engine.cpp`: what the engine writes, and
what `replayWAL` reads. A line of the file is the JSON value it was printed from. The time
stamp of a trade record, which nothing reads, is left out.

## Main results

* `ofJson_toJson` — a written record is read back, a trade as nothing to redo.
-/

namespace GoQuant

/-- The kinds of records the engine writes. -/
inductive WalRecord where
  | submit (o : Order)
  | cancel (orderId : String)
  | modify (orderId : String) (newQuantity : ℚ)
  | activated (orderId symbol : String)
  | trade (t : Trade)
  deriving DecidableEq

namespace WalRecord

/-- The JSON value written for a record. -/
def toJson : WalRecord → Json
  | .submit o => .obj [("type", .str "submit"), ("order", .obj [
      ("id", .str o.id),
      ("symbol", .str o.symbol),
      ("side", .str o.side.name),
      ("order_type", .num o.type.toInt),
      ("price", .num o.price),
      ("quantity", .num o.quantity)])]
  | .cancel orderId => .obj [("type", .str "cancel"), ("order_id", .str orderId)]
  | .modify orderId newQuantity => .obj [("type", .str "modify"), ("order_id", .str orderId),
      ("new_quantity", .num newQuantity)]
  | .activated orderId symbol => .obj [("type", .str "activated"), ("order_id", .str orderId),
      ("symbol", .str symbol)]
  | .trade t => .obj [("type", .str "trade"), ("trade", .obj [
      ("trade_id", .str t.tradeId),
      ("symbol", .str t.symbol),
      ("price", .num t.price),
      ("quantity", .num t.quantity),
      ("maker_order_id", .str t.makerOrderId),
      ("taker_order_id", .str t.takerOrderId),
      ("aggressor_side", .str t.aggressorSide.name),
      ("maker_fee", .num t.makerFee),
      ("taker_fee", .num t.takerFee),
      ("seqNum", .num t.seqNum)])]

/-- The order `replayWAL` builds from the `order` field of a submit record. -/
def readOrder (oj : Json) : Except String Order := do
  let id ← oj.value Json.getString "id" ""
  let symbol ← oj.value Json.getString "symbol" ""
  let side ← oj.value Json.getString "side" "buy"
  let ot ← oj.value Json.getInt "order_type" OrderType.limit.toInt
  let price ← oj.value Json.getDouble "price" 0
  let quantity ← oj.value Json.getDouble "quantity" 0
  return { id, symbol, side := if side = "buy" then .buy else .sell, type := .ofInt ot, price,
           quantity }

/-- The record `replayWAL` reads from a line, if there is something to redo for it. -/
def ofJson (j : Json) : Except String (Option WalRecord) := do
  let type ← j.value Json.getString "type" ""
  if type = "submit" then
    let o ← readOrder (← j.index "order")
    return some (.submit o)
  else if type = "cancel" then
    let orderId ← (← j.index "order_id").getString
    return some (.cancel orderId)
  else if type = "modify" then
    let orderId ← j.value Json.getString "order_id" ""
    let newQty ← j.value Json.getDouble "new_quantity" 0
    return some (.modify orderId newQty)
  else if type = "activated" then
    let orderId ← j.value Json.getString "order_id" ""
    let symbol ← j.value Json.getString "symbol" ""
    return some (.activated orderId symbol)
  else return none

theorem readOrder_toJson (o : Order) :
    readOrder (.obj [("id", .str o.id), ("symbol", .str o.symbol), ("side", .str o.side.name),
      ("order_type", .num o.type.toInt), ("price", .num o.price),
      ("quantity", .num o.quantity)]) = .ok o := by
  have hside : (if o.side.name = "buy" then Side.buy else Side.sell) = o.side := by
    cases o.side <;> decide
  simp [readOrder, Json.value_cons_of_ne, hside, bind, Except.bind, pure, Except.pure]

/-- A record that asks for something to be redone is read back as it was written. -/
theorem ofJson_toJson (r : WalRecord) (hr : ∀ t, r ≠ .trade t) :
    ofJson r.toJson = .ok (some r) := by
  cases r with
  | submit o =>
    simp [ofJson, toJson, Json.index_cons_of_ne, readOrder_toJson, bind, Except.bind, pure,
      Except.pure]
  | cancel orderId =>
    simp [ofJson, toJson, Json.index_cons_of_ne, bind, Except.bind, pure, Except.pure]
  | modify orderId newQuantity =>
    simp [ofJson, toJson, Json.value_cons_of_ne, bind, Except.bind, pure, Except.pure]
  | activated orderId symbol =>
    simp [ofJson, toJson, Json.value_cons_of_ne, bind, Except.bind, pure, Except.pure]
  | trade t => exact absurd rfl (hr t)

/-- Nothing is redone for a trade. -/
theorem ofJson_trade (t : Trade) : ofJson (toJson (.trade t)) = .ok none := by
  simp [ofJson, toJson, bind, Except.bind, pure, Except.pure]

end WalRecord
end GoQuant
