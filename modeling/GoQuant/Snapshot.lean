import GoQuant.MatchingEngine

/-!
# Snapshots

What `OrderBook::toJson` writes, and what `OrderBook::fromJson` and `MatchingEngine::loadState`
restore from a directory of snapshot files. The source writes and reads
the bids and the asks of a file in two copies of one loop; here it is written once, with the side
as a parameter. The time stamp of an order, which nothing reads, is left out. A file is the JSON
value its text parses to, if it does. Reading a missing field of a constant value is undefined
behaviour, and has no result.

An exception leaves everything as far as it has got: what was cleared stays so, and the orders
read before it stay in the id map.
-/

namespace GoQuant

namespace OrderBook

/-- The key of a side in a snapshot. -/
def snapshotKey : Side → String
  | .buy => "bids"
  | .sell => "asks"

/-- What `toJson` writes about an order. -/
def orderJson (o : Order) : Json :=
  .obj [("id", .str o.id), ("side", .str o.side.name), ("type", .num o.type.toInt),
    ("price", .num o.price), ("quantity", .num o.quantity)]

/-- What `toJson` writes about a level. -/
def levelJson (mem : Memory) (l : PriceLevel) : Json :=
  .obj [("price", .num l.price), ("totalQuantity", .num l.totalQuantity),
    ("orders", .arr (l.orders.map fun r => orderJson (mem.order r)))]

/-- `OrderBook::toJson`. -/
def toJson (mem : Memory) (b : OrderBook) : Json :=
  .obj [("symbol", .str b.symbol),
    (snapshotKey .buy, .arr (b.buyLevels.map (levelJson mem))),
    (snapshotKey .sell, .arr (b.sellLevels.map (levelJson mem)))]

/-- The order `fromJson` builds from an element of a level's `orders`. -/
def readOrder (symbol : String) (s : Side) (price : ℚ) (oj : Json) : ExceptT String Option Order :=
  do
    let id ← (← ExceptT.mk (oj.constIndex "id")).getString
    let side ← oj.value Json.getString "side" s.name
    let type ← oj.value Json.getInt "type" OrderType.limit.toInt
    let priceVal ← oj.value Json.getDouble "price" price
    let quantity ← oj.value Json.getDouble "quantity" 0
    return { id, symbol, side := if side = "buy" then .buy else .sell, type := .ofInt type,
             price := priceVal, quantity }

/-- The price and the total of a level, and the elements of its `orders`. -/
def readLevel (lvl : Json) : ExceptT String Option (ℚ × ℚ × List Json) := do
  let price ← (← ExceptT.mk (lvl.constIndex "price")).getDouble
  let totalQuantity ← lvl.value Json.getDouble "totalQuantity" 0
  let orders ← ExceptT.mk (lvl.constIndex "orders")
  return (price, totalQuantity, orders.elements)

/-- The inner loop of `fromJson`: the orders of a level go into the id map at once. -/
def loadOrders (s : Side) (price : ℚ) : List Json → Memory → OrderBook → List Ref →
    Option (Except String (List Ref) × Memory × OrderBook)
  | [], mem, b, orders => some (.ok orders, mem, b)
  | oj :: ojs, mem, b, orders =>
    match (readOrder b.symbol s price oj).run with
    | none => none
    | some (.error message) => some (.error message, mem, b)
    | some (.ok o) =>
      let (mem, order) := mem.alloc o
      loadOrders s price ojs mem (b.setOrderMap (b.orderMap.insert o.id order)) (orders ++ [order])

/-- The outer loop of `fromJson`: a level is put in its place when all its orders are read. A
second level at a price is dropped. -/
def loadLevels (s : Side) : List Json → Memory → OrderBook →
    Option (Except String Unit × Memory × OrderBook)
  | [], mem, b => some (.ok (), mem, b)
  | lvl :: lvls, mem, b =>
    match (readLevel lvl).run with
    | none => none
    | some (.error message) => some (.error message, mem, b)
    | some (.ok (price, totalQuantity, ojs)) =>
      match loadOrders s price ojs mem b [] with
      | none => none
      | some (.error message, mem, b) => some (.error message, mem, b)
      | some (.ok orders, mem, b) =>
        loadLevels s lvls mem (b.setLevels s
          (Keyed.emplace PriceLevel.price s.ahead ⟨price, orders, totalQuantity⟩ (b.levels s)))

/-- One half of `fromJson`. -/
def loadSide (s : Side) (j : Json) (mem : Memory) (b : OrderBook) :
    Option (Except String Unit × Memory × OrderBook) :=
  match j.get? (snapshotKey s) with
  | none => some (.ok (), mem, b)
  | some levels => loadLevels s levels.elements mem b

/-- `OrderBook::fromJson`; `none` for a text that cannot be parsed. -/
def fromJson (mem : Memory) (b : OrderBook) (jsonStr : Option Json) :
    Option (Except String Unit × Memory × OrderBook) :=
  match jsonStr with
  | none => some (.error "parse_error.101: syntax error", mem, b)
  | some j =>
    match loadSide .buy j mem (.empty b.symbol) with
    | none => none
    | some (.error message, mem, b) => some (.error message, mem, b)
    | some (.ok (), mem, b) => loadSide .sell j mem b

end OrderBook

/-- A `directory_entry`, with what the file holds. -/
structure DirEntry where
  filename : String
  isRegularFile : Bool
  content : Option Json

/-- `path::stem` and `path::extension` of a file name: it is cut at its last period, unless that
is its first character. -/
def splitExtension (filename : String) : String × String :=
  let (suffix, rest) := filename.toList.reverse.span (· ≠ '.')
  match rest with
  | _ :: c :: stem =>
    if filename = ".." then (filename, "")
    else (.ofList (c :: stem).reverse, .ofList ( '.' :: suffix.reverse))
  | _ => (filename, "")

/-- An entry of a directory as `directory_iterator` lists it. -/
def DirEntry.ofEntry (entry : String × Option (Option Json)) : DirEntry :=
  ⟨entry.1, entry.2.isSome, entry.2.join⟩

namespace MatchingEngine

/-- The loop of `loadState` over the entries of the directory. -/
def loadEntries : List DirEntry → MatchingEngine → Option (Bool × MatchingEngine)
  | [], e => some (true, e)
  | entry :: entries, e =>
    let (symbol, extension) := splitExtension entry.filename
    if entry.isRegularFile ∧ extension = ".json" then
      let e := e.getOrCreateOrderBook symbol
      match (e.book symbol).fromJson e.mem entry.content with
      | none => none
      | some (.error _, mem, b) => some (false, { e.setBook symbol b with mem := mem })
      | some (.ok (), mem, b) => loadEntries entries { e.setBook symbol b with mem := mem }
    else loadEntries entries e

/-- `loadState`; `none` for a path that is no directory. -/
def loadState (e : MatchingEngine) (path : Option (List DirEntry)) :
    Option (Bool × MatchingEngine) :=
  match path with
  | none => some (false, e)
  | some entries => loadEntries entries e

end MatchingEngine

end GoQuant
