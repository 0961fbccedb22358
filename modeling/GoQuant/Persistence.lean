import GoQuant.Snapshot

/-!
# Compact persistence

`OrderBookPersistence` of `persistence.h`: the top levels of a book as prices with their totals,
and the book that is made of them, with one LIMIT order for each level. As in a snapshot, the bids
and the asks are written and read here once, with the side as a parameter, and a file is the JSON
value its text parses to. The write is taken to succeed.
-/

namespace GoQuant

namespace OrderBookPersistence

/-- What the ids of a side's orders begin with. -/
def idPrefix : Side → String
  | .buy => "B_"
  | .sell => "A_"

def DEPTH : ℕ := 100

/-- What `saveOrderBook` writes about a level. -/
def levelJson (level : ℚ × ℚ) : Json :=
  .obj [("price", .num level.1), ("quantity", .num level.2)]

/-- `saveOrderBook`, at a time in seconds: the content of the file. -/
def saveOrderBook (symbol : String) (now : ℤ) (b : OrderBook) : Json :=
  .obj [("symbol", .str symbol), ("timestamp", .num now),
    (OrderBook.snapshotKey .buy, .arr ((b.getTop .buy DEPTH).map levelJson)),
    (OrderBook.snapshotKey .sell, .arr ((b.getTop .sell DEPTH).map levelJson))]

/-- The order that stands for a level. -/
def levelOrder (symbol : String) (s : Side) (idx : ℕ) (level : ℚ × ℚ) : Order where
  id := idPrefix s ++ toString idx
  symbol := symbol
  side := s
  type := .limit
  price := level.1
  quantity := level.2

def readLevel (lv : Json) : ExceptT String Option (ℚ × ℚ) := do
  let price ← (← ExceptT.mk (lv.constIndex "price")).getDouble
  let quantity ← (← ExceptT.mk (lv.constIndex "quantity")).getDouble
  return (price, quantity)

/-- The loop over the levels of a side. -/
def loadLevels (s : Side) (idx : ℕ) (mem : Memory) (b : OrderBook) :
    List Json → ExceptT String Option (Memory × OrderBook)
  | [] => return (mem, b)
  | lv :: lvs => do
    let level ← readLevel lv
    let (mem, order) := mem.alloc (levelOrder b.symbol s idx level)
    loadLevels s (idx + 1) mem (b.addOrder mem order) lvs

/-- One half of `loadOrderBook`. -/
def loadSide (s : Side) (j : Json) (mem : Memory) (b : OrderBook) :
    ExceptT String Option (Memory × OrderBook) :=
  match j.get? (OrderBook.snapshotKey s) with
  | none => return (mem, b)
  | some levels => loadLevels s 0 mem b levels.elements

/-- `loadOrderBook` of a file, whose text may fail to parse. An exception ends in a null pointer,
here `some none`; where a level lacks a field there is no result. -/
def loadOrderBook (mem : Memory) (file : Option Json) : Option (Option (Memory × OrderBook)) :=
  match file with
  | none => some none
  | some j =>
    let result : ExceptT String Option (Memory × OrderBook) := do
      let symbol ← (← j.index "symbol").getString
      let (mem, b) ← loadSide .buy j mem (.empty symbol)
      loadSide .sell j mem b
    result.run.map Except.toOption

end OrderBookPersistence

end GoQuant
