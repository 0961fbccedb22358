import GoQuant.Order
import GoQuant.Lib.Keyed
import Mathlib.Algebra.Order.Ring.Rat

/-!
# The order book

`OrderBook` of `order_book.h` and `order_book.cpp`: two maps from prices to price levels,
best price first, and the map from ids to resting order objects. The source writes each
operation twice, once for each side's map; here it is written once, with the side as a
parameter. A book's recursive mutex only serialises its callers and is left out.
-/

namespace GoQuant

/-- `PriceLevel`, the entry of a side's map at the key `price`. -/
structure PriceLevel where
  price : ℚ
  orders : List Ref
  totalQuantity : ℚ
  deriving DecidableEq

/-- `OrderBook`. -/
structure OrderBook where
  symbol : String
  buyLevels : List PriceLevel
  sellLevels : List PriceLevel
  orderMap : AList fun _ : String => Ref

/-- `p` comes before `q` in the map of a side: bids descend (`std::greater`), asks ascend. -/
def Side.ahead : Side → ℚ → ℚ → Prop
  | .buy => fun p q => q < p
  | .sell => fun p q => p < q

instance (s : Side) : DecidableRel s.ahead := by
  cases s <;> (unfold Side.ahead; infer_instance)

instance (s : Side) : IsStrictTotalOrder ℚ s.ahead := by
  cases s
  · exact inferInstanceAs (IsStrictTotalOrder ℚ (· > ·))
  · exact inferInstanceAs (IsStrictTotalOrder ℚ (· < ·))

namespace OrderBook

/-- A new book without orders. -/
def empty (symbol : String) : OrderBook := ⟨symbol, [], [], ∅⟩

/-- The map of one side, in iteration order. -/
def levels (b : OrderBook) : Side → List PriceLevel
  | .buy => b.buyLevels
  | .sell => b.sellLevels

def setLevels (b : OrderBook) (s : Side) (ls : List PriceLevel) : OrderBook :=
  match s with
  | .buy => { b with buyLevels := ls }
  | .sell => { b with sellLevels := ls }

def setOrderMap (b : OrderBook) (m : AList fun _ : String => Ref) : OrderBook :=
  { b with orderMap := m }

/-- Rewrite the level at a price, or erase it when `f` answers `none`. Without such a level
nothing happens. -/
def alterLevel (b : OrderBook) (s : Side) (p : ℚ) (f : PriceLevel → Option PriceLevel) :
    OrderBook :=
  b.setLevels s (Keyed.alter PriceLevel.price p f (b.levels s))

/-- `level.orders.remove_if` on an id. -/
def removeId (mem : Memory) (orderId : String) (orders : List Ref) : List Ref :=
  orders.filter fun o => (mem.order o).id ≠ orderId

/-- `if (level.orders.empty()) erase`. -/
def eraseEmpty (level : PriceLevel) : Option PriceLevel :=
  if level.orders = [] then none else some level

/-- The end of `addOrder` on its level. -/
def appendOrder (order : Ref) (quantity : ℚ) (level : PriceLevel) : PriceLevel :=
  { level with
    orders := level.orders ++ [order]
    totalQuantity := level.totalQuantity + quantity }

/-- `OrderBook::addOrder`. -/
def addOrder (mem : Memory) (b : OrderBook) (order : Ref) : OrderBook :=
  let o := mem.order order
  let ls := Keyed.emplace PriceLevel.price o.side.ahead ⟨o.price, [], 0⟩ (b.levels o.side)
  let b := (b.setLevels o.side ls).alterLevel o.side o.price fun level =>
    some (appendOrder order o.quantity level)
  b.setOrderMap (b.orderMap.insert o.id order)

/-- `modifyOrder` on its level. A level whose total drops to zero is erased as a whole. -/
def resizeLevel (oldQuantity newQuantity : ℚ) (level : PriceLevel) : Option PriceLevel :=
  let total := level.totalQuantity - oldQuantity + newQuantity
  if total ≤ 0 then none else some { level with totalQuantity := total }

/-- `OrderBook::modifyOrder`. -/
def modifyOrder (mem : Memory) (b : OrderBook) (orderId : String) (newQuantity : ℚ) :
    Except String (Memory × OrderBook) :=
  match b.orderMap.lookup orderId with
  | none => .error "Order not found"
  | some r =>
    let order := mem.order r
    match Keyed.find PriceLevel.price order.price (b.levels order.side) with
    | none => .ok (mem, b)
    | some _ =>
      .ok (mem.modifyQuantity r newQuantity,
        b.alterLevel order.side order.price (resizeLevel order.quantity newQuantity))

/-- `cancelOrder` on its level. -/
def cancelLevel (mem : Memory) (orderId : String) (quantity : ℚ) (level : PriceLevel) :
    Option PriceLevel :=
  eraseEmpty { level with
    totalQuantity := level.totalQuantity - quantity
    orders := removeId mem orderId level.orders }

/-- `OrderBook::cancelOrder`. -/
def cancelOrder (mem : Memory) (b : OrderBook) (orderId : String) : Bool × OrderBook :=
  match b.orderMap.lookup orderId with
  | none => (false, b)
  | some r =>
    let order := mem.order r
    let b := b.alterLevel order.side order.price (cancelLevel mem orderId order.quantity)
    (true, b.setOrderMap (b.orderMap.erase orderId))

/-- `decreaseOrderQuantity` on its level. -/
def decreaseLevel (mem : Memory) (orderId : String) (oldQty newQty : ℚ) (level : PriceLevel) :
    Option PriceLevel :=
  let total := level.totalQuantity - (oldQty - newQty)
  eraseEmpty { level with
    totalQuantity := if total < 0 then 0 else total
    orders := if newQty ≤ 0 then removeId mem orderId level.orders else level.orders }

/-- `newQty` of `decreaseOrderQuantity`, clamped at zero. -/
def decreased (oldQty amount : ℚ) : ℚ := if oldQty - amount < 0 then 0 else oldQty - amount

/-- `OrderBook::decreaseOrderQuantity`. -/
def decreaseOrderQuantity (mem : Memory) (b : OrderBook) (orderId : String) (amount : ℚ) :
    ℚ × Memory × OrderBook :=
  match b.orderMap.lookup orderId with
  | none => (0, mem, b)
  | some r =>
    let order := mem.order r
    let oldQty := order.quantity
    let newQty := decreased oldQty amount
    let b := b.alterLevel order.side order.price (decreaseLevel mem orderId oldQty newQty)
    if newQty ≤ 0 then (newQty, mem, b.setOrderMap (b.orderMap.erase orderId))
    else (newQty, mem.modifyQuantity r newQty, b)

/-- `OrderBook::hasOrder`. -/
def hasOrder (b : OrderBook) (orderId : String) : Bool := (b.orderMap.lookup orderId).isSome

/-- `OrderBook::getOrderCount`. -/
def getOrderCount (b : OrderBook) : ℕ := b.orderMap.entries.length

/-- `getBestBidPrice` and `getBestAskPrice`. -/
def getBestPrice (b : OrderBook) (s : Side) : ℚ :=
  match b.levels s with
  | [] => 0
  | level :: _ => level.price

/-- `getBestBidQuantity` and `getBestAskQuantity`. -/
def getBestQuantity (b : OrderBook) (s : Side) : ℚ :=
  match b.levels s with
  | [] => 0
  | level :: _ => level.totalQuantity

/-- `getTopBids` and `getTopAsks`. -/
def getTop (b : OrderBook) (s : Side) (depth : ℕ) : List (ℚ × ℚ) :=
  ((b.levels s).take depth).map fun level => (level.price, level.totalQuantity)

/-- A level price an incoming order's limit does not reach: it breaks the scan. -/
def beyond (incoming : Order) (price : ℚ) : Prop :=
  match incoming.side with
  | .buy => incoming.price < price
  | .sell => price < incoming.price

instance (incoming : Order) (price : ℚ) : Decidable (beyond incoming price) := by
  unfold beyond; cases incoming.side <;> infer_instance

/-- The inner loop of `getMatchingOrders`: the orders taken and what remains to be covered. -/
def takeOrders (mem : Memory) : ℚ → List Ref → List Ref × ℚ
  | remainingQty, [] => ([], remainingQty)
  | remainingQty, order :: orders =>
    if remainingQty ≤ 0 then ([], remainingQty)
    else
      let (ms, rest) := takeOrders mem (remainingQty - (mem.order order).quantity) orders
      (order :: ms, rest)

/-- The outer loop of `getMatchingOrders`. -/
def scanLevels (mem : Memory) (incoming : Order) : ℚ → List PriceLevel → List Ref
  | _, [] => []
  | remainingQty, level :: ls =>
    if incoming.type ≠ .market ∧ beyond incoming level.price then []
    else
      let (ms, rest) := takeOrders mem remainingQty level.orders
      ms ++ scanLevels mem incoming rest ls

/-- `OrderBook::getMatchingOrders`. -/
def getMatchingOrders (mem : Memory) (b : OrderBook) (incoming : Order) : List Ref :=
  scanLevels mem incoming incoming.quantity (b.levels incoming.side.opposite)

/-- `OrderBook::hasMatchingOrders`. -/
def hasMatchingOrders (b : OrderBook) (order : Order) : Bool :=
  match b.levels order.side.opposite with
  | [] => false
  | best :: _ => if order.type = .market then true else decide (¬ beyond order best.price)

/-! ## Reading back a rewritten book -/

section Fields

variable (b : OrderBook) (s : Side) (p : ℚ) (f : PriceLevel → Option PriceLevel)
  (ls : List PriceLevel)

@[simp] theorem levels_empty (symbol : String) : (empty symbol).levels s = [] := by
  cases s <;> rfl

@[simp] theorem levels_setLevels_self : (b.setLevels s ls).levels s = ls := by cases s <;> rfl

theorem levels_setLevels_of_ne {s t : Side} (h : t ≠ s) :
    (b.setLevels s ls).levels t = b.levels t := by
  cases s <;> cases t <;> first | rfl | exact absurd rfl h

@[simp] theorem orderMap_setLevels : (b.setLevels s ls).orderMap = b.orderMap := by
  cases s <;> rfl

@[simp] theorem symbol_setLevels : (b.setLevels s ls).symbol = b.symbol := by
  cases s <;> rfl

@[simp] theorem levels_setOrderMap (m : AList fun _ : String => Ref) :
    (b.setOrderMap m).levels s = b.levels s := by
  cases s <;> rfl

@[simp] theorem orderMap_setOrderMap (m : AList fun _ : String => Ref) :
    (b.setOrderMap m).orderMap = m := rfl

@[simp] theorem symbol_setOrderMap (m : AList fun _ : String => Ref) :
    (b.setOrderMap m).symbol = b.symbol := rfl

@[simp] theorem levels_alterLevel_self :
    (b.alterLevel s p f).levels s = Keyed.alter PriceLevel.price p f (b.levels s) := by
  simp [alterLevel]

theorem levels_alterLevel_of_ne {s t : Side} (h : t ≠ s) :
    (b.alterLevel s p f).levels t = b.levels t := by
  simp [alterLevel, levels_setLevels_of_ne _ _ h]

@[simp] theorem orderMap_alterLevel : (b.alterLevel s p f).orderMap = b.orderMap := by
  simp [alterLevel]

@[simp] theorem symbol_alterLevel : (b.alterLevel s p f).symbol = b.symbol := by
  simp [alterLevel]

end Fields

end OrderBook

end GoQuant
