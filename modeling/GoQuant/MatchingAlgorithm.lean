import GoQuant.OrderBook
import GoQuant.Lib.Loop
import Mathlib.Algebra.Order.Ring.Abs

/-!
# The matching algorithm

`Trade` and `MatchingAlgorithm` of `matching_algorithm.h` and `matching_algorithm.cpp`,
with the fee model of `engine/fee_model.h` it consults. The `while` loops run on fuel; an
answer `none` means that the fuel ran out. The time a trade was made at is left out.
-/

namespace GoQuant

/-- `FeeSchedule`. -/
structure FeeSchedule where
  makerFee : ℚ := 1 / 1000
  takerFee : ℚ := 2 / 1000

/-- `FeeModel`. -/
structure FeeModel where
  feeSchedules : AList fun _ : String => FeeSchedule

/-- `FeeModel::FeeCalculation`. -/
structure FeeCalculation where
  makerFee : ℚ
  takerFee : ℚ
  makerRebate : ℚ

namespace FeeModel

def getFeeSchedule (fm : FeeModel) (symbol : String) : FeeSchedule :=
  (fm.feeSchedules.lookup symbol).getD {}

def calculateFees (fm : FeeModel) (symbol : String) (price quantity : ℚ) : FeeCalculation where
  makerFee := price * quantity * max 0 (fm.getFeeSchedule symbol).makerFee
  takerFee := price * quantity * (fm.getFeeSchedule symbol).takerFee
  makerRebate := price * quantity * |min 0 (fm.getFeeSchedule symbol).makerFee|

end FeeModel

/-- `Trade`. `seqNum` is set when the trade is published. -/
structure Trade where
  tradeId : String
  symbol : String
  price : ℚ
  quantity : ℚ
  makerFee : ℚ
  takerFee : ℚ
  makerOrderId : String
  takerOrderId : String
  aggressorSide : Side
  seqNum : ℕ
  deriving DecidableEq

/-- The locals of a matching loop with the objects it works on. -/
structure Matching where
  mem : Memory
  book : OrderBook
  remainingQty : ℚ
  trades : List Trade

namespace MatchingAlgorithm

/-- Maker and taker fee of a trade: the fee model's, or the built-in rates without one. -/
def fees (feeModel : Option FeeModel) (symbol : String) (price quantity : ℚ) : ℚ × ℚ :=
  match feeModel with
  | some fm =>
    let fee := fm.calculateFees symbol price quantity
    (fee.makerFee - fee.makerRebate, fee.takerFee)
  | none => (price * quantity * (1 / 1000), price * quantity * (2 / 1000))

/-- `MatchingAlgorithm::executeTrade`. Both ids are looked up in the book, the taker's too. -/
def executeTrade (feeModel : Option FeeModel) (mem : Memory) (b : OrderBook)
    (maker taker : Ref) (quantity : ℚ) : Trade × Memory × OrderBook :=
  let execPrice := (mem.order maker).price
  let (_, mem, b) := b.decreaseOrderQuantity mem (mem.order maker).id quantity
  let (_, mem, b) := b.decreaseOrderQuantity mem (mem.order taker).id quantity
  let (tradeId, mem) := mem.generateTradeId
  let fee := fees feeModel (mem.order maker).symbol execPrice quantity
  ({ tradeId := tradeId
     symbol := (mem.order maker).symbol
     price := execPrice
     quantity := quantity
     makerFee := fee.1
     takerFee := fee.2
     makerOrderId := (mem.order maker).id
     takerOrderId := (mem.order taker).id
     aggressorSide := (mem.order taker).side
     seqNum := 0 }, mem, b)

/-- The body of the `for` loop: one trade with the next order `getMatchingOrders` answered. -/
def fillOne (feeModel : Option FeeModel) (order matchingOrder : Ref) (s : Matching) : Matching :=
  let tradeQty := min s.remainingQty (s.mem.order matchingOrder).quantity
  let (trade, mem, book) := executeTrade feeModel s.mem s.book matchingOrder order tradeQty
  { mem := mem
    book := book
    remainingQty := s.remainingQty - tradeQty
    trades := s.trades ++ [trade] }

/-- The `for` loop over the orders `getMatchingOrders` answered. -/
def fillFrom (feeModel : Option FeeModel) (order : Ref) : List Ref → Matching → Matching
  | [], s => s
  | matchingOrder :: rest, s =>
    if s.remainingQty ≤ 0 then s
    else fillFrom feeModel order rest (fillOne feeModel order matchingOrder s)

/-- The part of the `while` loops below that the order types share: one pass over the
orders that match now, or leaving the loop when there are none. -/
def pass (feeModel : Option FeeModel) (order : Ref) (s : Matching) : Option Matching :=
  match s.book.getMatchingOrders s.mem (s.mem.order order) with
  | [] => none
  | matchingOrders => some (fillFrom feeModel order matchingOrders s)

/-- One iteration of the `while` loop of `processMarketOrder`. -/
def marketStep (feeModel : Option FeeModel) (order : Ref) (s : Matching) : Option Matching :=
  if 0 < s.remainingQty then pass feeModel order s else none

/-- One iteration of the `while` loop of `processLimitOrder` and `processIOCOrder`. -/
def limitStep (feeModel : Option FeeModel) (order : Ref) (s : Matching) : Option Matching :=
  if 0 < s.remainingQty ∧ s.book.hasMatchingOrders (s.mem.order order) = true then
    pass feeModel order s
  else none

/-- The locals a matching function starts from. -/
def start (mem : Memory) (b : OrderBook) (order : Ref) : Matching :=
  ⟨mem, b, (mem.order order).quantity, []⟩

section Start

variable (mem : Memory) (b : OrderBook) (order : Ref)

@[simp] theorem start_mem : (start mem b order).mem = mem := rfl
@[simp] theorem start_book : (start mem b order).book = b := rfl
@[simp] theorem start_remainingQty :
    (start mem b order).remainingQty = (mem.order order).quantity := rfl
@[simp] theorem start_trades : (start mem b order).trades = [] := rfl

end Start

/-- `MatchingAlgorithm::processMarketOrder`. -/
def processMarketOrder (feeModel : Option FeeModel) (fuel : ℕ) (mem : Memory) (b : OrderBook)
    (order : Ref) : Option Matching :=
  Loop.run (marketStep feeModel order) fuel (start mem b order)

/-- What `processLimitOrder` does after its loop: a remainder rests. -/
def restRemainder (order : Ref) (s : Matching) : Matching :=
  if 0 < s.remainingQty then
    let mem := s.mem.modifyQuantity order s.remainingQty
    { s with mem := mem, book := s.book.addOrder mem order }
  else s

/-- `MatchingAlgorithm::processLimitOrder`. -/
def processLimitOrder (feeModel : Option FeeModel) (fuel : ℕ) (mem : Memory) (b : OrderBook)
    (order : Ref) : Option Matching :=
  (Loop.run (limitStep feeModel order) fuel (start mem b order)).map (restRemainder order)

/-- `MatchingAlgorithm::processIOCOrder`. -/
def processIOCOrder (feeModel : Option FeeModel) (fuel : ℕ) (mem : Memory) (b : OrderBook)
    (order : Ref) : Option Matching :=
  Loop.run (limitStep feeModel order) fuel (start mem b order)

/-- The first loop of `processFOKOrder`: it stops once the wanted quantity is available. -/
def availableQty (mem : Memory) (wanted : ℚ) : ℚ → List Ref → ℚ
  | totalAvailableQty, [] => totalAvailableQty
  | totalAvailableQty, mo :: rest =>
    let total := totalAvailableQty + (mem.order mo).quantity
    if wanted ≤ total then total else availableQty mem wanted total rest

/-- `MatchingAlgorithm::processFOKOrder`. -/
def processFOKOrder (feeModel : Option FeeModel) (mem : Memory) (b : OrderBook)
    (order : Ref) : Matching :=
  let matchingOrders := b.getMatchingOrders mem (mem.order order)
  if availableQty mem (mem.order order).quantity 0 matchingOrders < (mem.order order).quantity
  then start mem b order
  else fillFrom feeModel order matchingOrders (start mem b order)

/-- `MatchingAlgorithm::processOrder`: the exception of the `default` branch, or the loops'
result when the fuel suffices. -/
def processOrder (feeModel : Option FeeModel) (fuel : ℕ) (mem : Memory) (b : OrderBook)
    (order : Ref) : Except String (Option Matching) :=
  match (mem.order order).type with
  | .market => .ok (processMarketOrder feeModel fuel mem b order)
  | .limit => .ok (processLimitOrder feeModel fuel mem b order)
  | .ioc => .ok (processIOCOrder feeModel fuel mem b order)
  | .fok => .ok (some (processFOKOrder feeModel mem b order))
  | _ => .error "Unknown order type"

/-- `processOrder` returns: neither an exception nor an endless loop. -/
def Returns (feeModel : Option FeeModel) (mem : Memory) (b : OrderBook) (order : Ref)
    (result : Matching) : Prop :=
  ∃ fuel, processOrder feeModel fuel mem b order = .ok (some result)

end MatchingAlgorithm

end GoQuant
