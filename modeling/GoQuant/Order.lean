import Mathlib.Data.List.AList
import Mathlib.Data.Rat.Defs
import Mathlib.Logic.Function.Basic

/-!
# Orders and the memory they live in

An order is a record of `order_book.h`. The engine passes orders around as shared
pointers, so that a price level, the id map and a caller can hold one and the same
object: here an order is reached through a handle `Ref` into a `Memory`. Only
`modifyQuantity` ever writes to an object. Prices and quantities are exact rationals.
The creation time of an order, which nothing reads but its printing, is left out.
-/

namespace GoQuant

/-- `Order::Side`. -/
inductive Side where
  | buy | sell
  deriving DecidableEq, Repr

def Side.opposite : Side → Side
  | .buy => .sell
  | .sell => .buy

/-- The word the log and the messages use for a side. -/
def Side.name : Side → String
  | .buy => "buy"
  | .sell => "sell"

@[simp] theorem Side.opposite_opposite (s : Side) : s.opposite.opposite = s := by cases s <;> rfl

@[simp] theorem Side.opposite_ne (s : Side) : s.opposite ≠ s := by cases s <;> decide

theorem Side.eq_or_eq_opposite (s t : Side) : s = t ∨ s = t.opposite := by
  cases s <;> cases t <;> decide

/-- `Order::Type`. A cast from an integer can leave the seven enumerators; `other` is
such a value. -/
inductive OrderType where
  | market | limit | ioc | fok | stopLoss | stopLimit | takeProfit
  | other (code : ℤ) (h : code < 0 ∨ 6 < code)
  deriving DecidableEq

/-- `static_cast<int>` of an order type. -/
def OrderType.toInt : OrderType → ℤ
  | .market => 0
  | .limit => 1
  | .ioc => 2
  | .fok => 3
  | .stopLoss => 4
  | .stopLimit => 5
  | .takeProfit => 6
  | .other code _ => code

/-- `static_cast<Order::Type>` of an integer. -/
def OrderType.ofInt (code : ℤ) : OrderType :=
  if h : code < 0 ∨ 6 < code then .other code h
  else if code = 0 then .market
  else if code = 1 then .limit
  else if code = 2 then .ioc
  else if code = 3 then .fok
  else if code = 4 then .stopLoss
  else if code = 5 then .stopLimit
  else .takeProfit

@[simp] theorem OrderType.ofInt_toInt (t : OrderType) : ofInt t.toInt = t := by
  cases t with
  | other code h => simp [ofInt, toInt, h]
  | _ => rfl

/-- The order types `processOrder` accepts. -/
def OrderType.Matchable (t : OrderType) : Prop :=
  t = .market ∨ t = .limit ∨ t = .ioc ∨ t = .fok

/-- The order types that wait for a trigger. -/
def OrderType.isTrigger : OrderType → Bool
  | .stopLoss | .stopLimit | .takeProfit => true
  | _ => false

instance (t : OrderType) : Decidable t.Matchable := by
  unfold OrderType.Matchable; infer_instance

/-- `Order`. -/
structure Order where
  id : String
  symbol : String
  side : Side
  type : OrderType
  price : ℚ
  quantity : ℚ
  deriving DecidableEq

instance : Inhabited Order := ⟨⟨"", "", .buy, .market, 0, 0⟩⟩

/-- A `std::shared_ptr<Order>`. -/
abbrev Ref := ℕ

/-- The order objects of the process, and the process-wide counter of trade ids. -/
structure Memory where
  order : Ref → Order
  next : Ref
  tradeCounter : ℕ

namespace Memory

/-- A process that has not built an order yet. -/
def empty : Memory := ⟨fun _ => default, 0, 0⟩

instance : Inhabited Memory := ⟨empty⟩

/-- `std::make_shared<Order>`. -/
def alloc (mem : Memory) (o : Order) : Memory × Ref :=
  ({ mem with order := Function.update mem.order mem.next o, next := mem.next + 1 }, mem.next)

/-- `Order::modifyQuantity`. -/
def modifyQuantity (mem : Memory) (r : Ref) (newQuantity : ℚ) : Memory :=
  { mem with
    order := Function.update mem.order r { mem.order r with quantity := newQuantity } }

/-- `Trade::generateTradeId`. -/
def generateTradeId (mem : Memory) : String × Memory :=
  ("TRD" ++ toString (mem.tradeCounter + 1), { mem with tradeCounter := mem.tradeCounter + 1 })

section Fields

variable (mem : Memory) (r r' : Ref) (q : ℚ) (o : Order)

@[simp] theorem alloc_snd : (mem.alloc o).2 = mem.next := rfl
@[simp] theorem alloc_next : (mem.alloc o).1.next = mem.next + 1 := rfl
@[simp] theorem alloc_order_self : (mem.alloc o).1.order mem.next = o := by simp [alloc]

theorem alloc_order_of_lt (h : r < mem.next) : (mem.alloc o).1.order r = mem.order r := by
  simp [alloc, Nat.ne_of_lt h]

@[simp] theorem modifyQuantity_next : (mem.modifyQuantity r q).next = mem.next := rfl
@[simp] theorem modifyQuantity_tradeCounter :
    (mem.modifyQuantity r q).tradeCounter = mem.tradeCounter := rfl

/-- Only the quantity of one object is written. -/
@[simp] theorem modifyQuantity_order :
    (mem.modifyQuantity r q).order r' =
      { mem.order r' with quantity := if r' = r then q else (mem.order r').quantity } := by
  by_cases h : r' = r
  · subst h; simp [modifyQuantity]
  · simp [modifyQuantity, h]

theorem modifyQuantity_order_of_ne (h : r' ≠ r) :
    (mem.modifyQuantity r q).order r' = mem.order r' := by
  simp [h]

@[simp] theorem generateTradeId_order : mem.generateTradeId.2.order = mem.order := rfl
@[simp] theorem generateTradeId_next : mem.generateTradeId.2.next = mem.next := rfl

end Fields

end Memory

end GoQuant
