import GoQuant.Lib.Double
import GoQuant.Lib.FileTree
import GoQuant.Snapshot

/-!
# The order book in double precision

In the code the running total of a level is a `double`: each change rounds it, and it can become
infinite. These are the operations of `order_book.cpp` on such totals, `addOrder`, `modifyOrder`,
`cancelOrder` and `toJson`, and `MatchingEngine::saveState`. They copy prices and quantities and
never compute them, so these stay rationals (finite, as the numbers of JSON text are), which the
arithmetic converts. A total that is no finite number is dumped as null.

## Main definitions

* `DoubleBook` — the book, `DoubleBook.exact` — its totals read as rationals.
* `OrderBook.inDoubles` — a book whose totals are rounded.
* `DoubleEngine` — what `saveState` reads of an engine.

## Main results

* `exact_inDoubles` — totals with the format are not rounded.
* `toJson_exact` — finite totals are dumped as they are.
-/

namespace GoQuant

/-- `PriceLevel`, with its total in double precision. -/
structure DoubleLevel where
  price : ℚ
  orders : List Ref
  totalQuantity : Double

/-- `OrderBook`, with such levels. -/
structure DoubleBook where
  symbol : String
  buyLevels : List DoubleLevel
  sellLevels : List DoubleLevel
  orderMap : AList fun _ : String => Ref

namespace DoubleBook

/-- A new book without orders. -/
def empty (symbol : String) : DoubleBook := ⟨symbol, [], [], ∅⟩

/-- The map of one side, in iteration order. -/
def levels (b : DoubleBook) : Side → List DoubleLevel
  | .buy => b.buyLevels
  | .sell => b.sellLevels

def setLevels (b : DoubleBook) (s : Side) (ls : List DoubleLevel) : DoubleBook :=
  match s with
  | .buy => { b with buyLevels := ls }
  | .sell => { b with sellLevels := ls }

def setOrderMap (b : DoubleBook) (m : AList fun _ : String => Ref) : DoubleBook :=
  { b with orderMap := m }

/-- Rewrite the level at a price, or erase it when `f` answers `none`. -/
def alterLevel (b : DoubleBook) (s : Side) (p : ℚ) (f : DoubleLevel → Option DoubleLevel) :
    DoubleBook :=
  b.setLevels s (Keyed.alter DoubleLevel.price p f (b.levels s))

/-- The end of `addOrder` on its level. -/
def appendOrder (order : Ref) (quantity : ℚ) (level : DoubleLevel) : DoubleLevel :=
  { level with
    orders := level.orders ++ [order]
    totalQuantity := level.totalQuantity + .round quantity }

/-- `OrderBook::addOrder`. -/
def addOrder (mem : Memory) (b : DoubleBook) (order : Ref) : DoubleBook :=
  let o := mem.order order
  let ls := Keyed.emplace DoubleLevel.price o.side.ahead ⟨o.price, [], .round 0⟩ (b.levels o.side)
  let b := (b.setLevels o.side ls).alterLevel o.side o.price fun level =>
    some (appendOrder order o.quantity level)
  b.setOrderMap (b.orderMap.insert o.id order)

/-- `modifyOrder` on its level. -/
def resizeLevel (oldQuantity newQuantity : ℚ) (level : DoubleLevel) : Option DoubleLevel :=
  let total := level.totalQuantity - .round oldQuantity + .round newQuantity
  if total.NonPos then none else some { level with totalQuantity := total }

/-- `OrderBook::modifyOrder`. -/
def modifyOrder (mem : Memory) (b : DoubleBook) (orderId : String) (newQuantity : ℚ) :
    Except String (Memory × DoubleBook) :=
  match b.orderMap.lookup orderId with
  | none => .error "Order not found"
  | some r =>
    let order := mem.order r
    match Keyed.find DoubleLevel.price order.price (b.levels order.side) with
    | none => .ok (mem, b)
    | some _ =>
      .ok (mem.modifyQuantity r newQuantity,
        b.alterLevel order.side order.price (resizeLevel order.quantity newQuantity))

/-- `cancelOrder` on its level. -/
def cancelLevel (mem : Memory) (orderId : String) (quantity : ℚ) (level : DoubleLevel) :
    Option DoubleLevel :=
  let orders := OrderBook.removeId mem orderId level.orders
  if orders = [] then none
  else some { level with totalQuantity := level.totalQuantity - .round quantity, orders := orders }

/-- `OrderBook::cancelOrder`. -/
def cancelOrder (mem : Memory) (b : DoubleBook) (orderId : String) : Bool × DoubleBook :=
  match b.orderMap.lookup orderId with
  | none => (false, b)
  | some r =>
    let order := mem.order r
    let b := b.alterLevel order.side order.price (cancelLevel mem orderId order.quantity)
    (true, b.setOrderMap (b.orderMap.erase orderId))

/-- `OrderBook::hasOrder`. -/
def hasOrder (b : DoubleBook) (orderId : String) : Bool := (b.orderMap.lookup orderId).isSome

/-- What is dumped for a number. -/
def numberJson : Double → Json
  | .finite q _ => .num q
  | .inf _ | .nan => .null

/-- What `toJson` writes about a level. -/
def levelJson (mem : Memory) (l : DoubleLevel) : Json :=
  .obj [("price", .num l.price), ("totalQuantity", numberJson l.totalQuantity),
    ("orders", .arr (l.orders.map fun r => OrderBook.orderJson (mem.order r)))]

/-- `OrderBook::toJson`. -/
def toJson (mem : Memory) (b : DoubleBook) : Json :=
  .obj [("symbol", .str b.symbol),
    (OrderBook.snapshotKey .buy, .arr (b.buyLevels.map (levelJson mem))),
    (OrderBook.snapshotKey .sell, .arr (b.sellLevels.map (levelJson mem)))]

end DoubleBook

/-! ## Exact and rounded totals -/

/-- A level with its total read as a rational. -/
def DoubleLevel.exact (l : DoubleLevel) : PriceLevel :=
  ⟨l.price, l.orders, l.totalQuantity.toRat?.getD 0⟩

/-- The book with its totals read as rationals. -/
def DoubleBook.exact (b : DoubleBook) : OrderBook :=
  ⟨b.symbol, b.buyLevels.map DoubleLevel.exact, b.sellLevels.map DoubleLevel.exact, b.orderMap⟩

/-- All totals are finite numbers. -/
def DoubleBook.Finite (b : DoubleBook) : Prop :=
  ∀ s, ∀ l ∈ b.levels s, l.totalQuantity.toRat?.isSome = true

/-- The level with its total rounded. -/
def PriceLevel.inDoubles (l : PriceLevel) : DoubleLevel :=
  ⟨l.price, l.orders, .round l.totalQuantity⟩

/-- The book with its totals rounded. -/
def OrderBook.inDoubles (b : OrderBook) : DoubleBook :=
  ⟨b.symbol, b.buyLevels.map PriceLevel.inDoubles, b.sellLevels.map PriceLevel.inDoubles,
    b.orderMap⟩

/-- All totals are numbers of the format. -/
def OrderBook.Totalled (b : OrderBook) : Prop :=
  ∀ s, ∀ l ∈ b.levels s, Representable l.totalQuantity

/-- What `saveState` reads of an engine: the symbols, in the order of the hash map, and their
books. -/
structure DoubleEngine where
  symbols : List String
  nodup : symbols.Nodup
  book : String → DoubleBook
  mem : Memory

namespace DoubleEngine

/-- The loop of `saveState`. The stream is not asked whether the file could be opened. -/
def saveBooks (e : DoubleEngine) (path : List String) :
    List String → FileTree (Option Json) → FileTree (Option Json)
  | [], t => t
  | symbol :: symbols, t =>
    saveBooks e path symbols
      (t.write path (symbol ++ ".json") (some ((e.book symbol).toJson e.mem)))

/-- `saveState`; the path is the location it leads to. -/
def saveState (e : DoubleEngine) (t : FileTree (Option Json)) (path : List String) :
    Bool × FileTree (Option Json) :=
  match if t.isDir path || t.isFile path then some t else t.createDirectories path with
  | none => (false, t)
  | some t => (true, e.saveBooks path e.symbols t)

end DoubleEngine

/-- An engine whose totals are rounded. -/
def MatchingEngine.inDoubles (e : MatchingEngine) : DoubleEngine where
  symbols := e.hashOrder.symbols e.orderBooks.keys
  nodup := (e.hashOrder.symbols_perm _).nodup_iff.mpr e.orderBooks.keys_nodup
  book symbol := (e.book symbol).inDoubles
  mem := e.mem

section Exact

variable {mem : Memory} {b : DoubleBook} {b' : OrderBook}

@[simp] theorem DoubleBook.orderMap_exact (b : DoubleBook) : b.exact.orderMap = b.orderMap := rfl

@[simp] theorem DoubleBook.levels_exact (b : DoubleBook) (s : Side) :
    b.exact.levels s = (b.levels s).map DoubleLevel.exact := by
  cases s <;> rfl

@[simp] theorem OrderBook.levels_inDoubles (b : OrderBook) (s : Side) :
    b.inDoubles.levels s = (b.levels s).map PriceLevel.inDoubles := by
  cases s <;> rfl

@[simp] theorem DoubleBook.levels_alterLevel_self (b : DoubleBook) (s : Side) (p : ℚ)
    (f : DoubleLevel → Option DoubleLevel) :
    (b.alterLevel s p f).levels s = Keyed.alter DoubleLevel.price p f (b.levels s) := by
  cases s <;> rfl

theorem DoubleBook.levels_alterLevel_of_ne (b : DoubleBook) {s t : Side} (p : ℚ)
    (f : DoubleLevel → Option DoubleLevel) (h : t ≠ s) :
    (b.alterLevel s p f).levels t = b.levels t := by
  cases s <;> cases t <;> first | rfl | exact absurd rfl h

@[simp] theorem DoubleBook.orderMap_alterLevel (b : DoubleBook) (s : Side) (p : ℚ)
    (f : DoubleLevel → Option DoubleLevel) : (b.alterLevel s p f).orderMap = b.orderMap := by
  cases s <;> rfl

theorem DoubleBook.mem_levels_exact {s : Side} {l : PriceLevel} :
    l ∈ b.exact.levels s ↔ ∃ l' ∈ b.levels s, l'.exact = l := by
  rw [levels_exact, List.mem_map]

/-- A level is rewritten in both readings. -/
theorem DoubleBook.exact_alterLevel {s : Side} {p : ℚ} {f : DoubleLevel → Option DoubleLevel}
    {f' : PriceLevel → Option PriceLevel}
    (h : ∀ l ∈ b.levels s, l.price = p → (f l).map DoubleLevel.exact = f' l.exact) :
    (b.alterLevel s p f).exact = b.exact.alterLevel s p f' := by
  have hprice : ∀ l : DoubleLevel, PriceLevel.price l.exact = DoubleLevel.price l := fun _ => rfl
  have hlevels := Keyed.map_alter DoubleLevel.exact hprice f' h
  unfold OrderBook.alterLevel
  rw [levels_exact, ← hlevels]
  cases s <;> rfl

theorem DoubleLevel.toRat?_eq {l : DoubleLevel} (h : l.totalQuantity.toRat?.isSome = true) :
    l.totalQuantity.toRat? = some l.exact.totalQuantity := by
  obtain ⟨q, hq⟩ := Option.isSome_iff_exists.mp h
  rw [DoubleLevel.exact, hq, Option.getD_some]

/-- Totals with the format are not rounded. -/
theorem exact_inDoubles (h : b'.Totalled) : b'.inDoubles.exact = b' := by
  have hlevels (s : Side) :
      ((b'.levels s).map PriceLevel.inDoubles).map DoubleLevel.exact = b'.levels s := by
    rw [List.map_map]
    refine (List.map_congr_left fun l hl => ?_).trans (List.map_id _)
    have htotal := Double.toRat?_round (h s l hl)
    simp only [Function.comp, PriceLevel.inDoubles, DoubleLevel.exact, htotal, Option.getD_some, id]
  unfold DoubleBook.exact
  exact OrderBook.mk.injEq .. |>.mpr ⟨rfl, hlevels .buy, hlevels .sell, rfl⟩

theorem finite_inDoubles (h : b'.Totalled) : b'.inDoubles.Finite := by
  intro s l hl
  rw [OrderBook.levels_inDoubles] at hl
  obtain ⟨l', hl', rfl⟩ := List.mem_map.mp hl
  rw [PriceLevel.inDoubles, Double.toRat?_round (h s l' hl')]
  rfl

/-- A finite total is dumped as it is. -/
theorem DoubleBook.levelJson_exact {l : DoubleLevel} (h : l.totalQuantity.toRat?.isSome = true) :
    DoubleBook.levelJson mem l = OrderBook.levelJson mem l.exact := by
  obtain ⟨price, orders, total⟩ := l
  cases total with
  | finite q hq => rfl
  | _ => cases h

/-- So is a book whose totals are finite. -/
theorem toJson_exact (h : b.Finite) : b.toJson mem = b.exact.toJson mem := by
  have hlevels (s : Side) : (b.levels s).map (DoubleBook.levelJson mem) =
      ((b.levels s).map DoubleLevel.exact).map (OrderBook.levelJson mem) := by
    rw [List.map_map]
    exact List.map_congr_left fun l hl => DoubleBook.levelJson_exact (h s l hl)
  unfold DoubleBook.toJson OrderBook.toJson DoubleBook.exact
  rw [show b.buyLevels.map (DoubleBook.levelJson mem) = _ from hlevels .buy,
    show b.sellLevels.map (DoubleBook.levelJson mem) = _ from hlevels .sell]
  rfl

end Exact

end GoQuant
