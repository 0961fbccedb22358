import GoQuant.Book.Levels
import GoQuant.Persistence

/-!
# What compact persistence keeps

The book made of a compact file has the prices and totals of the first levels that were written,
each in one order. An order that stays within them trades the same quantities at the same prices
on both books.

## Main definitions

* `OrderBookPersistence.tiers` — the ladder that the levels of a file become.

## Main results

* `OrderBookPersistence.loadLevels_map` — the loop over the levels of a side, by induction on
  what is left to read.
* `Greedy.Proper.fills_take` — a walk that stays on the first levels does not see the others.
* `loadOrderBook_saveOrderBook` — the round trip, up to the depth.
-/

namespace GoQuant

open MatchingAlgorithm

namespace OrderBookPersistence

/-- The ladder that some levels become, their ids counted from `idx`. -/
def tiers (symbol : String) (s : Side) : ℕ → List (ℚ × ℚ) → List (Tier ℚ Order)
  | _, [] => []
  | idx, level :: ls => ⟨level.1, [levelOrder symbol s idx level]⟩ :: tiers symbol s (idx + 1) ls

variable {mem : Memory} {b : OrderBook} {s : Side} {symbol : String} {idx : ℕ}

theorem idPrefix_injective {t : Side} {i j : ℕ}
    (h : idPrefix s ++ toString i = idPrefix t ++ toString j) : s = t ∧ i = j := by
  cases s <;> cases t
  · exact ⟨rfl, toString_injective ((String.append_right_inj "B_").mp h)⟩
  · have hlist := congrArg String.toList h
    simp [idPrefix] at hlist
  · have hlist := congrArg String.toList h
    simp [idPrefix] at hlist
  · exact ⟨rfl, toString_injective ((String.append_right_inj "A_").mp h)⟩

theorem depth_tiers (ls : List (ℚ × ℚ)) :
    Ladder.depth Order.quantity (tiers symbol s idx ls) = ls := by
  induction ls generalizing idx with
  | nil => rfl
  | cons level ls ih =>
    have htail : Ladder.depth Order.quantity (tiers symbol s (idx + 1) ls) = ls := ih
    simp only [Ladder.depth, tiers, List.map_cons] at htail ⊢
    rw [htail]
    simp [levelOrder]

theorem length_items_tiers {t : Tier ℚ Order} {ls : List (ℚ × ℚ)}
    (ht : t ∈ tiers symbol s idx ls) : t.items.length = 1 := by
  induction ls generalizing idx with
  | nil => exact absurd ht List.not_mem_nil
  | cons level ls ih =>
    rcases List.mem_cons.mp ht with rfl | ht
    · rfl
    · exact ih ht

/-- Reading what was written about a level. -/
theorem readLevel_levelJson (level : ℚ × ℚ) : readLevel (levelJson level) = pure level := rfl

end OrderBookPersistence

/-- No level is without quantity. -/
theorem WellFormed.total_pos {mem : Memory} {b : OrderBook} (h : WellFormed mem b) {s : Side}
    {l : PriceLevel} (hl : l ∈ b.levels s) : 0 < l.totalQuantity := by
  rw [h.total s l hl, Memory.total]
  refine List.sum_pos _ ?_ (by simpa using h.nonempty s l hl)
  intro q hq
  obtain ⟨r, hr, rfl⟩ := List.mem_map.mp hq
  exact h.positive r ⟨s, l, hl, hr⟩

/-- The ladders after a new order is put to rest. -/
theorem WellFormed.ladder_rest {mem : Memory} {b : OrderBook} (h : WellFormed mem b) (o : Order)
    (side : Side) :
    (b.addOrder (mem.alloc o).1 mem.next).ladder (mem.alloc o).1 side =
      if side = o.side then Ladder.push side.ahead o.price o (b.ladder mem side)
      else b.ladder mem side := by
  have hself : (mem.alloc o).1.order mem.next = o := Memory.alloc_order_self mem o
  have hladder := h.ladder_alloc o side
  rw [OrderBook.ladder] at hladder ⊢
  split_ifs with hside
  · subst hside
    have hqueues := @OrderBook.queues_addOrder_self (mem.alloc o).1 b mem.next
    rw [hself] at hqueues
    rw [hqueues, Ladder.map_push, hself, hladder]
  · rw [OrderBook.queues_addOrder_of_ne (by rwa [hself]), hladder]

namespace OrderBookPersistence

variable {mem : Memory} {b : OrderBook} {s : Side} {symbol : String} {idx : ℕ}

/-- The loop over the levels of a side appends them as they come. -/
theorem loadLevels_map (h : WellFormed mem b) {ls : List (ℚ × ℚ)}
    (hsorted : Keyed.Sorted Prod.fst s.ahead ls)
    (hbehind : ∀ t ∈ b.ladder mem s, ∀ l ∈ ls, s.ahead t.key l.1) (hpos : ∀ l ∈ ls, 0 < l.2)
    (hids : ∀ i ≥ idx, b.orderMap.lookup (idPrefix s ++ toString i) = none) :
    ∃ mem' b', loadLevels s idx mem b (ls.map levelJson) = pure (mem', b') ∧
      WellFormed mem' b' ∧ b'.symbol = b.symbol ∧
      b'.ladder mem' s = b.ladder mem s ++ tiers b.symbol s idx ls ∧
      (∀ t, t ≠ s → b'.ladder mem' t = b.ladder mem t) ∧
      ∀ id, (∀ i : ℕ, id ≠ idPrefix s ++ toString i) →
        b'.orderMap.lookup id = b.orderMap.lookup id := by
  induction ls generalizing idx mem b with
  | nil =>
    refine ⟨mem, b, rfl, h, rfl, ?_, fun _ _ => rfl, fun _ _ => rfl⟩
    rw [tiers, List.append_nil]
  | cons level ls ih =>
    obtain ⟨hfirst, hsorted⟩ := List.pairwise_cons.mp hsorted
    obtain ⟨hq, hpos⟩ := List.forall_mem_cons.mp hpos
    have hrest := h.rest (levelOrder b.symbol s idx level) hq (hids idx le_rfl)
    have hladder := h.ladder_rest (levelOrder b.symbol s idx level)
    have hself := Memory.alloc_order_self mem (levelOrder b.symbol s idx level)
    have hpush : Ladder.push s.ahead level.1 (levelOrder b.symbol s idx level)
        (b.ladder mem s) = b.ladder mem s ++ [⟨level.1, [levelOrder b.symbol s idx level]⟩] :=
      Ladder.push_of_behind fun t ht => hbehind t ht level List.mem_cons_self
    have hown := hladder s
    rw [if_pos (show s = (levelOrder b.symbol s idx level).side from rfl)] at hown
    replace hown := hown.trans hpush
    have hbehind' : ∀ t ∈ (b.addOrder (mem.alloc (levelOrder b.symbol s idx level)).1
        mem.next).ladder (mem.alloc (levelOrder b.symbol s idx level)).1 s, ∀ l ∈ ls,
          s.ahead t.key l.1 := by
      intro t ht l hl
      rw [hown] at ht
      rcases List.mem_append.mp ht with ht | ht
      · exact hbehind t ht l (List.mem_cons_of_mem _ hl)
      · rw [List.mem_singleton.mp ht]
        exact hfirst l hl
    have hids' : ∀ i ≥ idx + 1, (b.addOrder (mem.alloc (levelOrder b.symbol s idx level)).1
        mem.next).orderMap.lookup (idPrefix s ++ toString i) = none := by
      intro i hi
      have hne : idPrefix s ++ toString i ≠ (levelOrder b.symbol s idx level).id :=
        fun heq => absurd (idPrefix_injective heq).2 (by omega)
      rw [OrderBook.orderMap_addOrder, hself, AList.lookup_insert_ne hne]
      exact hids i (by omega)
    obtain ⟨mem', b', hload, hwell, hsymbol, hladder', hother, hlookup⟩ :=
      ih hrest hsorted hbehind' hpos hids'
    rw [OrderBook.symbol_addOrder] at hsymbol hladder'
    refine ⟨mem', b', ?_, hwell, hsymbol, ?_, fun t ht => ?_, fun id hid => ?_⟩
    · rw [List.map_cons, loadLevels, readLevel_levelJson, pure_bind]
      exact hload
    · rw [hladder', hown, List.append_assoc]
      rfl
    · rw [hother t ht, hladder t]
      exact if_neg ht
    · have hne : id ≠ (levelOrder b.symbol s idx level).id := hid idx
      rw [hlookup id hid, OrderBook.orderMap_addOrder, hself, AList.lookup_insert_ne hne]

/-- A half of the file that was written for a side. -/
theorem loadSide_map (h : WellFormed mem b) {ls : List (ℚ × ℚ)} {j : Json}
    (hj : j.get? (OrderBook.snapshotKey s) = some (.arr (ls.map levelJson)))
    (hsorted : Keyed.Sorted Prod.fst s.ahead ls) (hnone : b.ladder mem s = [])
    (hpos : ∀ l ∈ ls, 0 < l.2)
    (hids : ∀ i : ℕ, b.orderMap.lookup (idPrefix s ++ toString i) = none) :
    ∃ mem' b', loadSide s j mem b = pure (mem', b') ∧
      WellFormed mem' b' ∧ b'.symbol = b.symbol ∧ b'.ladder mem' s = tiers b.symbol s 0 ls ∧
      (∀ t, t ≠ s → b'.ladder mem' t = b.ladder mem t) ∧
      ∀ id, (∀ i : ℕ, id ≠ idPrefix s ++ toString i) →
        b'.orderMap.lookup id = b.orderMap.lookup id := by
  obtain ⟨mem', b', hload, hwell, hsymbol, hladder, hrest⟩ :=
    loadLevels_map h hsorted (by simp [hnone]) hpos fun i _ => hids i
  rw [hnone, List.nil_append] at hladder
  refine ⟨mem', b', ?_, hwell, hsymbol, hladder, hrest⟩
  rw [loadSide, hj]
  exact hload

theorem get?_saveOrderBook (symbol : String) (now : ℤ) (b : OrderBook) (s : Side) :
    (saveOrderBook symbol now b).get? (OrderBook.snapshotKey s) =
      some (.arr ((b.getTop s DEPTH).map levelJson)) := by
  cases s <;> rfl

theorem getTop_eq_take (b : OrderBook) (s : Side) (n : ℕ) : b.getTop s n = (b.depth s).take n :=
  List.map_take

/-- What is loaded from the file of a well-formed book, in terms of ladders. -/
theorem loadOrderBook_ladder (h : WellFormed mem b) (symbol : String) (now : ℤ) (mem₀ : Memory) :
    ∃ mem' b', loadOrderBook mem₀ (some (saveOrderBook symbol now b)) = some (some (mem', b')) ∧
      WellFormed mem' b' ∧ b'.symbol = symbol ∧
      ∀ s, b'.ladder mem' s = tiers symbol s 0 (b.getTop s DEPTH) := by
  have hsorted : ∀ s, Keyed.Sorted Prod.fst s.ahead (b.getTop s DEPTH) := by
    intro s
    rw [getTop_eq_take]
    exact List.Pairwise.sublist (List.take_sublist _ _) (List.pairwise_map.mpr (h.sorted s))
  have hpos : ∀ s, ∀ l ∈ b.getTop s DEPTH, 0 < l.2 := by
    intro s l hl
    rw [getTop_eq_take] at hl
    obtain ⟨level, hlevel, rfl⟩ := List.mem_map.mp (List.mem_of_mem_take hl)
    exact h.total_pos hlevel
  obtain ⟨mem₁, b₁, hbuy, hwell₁, hsymbol₁, hbids₁, hother₁, hlookup₁⟩ :=
    loadSide_map (WellFormed.empty mem₀ symbol) (get?_saveOrderBook symbol now b .buy)
      (hsorted .buy) (by simp [OrderBook.ladder, OrderBook.queues]) (hpos .buy) fun _ => rfl
  have hasks₁ : b₁.ladder mem₁ .sell = [] := by
    rw [hother₁ .sell (by decide)]
    simp [OrderBook.ladder, OrderBook.queues]
  have hids₁ : ∀ i : ℕ, b₁.orderMap.lookup (idPrefix .sell ++ toString i) = none := by
    intro i
    rw [hlookup₁ _ fun j heq => absurd (idPrefix_injective heq).1 (by decide)]
    rfl
  obtain ⟨mem', b', hsell, hwell, hsymbol, hasks, hother, -⟩ :=
    loadSide_map hwell₁ (get?_saveOrderBook symbol now b .sell) (hsorted .sell) hasks₁
      (hpos .sell) hids₁
  have hname : (OrderBook.empty symbol).symbol = symbol := rfl
  rw [hsymbol₁, hname] at hasks
  rw [hname] at hbids₁
  refine ⟨mem', b', ?_, hwell, hsymbol.trans hsymbol₁, fun s => ?_⟩
  · have hindex : (saveOrderBook symbol now b).index "symbol" = .ok (.str symbol) := rfl
    simp only [loadOrderBook, hindex]
    change Option.map Except.toOption (loadSide .buy _ mem₀ (.empty symbol) >>=
      fun p => loadSide .sell _ p.1 p.2).run = _
    rw [hbuy, pure_bind, hsell]
    rfl
  · cases s
    · rw [hother .buy (by decide), hbids₁]
    · exact hasks

end OrderBookPersistence

/-! ## A walk that stays on the first levels -/

namespace Greedy.Proper

variable {ladder : Side → List (Tier ℚ Order)} {taker : Order}

theorem take (h : Proper ladder) (n : ℕ) : Proper fun s => (ladder s).take n := by
  have hitems : ∀ s, (Ladder.items ((ladder s).take n)).Sublist (Ladder.items (ladder s)) :=
    fun s => (List.take_sublist n _).flatMap Tier.items
  exact {
    sorted := fun s => (h.sorted s).sublist (List.take_sublist n _)
    nonempty := fun s t ht => h.nonempty s t (List.mem_of_mem_take ht)
    placed := fun s t ht => h.placed s t (List.mem_of_mem_take ht)
    positive := fun s o ho => h.positive s o ((hitems s).subset ho)
    distinct := fun s => (h.distinct s).sublist ((hitems s).map Order.id) }

/-- The walk down the first `n` tiers is the whole walk, if that trades at their prices only. -/
theorem fills_take (h : Proper ladder) {n : ℕ} (hwithin : ∀ p ∈ fills taker ladder,
    p.1.price ∈ ((ladder taker.side.opposite).take n).map Tier.key) :
    fills taker (fun s => (ladder s).take n) = fills taker ladder := by
  have hsplit := List.take_append_drop n (ladder taker.side.opposite)
  have hsorted := h.sorted taker.side.opposite
  have hplaced := h.placed taker.side.opposite
  unfold fills makers Ladder.reach at hwithin ⊢
  dsimp only
  generalize (ladder taker.side.opposite).take n = first,
    (ladder taker.side.opposite).drop n = rest at hsplit hwithin ⊢
  rw [← hsplit] at hsorted hplaced hwithin ⊢
  rw [List.takeWhile_append] at hwithin ⊢
  split_ifs at hwithin ⊢ with hall
  · -- the limit reaches past the first tiers: what is traded there has another price
    have hfirst : first.takeWhile (fun t => accepts taker t.key) = first :=
      (List.takeWhile_prefix _).eq_of_length hall
    rw [Ladder.items_append, Fill.fills_append] at hwithin ⊢
    rw [hfirst]
    have hnone : ∀ p, p ∉ Fill.fills Order.quantity
        (Fill.unfilled Order.quantity taker.quantity (Ladder.items first))
        (Ladder.items (rest.takeWhile fun t => accepts taker t.key)) := by
      intro p hp
      obtain ⟨t, ht, hmem⟩ := Ladder.mem_items.mp (Fill.fst_mem_of_mem_fills hp)
      have htrest : t ∈ rest := List.takeWhile_subset _ ht
      have hkey := (hplaced t (List.mem_append_right _ htrest) p.1 hmem).2
      obtain ⟨u, hu, heq⟩ := List.mem_map.mp (hwithin p (List.mem_append_right _ hp))
      have hahead := (List.pairwise_append.mp hsorted).2.2 u hu t htrest
      rw [heq, hkey] at hahead
      exact irrefl_of taker.side.opposite.ahead _ hahead
    rw [List.eq_nil_iff_forall_not_mem.mpr hnone, List.append_nil]
  · rfl

end Greedy.Proper

section RoundTrip

variable {mem : Memory} {b : OrderBook}

/-- An order without quantity trades nothing. -/
theorem returns_of_nonpos (feeModel : Option FeeModel) (mem : Memory) (b : OrderBook) {o : Order}
    (htype : o.type.Matchable) (hq : o.quantity ≤ 0) :
    ∃ result, Returns feeModel (mem.alloc o).1 b mem.next result ∧ result.trades = [] := by
  have hself := Memory.alloc_order_self mem o
  exact ⟨_, returns_start (by rwa [hself]) (Or.inl (by rwa [hself])), rfl⟩

/-- Two well-formed books, the second with the first `n` levels of the first. An order whose
trades stay on these levels executes the same at each price. -/
theorem executedAt_of_take (feeModel : Option FeeModel) (h : WellFormed mem b) {mem' : Memory}
    {b' : OrderBook} (h' : WellFormed mem' b') {n : ℕ}
    (hdepth : ∀ s, b'.depth s = (b.depth s).take n) {o : Order} (htype : o.type.Matchable)
    (hfok : o.type ≠ .fok) (hid : b.hasOrder o.id = false) (hid' : b'.hasOrder o.id = false) :
    ∃ result result', Returns feeModel (mem.alloc o).1 b mem.next result ∧
      Returns feeModel (mem'.alloc o).1 b' mem'.next result' ∧
      ((∀ t ∈ result.trades, t.price ∈ (b.getTop o.side.opposite n).map Prod.fst) →
        ∀ price, executedAt result'.trades price = executedAt result.trades price) := by
  rcases le_or_gt o.quantity 0 with hq | hq
  · obtain ⟨result, hr, hnil⟩ := returns_of_nonpos feeModel mem b htype hq
    obtain ⟨result', hr', hnil'⟩ := returns_of_nonpos feeModel mem' b' htype hq
    exact ⟨result, result', hr, hr', fun _ price => by rw [hnil, hnil']⟩
  obtain ⟨result, hrun, htrades, -⟩ := h.processOrder_alloc feeModel htype hq hid
  obtain ⟨result', hrun', htrades', -⟩ := h'.processOrder_alloc feeModel htype hq hid'
  refine ⟨result, result', ⟨2, hrun 2 le_rfl⟩, ⟨2, hrun' 2 le_rfl⟩, fun hwithin price => ?_⟩
  rw [Greedy.takes_eq_fills hfok] at htrades htrades'
  have hprices : ∀ p ∈ Greedy.fills o (b.ladder mem), p.1.price ∈
      ((b.ladder mem o.side.opposite).take n).map Tier.key := by
    intro p hp
    have hmem : p.1.price ∈ result.trades.map Trade.price := by
      rw [htrades, map_tradesOf Trade.price (fun p => p.1.price) fun _ _ => rfl]
      exact List.mem_map.mpr ⟨p, hp, rfl⟩
    obtain ⟨t, ht, heq⟩ := List.mem_map.mp hmem
    have hkey := hwithin t ht
    rw [heq, OrderBookPersistence.getTop_eq_take, h.depth_eq, Ladder.depth, ← List.map_take,
      List.map_map] at hkey
    exact hkey
  have hladder : ∀ s, Ladder.depth Order.quantity (b'.ladder mem' s) =
      Ladder.depth Order.quantity ((b.ladder mem s).take n) := by
    intro s
    rw [← h'.depth_eq, hdepth, h.depth_eq, Ladder.depth, Ladder.depth, List.map_take]
  have hsum := @Greedy.Proper.sum_takes_of_depth _ _ o (h.proper.take n) h'.proper hq.le hladder
    (fun p => if p = price then AddMonoidHom.id ℚ else 0)
  rw [Greedy.takes_eq_fills hfok, Greedy.takes_eq_fills hfok, h.proper.fills_take hprices] at hsum
  have hrate : ∀ (n : ℕ) (p : Order × ℚ), (if (tradeOf feeModel o n p.1 p.2).price = price then
      (tradeOf feeModel o n p.1 p.2).quantity else 0) =
        (if p.1.price = price then AddMonoidHom.id ℚ else 0) p.2 := by
    intro n p
    by_cases hp : p.1.price = price <;> simp [tradeOf, hp]
  rw [executedAt_eq, executedAt_eq, htrades, htrades',
    sum_tradesOf _ (fun p => if p = price then AddMonoidHom.id ℚ else 0) fun n p _ => hrate n p,
    sum_tradesOf _ (fun p => if p = price then AddMonoidHom.id ℚ else 0) fun n p _ => hrate n p]
  exact hsum

/-- What is loaded has the first levels as its depth, each in one order. -/
theorem OrderBookPersistence.loadOrderBook_depth (h : WellFormed mem b) (symbol : String) (now : ℤ)
    (mem₀ : Memory) :
    ∃ mem' b', loadOrderBook mem₀ (some (saveOrderBook symbol now b)) = some (some (mem', b')) ∧
      WellFormed mem' b' ∧ b'.symbol = symbol ∧ (∀ s, b'.depth s = (b.depth s).take DEPTH) ∧
      ∀ s, ∀ l ∈ b'.levels s, l.orders.length = 1 := by
  obtain ⟨mem', b', hload, hwell, hsymbol, hladder⟩ := loadOrderBook_ladder h symbol now mem₀
  refine ⟨mem', b', hload, hwell, hsymbol, fun s => ?_, fun s l hl => ?_⟩
  · rw [hwell.depth_eq, hladder, depth_tiers, getTop_eq_take]
  · have ht : Tier.map mem'.order l.tier ∈ b'.ladder mem' s :=
      List.mem_map_of_mem (List.mem_map_of_mem hl)
    rw [hladder] at ht
    have hone := length_items_tiers ht
    rwa [Tier.map, List.length_map] at hone

/-- **Compact persistence preserves depth.** The book loaded from the file of a well-formed book
is well-formed, with one order for each level and different ids; its first 100 levels are those of
the original, and writing and loading it again changes its depth no more. Any MARKET, LIMIT or IOC
order under an id that rests in neither book, if it trades on the first 100 levels of the
original only, executes the same at each price on both. -/
theorem loadOrderBook_saveOrderBook (h : WellFormed mem b) (symbol : String) (now : ℤ)
    (mem₀ : Memory) :
    ∃ mem' b', OrderBookPersistence.loadOrderBook mem₀
        (some (OrderBookPersistence.saveOrderBook symbol now b)) = some (some (mem', b')) ∧
      WellFormed mem' b' ∧ (b'.resting.map fun r => (mem'.order r).id).Nodup ∧
      (∀ s, ∀ l ∈ b'.levels s, l.orders.length = 1) ∧
      (∀ s, b'.getTop s 100 = b.getTop s 100) ∧
      (∀ symbol' now' mem₁, ∃ mem'' b'', OrderBookPersistence.loadOrderBook mem₁
          (some (OrderBookPersistence.saveOrderBook symbol' now' b')) = some (some (mem'', b'')) ∧
        ∀ s, b''.depth s = b'.depth s) ∧
      ∀ feeModel (o : Order), o.type = .market ∨ o.type = .limit ∨ o.type = .ioc →
        b.hasOrder o.id = false → b'.hasOrder o.id = false →
        ∃ result result', Returns feeModel (mem.alloc o).1 b mem.next result ∧
          Returns feeModel (mem'.alloc o).1 b' mem'.next result' ∧
          ((∀ t ∈ result.trades, t.price ∈ (b.getTop o.side.opposite 100).map Prod.fst) →
            ∀ price, executedAt result'.trades price = executedAt result.trades price) := by
  obtain ⟨mem', b', hload, hwell, -, hdepth, hone⟩ :=
    OrderBookPersistence.loadOrderBook_depth h symbol now mem₀
  have htop : ∀ s, (b'.depth s).take 100 = b'.depth s := by
    intro s
    rw [hdepth, List.take_take]
    rfl
  refine ⟨mem', b', hload, hwell, hwell.nodup_ids, hone, fun s => ?_,
    fun symbol' now' mem₁ => ?_, fun feeModel o htype hid hid' => ?_⟩
  · rw [OrderBookPersistence.getTop_eq_take, OrderBookPersistence.getTop_eq_take, htop, hdepth]
    rfl
  · obtain ⟨mem'', b'', hload', -, -, hdepth', -⟩ :=
      OrderBookPersistence.loadOrderBook_depth hwell symbol' now' mem₁
    exact ⟨mem'', b'', hload', fun s => (hdepth' s).trans (htop s)⟩
  · have hmatchable : o.type.Matchable := by
      rcases htype with ht | ht | ht <;> simp [ht, OrderType.Matchable]
    have hfok : o.type ≠ .fok := by
      rcases htype with ht | ht | ht <;> simp [ht]
    exact executedAt_of_take feeModel h hwell hdepth hmatchable hfok hid hid'

/-- Two asks of five become one of ten, from which seven are bought. -/
theorem loadOrderBook_saveOrderBook_two_asks :
    let o : Order := ⟨"t", "S", .buy, .market, 0, 7⟩
    ∃ mem' b', OrderBookPersistence.loadOrderBook Memory.empty
        (some (OrderBookPersistence.saveOrderBook "S" 0 twoAsks.2)) = some (some (mem', b')) ∧
      (∀ s, b'.getTop s 100 = twoAsks.2.getTop s 100) ∧
      ∃ result result',
        Returns none (twoAsks.1.alloc o).1 twoAsks.2 twoAsks.1.next result ∧
        Returns none (mem'.alloc o).1 b' mem'.next result' ∧
        ((∀ t ∈ result.trades, t.price ∈ (twoAsks.2.getTop .sell 100).map Prod.fst) →
          ∀ price, executedAt result'.trades price = executedAt result.trades price) := by
  intro o
  obtain ⟨mem', b', hload, -, -, -, htop, -, htrades⟩ :=
    loadOrderBook_saveOrderBook wellFormed_twoAsks "S" 0 Memory.empty
  have hnew : ((OrderBookPersistence.loadOrderBook Memory.empty
      (some (OrderBookPersistence.saveOrderBook "S" 0 twoAsks.2))).map
        (Option.map fun p => p.2.hasOrder "t")) = some (some false) := by decide +kernel
  rw [hload] at hnew
  have hnew : b'.hasOrder "t" = false := Option.some.inj (Option.some.inj hnew)
  exact ⟨mem', b', hload, htop, htrades none o (Or.inl rfl) (by decide +kernel) hnew⟩

end RoundTrip

end GoQuant
