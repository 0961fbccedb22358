import GoQuant.Book.Runs
import GoQuant.Book.Renaming
import GoQuant.DoubleBook

/-!
# Changing the quantity of a resting order

A change to a positive quantity touches one order and the total of its level, as far as the new
total comes out exactly. A change to zero is not a cancellation: the id map keeps the order, and its
level keeps it too unless the running total drops to zero.

## Main definitions

* `Resized` — one order has a new quantity, and its level's total follows.
* `DoubleBook.WellFormed` — a well-formed book whose totals are doubles.
* `DoubleBook.Resizes` — what a change of quantity is meant to do.
* `DoubleBook.Lossless` — no rounding error stays in the total of the level.

## Main results

* `WellFormed.resized` — what a positive quantity changes, with exact totals.
* `lossless_of_representable` — a total of 53 bits comes out exactly.
* `modifyOrder_resizes_iff` — a change of quantity does what it is meant to do exactly for positive
  quantities that leave no rounding error.
* `modifyOrder_zero_lingers` — an order is set to zero.
-/

namespace GoQuant

open OrderBook

/-- The book in which `r` has the quantity `q` at the same place, and its level's total
follows. -/
structure Resized (r : Ref) (q : ℚ) (mem : Memory) (b : OrderBook) (mem' : Memory)
    (b' : OrderBook) : Prop where
  order : mem'.order r = { mem.order r with quantity := q }
  others : ∀ r', r' ≠ r → mem'.order r' = mem.order r'
  levels : ∀ s, b'.levels s = (b.levels s).map fun l =>
    if r ∈ l.orders then
      { l with totalQuantity := l.totalQuantity - (mem.order r).quantity + q }
    else l
  orderMap : b'.orderMap = b.orderMap
  symbol : b'.symbol = b.symbol

variable {mem mem' : Memory} {b b' : OrderBook} {r : Ref} {id : String} {q : ℚ}

/-- Something is left of the level of an order after a change of its quantity. -/
def OrderBook.Bears (mem : Memory) (b : OrderBook) (r : Ref) (q : ℚ) : Prop :=
  ∀ l ∈ b.levels (mem.order r).side, r ∈ l.orders →
    0 < l.totalQuantity - (mem.order r).quantity + q

/-- In any sane book a resting order gets its new quantity. It goes on resting exactly if the
total of its level stays positive. -/
theorem Sane.modifyOrder_rests (h : Sane mem b) (hid : b.orderMap.lookup id = some r)
    (hr : b.Rests r) (hm : b.modifyOrder mem id q = .ok (mem', b')) :
    (mem'.order r).quantity = q ∧ (b'.Rests r ↔ b.Bears mem r q) := by
  rw [h.modifyOrder_eq hid hr, Except.ok.injEq, Prod.mk.injEq] at hm
  obtain ⟨rfl, rfl⟩ := hm
  obtain ⟨l, hl, hprice, hrl⟩ := h.level_of_rests hr
  have hsame {l' : PriceLevel} (hl' : l' ∈ b.levels (mem.order r).side)
      (hprice' : l'.price = (mem.order r).price) : l' = l :=
    (h.sorted _).eq_of_key hl' hl (hprice'.trans hprice.symm)
  refine ⟨by simp [Memory.modifyQuantity_order], ?_, fun hbears => ?_⟩
  · rintro ⟨s, l', hl', hrl'⟩ l₁ hl₁ hrl₁
    obtain rfl := hsame hl₁ (h.placed _ l₁ hl₁ r hrl₁).2.symm
    by_cases hs : s = (mem.order r).side
    · subst hs
      rw [levels_alterLevel_self, Keyed.mem_alter] at hl'
      rcases hl' with ⟨l₂, hl₂, hprice₂, hresize⟩ | ⟨hl', hne⟩
      · obtain rfl := hsame hl₂ hprice₂
        refine not_le.mp fun htotal => ?_
        rw [resizeLevel, if_pos htotal] at hresize
        cases hresize
      · exact absurd (h.placed _ l' hl' r hrl').2.symm hne
    · rw [levels_alterLevel_of_ne _ _ _ hs] at hl'
      exact absurd (h.placed s l' hl' r hrl').1.symm hs
  · refine ⟨(mem.order r).side, { l with
      totalQuantity := l.totalQuantity - (mem.order r).quantity + q }, ?_, hrl⟩
    rw [levels_alterLevel_self, Keyed.mem_alter]
    refine Or.inl ⟨l, hl, hprice, ?_⟩
    rw [resizeLevel, if_neg (not_le.mpr (hbears l hl hrl))]

namespace WellFormed

/-- The levels after a change to a positive quantity: the one at the order's price is
rewritten, and it is the one that holds the order. -/
theorem resized (h : WellFormed mem b) (hid : b.orderMap.lookup id = some r) (hq : 0 < q) :
    Resized r q mem b (mem.modifyQuantity r q) (b.alterLevel (mem.order r).side
      (mem.order r).price (resizeLevel (mem.order r).quantity q)) where
  order := by
    rw [Memory.modifyQuantity_order]
    simp
  others r' hne := Memory.modifyQuantity_order_of_ne mem r r' q hne
  levels s := by
    have hr : b.Rests r := h.resting id r hid
    by_cases hs : s = (mem.order r).side
    · subst hs
      rw [levels_alterLevel_self, Keyed.alter, ← List.filterMap_eq_map]
      refine List.filterMap_congr ?_
      intro l hl
      by_cases hp : l.price = (mem.order r).price
      · have hrl := h.mem_orders hr hl hp
        have htotal : (mem.modifyQuantity r q).total l.orders = _ :=
          Memory.total_modifyQuantity (h.nodup _ l hl) hrl
        rw [if_pos hp, h.resizeLevel_eq hq hl hrl, htotal, ← h.total _ l hl]
        simp [hrl]
      · have hrl : r ∉ l.orders := by
          intro hrl
          exact hp (h.placed _ l hl r hrl).2.symm
        simp [hp, hrl]
    · rw [levels_alterLevel_of_ne _ _ _ hs]
      refine (List.map_id _).symm.trans (List.map_congr_left ?_)
      intro l hl
      have hrl : r ∉ l.orders := by
        intro hrl
        exact hs (h.placed s l hl r hrl).1.symm
      rw [if_neg hrl, id_eq]
  orderMap := orderMap_alterLevel b _ _ _
  symbol := symbol_alterLevel b _ _ _

end WellFormed

/-! ## Totals in double precision -/

/-- A well-formed book: each total is a finite number and the exact sum of the quantities, which are
numbers of the format. -/
structure DoubleBook.WellFormed (mem : Memory) (b : DoubleBook) : Prop where
  finite : b.Finite
  quantities : ∀ r, b.exact.Rests r → Representable (mem.order r).quantity
  exact : GoQuant.WellFormed mem b.exact

/-- What `modifyOrder` is meant to do with a resting id: a positive quantity becomes the
order's quantity, zero cancels it, and the book is well formed in both cases. -/
def DoubleBook.Resizes (mem : Memory) (b : DoubleBook) (id : String) (q : ℚ) : Prop :=
  ∃ r mem' b', b.orderMap.lookup id = some r ∧ b.modifyOrder mem id q = .ok (mem', b') ∧
    b'.WellFormed mem' ∧ (0 < q → Resized r q mem b.exact mem' b'.exact) ∧
    (q = 0 → SameContents mem (b.cancelOrder mem id).2.exact mem' b'.exact)

/-- The quantity `q` makes up for the rounding error of what the other orders have at the level. -/
def DoubleBook.Lossless (mem : Memory) (b : DoubleBook) (id : String) (q : ℚ) : Prop :=
  ∀ r, b.orderMap.lookup id = some r → ∀ l ∈ b.levels (mem.order r).side, r ∈ l.orders →
    Absorbed (l.exact.totalQuantity - (mem.order r).quantity) q

namespace DoubleBook.WellFormed

variable {mem mem' : Memory} {b b' : DoubleBook} {r : Ref} {id : String} {q : ℚ} {l : DoubleLevel}

/-- A book whose totals and quantities are numbers of the format. -/
theorem of_exact {b : OrderBook} (h : GoQuant.WellFormed mem b) (htotals : b.Totalled)
    (hquantities : ∀ r, b.Rests r → Representable (mem.order r).quantity) :
    b.inDoubles.WellFormed mem := by
  have hexact := exact_inDoubles htotals
  exact ⟨finite_inDoubles htotals, by rwa [hexact], by rwa [hexact]⟩

/-- If what is left of the total and the new total fit into 53 bits, nothing is lost. -/
theorem lossless_of_representable
    (hfit : ∀ r, b.orderMap.lookup id = some r → ∀ l ∈ b.levels (mem.order r).side, r ∈ l.orders →
      Representable (l.exact.totalQuantity - (mem.order r).quantity) ∧
        Representable (l.exact.totalQuantity - (mem.order r).quantity + q)) :
    b.Lossless mem id q := by
  intro r hr l hl hrl
  obtain ⟨hleft, hnew⟩ := hfit r hr l hl hrl
  exact .of_representable hleft hnew

/-- The total of a level comes out exactly. -/
theorem absorbed_iff (h : b.WellFormed mem) (hid : b.orderMap.lookup id = some r)
    (hrep : Representable q) (hl : l ∈ b.levels (mem.order r).side) :
    Absorbed (l.exact.totalQuantity - (mem.order r).quantity) q ↔
      (l.totalQuantity - .round (mem.order r).quantity + .round q).toRat? =
        some (l.exact.totalQuantity - (mem.order r).quantity + q) := by
  have hold := Double.toRat?_round (h.quantities r (h.exact.resting id r hid))
  have htotal := DoubleLevel.toRat?_eq (h.finite _ l hl)
  exact (Double.toRat?_sub_add_iff htotal hold (Double.toRat?_round hrep)).symm

theorem sorted (h : b.WellFormed mem) (s : Side) :
    Keyed.Sorted DoubleLevel.price s.ahead (b.levels s) := by
  have hsorted := h.exact.sorted s
  rw [levels_exact, Keyed.Sorted, List.pairwise_map] at hsorted
  exact hsorted

/-- The level of an order that the map holds. -/
theorem exists_level (h : b.WellFormed mem) (hid : b.orderMap.lookup id = some r) :
    ∃ l ∈ b.levels (mem.order r).side, l.price = (mem.order r).price ∧ r ∈ l.orders := by
  obtain ⟨l, hl, hprice, hrl⟩ := h.exact.level_of_rests (h.exact.resting id r hid)
  obtain ⟨l', hl', rfl⟩ := mem_levels_exact.mp hl
  exact ⟨l', hl', hprice, hrl⟩

/-- The call finds the level of the order. -/
theorem modifyOrder_eq (h : b.WellFormed mem) (hid : b.orderMap.lookup id = some r) :
    b.modifyOrder mem id q = .ok (mem.modifyQuantity r q, b.alterLevel (mem.order r).side
      (mem.order r).price (resizeLevel (mem.order r).quantity q)) := by
  obtain ⟨l, hl, hprice, -⟩ := h.exists_level hid
  simp [modifyOrder, hid, Keyed.find_eq_some (h.sorted _) hl hprice]

/-- Without a loss the totals are those of the exact book. -/
theorem resizeLevel_exact (h : b.WellFormed mem) (hid : b.orderMap.lookup id = some r)
    (hrep : Representable q) (hloss : b.Lossless mem id q) (hl : l ∈ b.levels (mem.order r).side)
    (hprice : l.price = (mem.order r).price) :
    (resizeLevel (mem.order r).quantity q l).map DoubleLevel.exact =
      OrderBook.resizeLevel (mem.order r).quantity q l.exact := by
  have hrl : r ∈ l.orders :=
    h.exact.mem_orders (h.exact.resting id r hid) (mem_levels_exact.mpr ⟨l, hl, rfl⟩) hprice
  have htotal := (h.absorbed_iff hid hrep hl).mp (hloss r hid l hl hrl)
  unfold resizeLevel OrderBook.resizeLevel
  dsimp only
  by_cases hnone : l.exact.totalQuantity - (mem.order r).quantity + q ≤ 0
  · rw [if_pos hnone, if_pos ((Double.nonPos_iff htotal).mpr hnone), Option.map_none]
  · rw [if_neg hnone, if_neg fun hx => hnone ((Double.nonPos_iff htotal).mp hx), Option.map_some]
    simp only [DoubleLevel.exact, htotal, Option.getD_some]

theorem exact_modified (h : b.WellFormed mem) (hid : b.orderMap.lookup id = some r)
    (hrep : Representable q) (hloss : b.Lossless mem id q) :
    (b.alterLevel (mem.order r).side (mem.order r).price
      (resizeLevel (mem.order r).quantity q)).exact =
        b.exact.alterLevel (mem.order r).side (mem.order r).price
          (OrderBook.resizeLevel (mem.order r).quantity q) :=
  exact_alterLevel fun _ hl hprice => h.resizeLevel_exact hid hrep hloss hl hprice

theorem finite_modified (h : b.WellFormed mem) (hid : b.orderMap.lookup id = some r)
    (hrep : Representable q) (hloss : b.Lossless mem id q) :
    (b.alterLevel (mem.order r).side (mem.order r).price
      (resizeLevel (mem.order r).quantity q)).Finite := by
  intro s l hl
  by_cases hs : s = (mem.order r).side
  · subst hs
    rw [levels_alterLevel_self, Keyed.mem_alter] at hl
    rcases hl with ⟨l₀, hl₀, hprice, hsome⟩ | ⟨hl, -⟩
    · have hrl : r ∈ l₀.orders := h.exact.mem_orders (h.exact.resting id r hid)
        (mem_levels_exact.mpr ⟨l₀, hl₀, rfl⟩) hprice
      unfold resizeLevel at hsome
      dsimp only at hsome
      split_ifs at hsome
      obtain rfl := Option.some.inj hsome
      rw [(h.absorbed_iff hid hrep hl₀).mp (hloss r hid l₀ hl₀ hrl)]
      rfl
    · exact h.finite _ l hl
  · rw [levels_alterLevel_of_ne _ _ _ hs] at hl
    exact h.finite s l hl

/-- A positive quantity that loses nothing. -/
theorem resizes_of_pos (h : b.WellFormed mem) (hid : b.orderMap.lookup id = some r)
    (hrep : Representable q) (hq : 0 < q) (hloss : b.Lossless mem id q) : b.Resizes mem id q := by
  have hexact := h.exact_modified hid hrep hloss
  have hwell := h.exact.modifyOrder hq (h.exact.modifyOrder_eq hid)
  have hfinite := h.finite_modified hid hrep hloss
  refine ⟨r, _, _, hid, h.modifyOrder_eq hid, ⟨hfinite, fun r' hr' => ?_, ?_⟩, fun _ => ?_,
    fun hzero => absurd hzero hq.ne'⟩
  · rw [Memory.modifyQuantity_order]
    split_ifs
    · exact hrep
    · rw [hexact] at hr'
      exact h.quantities r' ((OrderBook.modifyOrder_shrinks mem b.exact id q
        (h.exact.modifyOrder_eq hid)).rests hr')
  · rwa [hexact]
  · rw [hexact]
    exact h.exact.resized hid hq

/-- An order set to zero stays in the id map, where no well-formed book has it. -/
theorem not_modifyOrder_zero (h : b.WellFormed mem) (hid : b.orderMap.lookup id = some r)
    (hm : b.modifyOrder mem id 0 = .ok (mem', b')) : ¬ b'.WellFormed mem' := by
  rw [h.modifyOrder_eq hid, Except.ok.injEq, Prod.mk.injEq] at hm
  obtain ⟨rfl, rfl⟩ := hm
  intro hwell
  have hkept := hwell.exact.positive r (hwell.exact.resting id r (by simpa using hid))
  rw [Memory.modifyQuantity_order, if_pos rfl] at hkept
  exact lt_irrefl 0 hkept

/-- A well-formed book has lost nothing: its total is finite and the sum of the quantities. -/
theorem lossless_of_modifyOrder (h : b.WellFormed mem) (hrep : Representable q)
    (hm : b.modifyOrder mem id q = .ok (mem', b')) (hwell : b'.WellFormed mem') :
    b.Lossless mem id q := by
  intro r hid l hl hrl
  rw [h.absorbed_iff hid hrep hl]
  rw [h.modifyOrder_eq hid, Except.ok.injEq, Prod.mk.injEq] at hm
  obtain ⟨rfl, rfl⟩ := hm
  have hself : (mem.modifyQuantity r q).order r = { mem.order r with quantity := q } := by
    rw [Memory.modifyQuantity_order, if_pos rfl]
  obtain ⟨l', hl', hprice', hrl'⟩ := hwell.exists_level (r := r) (by simpa using hid)
  rw [hself] at hl' hprice'
  -- the level of the order is the one that was rewritten
  rw [levels_alterLevel_self, Keyed.mem_alter] at hl'
  rcases hl' with ⟨l₀, hl₀, hprice₀, hsome⟩ | ⟨-, hne⟩
  · have hprice : l.price = (mem.order r).price :=
      (h.exact.placed _ _ (mem_levels_exact.mpr ⟨l, hl, rfl⟩) r hrl).2.symm
    obtain rfl := (h.sorted _).eq_of_key hl hl₀ (hprice.trans hprice₀.symm)
    have hfinite := hwell.finite (mem.order r).side l' (by
      rw [levels_alterLevel_self, Keyed.mem_alter]
      exact Or.inl ⟨l, hl, hprice₀, hsome⟩)
    have hsum := hwell.exact.total (mem.order r).side l'.exact (mem_levels_exact.mpr ⟨l', by
      rw [levels_alterLevel_self, Keyed.mem_alter]
      exact Or.inl ⟨l, hl, hprice₀, hsome⟩, rfl⟩)
    have htotal := DoubleLevel.toRat?_eq hfinite
    unfold resizeLevel at hsome
    dsimp only at hsome
    split_ifs at hsome
    obtain rfl := Option.some.inj hsome
    have hbefore := h.exact.total _ _ (mem_levels_exact.mpr ⟨l, hl, rfl⟩)
    have hafter : (mem.modifyQuantity r q).total l.orders = _ :=
      Memory.total_modifyQuantity (h.exact.nodup _ _ (mem_levels_exact.mpr ⟨l, hl, rfl⟩)) hrl
    rw [hsum] at htotal
    exact htotal.trans (congrArg some (hafter.trans (by rw [hbefore]; rfl)))
  · exact absurd hprice' hne

/-- **When a change of quantity is one.** In a well-formed book, and for every quantity that the
listener lets through, `modifyOrder` of a resting id does what it is meant to do exactly if the
quantity is positive and makes up for the rounding error of the others' total. -/
theorem modifyOrder_resizes_iff (h : b.WellFormed mem) (hid : b.hasOrder id = true)
    (hrep : Representable q) (hq : 0 ≤ q) : b.Resizes mem id q ↔ 0 < q ∧ b.Lossless mem id q := by
  obtain ⟨r, hr⟩ := Option.isSome_iff_exists.mp hid
  constructor
  · rintro ⟨r', mem', b', -, hm, hwell, -, -⟩
    refine ⟨lt_of_le_of_ne hq ?_, h.lossless_of_modifyOrder hrep hm hwell⟩
    rintro rfl
    exact h.not_modifyOrder_zero hr hm hwell
  · rintro ⟨hpos, hloss⟩
    exact h.resizes_of_pos hr hrep hpos hloss

end DoubleBook.WellFormed

theorem wellFormed_inDoubles_twoAsks : twoAsks.2.inDoubles.WellFormed twoAsks.1 := by
  have hwhole (n : ℤ) (hn : |n| ≤ 2 ^ 53) : Representable n := representable_intCast hn
  refine .of_exact wellFormed_twoAsks (fun s l hl => ?_) fun r hr => ?_
  · have hten : ∀ s ∈ [Side.buy, .sell], ∀ l ∈ twoAsks.2.levels s, l.totalQuantity = (10 : ℤ) := by
      decide +kernel
    rw [hten s (by cases s <;> decide) l hl]
    exact hwhole 10 (by norm_num)
  · have hfive : ∀ r ∈ twoAsks.2.resting, (twoAsks.1.order r).quantity = (5 : ℤ) := by
      decide +kernel
    rw [hfive r (OrderBook.mem_resting.mpr hr)]
    exact hwhole 5 (by norm_num)

/-- The first of two asks is set to seven. -/
theorem modifyOrder_resizes_iff_seven : twoAsks.2.inDoubles.Resizes twoAsks.1 "a" 7 := by
  have hrep : Representable 7 := by exact_mod_cast representable_intCast (z := 7) (by norm_num)
  refine (wellFormed_inDoubles_twoAsks.modifyOrder_resizes_iff (by decide +kernel) hrep
    (by decide)).mpr ⟨by decide, DoubleBook.WellFormed.lossless_of_representable
      fun r hr l hl _ => ?_⟩
  have hlookup : twoAsks.2.inDoubles.orderMap.lookup "a" = some 0 := by decide +kernel
  obtain rfl : r = 0 := Option.some.inj (hr.symm.trans hlookup)
  have hall : ∀ l ∈ twoAsks.2.inDoubles.levels (twoAsks.1.order 0).side,
      l.exact.totalQuantity - (twoAsks.1.order 0).quantity = (5 : ℤ) := by decide +kernel
  rw [hall l hl]
  refine ⟨representable_intCast (by norm_num), ?_⟩
  exact_mod_cast representable_intCast (z := 12) (by norm_num)

/-- **Setting an order to zero does not cancel it.** The first of two asks is set to zero: the
call succeeds, the id map keeps the order and so does its level, with nothing to sell. -/
theorem modifyOrder_zero_lingers :
    ∃ mem' b', twoAsks.2.inDoubles.WellFormed twoAsks.1 ∧
      twoAsks.2.inDoubles.modifyOrder twoAsks.1 "a" 0 = .ok (mem', b') ∧ b'.hasOrder "a" = true ∧
      (b'.exact.levels .sell).map (PriceLevel.contents mem') =
        [(100, [⟨"a", "S", .sell, .limit, 100, 0⟩, ⟨"b", "S", .sell, .limit, 100, 5⟩], 5)] ∧
      ¬ twoAsks.2.inDoubles.Resizes twoAsks.1 "a" 0 := by
  have hlookup : twoAsks.2.inDoubles.orderMap.lookup "a" = some 0 := by decide +kernel
  have hm := wellFormed_inDoubles_twoAsks.modifyOrder_eq (q := 0) hlookup
  refine ⟨_, _, wellFormed_inDoubles_twoAsks, hm, by decide +kernel, by decide +kernel, ?_⟩
  rintro ⟨r, mem', b', -, hm', hwell, -, -⟩
  exact wellFormed_inDoubles_twoAsks.not_modifyOrder_zero hlookup hm' hwell

end GoQuant
