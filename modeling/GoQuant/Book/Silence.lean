import GoQuant.Book.Fills

/-!
# Orders that execute nothing

A MARKET or LIMIT order executes a trade exactly if `getMatchingOrders` answers anything when
the order comes in. One that executes nothing is dropped, or rests.

## Main results

* `returns_trades_eq_nil` — it executes nothing exactly if it matches nothing.
* `getMatchingOrders_finish` — what a later order matches then.
* `returns_symbol_of_mem` — a trade carries the symbol of a resting order.
-/

namespace GoQuant

namespace MatchingAlgorithm

variable {feeModel : Option FeeModel} {fuel : ℕ} {mem : Memory} {b : OrderBook} {order : Ref}
  {s t result : Matching} {trade : Trade}

/-! ## Trades are appended -/

theorem fillOne_trades (feeModel : Option FeeModel) (order m : Ref) (s : Matching) :
    ∃ trade, (fillOne feeModel order m s).trades = s.trades ++ [trade] ∧
      trade.symbol = ((fillOne feeModel order m s).mem.order m).symbol :=
  ⟨_, rfl, rfl⟩

theorem fillFrom_trades (feeModel : Option FeeModel) (order : Ref) (ms : List Ref) (s : Matching) :
    s.trades <+: (fillFrom feeModel order ms s).trades := by
  induction ms generalizing s with
  | nil => exact List.prefix_rfl
  | cons m ms ih =>
    simp only [fillFrom]
    split_ifs
    · exact List.prefix_rfl
    · obtain ⟨trade, htrade, -⟩ := fillOne_trades feeModel order m s
      exact (List.prefix_append s.trades [trade]).trans (htrade ▸ ih (fillOne feeModel order m s))

/-- A pass that finds an order executes a trade. -/
theorem pass_trades (hq : 0 < s.remainingQty) (h : pass feeModel order s = some t) :
    t.trades ≠ [] := by
  unfold MatchingAlgorithm.pass at h
  cases hms : s.book.getMatchingOrders s.mem (s.mem.order order) with
  | nil => simp [hms] at h
  | cons m ms =>
    obtain ⟨trade, htrade, -⟩ := fillOne_trades feeModel order m s
    have hprefix := fillFrom_trades feeModel order ms (fillOne feeModel order m s)
    rw [hms] at h
    obtain rfl := Option.some.inj h
    rw [fillFrom, if_neg (not_le.mpr hq)]
    intro hnil
    rw [hnil, htrade] at hprefix
    simp at hprefix

/-- Trades name the symbols of the orders that rest when matching begins. -/
theorem Trading.symbol_of_mem (h : Trading feeModel order s t)
    (hrests : ∀ m, s.book.Rests m → m < s.mem.next) (ht : trade ∈ t.trades) :
    trade ∈ s.trades ∨ ∃ m, s.book.Rests m ∧ trade.symbol = (s.mem.order m).symbol := by
  induction h with
  | refl => exact Or.inl ht
  | @trade t m htrading hm _ ih =>
    obtain ⟨trade', htrades, hsymbol⟩ := fillOne_trades feeModel order m t
    rw [htrades, List.mem_append, List.mem_singleton] at ht
    rcases ht with ht | rfl
    · exact ih ht
    · have hconsumes : s.Consumes (fillOne feeModel order m t) :=
        htrading.consumes.trans (fillOne_consumes feeModel m t)
      obtain ⟨q, hq⟩ := hconsumes.mem.2 m (hrests m hm)
      rw [hq] at hsymbol
      exact Or.inr ⟨m, hm, hsymbol⟩

/-- The trades of an order name the symbols of orders that rested before it came. -/
theorem returns_symbol_of_mem (hr : Returns feeModel mem b order result)
    (hrests : ∀ m, b.Rests m → m < mem.next) (ht : trade ∈ result.trades) :
    ∃ m, b.Rests m ∧ trade.symbol = (mem.order m).symbol := by
  obtain ⟨fuel, hr⟩ := hr
  have htrades : ∀ t, Trading feeModel order (start mem b order) t → trade ∈ t.trades →
      ∃ m, b.Rests m ∧ trade.symbol = (mem.order m).symbol := fun t htrading hmem =>
    (htrading.symbol_of_mem hrests hmem).resolve_left (List.not_mem_nil)
  obtain ⟨t, htrading, rfl | ⟨-, rfl, -⟩⟩ := processOrder_cases hr
  · exact htrades _ htrading ht
  · refine htrades t htrading ?_
    unfold restRemainder at ht
    split_ifs at ht <;> exact ht

/-! ## Executing nothing -/

/-- An order that matches nothing is dropped, or rests. -/
theorem returns_silent (feeModel : Option FeeModel)
    (htype : (mem.order order).type = .market ∨ (mem.order order).type = .limit)
    (hnil : b.getMatchingOrders mem (mem.order order) = []) :
    Returns feeModel mem b order (finish order (start mem b order)) := by
  obtain ⟨hmarket, hlimit⟩ := steps_start_eq_none feeModel (Or.inr hnil)
  refine ⟨1, ?_⟩
  rcases htype with htype | htype
  · simp [processOrder, htype, processMarketOrder, Loop.run_succ_of_exit hmarket, finish]
  · simp [processOrder, htype, processLimitOrder, Loop.run_succ_of_exit hlimit, finish]

theorem pass_start_ne_none (feeModel : Option FeeModel)
    (hne : b.getMatchingOrders mem (mem.order order) ≠ []) :
    pass feeModel order (start mem b order) ≠ none := by
  unfold pass
  split
  · rename_i hnil
    exact absurd hnil hne
  · exact Option.some_ne_none _

/-- A loop that begins with a pass ends with trades. -/
theorem run_trades (feeModel : Option FeeModel) (order : Ref) {step : Matching → Option Matching}
    (hstep : ∀ s t, step s = some t → 0 < s.remainingQty ∧ pass feeModel order s = some t)
    (hbegin : step s ≠ none) (h : Loop.run step fuel s = some t) : t.trades ≠ [] := by
  obtain ⟨u, hu⟩ := Option.ne_none_iff_exists'.mp hbegin
  have hpass (s t : Matching) (hst : step s = some t) : t.trades ≠ [] :=
    pass_trades (hstep s t hst).1 (hstep s t hst).2
  cases fuel with
  | zero => cases h
  | succ n =>
    rw [Loop.run_succ_of_step hu] at h
    exact (Loop.run_invariant (fun t => t.trades ≠ []) (fun s t _ => hpass s t)
      (hpass s u hu) h).1

theorem quantity_pos_of_matches (hne : b.getMatchingOrders mem (mem.order order) ≠ []) :
    0 < (mem.order order).quantity := by
  by_contra hq
  rw [OrderBook.getMatchingOrders_eq, Fill.covering_of_nonpos (not_lt.mp hq)] at hne
  exact hne rfl

/-- The loop of a LIMIT or IOC order that matches something. -/
theorem run_limitStep_trades (hs : Sane mem b)
    (hne : b.getMatchingOrders mem (mem.order order) ≠ [])
    (hrun : Loop.run (limitStep feeModel order) fuel (start mem b order) = some t) :
    t.trades ≠ [] := by
  have hq := quantity_pos_of_matches hne
  have hhas : b.hasMatchingOrders (mem.order order) = true :=
    (OrderBook.hasMatchingOrders_iff hs).mpr fun hnil =>
      hne ((OrderBook.getMatchingOrders_eq_nil hq).mpr hnil)
  refine run_trades feeModel order (fun s t hst => ?_) ?_ hrun
  · unfold limitStep at hst
    split_ifs at hst with hrem
    exact ⟨hrem.1, hst⟩
  · simpa [limitStep, hq, hhas] using pass_start_ne_none feeModel hne

/-- An order that matches something executes a trade. -/
theorem returns_trades (hs : Sane mem b)
    (htype : (mem.order order).type = .market ∨ (mem.order order).type = .limit)
    (h : Returns feeModel mem b order result)
    (hne : b.getMatchingOrders mem (mem.order order) ≠ []) : result.trades ≠ [] := by
  obtain ⟨fuel, h⟩ := h
  have hq := quantity_pos_of_matches hne
  rcases htype with htype | htype
  · have hrun : Loop.run (marketStep feeModel order) fuel (start mem b order) = some result := by
      simpa [processOrder, htype, processMarketOrder] using h
    refine run_trades feeModel order (fun s t hst => ?_) ?_ hrun
    · unfold marketStep at hst
      split_ifs at hst with hrem
      exact ⟨hrem, hst⟩
    · simpa [marketStep, hq] using pass_start_ne_none feeModel hne
  · simp only [processOrder, htype, processLimitOrder, Except.ok.injEq,
      Option.map_eq_some_iff] at h
    obtain ⟨t, hrun, rfl⟩ := h
    have hrest : (restRemainder order t).trades = t.trades := by
      unfold restRemainder
      split_ifs <;> rfl
    rw [hrest]
    exact run_limitStep_trades hs hne hrun

/-- So it executes nothing exactly if it matches nothing. -/
theorem returns_trades_eq_nil (hs : Sane mem b)
    (htype : (mem.order order).type = .market ∨ (mem.order order).type = .limit)
    (h : Returns feeModel mem b order result) :
    result.trades = [] ↔ b.getMatchingOrders mem (mem.order order) = [] := by
  constructor
  · intro hnil
    by_contra hne
    exact returns_trades hs htype h hne hnil
  · intro hnil
    rw [h.unique (returns_silent feeModel htype hnil), finish_trades]
    rfl

end MatchingAlgorithm

/-- An order that executes nothing, whatever its type: it matches nothing, or it is a FOK order
that the orders it matches do not cover. -/
def OrderBook.Tradeless (mem : Memory) (b : OrderBook) (o : Order) : Prop :=
  b.getMatchingOrders mem o = [] ∨ o.type = .fok ∧
    MatchingAlgorithm.availableQty mem o.quantity 0 (b.getMatchingOrders mem o) < o.quantity

instance (mem : Memory) (b : OrderBook) (o : Order) : Decidable (b.Tradeless mem o) := by
  unfold OrderBook.Tradeless; infer_instance

/-- Only the resting orders matter. -/
theorem OrderBook.Tradeless.congr {mem mem' : Memory} {b : OrderBook} {o : Order}
    (ho : b.Tradeless mem o) (h : ∀ r, b.Rests r → mem'.order r = mem.order r) :
    b.Tradeless mem' o := by
  unfold Tradeless
  rw [getMatchingOrders_congr h, MatchingAlgorithm.availableQty_congr fun r hr =>
    h r (OrderBook.rests_of_mem_getMatchingOrders hr)]
  exact ho

namespace MatchingAlgorithm

/-- Whether an order executes anything can be seen before it is matched. -/
theorem returns_trades_eq_nil_iff (hs : Sane mem b) (h : Returns feeModel mem b order result) :
    result.trades = [] ↔ b.Tradeless mem (mem.order order) := by
  rcases h.matchable with htype | htype | htype | htype
  · simpa [OrderBook.Tradeless, htype] using returns_trades_eq_nil hs (Or.inl htype) h
  · simpa [OrderBook.Tradeless, htype] using returns_trades_eq_nil hs (Or.inr htype) h
  · have hnone : b.Tradeless mem (mem.order order) ↔
        b.getMatchingOrders mem (mem.order order) = [] := by
      simp [OrderBook.Tradeless, htype]
    rw [hnone]
    constructor
    · intro hnil
      by_contra hne
      obtain ⟨fuel, h⟩ := h
      simp only [processOrder, htype, processIOCOrder, Except.ok.injEq] at h
      exact run_limitStep_trades hs hne h hnil
    · intro hnil
      have hinert : b.Inert mem (mem.order order) := Or.inr ⟨by simp [htype], Or.inl hnil⟩
      rw [h.unique (returns_start (Or.inr (Or.inr (Or.inl htype))) hinert), start_trades]
  · obtain ⟨fuel, h⟩ := h
    simp only [processOrder, htype, Except.ok.injEq, Option.some.injEq] at h
    rw [← h, OrderBook.Tradeless, processFOKOrder]
    split_ifs with hcovered
    · exact iff_of_true rfl (Or.inr ⟨htype, hcovered⟩)
    · simp only [hcovered, and_false, or_false]
      cases hms : b.getMatchingOrders mem (mem.order order) with
      | nil => exact iff_of_true rfl rfl
      | cons m ms =>
        have hq := quantity_pos_of_matches (hms ▸ List.cons_ne_nil m ms)
        have hpass : pass feeModel order (start mem b order) =
            some (fillFrom feeModel order (m :: ms) (start mem b order)) := by
          unfold pass
          simp only [start_book, start_mem, hms]
        exact iff_of_false (pass_trades hq hpass) (List.cons_ne_nil m ms)

end MatchingAlgorithm

/-! ## The book after an order that executed nothing -/

open MatchingAlgorithm

namespace OrderBook

variable {mem : Memory} {b : OrderBook} {o act : Order} {r : Ref}

/-- An order matches nothing if no order on the other side is within its limit. -/
theorem getMatchingOrders_eq_nil_iff (hs : Sane mem b) : b.getMatchingOrders mem act = [] ↔
    act.quantity ≤ 0 ∨ ∀ r, b.Rests r → (mem.order r).side = act.side.opposite →
      within act (mem.order r).price = false := by
  rcases le_or_gt act.quantity 0 with hq | hq
  · rw [getMatchingOrders_eq, Fill.covering_of_nonpos hq]
    exact iff_of_true rfl (Or.inl hq)
  · rw [getMatchingOrders_eq_nil hq, or_iff_right (not_le.mpr hq), reachRefs_eq_nil hs]
    constructor
    · intro h r hr hside
      obtain ⟨l, hl, hprice, -⟩ := hs.level_of_rests hr
      rw [hside] at hl
      rw [← hprice]
      exact Bool.eq_false_iff.mpr (h l hl)
    · intro h l hl hw
      obtain ⟨r, hr⟩ := List.exists_mem_of_ne_nil _ (hs.nonempty _ l hl)
      obtain ⟨hside, hprice⟩ := hs.placed _ l hl r hr
      have hout := h r ⟨_, l, hl, hr⟩ hside
      rw [hprice, hw] at hout
      cases hout

/-- An order that rests as soon as it comes is within the limit of a later one. -/
def Meets (o act : Order) : Prop :=
  o.type = .limit ∧ 0 < o.quantity ∧ 0 < act.quantity ∧ o.side = act.side.opposite ∧
    within act o.price = true

instance (o act : Order) : Decidable (Meets o act) := by
  unfold Meets; infer_instance

/-- What rests after an order that matched nothing. -/
theorem rests_finish_start {r : Ref} :
    (finish mem.next (MatchingAlgorithm.start (mem.alloc o).1 b mem.next)).book.Rests r ↔
      b.Rests r ∨ r = mem.next ∧ o.type = .limit ∧ 0 < o.quantity := by
  have hself : (mem.alloc o).1.order mem.next = o := Memory.alloc_order_self mem o
  unfold finish
  simp only [start_mem, hself]
  split_ifs with htype
  · unfold restRemainder
    simp only [start_remainingQty, hself]
    split_ifs with hq
    · simp [rests_addOrder, htype, hq]
    · simp [hq]
  · simp [htype]

/-- After an order that matched nothing, another one matches nothing if it would not have
before and does not meet the first. -/
theorem getMatchingOrders_finish (hs : Sane mem b) (o act : Order) :
    let result := finish mem.next (MatchingAlgorithm.start (mem.alloc o).1 b mem.next)
    result.book.getMatchingOrders result.mem act = [] ↔
      b.getMatchingOrders mem act = [] ∧ ¬ Meets o act := by
  intro result
  have hself : (mem.alloc o).1.order mem.next = o := Memory.alloc_order_self mem o
  have hsane : Sane result.mem result.book := by
    have halloc : Sane (mem.alloc o).1 b := hs.of_extends (.alloc mem o)
    simp only [result, finish]
    split_ifs
    · exact halloc.restRemainder (hs.fresh o)
    · exact halloc
  have hold : ∀ r, b.Rests r → result.mem.order r = mem.order r := fun r hr => by
    have hlt := hs.restsAllocated r hr
    rw [order_finish hlt.ne, start_mem, Memory.alloc_order_of_lt mem r o hlt]
  have hnew : (result.mem.order mem.next).side = o.side ∧
      (result.mem.order mem.next).price = o.price := by
    simp only [result, finish, restRemainder]
    split_ifs <;> simp [hself]
  rw [getMatchingOrders_eq_nil_iff hsane, getMatchingOrders_eq_nil_iff hs]
  constructor
  · rintro (hq | hnone)
    · exact ⟨Or.inl hq, fun hmeets => not_lt.mpr hq hmeets.2.2.1⟩
    · refine ⟨Or.inr fun r hr hside => ?_, fun hmeets => ?_⟩
      · have hout := hnone r (rests_finish_start.mpr (Or.inl hr))
        rw [hold r hr] at hout
        exact hout hside
      · obtain ⟨htype, hpos, -, hside, hw⟩ := hmeets
        have hout := hnone mem.next (rests_finish_start.mpr (Or.inr ⟨rfl, htype, hpos⟩))
          (hnew.1.trans hside)
        rw [hnew.2, hw] at hout
        cases hout
  · rintro ⟨hq | hnone, hmeets⟩
    · exact Or.inl hq
    · rcases le_or_gt act.quantity 0 with hq | hq
      · exact Or.inl hq
      · refine Or.inr fun r hr hside => ?_
        rcases rests_finish_start.mp hr with hr | ⟨rfl, htype, hpos⟩
        · rw [hold r hr] at hside ⊢
          exact hnone r hr hside
        · rw [hnew.1] at hside
          rw [hnew.2]
          exact Bool.eq_false_iff.mpr fun hw => hmeets ⟨htype, hpos, hq, hside, hw⟩

end OrderBook

end GoQuant
