import GoQuant.Book.Prices
import GoQuant.Engine.Exchange

/-!
# Chains of activations

A call checks the pending orders of a symbol against the price of every trade of the order it
submits. It does not check them against the prices at which activated orders trade. So a call can
miss a trigger if a check activates an order that finds a price on the other side at which an order
that is left waiting is due.

## Main definitions

* `NoneMissed` — no order that is still pending is due at the price of a trade of the call.
* `OrderBook.reachable` — the prices that an order can find, among the orders activated with it.
* `Clears` — what a check activates finds no price at which an order that is left waiting is due.

## Main results

* `InTurn.reachable` — activated orders trade at reachable prices only.
* `noneMissed_of_clear` — a call whose checks clear misses no trigger.
* `trigger_missed` — a chain of two stop orders.
-/

namespace GoQuant

open MatchingAlgorithm

/-- Orders are matched against a book one after another, each as an object of its own. -/
inductive InTurn (feeModel : Option FeeModel) :
    List Order → Memory → OrderBook → List Trade → Memory → OrderBook → Prop
  | nil {mem : Memory} {b : OrderBook} : InTurn feeModel [] mem b [] mem b
  | cons {o : Order} {os : List Order} {mem mem' : Memory} {b b' : OrderBook} {result : Matching}
      {trades : List Trade} :
      Returns feeModel (mem.alloc o).1 b mem.next result →
      InTurn feeModel os result.mem result.book trades mem' b' →
      InTurn feeModel (o :: os) mem b (result.trades ++ trades) mem' b'

namespace InTurn

variable {feeModel : Option FeeModel} {os os' : List Order} {mem mem' mem'' : Memory}
  {b b' b'' : OrderBook} {trades trades' : List Trade}

theorem append (h : InTurn feeModel os mem b trades mem' b')
    (h' : InTurn feeModel os' mem' b' trades' mem'' b'') :
    InTurn feeModel (os ++ os') mem b (trades ++ trades') mem'' b'' := by
  induction h with
  | nil => exact h'
  | cons hr _ ih =>
    rw [List.cons_append, List.append_assoc]
    exact .cons hr (ih h')

end InTurn

/-- The prices at which an order can trade that is activated together with others: those of the
levels of the other side, and those of LIMIT orders among the others that have a quantity and may
rest there by then, as far as its limit reaches. -/
def OrderBook.reachable (b : OrderBook) (os : List Order) (o : Order) : List ℚ :=
  if 0 < o.quantity then
    (((b.levels o.side.opposite).map PriceLevel.price ++
      (os.filter fun o' => o'.type = .limit ∧ 0 < o'.quantity ∧ o'.side = o.side.opposite).map
        Order.price).filter fun p => OrderBook.within o p)
  else []

theorem OrderBook.mem_reachable {b : OrderBook} {os : List Order} {o : Order} {p : ℚ} :
    p ∈ b.reachable os o ↔ 0 < o.quantity ∧ OrderBook.within o p = true ∧
      ((∃ l ∈ b.levels o.side.opposite, l.price = p) ∨
        ∃ o' ∈ os, o'.type = .limit ∧ 0 < o'.quantity ∧ o'.side = o.side.opposite ∧
          o'.price = p) := by
  unfold reachable
  split_ifs with hq
  · simp only [List.mem_filter, List.mem_append, List.mem_map, decide_eq_true_eq, hq, true_and,
      and_assoc]
    exact and_comm
  · simp [hq]

/-- **The prices of activated orders.** By induction on the orders: what the first one leaves on the
other side of a later one was there before, or is its own remainder. -/
theorem InTurn.reachable {feeModel : Option FeeModel} {os : List Order} {mem mem' : Memory}
    {b b' : OrderBook} {trades : List Trade} (h : InTurn feeModel os mem b trades mem' b')
    (hs : Sane mem b) : ∀ t ∈ trades, ∃ o ∈ os, t.price ∈ b.reachable os o := by
  induction h with
  | nil => exact nofun
  | @cons o os mem mem' b b' result trades hr _ ih =>
    have hself : (mem.alloc o).1.order mem.next = o := Memory.alloc_order_self _ _
    have hs' : Sane (mem.alloc o).1 b := hs.of_extends (.alloc mem o)
    have hun : b.Unmapped mem.next := (hs.fresh o).unmapped
    intro t ht
    rcases List.mem_append.mp ht with hfirst | hlater
    · obtain ⟨hq, l, hl, hwithin, hp⟩ := returns_priced hs' hun hr t hfirst
      rw [hself] at hq hl hwithin
      refine ⟨o, List.mem_cons_self, OrderBook.mem_reachable.mpr ⟨hq, hp ▸ hwithin, ?_⟩⟩
      exact Or.inl ⟨l, hl, hp⟩
    · obtain ⟨o', ho', hreach⟩ := ih (returns_sane hs' (hs.fresh o) hr) t hlater
      obtain ⟨hq, hwithin, hcase⟩ := OrderBook.mem_reachable.mp hreach
      refine ⟨o', List.mem_cons_of_mem o ho', OrderBook.mem_reachable.mpr ⟨hq, hwithin, ?_⟩⟩
      rcases hcase with ⟨l', hl', hp⟩ | ⟨o'', ho'', hrest⟩
      · rcases returns_levels hun hr l' hl' with ⟨l, hl, hlp⟩ | ⟨htype, hqty, hside, hprice⟩
        · exact Or.inl ⟨l, hl, hlp.trans hp⟩
        · rw [hself] at htype hqty hside hprice
          exact Or.inr ⟨o, List.mem_cons_self, htype, hqty, hside, hprice.trans hp⟩
      · exact Or.inr ⟨o'', List.mem_cons_of_mem o ho'', hrest⟩

namespace MatchingEngine

variable {fuel : ℕ} {e e' u : MatchingEngine} {symbol : String} {price : ℚ} {o : Order}
  {os : List Order} {trades : List Trade}

/-- No order that is still pending for the symbol is due at the price of a trade executed
against its book between two states. -/
def NoneMissed (e e' : MatchingEngine) (symbol : String) : Prop :=
  ∀ p ∈ e'.executed.drop e.executed.length, p.1 = symbol →
    ∀ w ∈ e'.waiting symbol, ¬ w.Due p.2.price

instance (e e' : MatchingEngine) (symbol : String) : Decidable (NoneMissed e e' symbol) := by
  unfold NoneMissed; infer_instance

/-- What a check at a price activates finds no price at which an order is due that the check leaves
waiting and that is due at none of the prices that are still to be looked at. -/
def Clears (e : MatchingEngine) (symbol : String) (price : ℚ) (later : List (String × ℚ)) : Prop :=
  ∀ w ∈ e.waiting symbol, ¬ w.Due price → (∀ p ∈ later, p.1 = symbol → ¬ w.Due p.2) →
    ∀ a ∈ e.activations symbol price,
      ∀ p ∈ (e.book symbol).reachable (e.activations symbol price) a, ¬ w.Due p

instance (e : MatchingEngine) (symbol : String) (price : ℚ) (later : List (String × ℚ)) :
    Decidable (e.Clears symbol price later) := by
  unfold Clears; infer_instance

/-- Part of a call, seen from the book of a symbol: orders are matched against it in turn, and
nothing else happens to it. -/
structure Trades (symbol : String) (os : List Order) (trades : List Trade)
    (e e' : MatchingEngine) : Prop where
  inTurn : InTurn e.feeModel os e.mem (e.book symbol) trades e'.mem (e'.book symbol)
  executed : e'.executed = e.executed ++ trades.map (symbol, ·)
  feeModel : e'.feeModel = e.feeModel

namespace Trades

variable {os' : List Order} {trades' : List Trade} {e'' : MatchingEngine}

theorem of_same (h : e.SameBooks e') (hx : e'.executed = e.executed) :
    Trades symbol [] [] e e' := by
  refine ⟨?_, by simpa using hx, h.feeModel⟩
  rw [h.mem, h.book]
  exact .nil

theorem trans (h : Trades symbol os trades e e') (h' : Trades symbol os' trades' e' e'') :
    Trades symbol (os ++ os') (trades ++ trades') e e'' where
  inTurn := h.inTurn.append (h.feeModel ▸ h'.inTurn)
  executed := by rw [h'.executed, h.executed, List.map_append, List.append_assoc]
  feeModel := h'.feeModel.trans h.feeModel

/-- By induction on the orders matched. -/
theorem of_matches (h : Matches symbol os e e') : ∃ trades, Trades symbol os trades e e' := by
  induction h with
  | nil hs hx => exact ⟨[], .of_same hs (hx.executed.trans (List.append_nil _))⟩
  | @cons e u e' o os result hs hx hr _ ih =>
    obtain ⟨trades, h⟩ := ih
    have hturn := h.inTurn
    rw [book_matched_self] at hturn
    have hfee : (u.matched symbol result).feeModel = e.feeModel := hs.feeModel
    rw [hfee] at hturn
    refine ⟨result.trades ++ trades, .cons hr hturn, ?_, h.feeModel.trans hfee⟩
    have hexecuted : (u.matched symbol result).executed =
        e.executed ++ result.trades.map (symbol, ·) :=
      (hx.trans (.matched u symbol result)).executed
    rw [h.executed, hexecuted, List.map_append, List.append_assoc]

end Trades

/-- A check matches the orders that are due. -/
theorem checkTriggers_trades (h : e.checkTriggers fuel symbol price = some e')
    (ha : e.PendingApart) : ∃ trades, Trades symbol
      (e.activations symbol price) trades e e' ∧
      e'.waiting symbol = (e.waiting symbol).filter fun o => ¬ o.Due price := by
  obtain ⟨u, remaining, hmatches, hsame, hx⟩ := checkTriggers_matches h ha
  obtain ⟨trades, htrades⟩ := Trades.of_matches hmatches
  have hforget : Trades symbol [] [] u e' := by
    refine ⟨?_, hx.executed, hsame.feeModel⟩
    have hmem : e'.mem = u.mem := hsame.mem
    have hbook : e'.book symbol = u.book symbol := hsame.book symbol
    rw [hmem, hbook]
    exact .nil
  have hboth := htrades.trans hforget
  rw [List.append_nil, List.append_nil] at hboth
  refine ⟨trades, hboth, ?_⟩
  rw [(ha.checkTriggers h).1]
  simp only [triggered_eq_due, decide_not]

/-! ## Calls -/

/-- The price of a trade executed after the first `n` at which an order still waits that is due, if
there is one, is not the last word: the tasks have another one looked at, at which it is due. -/
def Attended (n : ℕ) (symbol : String) (e : MatchingEngine) (tasks : List Task) : Prop :=
  ∀ p ∈ e.executed.drop n, p.1 = symbol → ∀ w ∈ e.waiting symbol, w.Due p.2.price →
    ∃ q ∈ Task.prices tasks, q.1 = symbol ∧ w.Due q.2

namespace Attended

variable {n : ℕ} {task : Task} {tasks rest : List Task}

/-- The trades of the submitted order are going to be looked at. -/
theorem start (hl : e.Labelled) {tryAcceptOrder : Bool}
    (hs : e.start fuel (.submit tryAcceptOrder o) = some (tasks, e')) :
    Attended e.executed.length o.symbol e' tasks := by
  have hself := e.alloc_order_self o
  have hx : ((e.alloc o).1.receive o).executed = e.executed :=
    (@Executes.receive o.symbol (e.alloc o).1 o).executed.trans (List.append_nil _)
  -- nothing is executed
  have hidle (hsame : e'.executed = e.executed) :
      Attended e.executed.length o.symbol e' tasks := by
    intro p hp
    rw [hsame, List.drop_length] at hp
    cases hp
  obtain ⟨rfl, r, haccept, htasks⟩ | ⟨-, -, rfl⟩ := start_submit hs
  · obtain ⟨-, -, rfl⟩ | ⟨-, result, hr, rfl, m, k, rfl⟩ | ⟨-, message, -, rfl⟩ :=
      acceptOrder_cases haccept
    all_goals rw [hself] at *
    · exact hidle hx
    · obtain ⟨trades, htrades, rfl⟩ | ⟨hnone, -⟩ := htasks
      · obtain rfl := Option.some.inj (Except.ok.inj htrades)
        intro p hp _ w _ hdue
        have hexecuted : p ∈ (((e.alloc o).1.receive o).executed ++
            result.trades.map (o.symbol, ·)).drop e.executed.length := hp
        rw [hx, List.drop_left] at hexecuted
        obtain ⟨t, ht, rfl⟩ := List.mem_map.mp hexecuted
        refine ⟨(t.symbol, t.price), ?_, hl.symbol_of_trade hr ht, hdue⟩
        refine Multiset.mem_coe.mpr (List.mem_filterMap.mpr ⟨.publish t, ?_, rfl⟩)
        exact List.mem_append_left _ (List.mem_map_of_mem ht)
      · exact absurd rfl (hnone _)
    · exact hidle hx
  · exact hidle rfl

/-- A check has looked at its price, and what it activates trades at no price that is missed. -/
theorem check {later : List Task} {s : String} (h : Attended n symbol e (.check s price :: later))
    (ha : e.PendingApart ∧ e.Books Sane) (hc : e.checkTriggers fuel s price = some e')
    (hclear : e.Clears s price (later.filterMap Task.due?)) : Attended n symbol e' later := by
  obtain ⟨trades, htrades, hleft⟩ := checkTriggers_trades hc ha.1
  have hothers := (ha.1.checkTriggers hc).2
  have hdue : Task.prices (.check s price :: later) = (s, price) ::ₘ Task.prices later := rfl
  intro p hp hsymbol w hw hwdue
  rw [htrades.executed, List.drop_append, List.mem_append] at hp
  rcases hp with hold | hnew
  · have hwaited : w ∈ e.waiting symbol ∧ (symbol = s → ¬ w.Due price) := by
      by_cases heq : symbol = s
      · subst heq
        rw [hleft] at hw
        obtain ⟨hw, hnot⟩ := List.mem_filter.mp hw
        exact ⟨hw, fun _ => of_decide_eq_true hnot⟩
      · exact ⟨hothers symbol heq ▸ hw, fun heq' => absurd heq' heq⟩
    obtain ⟨q, hq, hqs, hqdue⟩ := h p hold hsymbol w hwaited.1 hwdue
    rw [hdue, Multiset.mem_cons] at hq
    rcases hq with rfl | hq
    · exact absurd hqdue (hwaited.2 hqs.symm)
    · exact ⟨q, hq, hqs, hqdue⟩
  · -- a trade of an activated order
    obtain ⟨t, ht, rfl⟩ := List.mem_map.mp (List.mem_of_mem_drop hnew)
    subst hsymbol
    rw [hleft] at hw
    obtain ⟨hw, hnot⟩ := List.mem_filter.mp hw
    by_contra hnone
    push Not at hnone
    obtain ⟨a, ha', hreach⟩ := htrades.inTurn.reachable (ha.2 s) t ht
    exact hclear w hw (of_decide_eq_true hnot)
      (fun q hq hqs => hnone q (Multiset.mem_coe.mpr hq) hqs) a ha' t.price hreach hwdue

/-- **One task.** -/
theorem perform (h : Attended n symbol e (task :: rest)) (ha : e.PendingApart ∧ e.Books Sane)
    (hp : e.perform fuel task = some (tasks, e'))
    (hclear : ∀ s p, task = .check s p → e.Clears s p (rest.filterMap Task.due?)) :
    Attended n symbol e' (tasks ++ rest) := by
  by_cases hcheck : ∃ s p, task = .check s p
  · obtain ⟨s, price, rfl⟩ := hcheck
    obtain ⟨u, hu, heq⟩ := Option.map_eq_some_iff.mp hp
    obtain ⟨rfl, rfl⟩ := Prod.mk.inj heq
    exact h.check ha hu (hclear s price rfl)
  · obtain ⟨hsame, hexecuted, hprices⟩ :=
      System.perform_quiet hp fun s p heq => hcheck ⟨s, p, heq⟩
    have hwaiting : e'.waiting symbol = e.waiting symbol :=
      ha.1.waiting (.of_same hsame) (hsame.pending symbol)
    intro p hmem hsymbol w hw hdue
    rw [hexecuted] at hmem
    rw [hwaiting] at hw
    obtain ⟨q, hq, hqs⟩ := h p hmem hsymbol w hw hdue
    refine ⟨q, ?_, hqs⟩
    have hsplit : Task.prices (task :: rest) = Task.prices [task] + Task.prices rest :=
      Task.prices_append [task] rest
    rw [Task.prices_append, hprices, ← hsplit]
    exact hq

end Attended

end MatchingEngine

namespace System

open MatchingEngine

variable {fuel n : ℕ} {e e' : MatchingEngine} {s t : System} {tasks : List Task} {o : Order}

/-- If a check is the first of the tasks that remain of a call, then it clears. -/
def ClearFirst (e : MatchingEngine) : List Task → Prop
  | .check symbol price :: later => e.Clears symbol price (later.filterMap Task.due?)
  | _ => True

instance (e : MatchingEngine) : (tasks : List Task) → Decidable (ClearFirst e tasks)
  | .check symbol price :: later =>
    inferInstanceAs (Decidable (e.Clears symbol price (later.filterMap Task.due?)))
  | [] | .publish _ :: _ | .deliver _ _ :: _ | .read _ :: _ | .update _ _ :: _ =>
    inferInstanceAs (Decidable True)

/-- If the next step is a check, then it clears. -/
def ClearAt (s : System) : Event → Prop
  | .begin _ => True
  | .proceed i => ∀ tasks ∈ s.calls[i]?, ClearFirst s.engine tasks

instance (s : System) : (event : Event) → Decidable (s.ClearAt event)
  | .begin _ => inferInstanceAs (Decidable True)
  | .proceed i => inferInstanceAs (Decidable (∀ tasks ∈ s.calls[i]?, ClearFirst s.engine tasks))

/-- A step of a call whose checks clear. -/
def ClearStep (s : System) (event : Event) (t : System) : Prop := s.Step event t ∧ s.ClearAt event

/-- The tasks of one call, one after another. -/
theorem attended_of_clear {m : ℕ} {symbol : String}
    (hrun : Run ClearStep ⟨e, [tasks]⟩ (List.replicate n (.proceed 0)) ⟨e', [[]]⟩)
    (ha : e.PendingApart ∧ e.Books Sane) (h : Attended m symbol e tasks) :
    Attended m symbol e' [] := by
  induction n generalizing e tasks with
  | zero =>
    obtain ⟨rfl, heq⟩ := System.mk.inj (Run.nil_iff.mp hrun)
    obtain rfl := List.head_eq_of_cons_eq heq
    exact h
  | succ n ih =>
    obtain ⟨s, ⟨hstep, hclear⟩, hrest⟩ := Run.cons_iff.mp hrun
    cases hstep with
    | @proceed fuel i task rest tasks' u hcall hperform =>
      obtain rfl : tasks = task :: rest := by simpa using hcall
      refine ih hrest (pendingApart_sections.on.perform ha hperform) (h.perform ha hperform ?_)
      rintro symbol price rfl
      exact hclear _ hcall

variable {mem : Memory} {hashOrder : HashOrder} {feeModel : Option FeeModel}
  {file : Option (List Json)} {calls : List Call}

/-- **A call whose checks clear misses no trigger.** After any calls on a new engine, a call submits
an order and returns. No check of it activates an order that finds a price at which an order is due
that the check leaves waiting, unless that one is due at a price that is still to be looked at.
Then no order still pending for the symbol is due at the price of a trade executed in the call. -/
theorem noneMissed_of_clear {tryAcceptOrder : Bool}
    (hrun : Run CallStep ((fresh mem hashOrder feeModel).startWAL file).2 calls e)
    (hcall : Run ClearStep ⟨e, []⟩
      (.begin (.submit tryAcceptOrder o) :: List.replicate n (.proceed 0)) ⟨e', [[]]⟩) :
    NoneMissed e e' o.symbol := by
  have ha := pendingApart_sections.calls hrun (pendingApart_fresh mem hashOrder feeModel file)
  have hl := labelled_sections.calls hrun (labelled_startWAL mem hashOrder feeModel file)
  obtain ⟨s, ⟨hstep, -⟩, hrest⟩ := Run.cons_iff.mp hcall
  cases hstep with
  | @begin fuel c tasks u hstart =>
    have hattended := attended_of_clear hrest (pendingApart_sections.on.start ha
      (fun _ _ => trivial) hstart) (.start hl hstart)
    intro p hp hsymbol w hw hdue
    obtain ⟨q, hq, -⟩ := hattended p hp hsymbol w hw hdue
    cases hq

/-- A market order activates a stop order, which trades at the next price. Another stop order
waits for a price below that. -/
theorem noneMissed_of_clear_stop : ∃ (e e' : MatchingEngine) (calls : List Call),
    Run CallStep ((fresh .empty .plain none).startWAL none).2 calls e ∧
    (e'.executed.drop e.executed.length).map (fun p => p.2.price) = [100, 95] ∧
    (e'.waiting "S").map Order.id = ["second"] ∧ NoneMissed e e' "S" := by
  let before := Run.exec (fun (e : MatchingEngine) c => (e.call 3 c).map (c, ·))
    ((fresh .empty .plain none).startWAL none).2 [
      .submit true ⟨"first", "S", .sell, .stopLoss, 100, 2⟩,
      .submit true ⟨"second", "S", .sell, .stopLoss, 90, 1⟩,
      .submit true ⟨"bid", "S", .buy, .limit, 100, 1⟩,
      .submit true ⟨"low", "S", .buy, .limit, 95, 5⟩]
  let events : List Event := .begin (.submit true ⟨"ask", "S", .sell, .market, 0, 1⟩) ::
    List.replicate 4 (.proceed 0)
  let next (s : System) (event : Event) : Option System :=
    if s.ClearAt event then s.advance 3 event else none
  let seen (e : MatchingEngine) (s : System) : Bool := decide (
    (s.engine.executed.drop e.executed.length).map (fun p => p.2.price) = [100, 95] ∧
    (s.engine.waiting "S").map Order.id = ["second"] ∧ s.calls.map List.isEmpty = [true])
  have hsome : (before.bind fun p =>
      (Run.exec (fun s event => (next s event).map (event, ·)) ⟨p.2, []⟩ events).map fun q =>
        seen p.2 q.2) = some true := by decide +kernel
  obtain ⟨⟨calls, e⟩, hbefore, hrest⟩ := Option.bind_eq_some_iff.mp hsome
  obtain ⟨⟨events', s⟩, hcall, hseen⟩ := Option.map_eq_some_iff.mp hrest
  obtain ⟨hprices, hwaiting, hcalls⟩ := of_decide_eq_true hseen
  obtain rfl := Run.exec_events hcall
  have hclear : Run ClearStep ⟨e, []⟩ events s := by
    refine Run.of_exec (fun s event event' t he => ?_) hcall
    obtain ⟨u, hu, heq⟩ := Option.map_eq_some_iff.mp he
    obtain ⟨rfl, rfl⟩ := Prod.mk.inj heq
    obtain ⟨hclear, hu⟩ := Option.ite_none_right_eq_some.mp hu
    exact ⟨step_of_advance hu, hclear⟩
  obtain ⟨e', finished⟩ := s
  obtain rfl : finished = [[]] := by
    obtain ⟨tasks, hfinished, hempty⟩ := List.map_eq_singleton_iff.mp hcalls
    obtain rfl := List.isEmpty_iff.mp hempty
    exact hfinished
  exact ⟨e, e', calls, calls_of_exec hbefore, hprices, hwaiting,
    noneMissed_of_clear (calls_of_exec hbefore) hclear⟩

end System

namespace MatchingEngine

/-- **A trigger is missed.** The trade of a market order activates a stop order, whose trade
meets the condition of a second one. The second one stays pending. -/
theorem trigger_missed : ∃ (e e' : MatchingEngine) (calls : List Call),
    Run CallStep ((fresh .empty .plain none).startWAL none).2 calls e ∧
    e.call 3 (.submit true ⟨"ask", "S", .sell, .market, 0, 1⟩) = some e' ∧
    (e'.executed.drop e.executed.length).map (fun p => p.2.price) = [100, 95] ∧
    e'.waiting "S" = [⟨"second", "S", .sell, .stopLoss, 95, 1⟩] ∧ ¬ NoneMissed e e' "S" := by
  let before := Run.exec (fun (e : MatchingEngine) c => (e.call 3 c).map (c, ·))
    ((fresh .empty .plain none).startWAL none).2 [
      .submit true ⟨"first", "S", .sell, .stopLoss, 100, 2⟩,
      .submit true ⟨"second", "S", .sell, .stopLoss, 95, 1⟩,
      .submit true ⟨"bid", "S", .buy, .limit, 100, 1⟩,
      .submit true ⟨"low", "S", .buy, .limit, 95, 5⟩]
  let seen (e e' : MatchingEngine) : Bool := decide (
    (e'.executed.drop e.executed.length).map (fun p => p.2.price) = [100, 95] ∧
    e'.waiting "S" = [⟨"second", "S", .sell, .stopLoss, 95, 1⟩] ∧ ¬ NoneMissed e e' "S")
  have hsome : (before.bind fun p =>
      (p.2.call 3 (.submit true ⟨"ask", "S", .sell, .market, 0, 1⟩)).map fun e' => seen p.2 e') =
        some true := by decide +kernel
  obtain ⟨⟨calls, e⟩, hbefore, hrest⟩ := Option.bind_eq_some_iff.mp hsome
  obtain ⟨e', hcall, hseen⟩ := Option.map_eq_some_iff.mp hrest
  obtain ⟨hprices, hwaiting, hmissed⟩ := of_decide_eq_true hseen
  exact ⟨e, e', calls, System.calls_of_exec hbefore, hcall, hprices, hwaiting, hmissed⟩

end MatchingEngine

end GoQuant
