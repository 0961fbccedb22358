import GoQuant.Engine.LifeCycle
import GoQuant.Engine.Linearization
import GoQuant.Engine.Tidy
import Mathlib.Data.Multiset.AddSub

/-!
# The exchange that the engine implements

An exchange has for each symbol two ladders of orders, and a list of orders that wait for a price.
It serves one call after another: an order walks down the opposite ladder of its symbol in order of
price and arrival and may come to rest, a trigger order joins those that wait, a cancellation takes
the order of an id away, a change of quantity keeps its place. The price of each trade of a
submitted order is looked at once, some time later; the waiting orders that it calls are matched
then, one after another. Books, levels with running totals, id maps, shared order objects, locks
and hash maps play no part.

The engine refines it, whatever calls are under way: first critical sections are the calls of the
exchange, checks of trigger orders are its looks at prices, and the other critical sections do
nothing.

## Main definitions

* `Venue`, `Venue.Step` — the exchange.
* `MatchingEngine.venue`, `System.due` — what an engine holds of it.
* `Orderly`, `Clean` — the engines that hold one, and the calls that keep them so.

## Main results

* `System.CleanStep.venue`, `System.CleanStep.orderly` — one step.
* `System.venue_of_run` — calls under way.
-/

namespace GoQuant

open MatchingAlgorithm MatchingEngine

/-- An exchange: the ladders of each symbol, the orders that wait there for a price, the trades so
far, the number of the next one, and the prices that are still to be looked at. -/
@[ext] structure Venue where
  feeModel : Option FeeModel
  ladders : String → Side → List (Tier ℚ Order)
  waiting : String → List Order
  executed : List (String × Trade)
  tradeCounter : ℕ
  due : Multiset (String × ℚ)

namespace Venue

/-- What happens to an exchange: a call is answered, or a price is looked at. -/
inductive Event where
  | call (c : Call) (a : CallResult)
  | check (symbol : String) (price : ℚ)

variable (v : Venue)

/-- An order of an id stands on a ladder. -/
def Holds (orderId : String) : Prop :=
  ∃ symbol side, ∃ o ∈ Ladder.items (v.ladders symbol side), o.id = orderId

/-- The trades of an order with the ladders of its symbol. -/
def trades (o : Order) : List Trade :=
  tradesOf v.feeModel o v.tradeCounter (Greedy.takes o (v.ladders o.symbol))

/-- An order is matched with the ladders of its symbol. -/
def submit (o : Order) : Venue :=
  { v with
    ladders := Function.update v.ladders o.symbol (Greedy.after o (v.ladders o.symbol))
    executed := v.executed ++ (v.trades o).map (o.symbol, ·)
    tradeCounter := v.tradeCounter + (v.trades o).length }

/-- A trigger order joins those that wait. -/
def await (o : Order) : Venue :=
  { v with waiting := Function.update v.waiting o.symbol (v.waiting o.symbol ++ [o]) }

/-- A request that may be about an order of any symbol. -/
def all (req : Request) : Venue :=
  { v with ladders := fun symbol => Greedy.call (v.ladders symbol) req }

open Classical in
/-- A call, and what it returns or throws. -/
noncomputable def serve : Call → CallResult × Venue
  | .submit tryAcceptOrder o =>
    if tryAcceptOrder then
      if o.type.isTrigger then (.ok true, v.await o)
      else (.ok true, { v.submit o with
        due := v.due + ((v.trades o).map fun t => (o.symbol, t.price) : List (String × ℚ)) })
    else (.error ("Rate limit exceeded for symbol: " ++ o.symbol), v)
  | .cancel orderId => (.ok (decide (v.Holds orderId)), v.all (.cancel orderId))
  | .modify orderId newQuantity =>
    (.ok (decide (v.Holds orderId)), v.all (.modify orderId newQuantity))
  | .subscribeToMarketData _ _ => (.ok true, v)
  | .subscribeToTrades _ _ => (.ok true, v)

/-- A price is looked at. The orders that it calls stop waiting and are matched; nobody is going to
look at the prices of their trades. -/
def check (symbol : String) (price : ℚ) : Venue :=
  { (((v.waiting symbol).filter fun o => o.Due price).map activeOrder).foldl submit v with
    waiting := Function.update v.waiting symbol
      ((v.waiting symbol).filter fun o => ¬ o.Due price)
    due := v.due.erase (symbol, price) }

inductive Step : Venue → Event → Venue → Prop
  | call {v v' : Venue} {c : Call} {a : CallResult} : v.serve c = (a, v') → Step v (.call c a) v'
  | check {v : Venue} {symbol : String} {price : ℚ} :
      (symbol, price) ∈ v.due → Step v (.check symbol price) (v.check symbol price)

end Venue

/-- The price that a task is going to have looked at. -/
def Task.due? : Task → Option (String × ℚ)
  | .publish trade => some (trade.symbol, trade.price)
  | .check symbol price => some (symbol, price)
  | _ => none

namespace Task

/-- The prices that tasks are going to have looked at. -/
def prices (tasks : List Task) : Multiset (String × ℚ) :=
  (tasks.filterMap Task.due? : List (String × ℚ))

theorem prices_append (tasks tasks' : List Task) :
    prices (tasks ++ tasks') = prices tasks + prices tasks' := by
  rw [prices, List.filterMap_append, ← Multiset.coe_add]
  rfl

/-- A delivery has none looked at. -/
theorem prices_deliver (callbacks : List Subscriber) (t : Trade) :
    prices (callbacks.map (.deliver · t)) = 0 := by
  rw [prices, List.filterMap_map]
  exact congrArg _ (List.filterMap_eq_nil_iff.mpr fun _ _ => rfl)

theorem prices_congr {tasks tasks' : List Task} (h : tasks.Perm tasks') :
    prices tasks = prices tasks' :=
  Multiset.coe_eq_coe.mpr (h.filterMap _)

end Task

namespace MatchingEngine

/-- What an engine holds of an exchange, if it still has to look at some prices. -/
def venue (e : MatchingEngine) (due : Multiset (String × ℚ)) : Venue :=
  ⟨e.feeModel, fun symbol => (e.book symbol).ladder e.mem, e.waiting, e.executed,
    e.mem.tradeCounter, due⟩

/-- Tidy books. Every id is carried once, by an order that rests or waits. -/
structure Orderly (e : MatchingEngine) : Prop extends Tidy e where
  labelled : e.Labelled
  apart : e.PendingApart
  positive : ∀ symbol, ∀ o ∈ e.waiting symbol, 0 < o.quantity
  single : ∀ symbol, ((e.waiting symbol).map Order.id).Nodup
  unnamed : ∀ symbol, ∀ o ∈ e.waiting symbol, ¬ (e.book symbol).Names e.mem o.id
  exclusive : ∀ id symbol symbol', e.Carries symbol id → e.Carries symbol' id → symbol = symbol'

/-- The calls that keep an engine orderly: an order of one of the seven types comes with an id that
is not in use. -/
def Clean (e : MatchingEngine) : Call → Prop
  | .submit true o => (o.type.Matchable ∨ o.type.isTrigger) ∧ 0 < o.quantity ∧
    ∀ symbol, ¬ e.Carries symbol o.id
  | .modify _ newQuantity => 0 < newQuantity
  | _ => True

theorem carried_iff {e : MatchingEngine} {id : String} : (∀ symbol, ¬ e.Carries symbol id) ↔
    ∀ symbol ∈ e.orderBooks.keys ++ e.triggerOrders.keys, ¬ e.Carries symbol id :=
  ⟨fun h symbol _ => h symbol, fun h symbol hid =>
    h symbol (List.mem_append.mpr hid.mem_keys) hid⟩

instance (e : MatchingEngine) (c : Call) : Decidable (e.Clean c) :=
  match c with
  | .submit true o =>
    decidable_of_iff ((o.type.Matchable ∨ o.type.isTrigger) ∧ 0 < o.quantity ∧
        ∀ symbol ∈ e.orderBooks.keys ++ e.triggerOrders.keys, ¬ e.Carries symbol o.id)
      (and_congr_right fun _ => and_congr_right fun _ => carried_iff.symm)
  | .submit false _ => isTrue trivial
  | .cancel _ => isTrue trivial
  | .modify _ newQuantity => inferInstanceAs (Decidable (0 < newQuantity))
  | .subscribeToMarketData _ _ => isTrue trivial
  | .subscribeToTrades _ _ => isTrue trivial

variable {fuel : ℕ} {e e' u : MatchingEngine} {c : Call} {o : Order} {os : List Order}
  {symbol s orderId : String} {newQuantity price : ℚ} {a : CallResult} {result : Matching}
  {due : Multiset (String × ℚ)} {tasks : List Task} {req : Request}

/-! ## The sections that only publish -/

theorem venue_of_same (ha : e.PendingApart) (hs : e.SameBooks e')
    (hexecuted : e'.executed = e.executed) : e'.venue due = e.venue due := by
  refine Venue.ext hs.feeModel (funext fun symbol => ?_)
    (funext fun symbol => ha.waiting (.of_same hs) (hs.pending symbol)) hexecuted
    (congrArg Memory.tradeCounter hs.mem) rfl
  simp only [venue, hs.book, hs.mem]

variable (due)

/-! ## The sections that match orders -/

/-- An object built for the occasion is matched. -/
theorem venue_matched (h : e.Tidy) (ha : e.PendingApart) (htype : o.type.Matchable)
    (hq : 0 < o.quantity) (hid : (e.book o.symbol).hasOrder o.id = false)
    (hs : (e.alloc o).1.SameBooks u) (hx : u.executed = e.executed)
    (hr : Returns e.feeModel (e.mem.alloc o).1 (e.book o.symbol) e.mem.next result) :
    (u.matched o.symbol result).Tidy ∧ result.trades = (e.venue due).trades o ∧
      (u.matched o.symbol result).venue due = (e.venue due).submit o := by
  obtain ⟨htidy, htrades, hcounter, hladders⟩ := h.matched htype hq hid hs hr
  refine ⟨htidy, htrades, Venue.ext hs.feeModel hladders (funext fun symbol => ?_) ?_ ?_ rfl⟩
  · exact ha.waiting (.matched hs hr) (hs.pending symbol)
  · calc (u.matched o.symbol result).executed
        = u.executed ++ result.trades.map (o.symbol, ·) := rfl
      _ = e.executed ++ ((e.venue due).trades o).map (o.symbol, ·) := by rw [hx, htrades]; rfl
  · rw [htrades] at hcounter
    exact hcounter

/-- Orders are matched one after another, by induction on the orders. None of them has the id of
another one, or of an order that rests. -/
theorem venue_matches (hm : Matches symbol os e e') (h : e.Tidy) (ha : e.PendingApart)
    (hos : ∀ o ∈ os, o.type.Matchable ∧ 0 < o.quantity ∧ o.symbol = symbol ∧
      (e.book symbol).hasOrder o.id = false) (hnodup : (os.map Order.id).Nodup) :
    e'.Tidy ∧ e'.venue due = os.foldl Venue.submit (e.venue due) := by
  induction hm with
  | nil hs hx => exact ⟨h.of_same hs, venue_of_same ha hs (by simpa using hx.executed)⟩
  | @cons e u e' o os result hs hx hr _ ih =>
    obtain ⟨⟨htype, hq, rfl, hid⟩, hrest⟩ := List.forall_mem_cons.mp hos
    rw [List.map_cons, List.nodup_cons] at hnodup
    obtain ⟨htidy, -, hvenue⟩ :=
      venue_matched due h ha htype hq hid hs (by simpa using hx.executed) hr
    have hapart : (u.matched o.symbol result).PendingApart :=
      ha.of_spares (.matched hs hr) fun s ord hord => hs.pending s ▸ hord
    rw [List.foldl_cons, ← hvenue]
    refine ih htidy hapart (fun o' ho' => ?_) hnodup.2
    obtain ⟨htype', hq', hsymbol', hid'⟩ := hrest o' ho'
    refine ⟨htype', hq', hsymbol', ?_⟩
    rw [book_matched_self, Bool.eq_false_iff]
    intro hknown
    rcases hr.hasOrder ((h.sane o.symbol).fresh o).unmapped hknown with hold | hnew
    · simp [hid'] at hold
    · rw [Matches.id_alloc] at hnew
      exact hnodup.1 (List.mem_map.mpr ⟨o', ho', hnew⟩)

/-! ## The sections about an id -/

namespace Orderly

theorem hasOrder_eq_false (h : ¬ (e.book symbol).Names e.mem orderId) :
    (e.book symbol).hasOrder orderId = false := by
  rw [Bool.eq_false_iff]
  exact fun hid => h (Or.inl hid)

theorem holds_iff (h : e.Tidy) :
    (e.venue due).Holds orderId ↔ ∃ symbol, (e.book symbol).hasOrder orderId = true :=
  exists_congr fun symbol => (h.wellFormed symbol).hasOrder_iff_ladder.symm

theorem known_once (h : e.Orderly) (hid : (e.book symbol).hasOrder orderId = true)
    (hs : s ≠ symbol) : (e.book s).hasOrder orderId = false := by
  rw [Bool.eq_false_iff]
  exact fun hid' => hs (h.exclusive orderId s symbol (Or.inl (Or.inl hid')) (Or.inl (Or.inl hid)))

/-- A request about an id is answered by whether the ladders hold it. -/
theorem finds (h : e.Orderly) {p : Option String × MatchingEngine}
    (hidle : ∀ s, (e.book s).hasOrder orderId = false →
      Greedy.call ((e.book s).ladder e.mem) req = (e.book s).ladder e.mem)
    (hwaiting : p.2.waiting = e.waiting) (hexecuted : p.2.executed = e.executed)
    (hp : e.Finds orderId req p) :
    @decide ((e.venue due).Holds orderId) (Classical.propDecidable _) = p.1.isSome ∧
      p.2.venue due = (e.venue due).all req := by
  rw [Bool.eq_iff_iff, @decide_eq_true_iff _ (Classical.propDecidable _), holds_iff due h.toTidy]
  obtain ⟨hnone, hunknown, hsame⟩ | ⟨symbol, hsome, hid, hfee, hcounter, hladders⟩ := hp
  · rw [hnone]
    refine ⟨by simp [hunknown], ?_⟩
    rw [venue_of_same h.apart hsame hexecuted]
    exact Venue.ext rfl (funext fun s => (hidle s (hunknown s)).symm) rfl rfl rfl rfl
  · rw [hsome]
    refine ⟨by simpa using ⟨symbol, hid⟩, Venue.ext hfee ?_ hwaiting hexecuted hcounter rfl⟩
    refine hladders.trans (funext fun s => ?_)
    by_cases hs : s = symbol
    · subst hs
      exact Function.update_self ..
    · rw [Function.update_of_ne hs]
      exact (hidle s (h.known_once hid hs)).symm

/-- A submitted order waits, or it is matched. -/
theorem acceptOrder (h : e.Orderly) (hc : e.Clean (.submit true o))
    {r : Except String (Option (List Trade))}
    (haccept : (e.alloc o).1.acceptOrder fuel (e.alloc o).2 = some (r, e')) :
    e'.Tidy ∧
      ((o.type.isTrigger = true ∧ r = .ok none ∧ e'.venue due = (e.venue due).await o) ∨
        (o.type.isTrigger ≠ true ∧ r = .ok (some ((e.venue due).trades o)) ∧
          (∀ t ∈ (e.venue due).trades o, t.symbol = o.symbol) ∧
          e'.venue due = (e.venue due).submit o)) := by
  obtain ⟨hkind, hq, hid⟩ := hc
  have hself := e.alloc_order_self o
  have hreceive := SameBooks.receive (e.alloc o).1 o
  have halloc : Executes o.symbol [] e (e.alloc o).1 := .idle rfl rfl rfl rfl
  have hexecuted : ((e.alloc o).1.receive o).executed = e.executed :=
    (halloc.then_idle (.receive _ o)).executed.trans (List.append_nil _)
  -- `processOrder` alone throws, and it does not see trigger orders
  have hthrow (message : String) (hr : r = .error message) : o.type.isTrigger ≠ true := by
    obtain ⟨-, hok, -⟩ | ⟨htype, -⟩ | ⟨htype, -⟩ := acceptOrder_matches haccept
    · cases hr.symm.trans hok
    · exact htype
    · exact htype
  obtain ⟨htrigger, rfl, rfl⟩ | ⟨htrigger, result, hr, rfl, _, _, rfl⟩ | ⟨htype, message, hr, -⟩ :=
    acceptOrder_cases haccept
  all_goals rw [hself] at *
  · obtain ⟨-, hwaiting, hothers⟩ := h.apart.addTrigger h.sane o hreceive
    have htidy := (h.toTidy.alloc o).of_same hreceive
    refine ⟨⟨htidy.wellFormed, htidy.separate⟩, Or.inl ⟨htrigger, rfl, Venue.ext hreceive.feeModel
      (funext fun symbol => ?_) (funext fun symbol => ?_) hexecuted
      (congrArg Memory.tradeCounter hreceive.mem :) rfl⟩⟩
    · have hladder : (((e.alloc o).1.receive o).book symbol).ladder ((e.alloc o).1.receive o).mem =
          (e.book symbol).ladder e.mem := by
        rw [hreceive.book, hreceive.mem]
        exact funext ((h.wellFormed symbol).ladder_alloc o)
      exact hladder
    · by_cases hsymbol : symbol = o.symbol
      · subst hsymbol
        exact hwaiting.trans (Function.update_self _ _ e.waiting).symm
      · exact (hothers symbol hsymbol).trans (Function.update_of_ne hsymbol ..).symm
  · have htype : o.type.Matchable := hkind.resolve_right htrigger
    obtain ⟨htidy, htrades, hvenue⟩ := venue_matched due h.toTidy h.apart htype hq
      (hasOrder_eq_false fun hname => hid o.symbol (Or.inl hname)) hreceive hexecuted hr
    rw [← htrades]
    exact ⟨⟨htidy.wellFormed, htidy.separate⟩, Or.inr ⟨htrigger, rfl,
      fun t ht => h.labelled.symbol_of_trade hr ht, hvenue⟩⟩
  · exact absurd hkind (not_or.mpr ⟨htype, hthrow message hr⟩)

/-- The first critical section of a call is the call of the exchange. -/
theorem start (h : e.Orderly) (hc : e.Clean c) (hs : e.start fuel c = some (tasks, e'))
    (ha : e.answer fuel c = some a) :
    e'.Tidy ∧ (e.venue due).serve c =
      (a, e'.venue (due + Task.prices tasks)) := by
  -- a section that leaves no price to be looked at
  have hquiet (v : Venue) (hv : v = e'.venue due) (hnone : Task.prices tasks = 0) :
      (a, v) = (a, e'.venue (due + Task.prices tasks)) := by
    rw [hnone, Multiset.add_zero, hv]
  have hread (affectedSymbol : Option String) :
      Task.prices (affectedSymbol.toList.map .read) = 0 := by
    cases affectedSymbol <;> rfl
  cases c with
  | submit tryAcceptOrder o =>
    obtain ⟨rfl, r, haccept, htasks⟩ | ⟨rfl, rfl, rfl⟩ := start_submit hs
    · have hanswer : r.map (fun _ => true) = a := by
        simpa [answer, haccept] using ha
      obtain ⟨htidy, ⟨htrigger, rfl, hvenue⟩ | ⟨htrigger, rfl, hsymbol, hvenue⟩⟩ :=
        h.acceptOrder due hc haccept
      · obtain ⟨trades, htrades, -⟩ | ⟨-, rfl⟩ := htasks
        · cases htrades
        · rw [Venue.serve, if_pos rfl, if_pos htrigger]
          obtain rfl : Except.ok true = a := hanswer
          exact ⟨htidy, hquiet _ hvenue.symm rfl⟩
      · obtain ⟨trades, htrades, rfl⟩ | ⟨hnone, -⟩ := htasks
        · obtain rfl := Option.some.inj (Except.ok.inj htrades)
          obtain rfl : Except.ok true = a := hanswer
          have hdue : Task.prices (((e.venue due).trades o).map .publish ++ [.read o.symbol]) =
              (((e.venue due).trades o).map fun t => (o.symbol, t.price) :
                List (String × ℚ)) := by
            rw [Task.prices, List.filterMap_append, List.filterMap_map, ← List.filterMap_eq_map]
            refine congrArg _ ((List.append_nil _).trans (List.filterMap_congr fun t ht => ?_))
            exact congrArg (fun symbol => some (symbol, t.price)) (hsymbol t ht)
          rw [Venue.serve, if_pos rfl, if_neg htrigger, hdue, ← hvenue]
          exact ⟨htidy, rfl⟩
        · exact absurd rfl (hnone _)
    · obtain rfl : Except.error ("Rate limit exceeded for symbol: " ++ o.symbol) = a :=
        Option.some.inj ha
      rw [Venue.serve, if_neg Bool.false_ne_true]
      refine ⟨h.toTidy.alloc o, hquiet _ (Venue.ext rfl (funext fun symbol => ?_) ?_ rfl rfl rfl)
        rfl⟩
      · exact (funext ((h.wellFormed symbol).ladder_alloc o)).symm
      · exact (funext fun symbol => h.apart.waiting (.alloc e o) rfl).symm
  | cancel orderId =>
    obtain rfl : Except.ok (e.cancelOrderUnlocked orderId).1.isSome = a := Option.some.inj ha
    obtain ⟨rfl, rfl⟩ := Prod.mk.inj (Option.some.inj hs)
    obtain ⟨htidy, hfinds⟩ := h.toTidy.cancelOrderUnlocked orderId
    have hexecuted := (@Executes.cancelOrderUnlocked "" e orderId).executed
    obtain ⟨hholds, hvenue⟩ := h.finds due
      (fun s hid => (h.toTidy.call_unknown hid).1)
      (funext fun symbol => h.apart.waiting (.cancelOrderUnlocked e orderId)
        (cancelOrderUnlocked_pending e orderId symbol))
      (by simpa using hexecuted) hfinds
    rw [Venue.serve, hholds]
    exact ⟨htidy, hquiet _ hvenue.symm (hread _)⟩
  | modify orderId newQuantity =>
    obtain rfl : Except.ok (e.modifyOrderUnlocked orderId newQuantity).1.isSome = a :=
      Option.some.inj ha
    obtain ⟨rfl, rfl⟩ := Prod.mk.inj (Option.some.inj hs)
    obtain ⟨htidy, hfinds⟩ := h.toTidy.modifyOrderUnlocked orderId hc
    have hexecuted := (@Executes.modifyOrderUnlocked "" e orderId newQuantity).executed
    obtain ⟨hholds, hvenue⟩ := h.finds due
      (fun s hid => (h.toTidy.call_unknown hid).2 newQuantity)
      (funext fun symbol => h.apart.waiting (.modifyOrderUnlocked e orderId newQuantity)
        (modifyOrderUnlocked_pending e orderId newQuantity symbol))
      (by simpa using hexecuted) hfinds
    rw [Venue.serve, hholds]
    exact ⟨htidy, hquiet _ hvenue.symm (hread _)⟩
  | subscribeToMarketData symbol callback =>
    obtain rfl := Option.some.inj ha
    obtain ⟨rfl, rfl⟩ := Prod.mk.inj (Option.some.inj hs)
    have hsame := SameBooks.subscribeToMarketData e symbol callback
    exact ⟨h.toTidy.of_same hsame, hquiet _ (venue_of_same h.apart hsame rfl).symm rfl⟩
  | subscribeToTrades symbol callback =>
    obtain rfl := Option.some.inj ha
    obtain ⟨rfl, rfl⟩ := Prod.mk.inj (Option.some.inj hs)
    have hsame := SameBooks.subscribeToTrades e symbol callback
    exact ⟨h.toTidy.of_same hsame, hquiet _ (venue_of_same h.apart hsame rfl).symm rfl⟩

theorem activations_eq (symbol : String) (price : ℚ) : e.activations symbol price =
    ((e.waiting symbol).filter fun o => o.Due price).map activeOrder := by
  simp only [activations, triggered_eq_due]

/-- The orders that a price calls can be matched. -/
theorem called (h : e.Orderly) {act : Order}
    (hact : act ∈ ((e.waiting symbol).filter fun o => o.Due price).map activeOrder) :
    act.type.Matchable ∧ 0 < act.quantity ∧ act.symbol = symbol ∧
      (e.book symbol).hasOrder act.id = false := by
  obtain ⟨o, ho, rfl⟩ := List.mem_map.mp hact
  have hwaits := List.mem_of_mem_filter ho
  obtain ⟨ord, hord, hrfl⟩ := List.mem_map.mp hwaits
  have hconverts := History.converts_activeOrder o
  refine ⟨(activeOrder_type o).elim Or.inl fun htype => Or.inr (Or.inl htype), ?_, ?_, ?_⟩
  · rw [hconverts.quantity]
    exact h.positive symbol o hwaits
  · rw [hconverts.symbol, ← hrfl]
    exact (h.labelled.pending symbol ord hord).2
  · rw [activeOrder_id]
    exact hasOrder_eq_false (h.unnamed symbol o hwaits)

/-- A check of the trigger orders is a look at a price. -/
theorem checkTriggers (h : e.Orderly) (hc : e.checkTriggers fuel symbol price = some e') :
    e'.Tidy ∧ e'.venue (due.erase (symbol, price)) = (e.venue due).check symbol price := by
  obtain ⟨hself, hothers⟩ := h.apart.checkTriggers hc
  obtain ⟨u, remaining, hmatches, hsame, hx⟩ := checkTriggers_matches hc h.apart
  have hnodup : ((((e.waiting symbol).filter fun o => o.Due price).map activeOrder).map
      Order.id).Nodup := by
    have hids : Order.id ∘ activeOrder = Order.id := funext activeOrder_id
    rw [List.map_map, hids]
    exact (h.single symbol).sublist (List.filter_sublist.map Order.id)
  rw [activations_eq] at hmatches
  obtain ⟨htidy, hvenue⟩ := venue_matches due hmatches h.toTidy h.apart (fun _ => h.called) hnodup
  have hpending : (u.setPending symbol remaining).Tidy := ⟨htidy.wellFormed, htidy.separate⟩
  have hladders : (e'.venue due).ladders = (u.venue due).ladders := by
    simp only [venue, hsame.book, hsame.mem]
    rfl
  have hwaiting : e'.waiting = Function.update e.waiting symbol
      ((e.waiting symbol).filter fun o => ¬ o.Due price) := by
    funext s
    by_cases hs : s = symbol
    · subst hs
      rw [Function.update_self, hself]
      simp only [triggered_eq_due, decide_not]
    · rw [Function.update_of_ne hs]
      exact hothers s hs
  have hexecuted : e'.executed = u.executed := by simpa using hx.executed
  have hcounter : e'.mem.tradeCounter = u.mem.tradeCounter :=
    congrArg Memory.tradeCounter hsame.mem
  exact ⟨hpending.of_same hsame, Venue.ext
    (hsame.feeModel.trans (congrArg Venue.feeModel hvenue :))
    (hladders.trans (congrArg Venue.ladders hvenue :)) hwaiting
    (hexecuted.trans (congrArg Venue.executed hvenue :))
    (hcounter.trans (congrArg Venue.tradeCounter hvenue :)) rfl⟩

end Orderly

theorem orderly_startWAL (mem : Memory) (hashOrder : HashOrder) (feeModel : Option FeeModel)
    (file : Option (List Json)) : ((fresh mem hashOrder feeModel).startWAL file).2.Orderly where
  wellFormed symbol := by cases file <;> exact .empty mem symbol
  separate symbol r hr := by
    cases file <;> exact absurd hr (OrderBook.not_rests_empty symbol r)
  labelled := labelled_startWAL mem hashOrder feeModel file
  apart := (pendingApart_fresh mem hashOrder feeModel file).1
  positive symbol o ho := by cases file <;> exact absurd ho List.not_mem_nil
  single symbol := by cases file <;> exact List.nodup_nil
  unnamed symbol o ho := by cases file <;> exact absurd ho List.not_mem_nil
  exclusive id symbol symbol' hid := by
    obtain hname | ⟨o, ho, -⟩ := hid
    · cases file <;> exact absurd hname (OrderBook.not_names_empty _ _ _)
    · cases file <;> exact absurd ho List.not_mem_nil

end MatchingEngine

namespace System

/-- The prices that are still to be looked at. -/
def due (s : System) : Multiset (String × ℚ) := Task.prices s.tasks

/-- A step in which only clean calls begin, as it looks from outside. -/
structure CleanStep (s : System) (l : Event × List Venue.Event) (t : System) : Prop where
  step : s.Step l.1 t
  clean : ∀ c ∈ l.1.begun, s.engine.Clean c
  shows : match l.1 with
    | .begin c => ∃ fuel a, s.engine.answer fuel c = some a ∧ l.2 = [.call c a]
    | .proceed _ => l.2 = (s.checks l.1).toList.map fun p => .check p.1 p.2

variable {fuel : ℕ} {s t : System} {e e' : MatchingEngine} {task : Task} {tasks : List Task}
  {l : Event × List Venue.Event} {ls : List (Event × List Venue.Event)}

/-- The other critical sections leave the exchange alone, and what is due. -/
theorem perform_quiet (hp : e.perform fuel task = some (tasks, e'))
    (htask : ∀ symbol price, task ≠ .check symbol price) :
    e.SameBooks e' ∧ e'.executed = e.executed ∧ Task.prices tasks = Task.prices [task] := by
  cases task with
  | publish trade =>
    obtain ⟨rfl, rfl⟩ := Prod.mk.inj (Option.some.inj hp)
    refine ⟨.recordTrade e trade, recordTrade_executed e trade, ?_⟩
    rw [Task.prices_append, Task.prices_deliver, Multiset.zero_add]
    rfl
  | deliver callback trade =>
    obtain ⟨rfl, rfl⟩ := Prod.mk.inj (Option.some.inj hp)
    exact ⟨.deliverTrade e callback trade, rfl, rfl⟩
  | check symbol price => exact absurd rfl (htask symbol price)
  | read symbol =>
    obtain ⟨rfl, rfl⟩ := Prod.mk.inj (Option.some.inj hp)
    exact ⟨.refl e, rfl, rfl⟩
  | update symbol update =>
    obtain ⟨rfl, rfl⟩ := Prod.mk.inj (Option.some.inj hp)
    have hexecuted := (@Executes.publishUpdate symbol e symbol update).executed
    exact ⟨.publishUpdate e symbol update, by simpa using hexecuted, rfl⟩

/-- A step is a step of the exchange, or none. -/
theorem CleanStep.venue (h : s.CleanStep l t) (hs : s.engine.Orderly) :
    t.engine.Tidy ∧ Run Venue.Step (s.engine.venue s.due) l.2 (t.engine.venue t.due) := by
  obtain ⟨event, shown⟩ := l
  obtain ⟨hstep, hclean, hshows⟩ := h
  cases hstep with
  | @begin fuel c tasks e hstart =>
    obtain ⟨fuel', a, hanswer, rfl⟩ := hshows
    obtain ⟨htidy, hserve⟩ := hs.start s.due (hclean c (List.mem_singleton_self c))
      (start_mono hstart (le_max_left fuel fuel')) (answer_mono hanswer (le_max_right fuel fuel'))
    refine ⟨htidy, .one (.call ?_)⟩
    rw [hserve, due, due, tasks_begin, Task.prices_append]
  | @proceed fuel i task rest tasks e hcall hperform =>
    obtain ⟨others, hfrom, hto⟩ := tasks_proceed hcall e tasks
    have hdue : s.due = Task.prices [task] + Task.prices others := by
      rw [due, Task.prices_congr hfrom, ← Task.prices_append]
      rfl
    have hdue' : System.due ⟨e, s.calls.set i (tasks ++ rest)⟩ =
        Task.prices tasks + Task.prices others := by
      rw [due, Task.prices_congr hto, Task.prices_append]
    simp only [checks, head?_of_calls hcall] at hshows
    rw [hdue, hdue']
    by_cases hcheck : ∃ symbol price, task = .check symbol price
    · obtain ⟨symbol, price, rfl⟩ := hcheck
      obtain rfl : shown = [.check symbol price] := hshows
      obtain ⟨u, hu, heq⟩ := Option.map_eq_some_iff.mp hperform
      obtain ⟨rfl, rfl⟩ := Prod.mk.inj heq
      have hprice : Task.prices [.check symbol price] = {(symbol, price)} := rfl
      have hnone : Task.prices [] = 0 := rfl
      obtain ⟨htidy, hvenue⟩ := hs.checkTriggers ({(symbol, price)} + Task.prices others) hu
      rw [Multiset.singleton_add, Multiset.erase_cons_head] at hvenue
      rw [hprice, hnone, Multiset.zero_add, Multiset.singleton_add, hvenue]
      have hmem : (symbol, price) ∈ (symbol, price) ::ₘ Task.prices others :=
        Multiset.mem_cons_self _ _
      exact ⟨htidy, .one (.check hmem)⟩
    · have htask (symbol : String) (price : ℚ) : task ≠ .check symbol price :=
        fun heq => hcheck ⟨symbol, price, heq⟩
      obtain ⟨hsame, hexecuted, hprices⟩ := perform_quiet hperform htask
      obtain rfl : shown = [] := by
        cases task <;> first | exact hshows | exact absurd rfl (htask _ _)
      rw [hprices, venue_of_same hs.apart hsame hexecuted]
      exact ⟨hs.toTidy.of_same hsame, .nil⟩

/-- An order that is matched does not go on waiting. -/
theorem id_ne_of_matching (hs : s.engine.Orderly) {event : Event}
    (hclean : ∀ c ∈ event.begun, s.engine.Clean c) {act o : Order}
    (hact : act ∈ (s.matching event).2) (ho : o ∈ s.queue (s.matching event).1 event) :
    act.id ≠ o.id := by
  intro hid
  unfold matching at hact ho
  split at hact
  · rename_i o'
    have hnew := (hclean (.submit true o') (List.mem_singleton_self _)).2.2 o'.symbol
    dsimp only at hact ho
    split_ifs at hact with htrigger
    · cases hact
    · obtain rfl := List.mem_singleton.mp hact
      rw [queue, if_neg fun hwaits => htrigger hwaits.1] at ho
      exact hnew (Or.inr ⟨o, ho, hid.symm⟩)
  · cases hact
  · rename_i i
    split at hact
    · rename_i symbol price hhead
      simp only [queue, hhead, if_true] at ho
      obtain ⟨o', ho', rfl⟩ := List.mem_map.mp hact
      rw [activeOrder_id] at hid
      -- both waited, so they are the same order
      obtain ⟨hwaits, hcalled⟩ := List.mem_filter.mp ho'
      obtain ⟨hwaits', hleft⟩ := List.mem_filter.mp ho
      obtain rfl := List.inj_on_of_nodup_map (hs.single symbol) hwaits hwaits' hid
      simp [hcalled] at hleft
    · cases hact

/-- The engine stays orderly. -/
theorem CleanStep.orderly (h : s.CleanStep l t) (hs : s.engine.Orderly) : t.engine.Orderly := by
  have hwaiting := step_waiting hs.apart hs.toTidy.sane h.step
  have hcarries {symbol id : String} (hid : t.engine.Carries symbol id) :=
    carries_step hs.apart hs.toTidy.sane h.step hid
  -- what a submitted order brings along
  have hnew {o : Order} (ho : l.1 = .begin (.submit true o)) :
      0 < o.quantity ∧ ∀ symbol, ¬ s.engine.Carries symbol o.id := by
    have hclean := h.clean (.submit true o) (ho ▸ List.mem_singleton_self _)
    exact hclean.2
  exact {
    toTidy := (h.venue hs).1
    labelled := labelled_sections.step hs.labelled h.step
    apart := (pendingApart_sections.step ⟨hs.apart, hs.toTidy.sane⟩ h.step).1
    positive := fun symbol o ho => by
      rw [hwaiting] at ho
      rcases mem_queue ho with hold | ⟨hevent, -⟩
      · exact hs.positive symbol o hold
      · exact (hnew hevent).1
    single := fun symbol => by
      rw [hwaiting]
      unfold queue
      split
      · rename_i o hevent
        split_ifs
        · rw [List.map_append, List.map_singleton, List.nodup_append]
          refine ⟨hs.single symbol, List.nodup_singleton _, fun id hid id' hid' => ?_⟩
          obtain ⟨o', ho', rfl⟩ := List.mem_map.mp hid
          obtain rfl := List.mem_singleton.mp hid'
          exact fun heq => (hnew hevent).2 symbol (Or.inr ⟨o', ho', heq⟩)
        · exact hs.single symbol
      · exact hs.single symbol
      · split
        · split_ifs
          · exact (hs.single symbol).sublist (List.filter_sublist.map Order.id)
          · exact hs.single symbol
        · exact hs.single symbol
    unnamed := fun symbol o ho hname => by
      rw [hwaiting] at ho
      rcases (step_effect hs.apart hs.toTidy.sane h.step).names symbol o.id hname with
        hold | ⟨rfl, act, hact, hid⟩
      · rcases mem_queue ho with hwaits | ⟨hevent, -⟩
        · exact hs.unnamed symbol o hwaits hold
        · exact (hnew hevent).2 symbol (Or.inl hold)
      · exact id_ne_of_matching hs h.clean hact ho hid
    exclusive := fun id symbol symbol' hid hid' => by
      rcases hcarries hid with hold | ⟨o, hevent, rfl, rfl⟩
      · rcases hcarries hid' with hold' | ⟨o, hevent, rfl, rfl⟩
        · exact hs.exclusive id symbol symbol' hold hold'
        · exact absurd hold ((hnew hevent).2 symbol)
      · rcases hcarries hid' with hold' | ⟨o', hevent', rfl, -⟩
        · exact absurd hold' ((hnew hevent).2 symbol')
        · rw [hevent] at hevent'
          cases hevent'
          rfl }

/-- Whatever calls are under way: the engine holds what an exchange holds that has served the same
calls, with the same answers, and has looked at the same prices. -/
theorem venue_of_run (h : Run CleanStep ⟨e, []⟩ ls s) (he : e.Orderly) :
    Run Venue.Step (e.venue 0) (ls.flatMap Prod.snd) (s.engine.venue s.due) := by
  obtain ⟨v, hrun, rfl, -⟩ := h.simulates
    (fun s v => s.engine.venue s.due = v ∧ s.engine.Orderly) Prod.snd
    (by
      rintro s l t v ⟨rfl, hs⟩ hstep
      exact ⟨_, (hstep.venue hs).2, rfl, hstep.orderly hs⟩)
    ⟨rfl, he⟩
  exact hrun

/-- The same step, executed on fuel. -/
def advanceClean (fuel : ℕ) (s : System) (event : Event) :
    Option ((Event × List Venue.Event) × System) :=
  if ∀ c ∈ event.begun, s.engine.Clean c then
    (s.advance fuel event).bind fun t =>
      match event with
      | .begin c => (s.engine.answer fuel c).map fun a => ((event, [.call c a]), t)
      | .proceed _ =>
        some ((event, (s.checks event).toList.map fun p => .check p.1 p.2), t)
  else none

theorem cleanStep_of_advance {event : Event}
    (h : s.advanceClean fuel event = some (l, t)) : s.CleanStep l t := by
  unfold advanceClean at h
  split_ifs at h with hclean
  obtain ⟨u, hu, hl⟩ := Option.bind_eq_some_iff.mp h
  cases event with
  | begin c =>
    obtain ⟨a, ha, heq⟩ := Option.map_eq_some_iff.mp hl
    obtain ⟨rfl, rfl⟩ := Prod.mk.inj heq
    exact ⟨step_of_advance hu, hclean, fuel, a, ha, rfl⟩
  | proceed i =>
    obtain ⟨rfl, rfl⟩ := Prod.mk.inj (Option.some.inj hl)
    exact ⟨step_of_advance hu, hclean, rfl⟩

/-- A stop order is activated by the trade of another one, which has been executed before a third
one came to rest. -/
theorem venue_of_run_stop : ∃ (ls : List (Event × List Venue.Event)) (s : System),
    (ls.flatMap Prod.snd).length = 5 ∧
      s.engine.executed.map (fun p => (p.2.makerOrderId, p.2.takerOrderId, p.2.quantity)) =
        [("ask", "bid", 2), ("ask", "stop", 3), ("late", "stop", 1)] ∧
      Run Venue.Step ((fresh .empty .plain none).venue 0) (ls.flatMap Prod.snd)
        (s.engine.venue s.due) := by
  let final := Run.exec (advanceClean 5) ⟨fresh .empty .plain none, []⟩
    [.begin (.submit true ⟨"ask", "S", .sell, .limit, 10, 5⟩),
      .begin (.submit true ⟨"stop", "S", .buy, .stopLoss, 10, 4⟩),
      .begin (.submit true ⟨"bid", "S", .buy, .limit, 11, 2⟩),
      .begin (.submit true ⟨"late", "S", .sell, .limit, 10, 1⟩), .proceed 2, .proceed 2]
  have hfinal : final.map (fun p => ((p.1.flatMap Prod.snd).length,
      p.2.engine.executed.map fun p => (p.2.makerOrderId, p.2.takerOrderId, p.2.quantity))) =
        some (5, [("ask", "bid", 2), ("ask", "stop", 3), ("late", "stop", 1)]) := by
    decide +kernel
  obtain ⟨⟨ls, s⟩, hexec, heq⟩ := Option.map_eq_some_iff.mp hfinal
  obtain ⟨hlength, hexecuted⟩ := Prod.mk.inj heq
  exact ⟨ls, s, hlength, hexecuted, venue_of_run
    (Run.of_exec (fun _ _ _ _ => cleanStep_of_advance) hexec)
    (orderly_startWAL .empty .plain none none)⟩

end System

end GoQuant
