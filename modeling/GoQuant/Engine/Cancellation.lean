import GoQuant.Engine.Carriers
import GoQuant.Engine.Twins

/-!
# Cancelled orders

A cancellation asks the books, one after another, and the first one that knows the id takes
every order with that id out of one of its levels. It does not look at the orders that wait for
a trigger. So an order that lives can be cancelled, and stays away for good, exactly if nothing
with its id waits or lives anywhere else.

## Main definitions

* `Alive` — an order with the id rests, or waits for its trigger.
* `Sole` — all that has the id lives at one level of one book, where the id map leads.

## Main results

* `cancelled_iff_sole` — exactly then `cancelOrder` succeeds and the id never comes back.
* `cancelOrder_pending` — a stop order that cannot be cancelled, and trades.
-/

namespace GoQuant

namespace MatchingEngine

variable {e : MatchingEngine} {symbol id : String}

/-- An order with the id rests in a book, or waits for its trigger. -/
def Alive (e : MatchingEngine) (id : String) : Prop :=
  (∃ symbol r, (e.book symbol).Rests r ∧ (e.mem.order r).id = id) ∨
    ∃ symbol, ∃ o ∈ e.waiting symbol, o.id = id

/-- No order that waits has the id, one book alone carries it, and all its orders with the id
are at the level of the order that the id map leads to. -/
def Sole (e : MatchingEngine) (id : String) : Prop :=
  (∀ symbol, ∀ o ∈ e.waiting symbol, o.id ≠ id) ∧
    ∃ symbol r, (e.book symbol).orderMap.lookup id = some r ∧
      (∀ s, s ≠ symbol → ¬ (e.book s).Names e.mem id) ∧
      ∀ r', (e.book symbol).Rests r' → (e.mem.order r').id = id →
        (e.mem.order r').side = (e.mem.order r).side ∧
          (e.mem.order r').price = (e.mem.order r).price

/-- Only symbols that have a book, or pending orders, need to be looked at. -/
theorem sole_iff : e.Sole id ↔
    (∀ symbol ∈ e.triggerOrders.keys, ∀ o ∈ e.waiting symbol, o.id ≠ id) ∧
      ∃ symbol ∈ e.orderBooks.keys, ∃ r ∈ (e.book symbol).orderMap.lookup id,
        (∀ s ∈ e.orderBooks.keys, s ≠ symbol → ¬ (e.book s).Names e.mem id) ∧
        ∀ r' ∈ (e.book symbol).resting, (e.mem.order r').id = id →
          (e.mem.order r').side = (e.mem.order r).side ∧
            (e.mem.order r').price = (e.mem.order r).price := by
  have hbooks {symbol : String} (h : (e.book symbol).Names e.mem id) :
      symbol ∈ e.orderBooks.keys := by
    by_contra hnone
    rw [book, AList.lookup_eq_none.mpr hnone] at h
    exact OrderBook.not_names_empty _ _ _ h
  have hlists {symbol : String} {o : Order} (h : o ∈ e.waiting symbol) :
      symbol ∈ e.triggerOrders.keys := by
    by_contra hnone
    rw [waiting, pending, AList.lookup_eq_none.mpr hnone] at h
    exact absurd h List.not_mem_nil
  constructor
  · rintro ⟨hwaits, symbol, r, hr, hnowhere, hlevel⟩
    exact ⟨fun s _ => hwaits s, symbol,
      hbooks (Or.inl (Option.isSome_iff_exists.mpr ⟨r, hr⟩)), r, hr, fun s _ => hnowhere s,
      fun r' hrests => hlevel r' (OrderBook.mem_resting.mp hrests)⟩
  · rintro ⟨hwaits, symbol, -, r, hr, hnowhere, hlevel⟩
    exact ⟨fun s o ho => hwaits s (hlists ho) o ho, symbol, r, hr,
      fun s hne hcarried => hnowhere s (hbooks hcarried) hne hcarried,
      fun r' hrests => hlevel r' (OrderBook.mem_resting.mpr hrests)⟩

instance (e : MatchingEngine) (id : String) : Decidable (e.Sole id) :=
  decidable_of_iff' _ sole_iff

/-- A cancellation succeeds and leaves nothing behind exactly if all is in one place. -/
theorem cancelOrderUnlocked_iff_sole (ha : e.PendingApart) (hs : e.Books Sane) :
    (e.cancelOrder id).1 = true ∧ (∀ symbol, ¬ (e.cancelOrderUnlocked id).2.Carries symbol id) ↔
      e.Sole id := by
  have hwaiting (s : String) : (e.cancelOrderUnlocked id).2.waiting s = e.waiting s :=
    ha.waiting (.cancelOrderUnlocked e id) (cancelOrderUnlocked_pending e id s)
  rw [cancelOrder_fst]
  obtain hnone | ⟨symbol, b, hcancel, u, hsome, hsame, -⟩ := cancelOrderUnlocked_cases e id
  · -- no book knows the id
    refine iff_of_false (fun h => ?_) ?_
    · rw [hnone] at h
      cases h.1
    · rintro ⟨-, s, r, hr, -⟩
      have hunknown := cancelOrderUnlocked_none (congrArg Prod.fst hnone) s
      rw [OrderBook.hasOrder, hr] at hunknown
      cases hunknown
  · rw [hsome] at hwaiting ⊢
    have hknown : (e.book symbol).hasOrder id = true := by
      rw [← OrderBook.cancelOrder_fst _ e.mem, hcancel]
    obtain ⟨r, hr⟩ := Option.isSome_iff_exists.mp hknown
    have hmem : u.mem = e.mem := hsame.mem
    have hself : u.book symbol = b := (hsame.book symbol).trans (book_setBook_self e b)
    have hothers {s : String} (hne : s ≠ symbol) : u.book s = e.book s :=
      (hsame.book s).trans (book_setBook_of_ne e b hne)
    have hnames := OrderBook.names_cancelOrder (hs symbol) hr
    rw [hcancel] at hnames
    constructor
    · rintro ⟨-, hgone⟩
      refine ⟨fun s o ho hid => ?_, symbol, r, hr, fun s hne hcarried => ?_,
        fun r' hrests hid => ?_⟩
      · exact hgone s (Or.inr ⟨o, (hwaiting s).symm ▸ ho, hid⟩)
      · refine hgone s (Or.inl ?_)
        rwa [hmem, hothers hne]
      · by_contra hne
        refine hgone symbol (Or.inl ?_)
        rw [hmem, hself]
        exact hnames.mpr ⟨r', hrests, hid, hne⟩
    · rintro ⟨hwaits, s, r₀, hr₀, hnowhere, hlevel⟩
      have hsymbol : symbol = s := by
        by_contra hne
        exact hnowhere symbol hne (Or.inl hknown)
      subst hsymbol
      obtain rfl : r₀ = r := Option.some.inj (hr₀.symm.trans hr)
      refine ⟨rfl, fun s hcarried => ?_⟩
      rcases hcarried with hcarried | ⟨o, ho, hid⟩
      · by_cases hne : s = symbol
        · subst hne
          rw [hmem, hself] at hcarried
          obtain ⟨r', hrests, hid, hdiffers⟩ := hnames.mp hcarried
          exact hdiffers (hlevel r' hrests hid)
        · rw [hmem, hothers hne] at hcarried
          exact hnowhere s hne hcarried
      · exact hwaits s o (hwaiting s ▸ ho) hid

end MatchingEngine

namespace System

open MatchingEngine

variable {s t u : System} {events events' : List Event} {id : String}

/-- The id is not submitted. -/
def NotSubmitted (id : String) (events : List Event) : Prop :=
  ∀ o, Event.begin (.submit true o) ∈ events → o.id ≠ id

/-- The id is nowhere in the engine, and on no trade that was executed since. -/
def Gone (id : String) (s u : System) : Prop :=
  (∀ symbol, ¬ u.engine.Carries symbol id) ∧
    ∃ ts, u.engine.executed = s.engine.executed ++ ts ∧ ∀ p ∈ ts, id ∉ p.2.ids

/-- An id that is gone stays so while nobody submits it. -/
theorem gone_of_run (hrun : Run Step t events u) (ha : t.engine.PendingApart)
    (hs : t.engine.Books Sane) (hgone : ∀ symbol, ¬ t.engine.Carries symbol id)
    (hnew : NotSubmitted id events) : Gone id t u := by
  suffices h : (u.engine.PendingApart ∧ u.engine.Books Sane) ∧
      (NotSubmitted id events → Gone id t u) from h.2 hnew
  refine hrun.history (fun events u => (u.engine.PendingApart ∧ u.engine.Books Sane) ∧
    (NotSubmitted id events → Gone id t u)) ⟨⟨ha, hs⟩, fun _ => ⟨hgone, [], by simp, by simp⟩⟩ ?_
  rintro events u event v ⟨⟨ha, hs⟩, ih⟩ hstep
  refine ⟨pendingApart_sections.step ⟨ha, hs⟩ hstep, fun hnew => ?_⟩
  obtain ⟨hgone, ts, hts, hids⟩ := ih fun o ho => hnew o (List.mem_append_left _ ho)
  have hother {symbol : String} (h : u.engine.Carries symbol id ∨
      ∃ o, event = .begin (.submit true o) ∧ o.symbol = symbol ∧ o.id = id) : False := by
    rcases h with hold | ⟨o, rfl, -, hid⟩
    · exact hgone symbol hold
    · exact hnew o (List.mem_append_right _ (List.mem_singleton_self _)) hid
  refine ⟨fun symbol hcarried => hother (carries_step ha hs hstep hcarried), ?_⟩
  obtain ⟨ts', hts', hids'⟩ := executed_step ha hs hstep
  refine ⟨ts ++ ts', by rw [hts', hts, List.append_assoc], fun p hp hid => ?_⟩
  rcases List.mem_append.mp hp with hp | hp
  · exact hids p hp hid
  · exact hother (hids' p hp id hid)

/-- **An order is cancelled for good exactly if all that has its id is at one level of one book.**
While calls are under way, a trade counts when it is executed. -/
theorem cancelled_iff_sole {mem : Memory} {hashOrder : HashOrder} {feeModel : Option FeeModel}
    {file : Option (List Json)}
    (hrun : Run Step ⟨((fresh mem hashOrder feeModel).startWAL file).2, []⟩ events s) :
    ((s.engine.cancelOrder id).1 = true ∧ ∀ t events' u, s.Step (.begin (.cancel id)) t →
      Run Step t events' u → NotSubmitted id events' → Gone id t u) ↔ s.engine.Sole id := by
  obtain ⟨ha, hs⟩ := pendingApart_sections.run hrun (pendingApart_fresh mem hashOrder feeModel file)
  have hstep : s.Step (.begin (.cancel id)) ⟨(s.engine.cancelOrderUnlocked id).2,
      s.calls ++ [(s.engine.cancelOrderUnlocked id).1.toList.map .read]⟩ :=
    @Step.begin _ 0 _ _ _ rfl
  rw [← cancelOrderUnlocked_iff_sole ha hs]
  refine and_congr_right fun _ => ⟨fun h => ?_, fun hgone t events' u ht hrun' hnew => ?_⟩
  · exact (h _ [] _ hstep .nil fun o ho => absurd ho List.not_mem_nil).1
  · obtain ⟨ha', hs'⟩ := pendingApart_sections.step ⟨ha, hs⟩ ht
    cases ht with
    | begin hstart =>
      obtain ⟨-, rfl⟩ := Prod.mk.inj (Option.some.inj hstart)
      exact gone_of_run hrun' ha' hs' hgone hnew

/-- An order that rests is cancelled, and does not come back whatever happens. -/
theorem cancelled_iff_sole_resting : ∃ (s : System) (events : List Event),
    Run Step ⟨fresh .empty .plain none, []⟩ events s ∧ s.engine.Alive "bid" ∧
      (s.engine.cancelOrder "bid").1 = true ∧ ∀ t events' u, s.Step (.begin (.cancel "bid")) t →
        Run Step t events' u → NotSubmitted "bid" events' → Gone "bid" t u := by
  let final := Run.exec (fun (s : System) event => (s.advance 3 event).map (event, ·))
    ⟨fresh .empty .plain none, []⟩ [
      .begin (.submit true ⟨"bid", "S", .buy, .limit, 100, 2⟩),
      .begin (.submit true ⟨"ask", "S", .sell, .limit, 101, 5⟩)]
  let seen (s : System) : Bool := decide (s.engine.Sole "bid") &&
    (s.engine.book "S").resting.any fun r => decide ((s.engine.mem.order r).id = "bid")
  have hsome : (final.map fun p => seen p.2) = some true := by decide +kernel
  obtain ⟨⟨events', s⟩, hfinal, hseen⟩ := Option.map_eq_some_iff.mp hsome
  obtain ⟨hsole, hrests⟩ := Bool.and_eq_true_iff.mp hseen
  obtain ⟨r, hr, hid⟩ := List.any_eq_true.mp hrests
  have hrun := run_of_exec hfinal
  refine ⟨s, events', hrun, Or.inl ⟨"S", r, OrderBook.mem_resting.mp hr, of_decide_eq_true hid⟩, ?_⟩
  exact (@cancelled_iff_sole s events' "bid" .empty .plain none none hrun).mpr
    (of_decide_eq_true hsole)

/-- A stop order waits. It cannot be cancelled, and trades when the market moves. -/
theorem cancelOrder_pending : ∃ (s t u : System) (events events' : List Event),
    Run Step ⟨fresh .empty .plain none, []⟩ events s ∧ s.engine.Alive "stop" ∧
      (s.engine.cancelOrder "stop").1 = false ∧ s.Step (.begin (.cancel "stop")) t ∧
      Run Step t events' u ∧ NotSubmitted "stop" events' ∧ ¬ Gone "stop" t u := by
  let stop : Order := ⟨"stop", "S", .buy, .stopLoss, 100, 2⟩
  let first := Run.exec (fun (s : System) event => (s.advance 3 event).map (event, ·))
    ⟨fresh .empty .plain none, []⟩ [.begin (.submit true stop)]
  let events' : List Event := [
    .begin (.submit true ⟨"ask", "S", .sell, .limit, 101, 5⟩),
    .begin (.submit true ⟨"bid", "S", .buy, .market, 0, 3⟩), .proceed 3, .proceed 3]
  let later (s : System) := (s.advance 3 (.begin (.cancel "stop"))).bind fun t =>
    (Run.exec (fun (s : System) event => (s.advance 3 event).map (event, ·)) t events').map
      fun p => (t, p)
  let seen (s t u : System) : Bool :=
    decide ((s.engine.waiting "S" = [stop] ∧ (s.engine.cancelOrder "stop").1 = false) ∧
      t.engine.executed = [] ∧ u.engine.executed.map (·.2.takerOrderId) = ["bid", "stop"])
  have hsome : (first.bind fun p => (later p.2).map fun q => seen p.2 q.1 q.2.2) = some true := by
    decide +kernel
  obtain ⟨⟨events, s⟩, hfirst, hrest⟩ := Option.bind_eq_some_iff.mp hsome
  obtain ⟨⟨t, events'', u⟩, hlater, hseen⟩ := Option.map_eq_some_iff.mp hrest
  obtain ⟨⟨hwaiting, hfalse⟩, hnone, htrades⟩ := of_decide_eq_true hseen
  obtain ⟨t', ht, hexec⟩ := Option.bind_eq_some_iff.mp hlater
  obtain ⟨p, hexec, heq⟩ := Option.map_eq_some_iff.mp hexec
  obtain ⟨rfl, rfl⟩ := Prod.mk.inj heq
  have hstay : NotSubmitted "stop" events'' := by
    rw [Run.exec_events hexec]
    intro o ho
    simp only [events', List.mem_cons, List.not_mem_nil, or_false, Event.begin.injEq,
      Call.submit.injEq, true_and, reduceCtorEq] at ho
    rcases ho with rfl | rfl <;> decide
  refine ⟨s, t', u, events, events'', run_of_exec hfirst, Or.inr ⟨"S", stop, ?_, rfl⟩, hfalse,
    step_of_advance ht, run_of_exec hexec, hstay, ?_⟩
  · rw [hwaiting]
    exact List.mem_singleton_self stop
  · rintro ⟨-, ts, hts, hids⟩
    rw [hnone, List.nil_append] at hts
    have hmem : "stop" ∈ ts.map (·.2.takerOrderId) := by
      rw [← hts, htrades]
      decide
    obtain ⟨q, hq, hid⟩ := List.mem_map.mp hmem
    exact hids q hq (by simp [Trade.ids, hid])

end System

end GoQuant
