import GoQuant.Engine.MarketData
import GoQuant.Engine.Carriers

/-!
# The depth that subscribers see

A call that changes a book reads the visible levels afterwards and publishes them, in two
critical sections. Between these two another call can change the book and publish first. What
is published then is out of date, and the subscribers are wrong unless somebody publishes the
symbol again. Calls that are not interrupted never do this.

## Main definitions

* `System.FreshAt` — no publication is out of date and the last one for its symbol.
* `Current` — the subscribers of a symbol are right, or somebody will publish it again.

## Main results

* `System.depth_of_run` — when all calls have returned, in a run of fresh steps, every
  subscriber holds the visible levels.
* `depth_of_calls` — so he does after every call that is not interrupted.
* `System.depth_stale` — two cancellations that cross.
-/

namespace GoQuant

open MatchingAlgorithm

instance : DecidableEq Depth := fun d d' =>
  decidable_of_iff (d .buy = d' .buy ∧ d .sell = d' .sell)
    ⟨fun h => funext fun s => by cases s <;> simp [h], fun h => by simp [h]⟩

/-- The task reads or publishes the levels of a symbol. -/
def Task.Refreshes (symbol : String) : Task → Prop
  | .read s | .update s _ => s = symbol
  | _ => False

instance (symbol : String) : (task : Task) → Decidable (task.Refreshes symbol)
  | .read s => inferInstanceAs (Decidable (s = symbol))
  | .update s _ => inferInstanceAs (Decidable (s = symbol))
  | .publish _ | .deliver _ _ | .check _ _ => inferInstanceAs (Decidable False)

/-- A call that reports trades of a symbol, or checks its triggers, reads the levels later. -/
def Followed : List Task → Prop
  | [] => True
  | .publish t :: tasks => Task.read t.symbol ∈ tasks ∧ Followed tasks
  | .check symbol _ :: tasks => Task.read symbol ∈ tasks ∧ Followed tasks
  | _ :: tasks => Followed tasks

theorem followed_publish {symbol : String} {trades : List Trade}
    (h : ∀ t ∈ trades, t.symbol = symbol) : Followed (trades.map .publish ++ [.read symbol]) := by
  induction trades with
  | nil => trivial
  | cons t trades ih =>
    obtain ⟨ht, hrest⟩ := List.forall_mem_cons.mp h
    refine ⟨?_, ih hrest⟩
    rw [ht]
    simp

theorem followed_deliver {t : Trade} {callbacks : List Subscriber} {tasks : List Task}
    (h : Followed tasks) : Followed (callbacks.map (.deliver · t) ++ tasks) := by
  induction callbacks with
  | nil => exact h
  | cons cb callbacks ih => exact ih

namespace MatchingEngine

variable {fuel : ℕ} {e e' : MatchingEngine} {symbol s : String} {c : Call} {tasks : List Task}

theorem visible_of_book (h : e'.book symbol = e.book symbol) :
    e'.visible symbol = e.visible symbol := by
  unfold visible
  rw [h]

/-- The first critical section of a call publishes no market data. -/
theorem start_market (h : e.start fuel c = some (tasks, e')) : e.SameMarket e' ∨
    ∃ symbol cb, c = .subscribeToMarketData symbol cb ∧ e' = e.subscribeToMarketData symbol cb := by
  cases c with
  | submit tryAcceptOrder o =>
    refine Or.inl ?_
    have halloc : e.SameMarket (e.alloc o).1 := ⟨rfl, rfl, rfl, rfl⟩
    obtain ⟨-, r, haccept, -⟩ | ⟨-, -, rfl⟩ := start_submit h
    · exact halloc.trans (SameFeeds.acceptOrder haccept).market
    · exact halloc
  | cancel orderId =>
    obtain ⟨-, rfl⟩ := Prod.mk.inj (Option.some.inj h)
    exact Or.inl (SameFeeds.cancelOrderUnlocked e orderId).market
  | modify orderId newQuantity =>
    obtain ⟨-, rfl⟩ := Prod.mk.inj (Option.some.inj h)
    exact Or.inl (SameFeeds.modifyOrderUnlocked e orderId newQuantity).market
  | subscribeToMarketData symbol cb =>
    obtain ⟨-, rfl⟩ := Prod.mk.inj (Option.some.inj h)
    exact Or.inr ⟨symbol, cb, rfl, rfl⟩
  | subscribeToTrades symbol cb =>
    obtain ⟨-, rfl⟩ := Prod.mk.inj (Option.some.inj h)
    exact Or.inl ⟨rfl, rfl, rfl, rfl⟩

/-- A call whose first critical section changes a book reads its levels later. -/
theorem start_visible (hl : e.Labelled) (h : e.start fuel c = some (tasks, e')) :
    Followed tasks ∧ (∀ symbol u, Task.update symbol u ∉ tasks) ∧
      ∀ symbol, e'.visible symbol = e.visible symbol ∨ Task.read symbol ∈ tasks := by
  have hreads (affectedSymbol : Option String) :
      Followed (affectedSymbol.toList.map .read) ∧
        ∀ symbol u, Task.update symbol u ∉ affectedSymbol.toList.map Task.read := by
    cases affectedSymbol <;> simp [Followed]
  cases c with
  | submit tryAcceptOrder o =>
    have hbook {u : MatchingEngine} (hs : (e.alloc o).1.SameBooks u) (symbol : String) :
        u.visible symbol = e.visible symbol := visible_of_book (hs.book symbol)
    obtain ⟨-, r, haccept, ⟨trades, rfl, rfl⟩ | ⟨hnot, rfl⟩⟩ | ⟨-, rfl, rfl⟩ := start_submit h
    · obtain ⟨ts, -, hsymbol, htrades, -⟩ := acceptOrder_executes hl haccept
      obtain rfl := htrades trades rfl
      refine ⟨followed_publish hsymbol, by simp, fun symbol => ?_⟩
      by_cases hne : symbol = o.symbol
      · exact Or.inr (by simp [hne])
      · refine Or.inl (visible_of_book ?_)
        obtain ⟨-, hr, -⟩ | ⟨-, -, hmatches⟩ | ⟨-, ⟨_, hr⟩, -⟩ := acceptOrder_matches haccept
        · cases hr
        · exact hmatches.book_of_ne hne
        · cases hr
    · refine ⟨trivial, by simp, fun symbol => Or.inl ?_⟩
      obtain ⟨-, -, w, hw, -, rfl⟩ | ⟨-, ⟨trades, rfl⟩, -⟩ | ⟨-, -, hw, -⟩ :=
        acceptOrder_matches haccept
      · exact hbook hw symbol
      · exact absurd rfl (hnot trades)
      · exact hbook hw symbol
    · exact ⟨trivial, by simp, fun symbol => Or.inl rfl⟩
  | cancel orderId =>
    have hstart : e.start fuel (.cancel orderId) =
        some ((e.cancelOrderUnlocked orderId).1.toList.map .read,
          (e.cancelOrderUnlocked orderId).2) := rfl
    rw [hstart] at h
    obtain ⟨rfl, rfl⟩ := Prod.mk.inj (Option.some.inj h)
    refine ⟨(hreads _).1, (hreads _).2, fun symbol => ?_⟩
    obtain hnone | ⟨s, b, -, u, hsome, hsame, -⟩ := cancelOrderUnlocked_cases e orderId
    · rw [hnone]
      exact Or.inl rfl
    · rw [hsome]
      by_cases hne : symbol = s
      · exact Or.inr (by simp [hne])
      · exact Or.inl (visible_of_book ((hsame.book symbol).trans (book_setBook_of_ne e b hne)))
  | modify orderId newQuantity =>
    have hstart : e.start fuel (.modify orderId newQuantity) =
        some ((e.modifyOrderUnlocked orderId newQuantity).1.toList.map .read,
          (e.modifyOrderUnlocked orderId newQuantity).2) := rfl
    rw [hstart] at h
    obtain ⟨rfl, rfl⟩ := Prod.mk.inj (Option.some.inj h)
    refine ⟨(hreads _).1, (hreads _).2, fun symbol => ?_⟩
    obtain hnone | ⟨s, mem, b, -, u, hsome, hsame, -⟩ :=
      modifyOrderUnlocked_cases e orderId newQuantity
    · rw [hnone]
      exact Or.inl rfl
    · rw [hsome]
      by_cases hne : symbol = s
      · exact Or.inr (by simp [hne])
      · exact Or.inl (visible_of_book ((hsame.book symbol).trans (book_setBook_of_ne e b hne)))
  | subscribeToMarketData symbol' cb =>
    obtain ⟨rfl, rfl⟩ := Prod.mk.inj (Option.some.inj h)
    exact ⟨trivial, by simp, fun symbol => Or.inl rfl⟩
  | subscribeToTrades symbol' cb =>
    obtain ⟨rfl, rfl⟩ := Prod.mk.inj (Option.some.inj h)
    exact ⟨trivial, by simp, fun symbol => Or.inl rfl⟩

/-- One task publishes market data. -/
theorem perform_market {task : Task} (h : e.perform fuel task = some (tasks, e')) :
    e.SameMarket e' ∨ ∃ symbol u, task = .update symbol u ∧ e' = e.publishUpdate symbol u := by
  cases task with
  | publish t =>
    obtain ⟨-, rfl⟩ := Prod.mk.inj (Option.some.inj h)
    exact Or.inl (.recordTrade e t)
  | deliver cb t =>
    obtain ⟨-, rfl⟩ := Prod.mk.inj (Option.some.inj h)
    exact Or.inl (.deliverTrade e cb t)
  | check symbol price =>
    obtain ⟨u, hu, heq⟩ := Option.map_eq_some_iff.mp h
    obtain ⟨-, rfl⟩ := Prod.mk.inj heq
    exact Or.inl (SameFeeds.checkTriggers hu).market
  | read symbol =>
    obtain ⟨-, rfl⟩ := Prod.mk.inj (Option.some.inj h)
    exact Or.inl (.refl e)
  | update symbol u =>
    obtain ⟨-, rfl⟩ := Prod.mk.inj (Option.some.inj h)
    exact Or.inr ⟨symbol, u, rfl, rfl⟩

/-- One task changes a book, and its call reads the levels later. -/
theorem perform_visible {task : Task} {rest : List Task} (ha : e.PendingApart)
    (h : e.perform fuel task = some (tasks, e')) (hfollowed : Followed (task :: rest)) :
    Followed (tasks ++ rest) ∧
      (∀ symbol u, Task.update symbol u ∈ tasks → u = e.getMarketData symbol 10) ∧
      ∀ symbol, e'.visible symbol = e.visible symbol ∨ Task.read symbol ∈ rest := by
  cases task with
  | publish t =>
    obtain ⟨rfl, rfl⟩ := Prod.mk.inj (Option.some.inj h)
    refine ⟨?_, by simp, fun symbol => ?_⟩
    · rw [List.append_assoc]
      exact followed_deliver ⟨hfollowed.1, hfollowed.2⟩
    · exact Or.inl (visible_of_book ((SameBooks.recordTrade e t).book _))
  | deliver cb t =>
    obtain ⟨rfl, rfl⟩ := Prod.mk.inj (Option.some.inj h)
    exact ⟨hfollowed, by simp, fun symbol => Or.inl rfl⟩
  | check symbol' price =>
    obtain ⟨u, hu, heq⟩ := Option.map_eq_some_iff.mp h
    obtain ⟨rfl, rfl⟩ := Prod.mk.inj heq
    refine ⟨hfollowed.2, by simp, fun symbol => ?_⟩
    by_cases hne : symbol = symbol'
    · exact Or.inr (hne ▸ hfollowed.1)
    · obtain ⟨w, remaining, hmatches, hsame, -⟩ := checkTriggers_matches hu ha
      exact Or.inl (visible_of_book ((hsame.book symbol).trans (hmatches.book_of_ne hne)))
  | read symbol' =>
    obtain ⟨rfl, rfl⟩ := Prod.mk.inj (Option.some.inj h)
    refine ⟨hfollowed, fun symbol u hu => ?_, fun symbol => Or.inl rfl⟩
    cases List.mem_singleton.mp hu
    rfl
  | update symbol' u =>
    obtain ⟨rfl, rfl⟩ := Prod.mk.inj (Option.some.inj h)
    exact ⟨hfollowed, by simp,
      fun symbol => Or.inl (visible_of_book ((SameBooks.publishUpdate e symbol' u).book symbol))⟩

end MatchingEngine

namespace System

open MatchingEngine

variable {s t u : System} {event : Event} {events events' : List Event} {symbol : String}
  {cb : Subscriber} {messages : List MarketDataUpdate}

/-- What is left to be done after the next task of a call. -/
def tasksAfter (s : System) (i : ℕ) : List Task :=
  (s.calls.set i ((s.calls[i]?.getD []).tail)).flatten

/-- The next step does not publish levels that are out of date, unless somebody else is going to
publish the symbol again. -/
def FreshAt (s : System) : Event → Prop
  | .begin _ => True
  | .proceed i =>
    match s.head? i with
    | some (.update symbol u) =>
      u.levels = s.engine.visible symbol ∨ ∃ task ∈ s.tasksAfter i, task.Refreshes symbol
    | _ => True

instance (s : System) (event : Event) : Decidable (s.FreshAt event) := by
  unfold FreshAt
  split
  · infer_instance
  · split <;> infer_instance

/-- A step that publishes nothing out of date for good. -/
def FreshStep (s : System) (event : Event) (t : System) : Prop := s.Step event t ∧ s.FreshAt event

/-- What holds of the publications under way, whether they are out of date or not. -/
structure Prepared (s : System) : Prop where
  apart : s.engine.PendingApart ∧ s.engine.Books Sane
  labelled : s.engine.Labelled
  sorted : ∀ symbol, (s.engine.lastPublished symbol).Sorted
  updates : ∀ symbol u, Task.update symbol u ∈ s.tasks →
    u.symbol = symbol ∧ u.levels.Sorted ∧ u.ShowsBest u.levels
  followed : ∀ tasks ∈ s.calls, Followed tasks

/-- The tasks of a call that goes on are replaced. -/
theorem mem_calls_set {i : ℕ} {tasks tasks' : List Task} (h : tasks ∈ s.calls.set i tasks') :
    tasks ∈ s.calls ∨ tasks = tasks' := List.mem_or_eq_of_mem_set h

theorem Prepared.step (h : s.Prepared) (hstep : s.Step event t) : t.Prepared := by
  obtain ⟨ha, hs⟩ := h.apart
  refine ⟨pendingApart_sections.step h.apart hstep, labelled_sections.step h.labelled hstep,
    fun symbol => ?_, fun symbol u hu => ?_, fun tasks htasks => ?_⟩
  · have hkeep {e : MatchingEngine} (hlast : e.lastMarketSnapshot = s.engine.lastMarketSnapshot) :
        (e.lastPublished symbol).Sorted := by
      rw [lastPublished, hlast]
      exact h.sorted symbol
    cases hstep with
    | begin hstart =>
      rcases start_market hstart with hsame | ⟨symbol', cb, -, rfl⟩
      · exact hkeep hsame.last
      · exact hkeep rfl
    | @proceed fuel i task rest tasks e hcall hperform =>
      rcases perform_market hperform with hsame | ⟨symbol', u, rfl, rfl⟩
      · exact hkeep hsame.last
      · have hmem : Task.update symbol' u ∈ s.tasks :=
          List.mem_flatten.mpr ⟨_, List.mem_of_getElem? hcall, List.mem_cons_self⟩
        obtain ⟨-, hsorted, -⟩ := h.updates symbol' u hmem
        have hpublishes := publishUpdate_publishes s.engine symbol' u
        by_cases hne : symbol = symbol'
        · subst hne
          rw [hpublishes.lastPublished_self (h.sorted symbol) hsorted]
          exact hsorted
        · rw [hpublishes.lastPublished_of_ne hne]
          exact h.sorted symbol
  · cases hstep with
    | begin hstart =>
      rw [tasks_begin, List.mem_append] at hu
      exact hu.elim (h.updates symbol u)
        fun hnew => absurd hnew ((start_visible h.labelled hstart).2.1 symbol u)
    | @proceed fuel i task rest tasks e hcall hperform =>
      obtain ⟨others, hold, hnew⟩ := tasks_proceed hcall e tasks
      rw [hnew.mem_iff, List.mem_append] at hu
      rcases hu with hu | hu
      · have hfollowed := h.followed _ (List.mem_of_getElem? hcall)
        obtain rfl := (perform_visible ha hperform hfollowed).2.1 symbol u hu
        refine ⟨by rw [getMarketData_eq], ?_, ?_⟩
        · rw [levels_getMarketData]
          exact hs.sorted_visible symbol
        · rw [levels_getMarketData]
          exact showsBest_getMarketData s.engine symbol
      · exact h.updates symbol u (hold.mem_iff.mpr (List.mem_cons_of_mem _ hu))
  · cases hstep with
    | begin hstart =>
      rcases List.mem_append.mp htasks with hold | hnew
      · exact h.followed tasks hold
      · rw [List.mem_singleton.mp hnew]
        exact (start_visible h.labelled hstart).1
    | @proceed fuel i task rest tasks' e hcall hperform =>
      rcases mem_calls_set htasks with hold | rfl
      · exact h.followed tasks hold
      · exact (perform_visible ha hperform (h.followed _ (List.mem_of_getElem? hcall))).1

/-- The subscribers of a symbol are right, or somebody will publish it again. -/
def Current (s : System) (symbol : String) : Prop :=
  s.engine.lastPublished symbol = s.engine.visible symbol ∨ ∃ task ∈ s.tasks, task.Refreshes symbol

/-- A task that does not refresh the symbol. -/
theorem Current.proceed {i : ℕ} {task : Task} {rest tasks : List Task} {e : MatchingEngine}
    (h : s.Current symbol) (hcall : s.calls[i]? = some (task :: rest))
    (hlast : e.lastPublished symbol = s.engine.lastPublished symbol)
    (hvisible : e.visible symbol = s.engine.visible symbol ∨ Task.read symbol ∈ rest)
    (hother : ¬ task.Refreshes symbol) :
    Current ⟨e, s.calls.set i (tasks ++ rest)⟩ symbol := by
  obtain ⟨others, hold, hnew⟩ := tasks_proceed hcall e tasks
  rcases h with h | ⟨task', hmem, hrefreshes⟩
  · rcases hvisible with hvisible | hread
    · exact Or.inl (hlast.trans (h.trans hvisible.symm))
    · refine Or.inr ⟨.read symbol, ?_, rfl⟩
      obtain ⟨hi, -⟩ := List.getElem?_eq_some_iff.mp hcall
      exact List.mem_flatten.mpr ⟨_, List.mem_set hi _, List.mem_append_right _ hread⟩
  · rcases List.mem_cons.mp (hold.mem_iff.mp hmem) with rfl | hmem
    · exact absurd hrefreshes hother
    · exact Or.inr ⟨task', hnew.mem_iff.mpr (List.mem_append_right _ hmem), hrefreshes⟩

theorem current_step (hp : s.Prepared) (h : s.Current symbol) (hstep : s.FreshStep event t) :
    t.Current symbol := by
  obtain ⟨hstep, hfresh⟩ := hstep
  obtain ⟨ha, hs⟩ := hp.apart
  cases hstep with
  | @begin fuel c tasks e hstart =>
    have htasks := tasks_begin s e tasks
    rcases h with h | ⟨task, hmem, hrefreshes⟩
    · rcases (start_visible hp.labelled hstart).2.2 symbol with hvisible | hread
      · refine Or.inl ?_
        have hlast : e.lastPublished symbol = s.engine.lastPublished symbol := by
          rcases start_market hstart with hsame | ⟨symbol', cb, -, rfl⟩
          · rw [lastPublished, hsame.last]
            rfl
          · rfl
        exact hlast.trans (h.trans hvisible.symm)
      · exact Or.inr ⟨.read symbol, htasks ▸ List.mem_append_right _ hread, rfl⟩
    · exact Or.inr ⟨task, htasks ▸ List.mem_append_left _ hmem, hrefreshes⟩
  | @proceed fuel i task rest tasks e hcall hperform =>
    obtain ⟨-, -, hvisible⟩ :=
      perform_visible ha hperform (hp.followed _ (List.mem_of_getElem? hcall))
    have hsame (hsame : s.engine.SameMarket e) :
        e.lastPublished symbol = s.engine.lastPublished symbol := by
      rw [lastPublished, hsame.last]
      rfl
    cases task with
    | publish trade =>
      obtain ⟨-, rfl⟩ := Prod.mk.inj (Option.some.inj hperform)
      exact h.proceed hcall (hsame (.recordTrade _ trade)) (hvisible symbol) id
    | deliver cb trade =>
      obtain ⟨-, rfl⟩ := Prod.mk.inj (Option.some.inj hperform)
      exact h.proceed hcall rfl (hvisible symbol) id
    | check symbol' price =>
      obtain ⟨u, hu, heq⟩ := Option.map_eq_some_iff.mp hperform
      obtain ⟨-, rfl⟩ := Prod.mk.inj heq
      exact h.proceed hcall (hsame (SameFeeds.checkTriggers hu).market) (hvisible symbol) id
    | read symbol' =>
      obtain ⟨rfl, rfl⟩ := Prod.mk.inj (Option.some.inj hperform)
      by_cases hne : symbol' = symbol
      · subst hne
        obtain ⟨others, -, hnew⟩ := tasks_proceed hcall s.engine
          [.update symbol' (s.engine.getMarketData symbol' 10)]
        exact Or.inr ⟨.update symbol' (s.engine.getMarketData symbol' 10),
          hnew.mem_iff.mpr List.mem_cons_self, rfl⟩
      · exact h.proceed hcall rfl (hvisible symbol) hne
    | update symbol' u =>
      obtain ⟨rfl, rfl⟩ := Prod.mk.inj (Option.some.inj hperform)
      have hpublishes := publishUpdate_publishes s.engine symbol' u
      by_cases hne : symbol' = symbol
      · subst hne
        simp only [FreshAt, head?_of_calls hcall] at hfresh
        rcases hfresh with hfresh | hagain
        · refine Or.inl ?_
          have hmem : Task.update symbol' u ∈ s.tasks :=
            List.mem_flatten.mpr ⟨_, List.mem_of_getElem? hcall, List.mem_cons_self⟩
          have hbook := visible_of_book ((SameBooks.publishUpdate s.engine symbol' u).book symbol')
          rw [hbook, ← hfresh]
          exact hpublishes.lastPublished_self (hp.sorted symbol') (hp.updates symbol' u hmem).2.1
        · rw [tasksAfter, hcall] at hagain
          exact Or.inr hagain
      · exact h.proceed hcall (hpublishes.lastPublished_of_ne (Ne.symm hne)) (hvisible symbol) hne

/-- Who follows before a step follows after it. -/
theorem follows_step (hp : s.Prepared) (h : Follows cb symbol messages s.engine)
    (hstep : s.Step event t) : ∃ messages', t.engine.received cb symbol =
        s.engine.received cb symbol ++ messages' ∧
      Follows cb symbol (messages ++ messages') t.engine := by
  have hidle {e : MatchingEngine} (hreceived : e.received cb symbol = s.engine.received cb symbol)
      (hfollows : Follows cb symbol messages e) : ∃ messages', e.received cb symbol =
        s.engine.received cb symbol ++ messages' ∧ Follows cb symbol (messages ++ messages') e :=
    ⟨[], by rw [hreceived, List.append_nil], by rwa [List.append_nil]⟩
  have hsame {e : MatchingEngine} (hs : s.engine.SameMarket e) : ∃ messages',
      e.received cb symbol = s.engine.received cb symbol ++ messages' ∧
        Follows cb symbol (messages ++ messages') e := by
    refine hidle ?_ (h.of_same hs)
    rw [received, hs.updates]
    rfl
  cases hstep with
  | begin hstart =>
    rcases start_market hstart with hs | ⟨symbol', cb', -, rfl⟩
    · exact hsame hs
    · exact hidle rfl (h.subscribeToMarketData symbol' cb')
  | proceed hcall hperform =>
    rcases perform_market hperform with hs | ⟨symbol', u, rfl, rfl⟩
    · exact hsame hs
    · obtain ⟨hsymbol, hsorted, hbest⟩ := hp.updates symbol' u
        (List.mem_flatten.mpr ⟨_, List.mem_of_getElem? hcall, List.mem_cons_self⟩)
      by_cases hne : symbol = symbol'
      · subst hne
        exact h.publishUpdate hsymbol (hp.sorted symbol) hsorted hbest
      · obtain ⟨hreceived, hfollows⟩ := h.publishUpdate_of_ne hne hsymbol
        exact hidle hreceived hfollows

theorem prepared_fresh (mem : Memory) (hashOrder : HashOrder) (feeModel : Option FeeModel)
    (file : Option (List Json)) :
    Prepared ⟨((fresh mem hashOrder feeModel).startWAL file).2, []⟩ where
  apart := pendingApart_fresh mem hashOrder feeModel file
  labelled := labelled_startWAL mem hashOrder feeModel file
  sorted symbol s := by cases file <;> exact List.Pairwise.nil
  updates symbol u hu := absurd hu List.not_mem_nil
  followed tasks htasks := absurd htasks List.not_mem_nil

theorem current_fresh (mem : Memory) (hashOrder : HashOrder) (feeModel : Option FeeModel)
    (file : Option (List Json)) (symbol : String) :
    Current ⟨((fresh mem hashOrder feeModel).startWAL file).2, []⟩ symbol := by
  refine Or.inl (funext fun s => ?_)
  cases file <;> cases s <;> rfl

/-- Nothing of this is lost in a run of fresh steps. -/
theorem current_of_run (hrun : Run FreshStep s events t) (hp : s.Prepared)
    (h : ∀ symbol, s.Current symbol) : t.Prepared ∧ ∀ symbol, t.Current symbol := by
  refine hrun.invariant (fun t => t.Prepared ∧ ∀ symbol, t.Current symbol) ⟨hp, h⟩ ?_
  rintro t event u ⟨hp, h⟩ hstep
  exact ⟨hp.step hstep.1, fun symbol => current_step hp (h symbol) hstep⟩

theorem follows_of_run (hrun : Run FreshStep s events t) (hp : s.Prepared)
    (h : Follows cb symbol messages s.engine) : ∃ messages', t.engine.received cb symbol =
        s.engine.received cb symbol ++ messages' ∧
      Follows cb symbol (messages ++ messages') t.engine := by
  suffices hboth : t.Prepared ∧ ∃ messages', t.engine.received cb symbol =
      s.engine.received cb symbol ++ messages' ∧
        Follows cb symbol (messages ++ messages') t.engine from hboth.2
  refine hrun.invariant (fun t => t.Prepared ∧ ∃ messages', t.engine.received cb symbol =
      s.engine.received cb symbol ++ messages' ∧
        Follows cb symbol (messages ++ messages') t.engine)
    ⟨hp, [], (List.append_nil _).symm, by rwa [List.append_nil]⟩ ?_
  rintro t event u ⟨hp, messages₁, hreceived, hfollows⟩ hstep
  obtain ⟨messages₂, hreceived', hfollows'⟩ := follows_step hp hfollows hstep.1
  refine ⟨hp.step hstep.1, messages₁ ++ messages₂, ?_, ?_⟩
  · rw [hreceived', hreceived, List.append_assoc]
  · rw [← List.append_assoc]
    exact hfollows'

/-- Nothing is left to be done. -/
theorem tasks_of_idle (h : s.Idle) : s.tasks = [] := List.flatten_eq_nil_iff.mpr h

/-- When all calls have returned, what was published last is what there is. -/
theorem Current.of_idle (h : s.Current symbol) (hidle : s.Idle) :
    s.engine.lastPublished symbol = s.engine.visible symbol := by
  refine h.resolve_right fun ⟨task, hmem, _⟩ => ?_
  rw [tasks_of_idle hidle] at hmem
  exact absurd hmem List.not_mem_nil

/-- A subscriber takes his snapshot when no call is under way. -/
theorem follows_subscribe (h : s.Current symbol) (hidle : s.Idle)
    (hstep : s.Step (.begin (.subscribeToMarketData symbol cb)) t) :
    t.engine.received cb symbol = s.engine.received cb symbol ∧
      Follows cb symbol [t.engine.getMarketData symbol 10] t.engine := by
  cases hstep with
  | begin hstart =>
    obtain ⟨rfl, rfl⟩ := Prod.mk.inj (Option.some.inj hstart)
    refine ⟨rfl, ?_⟩
    generalize heq : s.engine.subscribeToMarketData symbol cb = e
    have hcurrent : e.visible symbol = e.lastPublished symbol := by
      rw [← heq]
      exact (h.of_idle hidle).symm
    have hlevels := levels_getMarketData e symbol
    have hbest := showsBest_getMarketData e symbol
    rw [hcurrent] at hlevels hbest
    refine ⟨?_, ?_, fun u hu => ?_, List.pairwise_singleton _ _, fun u hu => ?_⟩
    · rw [← heq]
      simp [MatchingEngine.subscribeToMarketData]
    · have hsnapshot : (e.getMarketData symbol 10).type = .snapshot := by rw [getMarketData_eq]
      simp only [held, List.foldl_cons, List.foldl_nil, MarketDataUpdate.applyTo, hsnapshot,
        hlevels]
    · obtain rfl := Option.some.inj hu
      exact hbest
    · rw [List.mem_singleton.mp hu, getMarketData_eq]
      exact Nat.zero_le _

/-- **Whoever has applied all messages of a symbol, in the order of their numbers, holds its
visible levels when all calls have returned**, if every step was fresh. -/
theorem depth_of_run {mem : Memory} {hashOrder : HashOrder} {feeModel : Option FeeModel}
    {file : Option (List Json)}
    (hrun : Run FreshStep ⟨((fresh mem hashOrder feeModel).startWAL file).2, []⟩ events s)
    (hjoins : s.Idle) (hjoin : s.Step (.begin (.subscribeToMarketData symbol cb)) t)
    (hrun' : Run FreshStep t events' u) (hidle : u.Idle) :
    ∃ messages, u.engine.received cb symbol = s.engine.received cb symbol ++ messages ∧
      (t.engine.getMarketData symbol 10 :: messages).Pairwise (fun m m' => m.seqNum ≤ m'.seqNum) ∧
      held (t.engine.getMarketData symbol 10 :: messages) =
        (u.engine.getMarketData symbol 10).levels := by
  obtain ⟨hp, hcurrent⟩ := current_of_run hrun (prepared_fresh mem hashOrder feeModel file)
    (current_fresh mem hashOrder feeModel file)
  obtain ⟨hreceived, hfollows⟩ := follows_subscribe (hcurrent symbol) hjoins hjoin
  have hp' := hp.step hjoin
  obtain ⟨-, hcurrent'⟩ := current_of_run hrun' hp' fun symbol' =>
    current_step hp (hcurrent symbol') ⟨hjoin, trivial⟩
  obtain ⟨messages, hmessages, hfollows'⟩ := follows_of_run hrun' hp' hfollows
  refine ⟨messages, hmessages.trans (congrArg (· ++ messages) hreceived), hfollows'.ordered, ?_⟩
  rw [levels_getMarketData]
  exact hfollows'.held.trans ((hcurrent' symbol).of_idle hidle)

/-- Two cancellations cross, and the one that has read the levels last publishes them last. -/
theorem depth_of_run_crossing : ∃ (t u : System) (events : List Event)
    (messages : List MarketDataUpdate), Run FreshStep t events u ∧ u.Idle ∧
      messages.length = 4 ∧ held (t.engine.getMarketData "S" 10 :: messages) =
        (u.engine.getMarketData "S" 10).levels := by
  let first : System := ⟨fresh .empty .plain none, []⟩
  let joined := first.advance 3 (.begin (.subscribeToMarketData "S" 7))
  let final (t : System) := Run.exec (advanceIf 3 FreshAt) t [
    .begin (.submit true ⟨"a", "S", .sell, .limit, 101, 1⟩), .proceed 1, .proceed 1,
    .begin (.submit true ⟨"b", "S", .sell, .limit, 102, 1⟩), .proceed 2, .proceed 2,
    .begin (.cancel "a"), .proceed 3, .begin (.cancel "b"), .proceed 3, .proceed 4, .proceed 4]
  have hsome : (joined.bind fun t => (final t).map fun p =>
      decide (p.2.Idle ∧ (p.2.engine.received 7 "S").length = 4)) = some true := by decide +kernel
  obtain ⟨t, ht, hrest⟩ := Option.bind_eq_some_iff.mp hsome
  obtain ⟨⟨events', u⟩, hfinal, hseen⟩ := Option.map_eq_some_iff.mp hrest
  obtain ⟨hidle, hlength⟩ := of_decide_eq_true hseen
  have hjoins : first.Idle := fun tasks htasks => absurd htasks List.not_mem_nil
  obtain ⟨messages, hreceived, -, hheld⟩ := @depth_of_run first t u [] events' "S" 7 .empty .plain
    none none .nil hjoins (step_of_advance ht) (run_of_execIf hfinal) hidle
  have hnone : first.engine.received 7 "S" = [] := rfl
  rw [hnone, List.nil_append] at hreceived
  exact ⟨t, u, events', messages, run_of_execIf hfinal, hidle, hreceived ▸ hlength, hheld⟩

/-- Two cancellations cross, and what is published last was read before the other one. -/
theorem depth_stale : ∃ (t u : System) (events : List Event),
    Step ⟨fresh .empty .plain none, []⟩ (.begin (.subscribeToMarketData "S" 7)) t ∧
      Run Step t events u ∧ u.Idle ∧
      (t.engine.getMarketData "S" 10 :: u.engine.received 7 "S").Pairwise
        (fun m m' => m.seqNum ≤ m'.seqNum) ∧
      held (t.engine.getMarketData "S" 10 :: u.engine.received 7 "S") ≠
        (u.engine.getMarketData "S" 10).levels := by
  let first : System := ⟨fresh .empty .plain none, []⟩
  let joined := first.advance 3 (.begin (.subscribeToMarketData "S" 7))
  let final (t : System) :=
    Run.exec (fun (s : System) event => (s.advance 3 event).map (event, ·)) t [
    .begin (.submit true ⟨"a", "S", .sell, .limit, 101, 1⟩), .proceed 1, .proceed 1,
    .begin (.submit true ⟨"b", "S", .sell, .limit, 102, 1⟩), .proceed 2, .proceed 2,
    .begin (.cancel "a"), .proceed 3, .begin (.cancel "b"), .proceed 4, .proceed 4, .proceed 3]
  let seen (t u : System) : Bool := decide (u.Idle) && decide
    ((t.engine.getMarketData "S" 10 :: u.engine.received 7 "S").Pairwise
        (fun m m' => m.seqNum ≤ m'.seqNum) ∧
      held (t.engine.getMarketData "S" 10 :: u.engine.received 7 "S") ≠
        (u.engine.getMarketData "S" 10).levels)
  have hsome : (joined.bind fun t => (final t).map fun p => seen t p.2) = some true := by
    decide +kernel
  obtain ⟨t, ht, hrest⟩ := Option.bind_eq_some_iff.mp hsome
  obtain ⟨⟨events', u⟩, hfinal, hseen⟩ := Option.map_eq_some_iff.mp hrest
  obtain ⟨hidle, hseen⟩ := Bool.and_eq_true_iff.mp hseen
  obtain ⟨hordered, hne⟩ := of_decide_eq_true hseen
  exact ⟨t, u, events', step_of_advance ht, run_of_exec hfinal, of_decide_eq_true hidle, hordered,
    hne⟩

/-! ## Uninterrupted calls -/

/-- Among the tasks of a call, a publication comes first, and is not out of date. -/
def FreshTasks (e : MatchingEngine) (tasks : List Task) : Prop :=
  (∀ symbol u, tasks.head? = some (.update symbol u) → u.levels = e.visible symbol) ∧
    ∀ symbol u, Task.update symbol u ∉ tasks.tail

theorem FreshTasks.of_not_mem {e : MatchingEngine} {tasks : List Task}
    (h : ∀ symbol u, Task.update symbol u ∉ tasks) : FreshTasks e tasks :=
  ⟨fun symbol u hhead => absurd (List.mem_of_head? hhead) (h symbol u),
    fun symbol u hmem => h symbol u (List.mem_of_mem_tail hmem)⟩

/-- A task leaves publications to be done only if it has just read the levels. -/
theorem FreshTasks.perform {fuel : ℕ} {e e' : MatchingEngine} {task : Task}
    {tasks rest : List Task} (h : FreshTasks e (task :: rest))
    (hperform : e.perform fuel task = some (tasks, e')) : FreshTasks e' (tasks ++ rest) := by
  have hrest : ∀ symbol u, Task.update symbol u ∉ rest := h.2
  cases task with
  | publish t =>
    obtain ⟨rfl, rfl⟩ := Prod.mk.inj (Option.some.inj hperform)
    exact .of_not_mem (by simp [hrest])
  | deliver cb t =>
    obtain ⟨rfl, rfl⟩ := Prod.mk.inj (Option.some.inj hperform)
    exact .of_not_mem hrest
  | check symbol price =>
    obtain ⟨u, hu, heq⟩ := Option.map_eq_some_iff.mp hperform
    obtain ⟨rfl, rfl⟩ := Prod.mk.inj heq
    exact .of_not_mem hrest
  | read symbol =>
    obtain ⟨rfl, rfl⟩ := Prod.mk.inj (Option.some.inj hperform)
    refine ⟨fun symbol' u hu => ?_, hrest⟩
    cases Option.some.inj hu
    exact levels_getMarketData e symbol
  | update symbol u =>
    obtain ⟨rfl, rfl⟩ := Prod.mk.inj (Option.some.inj hperform)
    exact .of_not_mem hrest

/-- The last call of a system, performed to its end in fresh steps. -/
theorem Performs.freshRun {fuel : ℕ} {e e' : MatchingEngine} {tasks : List Task}
    (h : Performs fuel tasks e e') (hfresh : FreshTasks e tasks) (calls : List (List Task)) :
    ∃ events, Run FreshStep ⟨e, calls ++ [tasks]⟩ events ⟨e', calls ++ [[]]⟩ := by
  induction h with
  | nil => exact ⟨_, .nil⟩
  | @cons task tasks rest e e' e'' hp _ ih =>
    obtain ⟨events, hrun⟩ := ih (hfresh.perform hp)
    have hcall : (calls ++ [task :: rest])[calls.length]? = some (task :: rest) := by simp
    have hset : (calls ++ [task :: rest]).set calls.length (tasks ++ rest) =
        calls ++ [tasks ++ rest] := by simp
    have hstep : FreshStep ⟨e, calls ++ [task :: rest]⟩ (.proceed calls.length)
        ⟨e', calls ++ [tasks ++ rest]⟩ := by
      refine ⟨hset ▸ .proceed hcall hp, ?_⟩
      have hhead := @head?_of_calls ⟨e, calls ++ [task :: rest]⟩ _ _ _ hcall
      simp only [FreshAt, hhead]
      split
      · rename_i symbol u heq
        exact Or.inl (hfresh.1 symbol u heq)
      · trivial
    exact ⟨_, (Run.one hstep).trans hrun⟩

/-- A call that is not interrupted publishes nothing out of date. -/
theorem freshRun_of_call {fuel : ℕ} {e e' : MatchingEngine} {c : Call}
    (hl : e.Labelled) (h : e.call fuel c = some e') (calls : List (List Task)) :
    ∃ events, Run FreshStep ⟨e, calls⟩ events ⟨e', calls ++ [[]]⟩ := by
  obtain ⟨tasks, u, hstart, hperforms⟩ := exists_performs_of_call h
  obtain ⟨events, hrun⟩ := hperforms.freshRun (.of_not_mem (start_visible hl hstart).2.1) calls
  exact ⟨_, (Run.one ⟨.begin hstart, trivial⟩).trans hrun⟩

end System

namespace System

open MatchingEngine

variable {e u : MatchingEngine} {calls calls' : List Call} {symbol : String} {cb : Subscriber}

/-- Calls one after another are a run of fresh steps. -/
theorem freshRun_of_calls {e₀ : MatchingEngine} (hrun : Run CallStep e₀ calls e)
    (hp : Prepared ⟨e₀, []⟩) : ∃ tasks events, Run FreshStep ⟨e₀, []⟩ events ⟨e, tasks⟩ ∧
      Idle ⟨e, tasks⟩ := by
  suffices h : ∃ tasks events, Run FreshStep ⟨e₀, []⟩ events ⟨e, tasks⟩ ∧ Idle ⟨e, tasks⟩ from h
  refine hrun.invariant (fun e => ∃ tasks events, Run FreshStep ⟨e₀, []⟩ events ⟨e, tasks⟩ ∧
    Idle ⟨e, tasks⟩) ⟨[], [], .nil, fun tasks htasks => absurd htasks List.not_mem_nil⟩ ?_
  rintro e c e' ⟨tasks, events, hrun, hidle⟩ ⟨fuel, hcall⟩
  have hl : e.Labelled := by
    have hprepared := hrun.invariant Prepared hp fun _ _ _ hp hstep => hp.step hstep.1
    exact hprepared.labelled
  obtain ⟨events', hrun'⟩ := freshRun_of_call hl hcall tasks
  refine ⟨tasks ++ [[]], events ++ events', hrun.trans hrun', fun left hleft => ?_⟩
  rcases List.mem_append.mp hleft with hleft | hleft
  · exact hidle left hleft
  · exact List.mem_singleton.mp hleft

/-- **After every call a subscriber holds the visible levels**, whenever he joined, and his last
message shows the best of them. -/
theorem depth_of_calls {mem : Memory} {hashOrder : HashOrder} {feeModel : Option FeeModel}
    {file : Option (List Json)}
    (hrun : Run CallStep ((fresh mem hashOrder feeModel).startWAL file).2 calls e)
    (hrun' : Run CallStep (e.subscribeToMarketData symbol cb) calls' u) :
    ∃ messages, u.received cb symbol = e.received cb symbol ++ messages ∧
      (∀ s, held ((e.subscribeToMarketData symbol cb).getMarketData symbol 10 :: messages) s =
        (u.book symbol).getTop s 10) ∧
      ∀ m ∈ ((e.subscribeToMarketData symbol cb).getMarketData symbol 10 :: messages).getLast?,
        m.ShowsBest fun s => (u.book symbol).getTop s 10 := by
  have hp := prepared_fresh mem hashOrder feeModel file
  obtain ⟨tasks, events, hfresh, hidle⟩ := freshRun_of_calls hrun hp
  obtain ⟨hp', hcurrent⟩ := current_of_run hfresh hp (current_fresh mem hashOrder feeModel file)
  have hjoin : Step ⟨e, tasks⟩ (.begin (.subscribeToMarketData symbol cb))
      ⟨e.subscribeToMarketData symbol cb, tasks ++ [[]]⟩ := @Step.begin _ 0 _ _ _ rfl
  obtain ⟨hreceived, hfollows⟩ := follows_subscribe (hcurrent symbol) hidle hjoin
  -- the calls of the past are forgotten
  have hforget : Prepared ⟨e.subscribeToMarketData symbol cb, []⟩ :=
    { apart := (hp'.step hjoin).apart
      labelled := (hp'.step hjoin).labelled
      sorted := (hp'.step hjoin).sorted
      updates := fun symbol u hu => absurd hu List.not_mem_nil
      followed := fun tasks htasks => absurd htasks List.not_mem_nil }
  obtain ⟨tasks', events', hfresh', hidle'⟩ := freshRun_of_calls hrun' hforget
  obtain ⟨messages, hmessages, hfollows'⟩ := follows_of_run hfresh' hforget hfollows
  have hvisible : u.lastPublished symbol = fun s => (u.book symbol).getTop s 10 := by
    obtain ⟨-, hcurrent'⟩ := current_of_run hfresh' hforget fun symbol' =>
      Or.inl ((hcurrent symbol').of_idle hidle)
    exact (hcurrent' symbol).of_idle hidle'
  refine ⟨messages, hmessages.trans (congrArg (· ++ messages) hreceived), fun s => ?_, ?_⟩
  · rw [List.cons_append, List.nil_append] at hfollows'
    exact (congrFun hfollows'.held s).trans (congrFun hvisible s)
  · exact hvisible ▸ hfollows'.best

/-- A subscriber joins late; a market order and the stop order it activates empty a level. -/
theorem depth_of_calls_stop : ∃ (e u : MatchingEngine) (calls calls' : List Call)
    (messages : List MarketDataUpdate), Run CallStep (fresh .empty .plain none) calls e ∧
      Run CallStep (e.subscribeToMarketData "S" 7) calls' u ∧ messages.length = 1 ∧
      held ((e.subscribeToMarketData "S" 7).getMarketData "S" 10 :: messages) .sell =
        [(103, 1)] := by
  let before := Run.exec (fun (e : MatchingEngine) c => (e.call 3 c).map (c, ·))
    (fresh .empty .plain none) [
      .submit true ⟨"stop", "S", .buy, .stopLoss, 100, 2⟩,
      .submit true ⟨"ask", "S", .sell, .limit, 101, 5⟩,
      .submit true ⟨"far", "S", .sell, .limit, 103, 1⟩]
  let after (e : MatchingEngine) := Run.exec (fun (e : MatchingEngine) c => (e.call 3 c).map (c, ·))
    (e.subscribeToMarketData "S" 7) [.submit true ⟨"bid", "S", .buy, .market, 0, 3⟩]
  let seen (e u : MatchingEngine) : Bool := decide (e.received 7 "S" = [] ∧
    (u.received 7 "S").length = 1 ∧ (u.book "S").getTop .sell 10 = [(103, 1)])
  have hsome : (before.bind fun p => (after p.2).map fun q => seen p.2 q.2) = some true := by
    decide +kernel
  obtain ⟨⟨calls, e⟩, hbefore, hrest⟩ := Option.bind_eq_some_iff.mp hsome
  obtain ⟨⟨calls', u⟩, hafter, hseen⟩ := Option.map_eq_some_iff.mp hrest
  obtain ⟨hnone, hlength, htop⟩ := of_decide_eq_true hseen
  have hrun := calls_of_exec hbefore
  have hrun' := calls_of_exec hafter
  obtain ⟨messages, hreceived, hheld, -⟩ :=
    @depth_of_calls e u calls calls' "S" 7 .empty .plain none none hrun hrun'
  rw [hnone, List.nil_append] at hreceived
  exact ⟨e, u, calls, calls', messages, hrun, hrun', hreceived ▸ hlength, (hheld .sell).trans htop⟩

end System

end GoQuant
