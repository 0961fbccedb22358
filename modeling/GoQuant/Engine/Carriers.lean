import GoQuant.Engine.Matches

/-!
# Who carries an id

An id is carried by a book, or by an order that waits for its trigger. A step of the system
brings no id to a symbol but the one of the order it submits, and the trades it executes name
only ids that the symbol carried, and that one.

## Main definitions

* `Carries` — a symbol carries an id.
* `System.matching`, `System.queue` — what a step matches, and what it makes of the pending
  trigger orders.

## Main results

* `System.step_effect`, `System.step_waiting` — one lemma for all steps.
* `System.carries_step`, `System.executed_step` — the ids that are carried, and named by trades.
-/

namespace GoQuant

open MatchingAlgorithm

namespace MatchingEngine

variable {fuel : ℕ} {e e' e'' : MatchingEngine} {symbol orderId id : String} {newQuantity price : ℚ}
  {o : Order} {os : List Order} {tasks : List Task}

/-- An id is carried by the book of a symbol, or by an order that waits there. -/
def Carries (e : MatchingEngine) (symbol id : String) : Prop :=
  (e.book symbol).Names e.mem id ∨ ∃ o ∈ e.waiting symbol, o.id = id

instance (e : MatchingEngine) (symbol id : String) : Decidable (e.Carries symbol id) := by
  unfold Carries; infer_instance

/-- A symbol that carries an id has a book, or a list of pending orders. -/
theorem Carries.mem_keys (h : e.Carries symbol id) :
    symbol ∈ e.orderBooks.keys ∨ symbol ∈ e.triggerOrders.keys := by
  rcases h with h | ⟨o, ho, -⟩
  · refine Or.inl ?_
    rw [← AList.mem_keys, ← AList.lookup_isSome]
    unfold book at h
    cases hs : e.orderBooks.lookup symbol with
    | none =>
      rw [hs] at h
      exact absurd h (OrderBook.not_names_empty _ _ _)
    | some b => rfl
  · refine Or.inr ?_
    rw [← AList.mem_keys, ← AList.lookup_isSome]
    unfold waiting pending at ho
    cases hs : e.triggerOrders.lookup symbol with
    | none => simp [hs] at ho
    | some vec => rfl

/-- What matching orders against the book of a symbol does to the ids. -/
structure Effect (symbol : String) (os : List Order) (e e' : MatchingEngine) : Prop where
  names : ∀ s id, (e'.book s).Names e'.mem id →
    (e.book s).Names e.mem id ∨ s = symbol ∧ ∃ o ∈ os, o.id = id
  executes : ∃ ts : List Trade, e'.executed = e.executed ++ ts.map (symbol, ·) ∧ ∀ t ∈ ts,
    (∃ o ∈ os, o.id = t.takerOrderId) ∧
      ((e.book symbol).Names e.mem t.makerOrderId ∨ ∃ o ∈ os, o.id = t.makerOrderId)

namespace Effect

theorem of_same (hs : e.SameBooks e') (hx : e'.executed = e.executed) : Effect symbol [] e e' where
  names s id hid := by
    rw [hs.mem, hs.book] at hid
    exact Or.inl hid
  executes := ⟨[], by simpa using hx, by simp⟩

/-- Something happens afterwards that leaves the books alone. -/
theorem then_same (h : Effect symbol os e e') (hs : e'.SameBooks e'')
    (hx : e''.executed = e'.executed) : Effect symbol os e e'' where
  names s id hid := by
    rw [hs.mem, hs.book] at hid
    exact h.names s id hid
  executes := by
    rw [hx]
    exact h.executes

theorem alloc (hs : e.Books Sane) (o : Order) : Effect symbol [] e (e.alloc o).1 where
  names s id hid := Or.inl ((OrderBook.names_of_extends (hs s) (.alloc e.mem o)).mp hid)
  executes := ⟨[], (List.append_nil _).symm, by simp⟩

theorem of_matches (h : Matches symbol os e e') (hs : e.Books Sane) : Effect symbol os e e' where
  names s id hid := by
    by_cases hsymbol : s = symbol
    · subst hsymbol
      exact (h.names hs hid).imp_right fun ho => ⟨rfl, ho⟩
    · rw [h.book_of_ne hsymbol] at hid
      exact Or.inl ((OrderBook.names_of_extends (hs s) h.extends_mem).mp hid)
  executes := by
    obtain ⟨ts, hts, hids⟩ := h.executes hs
    exact ⟨ts, hts.executed, hids⟩

/-- A book that only forgets orders. -/
theorem shrink {s : String} {mem : Memory} {b : OrderBook} (hs : e.Books Sane)
    (hext : e.mem.Extends mem) (hsh : (e.book s).Shrinks b)
    (hsame : { e.setBook s b with mem := mem }.SameBooks e') (hx : e'.executed = e.executed) :
    Effect symbol [] e e' where
  names s' id hid := by
    rw [hsame.mem, hsame.book] at hid
    refine Or.inl ?_
    by_cases hsymbol : s' = s
    · subst hsymbol
      rw [book_replace_self] at hid
      exact hid.of_shrinks (hs s') hext hsh
    · rw [book_replace_of_ne _ _ _ hsymbol] at hid
      exact (OrderBook.names_of_extends (hs s') hext).mp hid
  executes := ⟨[], by simpa using hx, by simp⟩

theorem cancelOrderUnlocked (hs : e.Books Sane) (orderId : String) :
    Effect symbol [] e (e.cancelOrderUnlocked orderId).2 := by
  have hx := (@Executes.cancelOrderUnlocked symbol e orderId).executed
  obtain hnone | ⟨s, b, hcancel, u, hsome, hsame, -⟩ := cancelOrderUnlocked_cases e orderId
  · rw [hnone]
    exact of_same (.refl e) rfl
  · rw [hsome] at hx ⊢
    have hshrinks := OrderBook.cancelOrder_shrinks e.mem (e.book s) orderId
    rw [hcancel] at hshrinks
    exact shrink hs (.refl e.mem) hshrinks hsame (by simpa using hx)

theorem modifyOrderUnlocked (hs : e.Books Sane) (orderId : String) (newQuantity : ℚ) :
    Effect symbol [] e (e.modifyOrderUnlocked orderId newQuantity).2 := by
  have hx := (@Executes.modifyOrderUnlocked symbol e orderId newQuantity).executed
  obtain hnone | ⟨s, mem, b, hm, u, hsome, hsame, -⟩ :=
    modifyOrderUnlocked_cases e orderId newQuantity
  · rw [hnone]
    exact of_same (.refl e) rfl
  · rw [hsome] at hx ⊢
    exact shrink hs (OrderBook.modifyOrder_extends _ _ _ _ hm)
      (OrderBook.modifyOrder_shrinks _ _ _ _ hm) hsame (by simpa using hx)

end Effect

theorem recordTrade_executed (e : MatchingEngine) (trade : Trade) :
    (e.recordTrade trade).2.2.executed = e.executed := by
  unfold recordTrade
  exact ((@Executes.writeWAL trade.symbol _ _).executed).trans (List.append_nil _)

end MatchingEngine

namespace System

open MatchingEngine

variable {s t : System} {event : Event} {symbol id : String}

/-- The orders that a step matches, and the symbol of the book. -/
def matching (s : System) : Event → String × List Order
  | .begin (.submit true o) => (o.symbol, if o.type.isTrigger then [] else [o])
  | .begin _ => ("", [])
  | .proceed i =>
    match s.head? i with
    | some (.check symbol price) => (symbol, s.engine.activations symbol price)
    | _ => ("", [])

/-- The trigger orders that wait for a symbol after a step. -/
def queue (s : System) (symbol : String) : Event → List Order
  | .begin (.submit true o) =>
    if o.type.isTrigger ∧ o.symbol = symbol then s.engine.waiting symbol ++ [o]
    else s.engine.waiting symbol
  | .begin _ => s.engine.waiting symbol
  | .proceed i =>
    match s.head? i with
    | some (.check symbol' price) =>
      if symbol' = symbol then (s.engine.waiting symbol).filter fun o => !triggered o price
      else s.engine.waiting symbol
    | _ => s.engine.waiting symbol

theorem start_effect {fuel : ℕ} {e e' : MatchingEngine} {c : Call} {tasks : List Task}
    (hs : e.Books Sane) (h : e.start fuel c = some (tasks, e')) (calls : List (List Task)) :
    Effect (matching ⟨e, calls⟩ (.begin c)).1 (matching ⟨e, calls⟩ (.begin c)).2 e e' := by
  cases c with
  | submit tryAcceptOrder o =>
    have hmatching {r : Except String (Option (List Trade))} {u : MatchingEngine}
        (ha : (e.alloc o).1.acceptOrder fuel (e.alloc o).2 = some (r, u)) :
        Effect o.symbol (if o.type.isTrigger then [] else [o]) e u := by
      obtain ⟨htype, -, w, hsame, hx, rfl⟩ | ⟨htype, -, hmatches⟩ | ⟨htype, -, hsame, hx⟩ :=
        acceptOrder_matches ha
      · rw [if_pos htype]
        have hw : Effect o.symbol [] e w :=
          (Effect.alloc hs o).then_same hsame (hx.executed.trans (List.append_nil _))
        exact ⟨hw.names, hw.executes⟩
      · rw [if_neg htype]
        exact .of_matches hmatches hs
      · have hu : Effect o.symbol [] e u :=
          (Effect.alloc hs o).then_same hsame (hx.executed.trans (List.append_nil _))
        exact ⟨fun s id hid => (hu.names s id hid).imp_right fun ⟨_, o', ho', _⟩ =>
          absurd ho' List.not_mem_nil, [], hx.executed, by simp⟩
    obtain ⟨rfl, r, ha, -⟩ | ⟨rfl, -, rfl⟩ := start_submit h
    · exact hmatching ha
    · exact .alloc hs o
  | cancel orderId =>
    obtain ⟨-, rfl⟩ := Prod.mk.inj (Option.some.inj h)
    exact .cancelOrderUnlocked hs orderId
  | modify orderId newQuantity =>
    obtain ⟨-, rfl⟩ := Prod.mk.inj (Option.some.inj h)
    exact .modifyOrderUnlocked hs orderId newQuantity
  | subscribeToMarketData symbol callback =>
    obtain ⟨-, rfl⟩ := Prod.mk.inj (Option.some.inj h)
    exact .of_same (.subscribeToMarketData e symbol callback) rfl
  | subscribeToTrades symbol callback =>
    obtain ⟨-, rfl⟩ := Prod.mk.inj (Option.some.inj h)
    exact .of_same (.subscribeToTrades e symbol callback) rfl

/-- A step brings no id into a book but those of the orders it matches. -/
theorem step_effect (ha : s.engine.PendingApart) (hs : s.engine.Books Sane)
    (hstep : s.Step event t) :
    Effect (s.matching event).1 (s.matching event).2 s.engine t.engine := by
  cases hstep with
  | begin hstart => exact start_effect hs hstart s.calls
  | @proceed fuel i task rest tasks e hcall hperform =>
    simp only [matching, head?_of_calls hcall]
    cases task with
    | publish trade =>
      obtain ⟨-, rfl⟩ := Prod.mk.inj (Option.some.inj hperform)
      exact .of_same (.recordTrade _ trade) (recordTrade_executed _ trade)
    | deliver callback trade =>
      obtain ⟨-, rfl⟩ := Prod.mk.inj (Option.some.inj hperform)
      exact .of_same (.deliverTrade _ callback trade) rfl
    | check symbol price =>
      obtain ⟨u, hu, heq⟩ := Option.map_eq_some_iff.mp hperform
      obtain ⟨-, rfl⟩ := Prod.mk.inj heq
      obtain ⟨w, remaining, hmatches, hsame, hx⟩ := checkTriggers_matches hu ha
      have heffect := Effect.of_matches hmatches hs
      have hforget : Effect symbol (s.engine.activations symbol price) s.engine
          (w.setPending symbol remaining) := ⟨heffect.names, heffect.executes⟩
      exact hforget.then_same hsame (hx.executed.trans (List.append_nil _))
    | read symbol =>
      obtain ⟨-, rfl⟩ := Prod.mk.inj (Option.some.inj hperform)
      exact .of_same (.refl _) rfl
    | update symbol update =>
      obtain ⟨-, rfl⟩ := Prod.mk.inj (Option.some.inj hperform)
      exact .of_same (.publishUpdate _ symbol update)
        (by simpa using (@Executes.publishUpdate symbol s.engine symbol update).executed)

theorem start_waiting {fuel : ℕ} {e e' : MatchingEngine} {c : Call} {tasks : List Task}
    (ha : e.PendingApart) (hs : e.Books Sane) (h : e.start fuel c = some (tasks, e'))
    (calls : List (List Task)) (symbol : String) :
    e'.waiting symbol = queue ⟨e, calls⟩ symbol (.begin c) := by
  -- a section that leaves the pending lists alone
  have hkeep {u : MatchingEngine} (hspares : e.Spares u)
      (hpending : u.pending symbol = e.pending symbol) : u.waiting symbol = e.waiting symbol :=
    ha.waiting hspares hpending
  cases c with
  | submit tryAcceptOrder o =>
    obtain ⟨rfl, r, hu, -⟩ | ⟨rfl, -, rfl⟩ := start_submit h
    · obtain ⟨htype, -, w, hw, -, rfl⟩ | ⟨htype, -, hmatches⟩ | ⟨htype, -, hw, -⟩ :=
        acceptOrder_matches hu
      · obtain ⟨-, hself, hothers⟩ := @PendingApart.addTrigger _ _ o.symbol ha hs o hw
        by_cases hsymbol : o.symbol = symbol
        · subst hsymbol
          rw [hself, queue, if_pos ⟨htype, rfl⟩]
        · rw [hothers symbol (Ne.symm hsymbol), queue, if_neg fun h => hsymbol h.2]
      · rw [queue, if_neg fun h => htype h.1]
        exact hkeep hmatches.spares (hmatches.pending symbol)
      · rw [queue, if_neg fun h => htype h.1]
        exact hkeep ((Spares.alloc _ o).trans (.of_same hw)) (hw.pending symbol)
    · exact hkeep (.alloc _ o) rfl
  | cancel orderId =>
    obtain ⟨-, rfl⟩ := Prod.mk.inj (Option.some.inj h)
    exact hkeep (.cancelOrderUnlocked _ orderId) (cancelOrderUnlocked_pending _ orderId symbol)
  | modify orderId newQuantity =>
    obtain ⟨-, rfl⟩ := Prod.mk.inj (Option.some.inj h)
    exact hkeep (.modifyOrderUnlocked _ orderId newQuantity)
      (modifyOrderUnlocked_pending _ orderId newQuantity symbol)
  | subscribeToMarketData symbol' callback =>
    obtain ⟨-, rfl⟩ := Prod.mk.inj (Option.some.inj h)
    exact hkeep (.of_same (.subscribeToMarketData _ symbol' callback)) rfl
  | subscribeToTrades symbol' callback =>
    obtain ⟨-, rfl⟩ := Prod.mk.inj (Option.some.inj h)
    exact hkeep (.of_same (.subscribeToTrades _ symbol' callback)) rfl

/-- What waits for its trigger after a step. -/
theorem step_waiting (ha : s.engine.PendingApart) (hs : s.engine.Books Sane)
    (hstep : s.Step event t) (symbol : String) :
    t.engine.waiting symbol = s.queue symbol event := by
  have hsame {e : MatchingEngine} (hsame : s.engine.SameBooks e) :
      e.waiting symbol = s.engine.waiting symbol :=
    ha.waiting (.of_same hsame) (hsame.pending symbol)
  cases hstep with
  | begin hstart => exact start_waiting ha hs hstart s.calls symbol
  | @proceed fuel i task rest tasks e hcall hperform =>
    simp only [queue, head?_of_calls hcall]
    cases task with
    | publish trade =>
      obtain ⟨-, rfl⟩ := Prod.mk.inj (Option.some.inj hperform)
      exact hsame (.recordTrade _ trade)
    | deliver callback trade =>
      obtain ⟨-, rfl⟩ := Prod.mk.inj (Option.some.inj hperform)
      exact hsame (.deliverTrade _ callback trade)
    | check symbol' price =>
      obtain ⟨u, hu, heq⟩ := Option.map_eq_some_iff.mp hperform
      obtain ⟨-, rfl⟩ := Prod.mk.inj heq
      obtain ⟨hself, hothers⟩ := ha.checkTriggers hu
      dsimp only
      split_ifs with hsymbol
      · subst hsymbol
        exact hself
      · exact hothers symbol (Ne.symm hsymbol)
    | read symbol' =>
      obtain ⟨-, rfl⟩ := Prod.mk.inj (Option.some.inj hperform)
      rfl
    | update symbol' update =>
      obtain ⟨-, rfl⟩ := Prod.mk.inj (Option.some.inj hperform)
      exact hsame (.publishUpdate _ symbol' update)

/-! ## The ids -/

/-- Who waits after a step waited before, or was submitted. -/
theorem mem_queue {o : Order} (ho : o ∈ s.queue symbol event) :
    o ∈ s.engine.waiting symbol ∨ event = .begin (.submit true o) ∧ o.symbol = symbol := by
  unfold queue at ho
  split at ho
  · split_ifs at ho with h
    · rw [List.mem_append, List.mem_singleton] at ho
      rcases ho with hold | rfl
      · exact Or.inl hold
      · exact Or.inr ⟨rfl, h.2⟩
    · exact Or.inl ho
  · exact Or.inl ho
  · split at ho
    · split_ifs at ho
      · exact Or.inl (List.mem_of_mem_filter ho)
      · exact Or.inl ho
    · exact Or.inl ho

/-- The orders that a step matches waited, or are submitted. -/
theorem mem_matching {o : Order} (ho : o ∈ (s.matching event).2) :
    (∃ o' ∈ s.engine.waiting (s.matching event).1, o'.id = o.id) ∨
      event = .begin (.submit true o) ∧ o.symbol = (s.matching event).1 := by
  unfold matching at ho ⊢
  split at ho
  · dsimp only at ho
    split_ifs at ho
    · exact absurd ho List.not_mem_nil
    · rw [List.mem_singleton] at ho
      exact Or.inr ⟨by rw [ho], by rw [ho]⟩
  · exact absurd ho List.not_mem_nil
  · split at ho
    · obtain ⟨o', ho', rfl⟩ := List.mem_map.mp ho
      refine Or.inl ⟨o', List.mem_of_mem_filter ho', ?_⟩
      unfold activeOrder
      split_ifs <;> rfl
    · exact absurd ho List.not_mem_nil

/-- A step brings no id to a symbol but the one of the order it submits. -/
theorem carries_step (ha : s.engine.PendingApart) (hs : s.engine.Books Sane)
    (hstep : s.Step event t) (h : t.engine.Carries symbol id) :
    s.engine.Carries symbol id ∨
      ∃ o, event = .begin (.submit true o) ∧ o.symbol = symbol ∧ o.id = id := by
  rcases h with h | ⟨o, ho, rfl⟩
  · rcases (step_effect ha hs hstep).names symbol id h with hold | ⟨rfl, o, ho, rfl⟩
    · exact Or.inl (Or.inl hold)
    · rcases mem_matching ho with hwaiting | ⟨hevent, hsymbol⟩
      · exact Or.inl (Or.inr hwaiting)
      · exact Or.inr ⟨o, hevent, hsymbol, rfl⟩
  · rw [step_waiting ha hs hstep] at ho
    rcases mem_queue ho with hold | ⟨hevent, hsymbol⟩
    · exact Or.inl (Or.inr ⟨o, hold, rfl⟩)
    · exact Or.inr ⟨o, hevent, hsymbol, rfl⟩

/-- The trades of a step name ids that their symbol carried, and the one it submits. -/
theorem executed_step (ha : s.engine.PendingApart) (hs : s.engine.Books Sane)
    (hstep : s.Step event t) :
    ∃ ts : List (String × Trade), t.engine.executed = s.engine.executed ++ ts ∧
      ∀ p ∈ ts, ∀ id ∈ p.2.ids, s.engine.Carries p.1 id ∨
        ∃ o, event = .begin (.submit true o) ∧ o.symbol = p.1 ∧ o.id = id := by
  obtain ⟨ts, hts, hids⟩ := (step_effect ha hs hstep).executes
  have hmatched {id : String} (h : ∃ o ∈ (s.matching event).2, o.id = id) :
      s.engine.Carries (s.matching event).1 id ∨
        ∃ o, event = .begin (.submit true o) ∧ o.symbol = (s.matching event).1 ∧ o.id = id := by
    obtain ⟨o, ho, rfl⟩ := h
    exact (mem_matching ho).imp Or.inr fun hnew => ⟨o, hnew.1, hnew.2, rfl⟩
  refine ⟨_, hts, fun p hp id hid => ?_⟩
  obtain ⟨trade, htrade, rfl⟩ := List.mem_map.mp hp
  obtain ⟨htaker, hmaker⟩ := hids trade htrade
  simp only [Trade.ids, List.mem_cons, List.not_mem_nil, or_false] at hid
  rcases hid with rfl | rfl
  · exact hmaker.elim (fun hold => Or.inl (Or.inl hold)) hmatched
  · exact hmatched htaker

/-! ## What a step publishes -/

/-- The trade that a step stamps, with the callbacks that it will be handed to. -/
def stamps (s : System) : Event → List (Trade × List Subscriber)
  | .begin _ => []
  | .proceed i =>
    match s.head? i with
    | some (.publish trade) =>
      [((s.engine.recordTrade trade).1, (s.engine.recordTrade trade).2.1)]
    | _ => []

theorem published_step (hl : s.engine.Labelled) (hs : s.engine.Books Sane)
    (hstep : s.Step event t) :
    t.engine.published = s.engine.published ++ s.stamps event := by
  cases hstep with
  | begin hstart =>
    obtain ⟨symbol, ts, hts, -⟩ := start_executes hl hstart
    exact hts.published.trans (List.append_nil _).symm
  | @proceed fuel i task rest tasks e hcall hperform =>
    simp only [stamps, head?_of_calls hcall]
    cases task with
    | publish trade =>
      obtain ⟨-, rfl⟩ := Prod.mk.inj (Option.some.inj hperform)
      unfold recordTrade
      exact (@Executes.writeWAL trade.symbol _ _).published
    | check symbol price =>
      obtain ⟨u, hu, heq⟩ := Option.map_eq_some_iff.mp hperform
      obtain ⟨-, rfl⟩ := Prod.mk.inj heq
      obtain ⟨ts, hts, -⟩ := checkTriggers_executes hu hl hs
      exact hts.published.trans (List.append_nil _).symm
    | update symbol update =>
      obtain ⟨-, rfl⟩ := Prod.mk.inj (Option.some.inj hperform)
      exact (@Executes.publishUpdate symbol s.engine symbol update).published.trans
        (List.append_nil _).symm
    | _ =>
      obtain ⟨-, rfl⟩ := Prod.mk.inj (Option.some.inj hperform)
      exact (List.append_nil _).symm

/-- A call that begins has no check to make yet. -/
theorem check_not_mem_start {fuel : ℕ} {e e' : MatchingEngine} {c : Call} {tasks : List Task}
    {price : ℚ} (h : e.start fuel c = some (tasks, e')) : Task.check symbol price ∉ tasks := by
  have hread (affectedSymbol : Option String) :
      Task.check symbol price ∉ affectedSymbol.toList.map Task.read := by
    cases affectedSymbol <;> simp
  cases c with
  | submit tryAcceptOrder o =>
    obtain ⟨-, r, -, ⟨trades, -, rfl⟩ | ⟨-, rfl⟩⟩ | ⟨-, rfl, -⟩ := start_submit h
    · simp
    · exact List.not_mem_nil
    · exact List.not_mem_nil
  | cancel orderId =>
    obtain ⟨rfl, -⟩ := Prod.mk.inj (Option.some.inj h)
    exact hread _
  | modify orderId newQuantity =>
    obtain ⟨rfl, -⟩ := Prod.mk.inj (Option.some.inj h)
    exact hread _
  | _ =>
    obtain ⟨rfl, -⟩ := Prod.mk.inj (Option.some.inj h)
    exact List.not_mem_nil

/-- A check follows the trade that was stamped before it. -/
theorem check_step {price : ℚ} (hstep : s.Step event t) (h : Task.check symbol price ∈ t.tasks) :
    Task.check symbol price ∈ s.tasks ∨
      ∃ p ∈ s.stamps event, p.1.symbol = symbol ∧ p.1.price = price := by
  cases hstep with
  | begin hstart =>
    rw [tasks_begin, List.mem_append] at h
    exact h.imp_right fun hnew => absurd hnew (check_not_mem_start hstart)
  | @proceed fuel i task rest tasks e hcall hperform =>
    obtain ⟨others, hs, ht⟩ := tasks_proceed hcall e tasks
    rw [ht.mem_iff, List.mem_append] at h
    refine h.symm.imp (fun hold => hs.mem_iff.mpr (List.mem_cons_of_mem _ hold)) fun hnew => ?_
    simp only [stamps, head?_of_calls hcall]
    cases task with
    | publish trade =>
      obtain ⟨rfl, -⟩ := Prod.mk.inj (Option.some.inj hperform)
      simp only [List.mem_append, List.mem_map, reduceCtorEq, and_false, exists_const,
        List.mem_singleton, Task.check.injEq, false_or] at hnew
      exact ⟨_, List.mem_singleton_self _, hnew.1.symm, hnew.2.symm⟩
    | check symbol price =>
      obtain ⟨u, -, heq⟩ := Option.map_eq_some_iff.mp hperform
      obtain ⟨rfl, -⟩ := Prod.mk.inj heq
      exact absurd hnew List.not_mem_nil
    | read symbol =>
      obtain ⟨rfl, -⟩ := Prod.mk.inj (Option.some.inj hperform)
      cases List.mem_singleton.mp hnew
    | _ =>
      obtain ⟨rfl, -⟩ := Prod.mk.inj (Option.some.inj hperform)
      exact absurd hnew List.not_mem_nil

end System

end GoQuant
