import GoQuant.Engine.Carriers

/-!
# The life of a trigger order

A trigger order waits from its submission until a check activates it: in the list of its
symbol, unknown to every book and to every trade. A check takes exactly those orders off the
list whose condition its price meets, and matches what they become in the order in which they
were submitted. This needs the ids of trigger orders to be used for no other order.

## Main definitions

* `History` — the system, with the orders submitted and those activated so far.
* `OwnIds` — no trigger order shares its id with another order.
* `Advances` — what a step makes of the pending orders.

## Main results

* `History.consistent_of_run` — every trigger order submitted waits or has been activated.
* `life_cycle` — each waits or has been activated exactly once, and only checks activate.
-/

namespace GoQuant

open MatchingEngine MatchingAlgorithm

namespace System

variable {s t : System} {event : Event} {events : List Event} {symbol : String} {price : ℚ}

/-- The order that a step submits. -/
def submits : Event → List Order
  | .begin (.submit true o) => [o]
  | _ => []

/-- The check that a step makes. -/
def checks (s : System) : Event → Option (String × ℚ)
  | .begin _ => none
  | .proceed i =>
    match s.head? i with
    | some (.check symbol price) => some (symbol, price)
    | _ => none

/-- The pending orders that a step activates. -/
def activates (s : System) (event : Event) : List Order :=
  match s.checks event with
  | some (symbol, price) => (s.engine.waiting symbol).filter fun o => triggered o price
  | none => []

/-- An order that waits for its trigger under a symbol. -/
def WaitsAt (symbol : String) (o : Order) : Prop := o.type.isTrigger = true ∧ o.symbol = symbol

instance (symbol : String) (o : Order) : Decidable (WaitsAt symbol o) := by
  unfold WaitsAt; infer_instance

/-- A check splits the list of its symbol; an order that is submitted joins the list of its. -/
theorem queue_eq (s : System) (symbol : String) (event : Event) : s.queue symbol event =
    match s.checks event with
    | some (symbol', price) =>
      if symbol' = symbol then (s.engine.waiting symbol).filter fun o => !triggered o price
      else s.engine.waiting symbol
    | none => s.engine.waiting symbol ++ (submits event).filter (WaitsAt symbol) := by
  unfold queue checks submits
  split
  · rename_i o
    dsimp only
    split_ifs with h
    · have hjoins : WaitsAt symbol o := h
      simp [hjoins]
    · have hjoins : ¬ WaitsAt symbol o := h
      simp [hjoins]
  · rename_i c hne
    cases c with
    | submit tryAcceptOrder o =>
      cases tryAcceptOrder with
      | true => exact absurd rfl (hne o)
      | false => simp
    | _ => simp
  · rename_i i
    dsimp only
    split <;> simp_all

theorem mem_tasks_of_checks (h : s.checks event = some (symbol, price)) :
    Task.check symbol price ∈ s.tasks := by
  cases event with
  | begin c => cases h
  | proceed i =>
    simp only [checks] at h
    split at h
    · rename_i hhead
      obtain ⟨rfl, rfl⟩ := Prod.mk.inj (Option.some.inj h)
      obtain ⟨tasks, hcall, hhead⟩ := Option.bind_eq_some_iff.mp hhead
      exact List.mem_flatten.mpr ⟨tasks, List.mem_of_getElem? hcall, List.mem_of_head? hhead⟩
    · cases h

/-- A check matches the orders it activates. -/
theorem matches_of_checks (ha : s.engine.PendingApart) (hstep : s.Step event t)
    (h : s.checks event = some (symbol, price)) :
    ∃ u remaining, Matches symbol (s.engine.activations symbol price) s.engine u ∧
      (u.setPending symbol remaining).SameBooks t.engine := by
  cases hstep with
  | begin hstart => cases h
  | @proceed fuel i task rest tasks e hcall hperform =>
    simp only [checks, head?_of_calls hcall] at h
    cases task with
    | check symbol' price' =>
      obtain ⟨rfl, rfl⟩ := Prod.mk.inj (Option.some.inj h)
      obtain ⟨u, hu, heq⟩ := Option.map_eq_some_iff.mp hperform
      obtain ⟨-, rfl⟩ := Prod.mk.inj heq
      obtain ⟨w, remaining, hmatches, hsame, -⟩ := checkTriggers_matches hu ha
      exact ⟨w, remaining, hmatches, hsame⟩
    | _ => cases h

theorem not_mem_submits_of_checks {p : String × ℚ} (h : s.checks event = some p) :
    submits event = [] := by
  cases event with
  | begin c => cases h
  | proceed i => rfl

/-- What waits, is submitted or activated in a step, if everybody waits under his own symbol. -/
theorem queue_perm (hlabel : ∀ symbol, ∀ o ∈ s.engine.waiting symbol, o.symbol = symbol)
    (symbol : String) (event : Event) :
    (s.engine.waiting symbol ++ (submits event).filter (WaitsAt symbol)).Perm
      (s.queue symbol event ++ (s.activates event).filter fun o => o.symbol = symbol) := by
  rw [queue_eq, activates]
  cases hchecks : s.checks event with
  | none => simp
  | some p =>
    obtain ⟨symbol', price⟩ := p
    rw [not_mem_submits_of_checks hchecks]
    dsimp only
    split_ifs with hsymbol
    · subst hsymbol
      have hall : ((s.engine.waiting symbol').filter fun o => triggered o price).filter
          (fun o => o.symbol = symbol') =
            (s.engine.waiting symbol').filter fun o => triggered o price :=
        List.filter_eq_self.mpr fun o ho =>
          decide_eq_true (hlabel symbol' o (List.mem_of_mem_filter ho))
      rw [hall, List.filter_nil, List.append_nil]
      exact (List.perm_append_comm.trans
        (List.filter_append_perm (fun o => triggered o price) _)).symm
    · have hnone : ((s.engine.waiting symbol').filter fun o => triggered o price).filter
          (fun o => o.symbol = symbol) = [] :=
        List.filter_eq_nil_iff.mpr fun o ho => by
          have hlabel' := hlabel symbol' o (List.mem_of_mem_filter ho)
          simpa [hlabel'] using hsymbol
      rw [hnone, List.filter_nil]

end System

/-- The system, with the orders submitted and the pending orders activated so far. -/
structure History where
  system : System
  submitted : List Order
  activated : List Order

namespace History

/-- The history of a system that takes a step. -/
def extend (h : History) (event : System.Event) (t : System) : History where
  system := t
  submitted := h.submitted ++ System.submits event
  activated := h.activated ++ h.system.activates event

/-- A step of the system. -/
def Step (h : History) (event : System.Event) (h' : History) : Prop :=
  ∃ t, h.system.Step event t ∧ h' = h.extend event t

/-- The same step, executed on fuel. -/
def advance (fuel : ℕ) (h : History) (event : System.Event) : Option (System.Event × History) :=
  (h.system.advance fuel event).map fun t => (event, h.extend event t)

theorem run_of_exec {fuel : ℕ} {h h' : History} {events events' : List System.Event}
    (hexec : Run.exec (advance fuel) h events = some (events', h')) : Run Step h events' h' := by
  refine Run.of_exec (fun h event event' h' he => ?_) hexec
  obtain ⟨t, ht, heq⟩ := Option.map_eq_some_iff.mp he
  obtain ⟨rfl, rfl⟩ := Prod.mk.inj heq
  exact ⟨t, System.step_of_advance ht, rfl⟩

/-- An id is used: by an order submitted to be matched, or by one that was activated. -/
def Used (h : History) (id : String) : Prop :=
  ∃ o ∈ h.submitted, o.id = id ∧ (o.type.isTrigger = true → o ∈ h.activated)

/-- An id that was used stays so. -/
theorem Used.extend {h : History} {id : String} (hid : h.Used id) (event : System.Event)
    (t : System) : (h.extend event t).Used id := by
  obtain ⟨o, ho, rfl, htrigger⟩ := hid
  exact ⟨o, List.mem_append_left _ ho, rfl, fun htype => List.mem_append_left _ (htrigger htype)⟩

/-- The trigger orders that were submitted wait or were activated, books and trades name used
ids only, and checks follow trades. -/
structure Consistent (h : History) : Prop where
  apart : h.system.engine.PendingApart ∧ h.system.engine.Books Sane
  labelled : h.system.engine.Labelled
  perm : ∀ symbol, (h.submitted.filter (System.WaitsAt symbol)).Perm
    (h.system.engine.waiting symbol ++ h.activated.filter fun o => o.symbol = symbol)
  sublist : ∀ symbol, (h.system.engine.waiting symbol).Sublist h.submitted
  names : ∀ symbol id, (h.system.engine.book symbol).Names h.system.engine.mem id → h.Used id
  trades : ∀ p ∈ h.system.engine.executed, ∀ id ∈ p.2.ids, h.Used id
  checks : ∀ symbol price, Task.check symbol price ∈ h.system.tasks →
    ∃ p ∈ h.system.engine.published, p.1.symbol = symbol ∧ p.1.price = price

namespace Consistent

variable {h h' : History} {event : System.Event} {o : Order} {symbol : String}

theorem waitsAt (hc : h.Consistent) (ho : o ∈ h.system.engine.waiting symbol) :
    o ∈ h.submitted ∧ System.WaitsAt symbol o := by
  have hmem := (hc.perm symbol).mem_iff.mpr (List.mem_append_left _ ho)
  rw [List.mem_filter] at hmem
  exact ⟨hmem.1, of_decide_eq_true hmem.2⟩

/-- The orders that a step matches are submitted, or activated. -/
theorem used_of_matching (hc : h.Consistent) {t : System}
    (ho : o ∈ (h.system.matching event).2) : (h.extend event t).Used o.id := by
  unfold System.matching at ho
  split at ho
  · rename_i o'
    dsimp only at ho
    split_ifs at ho with htype
    · exact absurd ho List.not_mem_nil
    · obtain rfl := List.mem_singleton.mp ho
      exact ⟨o, List.mem_append_right _ (List.mem_singleton_self o), rfl,
        fun htrigger => absurd htrigger htype⟩
  · exact absurd ho List.not_mem_nil
  · rename_i i
    split at ho
    · rename_i symbol price hhead
      obtain ⟨o', ho', rfl⟩ := List.mem_map.mp ho
      have hactivates : h.system.activates (.proceed i) =
          (h.system.engine.waiting symbol).filter fun o => triggered o price := by
        simp [System.activates, System.checks, hhead]
      refine ⟨o', List.mem_append_left _ (hc.waitsAt (List.mem_of_mem_filter ho')).1,
        (activeOrder_id o').symm, fun _ => List.mem_append_right _ ?_⟩
      rw [hactivates]
      exact ho'
    · exact absurd ho List.not_mem_nil

/-- One lemma for all steps. -/
theorem step (hc : h.Consistent) (hstep : h.Step event h') : h'.Consistent := by
  obtain ⟨t, hstep, rfl⟩ := hstep
  obtain ⟨ha, hs⟩ := hc.apart
  have hwaiting (symbol : String) := System.step_waiting ha hs hstep symbol
  have heffect := System.step_effect ha hs hstep
  refine ⟨pendingApart_sections.step hc.apart hstep, labelled_sections.step hc.labelled hstep,
    fun symbol => ?_, fun symbol => ?_, fun symbol id hid => ?_, fun p hp id hid => ?_,
    fun symbol price hcheck => ?_⟩
  · have hlabel (s : String) : ∀ o ∈ h.system.engine.waiting s, o.symbol = s :=
      fun o ho => (hc.waitsAt ho).2.2
    have hqueue := System.queue_perm hlabel symbol event
    simp only [extend, hwaiting, List.filter_append]
    calc h.submitted.filter _ ++ (System.submits event).filter _
        |>.Perm (h.system.engine.waiting symbol ++ h.activated.filter _ ++
            (System.submits event).filter _) := (hc.perm symbol).append_right _
      _ |>.Perm (h.system.engine.waiting symbol ++ (System.submits event).filter _ ++
            h.activated.filter _) := by
        simp only [List.append_assoc]
        exact List.perm_append_comm.append_left _
      _ |>.Perm _ := hqueue.append_right _
      _ |>.Perm _ := by
        simp only [List.append_assoc]
        exact List.perm_append_comm.append_left _
  · have hold := hc.sublist symbol
    simp only [extend, hwaiting, System.queue_eq]
    split
    · split_ifs
      · exact (List.filter_sublist.trans hold).trans (List.sublist_append_left _ _)
      · exact hold.trans (List.sublist_append_left _ _)
    · exact hold.append List.filter_sublist
  · rcases heffect.names symbol id hid with hold | ⟨-, o, ho, rfl⟩
    · exact (hc.names symbol id hold).extend event t
    · exact hc.used_of_matching ho
  · obtain ⟨ts, hts, hids⟩ := heffect.executes
    have hp' : p ∈ t.engine.executed := hp
    rw [hts, List.mem_append] at hp'
    rcases hp' with hold | hnew
    · exact (hc.trades p hold id hid).extend event t
    · obtain ⟨trade, htrade, rfl⟩ := List.mem_map.mp hnew
      obtain ⟨⟨taker, htaker, htakerId⟩, hmaker⟩ := hids trade htrade
      simp only [Trade.ids, List.mem_cons, List.not_mem_nil, or_false] at hid
      rcases hid with rfl | rfl
      · rcases hmaker with hmaker | ⟨maker, hmaker, hmakerId⟩
        · exact (hc.names _ _ hmaker).extend event t
        · exact hmakerId ▸ hc.used_of_matching hmaker
      · exact htakerId ▸ hc.used_of_matching htaker
  · simp only [extend, System.published_step hc.labelled hs hstep, List.mem_append]
    rcases System.check_step hstep hcheck with hold | ⟨p, hp, hsymbol, hprice⟩
    · obtain ⟨p, hp, hp'⟩ := hc.checks symbol price hold
      exact ⟨p, Or.inl hp, hp'⟩
    · exact ⟨p, Or.inr hp, hsymbol, hprice⟩

end Consistent

/-- A history that begins with an engine that has just opened its log. -/
def fresh (mem : Memory) (hashOrder : HashOrder) (feeModel : Option FeeModel)
    (file : Option (List Json)) : History where
  system := ⟨((MatchingEngine.fresh mem hashOrder feeModel).startWAL file).2, []⟩
  submitted := []
  activated := []

theorem consistent_fresh (mem : Memory) (hashOrder : HashOrder) (feeModel : Option FeeModel)
    (file : Option (List Json)) : (fresh mem hashOrder feeModel file).Consistent := by
  have hnone (symbol : String) :
      ((MatchingEngine.fresh mem hashOrder feeModel).startWAL file).2.waiting symbol = [] := by
    cases file <;> rfl
  refine ⟨pendingApart_fresh mem hashOrder feeModel file,
    labelled_startWAL mem hashOrder feeModel file, fun symbol => ?_, fun symbol => ?_,
    fun symbol id hid => ?_, fun p hp => ?_, fun symbol price hcheck => ?_⟩
  · simp [fresh, hnone]
  · simp [fresh, hnone]
  · cases file <;> exact absurd hid (OrderBook.not_names_empty _ _ _)
  · cases file <;> exact absurd hp List.not_mem_nil
  · exact absurd hcheck List.not_mem_nil

/-- Every trigger order submitted waits or has been activated. -/
theorem consistent_of_run {h h' : History} {events : List System.Event}
    (hrun : Run Step h events h') (hc : h.Consistent) : h'.Consistent :=
  hrun.invariant Consistent hc fun _ _ _ => Consistent.step

/-! ## Trigger orders with ids of their own -/

/-- No trigger order shares its id with another order. -/
def OwnIds (h : History) : Prop := h.submitted.Pairwise fun o o' =>
  (o.type.isTrigger = true ∨ o'.type.isTrigger = true) → o.id ≠ o'.id

instance (h : History) : Decidable h.OwnIds :=
  inferInstanceAs (Decidable (h.submitted.Pairwise _))

variable {h h' : History} {event : System.Event} {events : List System.Event} {o o' : Order}
  {symbol : String}

theorem OwnIds.eq_of_id (hown : h.OwnIds) (ho : o ∈ h.submitted) (ho' : o' ∈ h.submitted)
    (htype : o.type.isTrigger = true) (hid : o'.id = o.id) : o' = o := by
  by_contra hne
  have hsymm : Std.Symm fun o o' : Order =>
      (o.type.isTrigger = true ∨ o'.type.isTrigger = true) → o.id ≠ o'.id :=
    ⟨fun _ _ hsep hor => (hsep hor.symm).symm⟩
  exact List.Pairwise.forall hown ho' ho hne (Or.inr htype) hid

/-- It is submitted once only. -/
theorem OwnIds.nodup (hown : h.OwnIds) (symbol : String) :
    (h.submitted.filter (System.WaitsAt symbol)).Nodup := by
  rw [List.Nodup, List.pairwise_filter]
  refine hown.imp fun hsep hwaits _ heq => ?_
  exact hsep (Or.inl (of_decide_eq_true hwaits).1) (congrArg Order.id heq)

/-- Before its activation: in the list of its symbol, in no book and on no trade. -/
def Pending (h : History) (o : Order) : Prop :=
  (h.system.engine.waiting o.symbol).count o = 1 ∧ o ∉ h.activated ∧
    (∀ symbol, ¬ (h.system.engine.book symbol).Names h.system.engine.mem o.id) ∧
    ∀ p ∈ h.system.engine.executed, o.id ∉ p.2.ids

/-- After its activation: in no list, and not activated again. -/
def Activated (h : History) (o : Order) : Prop :=
  h.activated.count o = 1 ∧ ∀ symbol, o ∉ h.system.engine.waiting symbol

namespace Consistent

/-- What waits and what was activated, together, are without repetitions. -/
theorem nodup (hc : h.Consistent) (hown : h.OwnIds) (symbol : String) :
    (h.system.engine.waiting symbol ++ h.activated.filter fun o => o.symbol = symbol).Nodup :=
  (hc.perm symbol).nodup_iff.mp (hown.nodup symbol)

theorem not_activated (hc : h.Consistent) (hown : h.OwnIds)
    (ho : o ∈ h.system.engine.waiting symbol) : o ∉ h.activated := fun hactivated =>
  (List.nodup_append.mp (hc.nodup hown symbol)).2.2 o ho o
    (List.mem_filter.mpr ⟨hactivated, decide_eq_true (hc.waitsAt ho).2.2⟩) rfl

theorem not_used (hc : h.Consistent) (hown : h.OwnIds)
    (ho : o ∈ h.system.engine.waiting symbol) : ¬ h.Used o.id := by
  rintro ⟨o', ho', hid, htrigger⟩
  obtain ⟨hsubmitted, htype, -⟩ := hc.waitsAt ho
  obtain rfl := hown.eq_of_id hsubmitted ho' htype hid
  exact hc.not_activated hown ho (htrigger htype)

theorem activated (hc : h.Consistent) (hown : h.OwnIds) (ho : o ∈ h.activated) :
    h.Activated o := by
  refine ⟨?_, fun symbol hwaiting => hc.not_activated hown hwaiting ho⟩
  have hfilter : (h.activated.filter fun o' => o'.symbol = o.symbol).count o =
      h.activated.count o := List.count_filter (decide_eq_true rfl)
  rw [← hfilter]
  exact List.count_eq_one_of_mem ((List.nodup_append.mp (hc.nodup hown o.symbol)).2.1)
    (List.mem_filter.mpr ⟨ho, decide_eq_true rfl⟩)

theorem pending_or_activated (hc : h.Consistent) (hown : h.OwnIds) (ho : o ∈ h.submitted)
    (htype : o.type.isTrigger = true) : h.Pending o ∨ h.Activated o := by
  have hmem := (hc.perm o.symbol).mem_iff.mp
    (List.mem_filter.mpr ⟨ho, decide_eq_true ⟨htype, rfl⟩⟩)
  rcases List.mem_append.mp hmem with hwaiting | hactivated
  · have hunused := hc.not_used hown hwaiting
    refine Or.inl ⟨?_, hc.not_activated hown hwaiting, fun symbol hnames => ?_, fun p hp hid => ?_⟩
    · exact List.count_eq_one_of_mem (List.nodup_append.mp (hc.nodup hown o.symbol)).1 hwaiting
    · exact hunused (hc.names symbol o.id hnames)
    · exact hunused (hc.trades p hp o.id hid)
  · exact Or.inr (hc.activated hown (List.mem_of_mem_filter hactivated))

end Consistent

/-! ## What a step does to the pending orders -/

/-- The order that a trigger order becomes. -/
structure Converts (o act : Order) : Prop where
  id : act.id = o.id
  symbol : act.symbol = o.symbol
  side : act.side = o.side
  quantity : act.quantity = o.quantity
  stopLimit : o.type = .stopLimit → act.type = .limit ∧ act.price = o.price
  market : o.type = .stopLoss ∨ o.type = .takeProfit → act.type = .market

theorem converts_activeOrder (o : Order) : Converts o (activeOrder o) := by
  unfold activeOrder
  split_ifs with h
  · exact ⟨rfl, rfl, rfl, rfl, fun _ => ⟨rfl, rfl⟩, by simp [h]⟩
  · exact ⟨rfl, rfl, rfl, rfl, fun htype => absurd htype h, fun _ => rfl⟩

/-- A check activates the orders of its symbol that are due at the price of the trade that it
follows, and matches what they become one after another. The others stay as they are. -/
structure ActivatesDue (symbol : String) (price : ℚ) (h h' : History) : Prop where
  follows : ∃ p ∈ h.system.engine.published, p.1.symbol = symbol ∧ p.1.price = price
  activated : h'.activated =
    h.activated ++ (h.system.engine.waiting symbol).filter fun o => o.Due price
  remaining : h'.system.engine.waiting symbol =
    (h.system.engine.waiting symbol).filter fun o => ¬ o.Due price
  others : ∀ s, s ≠ symbol → h'.system.engine.waiting s = h.system.engine.waiting s
  matched : ∃ os u,
    List.Forall₂ Converts ((h.system.engine.waiting symbol).filter fun o => o.Due price) os ∧
      Matches symbol os h.system.engine u ∧ h'.system.engine.mem = u.mem ∧
      ∀ s, h'.system.engine.book s = u.book s

/-- Any other step activates nothing, and adds to the pending orders what it submits. -/
structure ActivatesNone (event : System.Event) (h h' : History) : Prop where
  activated : h'.activated = h.activated
  waiting : ∀ symbol, h'.system.engine.waiting symbol =
    h.system.engine.waiting symbol ++ (System.submits event).filter (System.WaitsAt symbol)

/-- What a step makes of the pending orders. -/
def Advances (h : History) (event : System.Event) (h' : History) : Prop :=
  match h.system.checks event with
  | some (symbol, price) => ActivatesDue symbol price h h'
  | none => ActivatesNone event h h'

theorem Consistent.advances (hc : h.Consistent) (hstep : h.Step event h') :
    h.Advances event h' := by
  obtain ⟨t, hstep, rfl⟩ := hstep
  obtain ⟨ha, hs⟩ := hc.apart
  have hwaiting (symbol : String) : t.engine.waiting symbol = h.system.queue symbol event :=
    System.step_waiting ha hs hstep symbol
  unfold Advances
  split
  · rename_i symbol price hchecks
    have hdue : (fun o : Order => triggered o price) = fun o => decide (o.Due price) :=
      funext fun o => triggered_eq_due o price
    have hnotDue : (fun o : Order => !triggered o price) = fun o => decide (¬ o.Due price) :=
      funext fun o => by rw [triggered_eq_due, decide_not]
    refine ⟨?_, ?_, ?_, fun s hne => ?_, ?_⟩
    · refine hc.checks symbol price ?_
      exact System.mem_tasks_of_checks hchecks
    · simp only [extend, System.activates, hchecks, hdue]
    · simp only [extend, hwaiting, System.queue_eq, hchecks, if_true, hnotDue]
    · simp only [extend, hwaiting, System.queue_eq, hchecks, if_neg (Ne.symm hne)]
    · obtain ⟨u, remaining, hmatches, hsame⟩ := System.matches_of_checks ha hstep hchecks
      refine ⟨_, u, ?_, hmatches, hsame.mem, hsame.book⟩
      rw [MatchingEngine.activations, hdue]
      exact List.forall₂_map_right_iff.mpr
        (List.forall₂_same.mpr fun o _ => converts_activeOrder o)
  · rename_i hchecks
    refine ⟨?_, fun symbol => ?_⟩
    · simp only [extend, System.activates, hchecks, List.append_nil]
    · simp only [extend, hwaiting, System.queue_eq, hchecks]

/-- Nothing that was activated is forgotten. -/
theorem activated_of_run (hrun : Run Step h events h') (ho : o ∈ h.activated) :
    o ∈ h'.activated := by
  refine hrun.invariant (fun h' => o ∈ h'.activated) ho ?_
  rintro h₁ event h₂ hmem ⟨t, -, rfl⟩
  exact List.mem_append_left _ hmem

/-- **The life of a trigger order.** It waits, in one list, in no book and on no trade, until a
check for a trade of its symbol whose price meets its condition activates it, once and for
all. -/
theorem life_cycle {mem : Memory} {hashOrder : HashOrder} {feeModel : Option FeeModel}
    {file : Option (List Json)} (hrun : Run Step (fresh mem hashOrder feeModel file) events h)
    (hown : h.OwnIds) :
    (∀ o ∈ h.submitted, o.type.isTrigger = true → h.Pending o ∨ h.Activated o) ∧
      (∀ symbol, (h.system.engine.waiting symbol).Sublist h.submitted ∧
        ∀ o ∈ h.system.engine.waiting symbol, System.WaitsAt symbol o) ∧
      (∀ event h', h.Step event h' → h.Advances event h') ∧
      ∀ events' h', Run Step h events' h' → h'.OwnIds → ∀ o ∈ h.activated, h'.Activated o := by
  have hc := consistent_of_run hrun (consistent_fresh mem hashOrder feeModel file)
  refine ⟨fun o ho => hc.pending_or_activated hown ho, fun symbol => ⟨hc.sublist symbol,
    fun o ho => (hc.waitsAt ho).2⟩, fun event h' => hc.advances,
    fun events' h' hrun' hown' o ho => ?_⟩
  exact (consistent_of_run hrun' hc).activated hown' (activated_of_run hrun' ho)

/-- A market order trades at 101: the stop order follows it, the take-profit order waits on. -/
theorem life_cycle_stop : ∃ (h : History) (stop profit : Order),
    h.submitted.filter (·.type.isTrigger) = [stop, profit] ∧ h.Activated stop ∧
      h.Pending profit := by
  let stop : Order := ⟨"stop", "S", .buy, .stopLoss, 100, 2⟩
  let profit : Order := ⟨"profit", "S", .sell, .takeProfit, 105, 1⟩
  let events : List System.Event := [
    .begin (.submit true stop), .begin (.submit true profit),
    .begin (.submit true ⟨"ask", "S", .sell, .limit, 101, 5⟩),
    .begin (.submit true ⟨"bid", "S", .buy, .market, 0, 3⟩), .proceed 3, .proceed 3]
  let final := Run.exec (advance 3) (fresh .empty .plain none none) events
  let seen (h : History) : Bool := decide (h.submitted.filter (·.type.isTrigger) = [stop, profit] ∧
    stop ∈ h.activated ∧ profit ∉ h.activated) && decide h.OwnIds
  have hsome : (final.map fun p => seen p.2) = some true := by decide +kernel
  obtain ⟨⟨events', h⟩, hfinal, hseen⟩ := Option.map_eq_some_iff.mp hsome
  obtain ⟨hseen, hown⟩ := Bool.and_eq_true_iff.mp hseen
  obtain ⟨hsubmitted, hstop, hprofit⟩ := of_decide_eq_true hseen
  have hmem : ∀ o ∈ [stop, profit], o ∈ h.submitted ∧ o.type.isTrigger = true := fun o ho => by
    rw [← hsubmitted, List.mem_filter] at ho
    exact ho
  obtain ⟨heach, -, -, hkept⟩ := life_cycle (run_of_exec hfinal) (of_decide_eq_true hown)
  refine ⟨h, stop, profit, hsubmitted, hkept [] h .nil (of_decide_eq_true hown) stop hstop, ?_⟩
  obtain ⟨hsub, htype⟩ := hmem profit (by simp)
  refine (heach profit hsub htype).resolve_right fun hactivated => hprofit ?_
  exact List.count_pos_iff.mp (hactivated.1 ▸ Nat.one_pos)

end History

end GoQuant
