import GoQuant.Engine.Loading
import GoQuant.Engine.Recovery

/-!
# Ids of created orders

The engine counts the orders that it creates, and names them by their numbers. The count starts
at zero in every process. A replay of a log or a snapshot brings back orders that an earlier
process has named in the same way, and a caller can submit any id.

## Main definitions

* `Recovered` — an engine that has replayed logs and loaded snapshots, and done nothing else.
* `Creating` — the system with the counter of created orders.
* `ToCome` — an id that the counter has yet to reach.

## Main results

* `created_fresh_iff` — created ids are fresh in every run, exactly if the recovered engine holds
  no order under an id to come.
* `reissued` — the first id after a restart is that of an order in the book.
-/

namespace GoQuant

namespace MatchingEngine

variable {fuel : ℕ} {e e' : MatchingEngine} {ok : Bool}

/-- The orders an engine holds are objects of its process. -/
abbrev Built (e : MatchingEngine) : Prop := e.Throughout fun _ _ => True

theorem lasting_true : Lasting fun _ _ => True := ⟨fun _ _ => trivial, fun _ => trivial⟩

/-- By induction on the entries of the directory. -/
theorem Throughout.loadEntries {entries : List DirEntry} (h : e.Built)
    (hl : loadEntries entries e = some (ok, e')) : e'.Built := by
  induction entries generalizing e with
  | nil =>
    obtain ⟨-, rfl⟩ := Prod.mk.inj (Option.some.inj hl)
    exact h
  | cons entry entries ih =>
    have hu := h.of_same (SameBooks.getOrCreateOrderBook e entry.symbol)
    have hread {mem : Memory} {b : OrderBook} {r : Except String Unit}
        (hread : ((e.getOrCreateOrderBook entry.symbol).book entry.symbol).fromJson
          (e.getOrCreateOrderBook entry.symbol).mem entry.content = some (r, mem, b)) :
        ({ (e.getOrCreateOrderBook entry.symbol).setBook entry.symbol b with mem := mem } :
          MatchingEngine).Built := by
      obtain ⟨hgrows, hb⟩ := OrderBook.fromJson_spec hread
      exact hu.setBook lasting_true hgrows.toExtends fun r hr =>
        ⟨hb (fun r hr => (hu.resting _ r hr).1) r hr, trivial⟩
    rcases loadEntries_cons_cases hl with ⟨-, hl⟩ | ⟨-, mem, b, ⟨hok, hl⟩ | ⟨⟨_, herror⟩, -, rfl⟩⟩
    · exact ih h hl
    · exact ih (hread hok) hl
    · exact hread herror

theorem Throughout.loadState {path : Option (List DirEntry)} (h : e.Built)
    (hl : e.loadState path = some (ok, e')) : e'.Built := by
  cases path with
  | none =>
    obtain ⟨-, rfl⟩ := Prod.mk.inj (Option.some.inj hl)
    exact h
  | some entries => exact h.loadEntries hl

theorem Throughout.replayWAL {file : Option (List Json)} (h : e.Built)
    (hr : e.replayWAL fuel file = some (ok, e')) : e'.Built :=
  lasting_true.sections.replayWAL (fun hu hvec => hu.setPending hvec) h
    (fun _ _ _ _ _ _ => trivial) hr

/-! ## Recovery -/

/-- An engine before its first call: it may have replayed logs, loaded snapshots and opened its
own log, in any order. -/
inductive Recovered : MatchingEngine → Prop
  | fresh (mem : Memory) (hashOrder : HashOrder) (feeModel : Option FeeModel) :
    Recovered (fresh mem hashOrder feeModel)
  | replayWAL {fuel : ℕ} {e e' : MatchingEngine} {file : Option (List Json)} {ok : Bool} :
    Recovered e → e.replayWAL fuel file = some (ok, e') → Recovered e'
  | loadState {e e' : MatchingEngine} {path : Option (List DirEntry)} {ok : Bool} :
    Recovered e → e.loadState path = some (ok, e') → Recovered e'
  | startWAL {e : MatchingEngine} (file : Option (List Json)) :
    Recovered e → Recovered (e.startWAL file).2

theorem Recovered.built (h : Recovered e) : e.Built := by
  induction h with
  | fresh mem hashOrder feeModel => exact .of_empty rfl rfl
  | replayWAL _ hreplay ih => exact ih.replayWAL hreplay
  | loadState _ hload ih => exact ih.loadState hload
  | startWAL file _ ih =>
    exact ih.of_same (by cases file <;> exact ⟨rfl, fun _ => rfl, fun _ => rfl, rfl, rfl⟩)

/-- An order object that rests in a book, or waits for a trigger. -/
def Holds (e : MatchingEngine) (r : Ref) : Prop :=
  ∃ symbol, (e.book symbol).Rests r ∨ r ∈ e.pending symbol

theorem Throughout.holds {Q : Order → Prop} (h : e.Throughout fun _ => Q) {r : Ref}
    (hr : e.Holds r) : Q (e.mem.order r) := by
  obtain ⟨symbol, hr | hr⟩ := hr
  · exact (h.resting symbol r hr).2
  · exact (h.pending symbol r hr).2

theorem Throughout.throughout {Q : Order → Prop} (h : e.Built)
    (hQ : ∀ r, e.Holds r → Q (e.mem.order r)) : e.Throughout fun _ => Q where
  resting symbol r hr := ⟨(h.resting symbol r hr).1, hQ r ⟨symbol, Or.inl hr⟩⟩
  pending symbol ord hord := ⟨(h.pending symbol ord hord).1, hQ ord ⟨symbol, Or.inr hord⟩⟩

end MatchingEngine

/-! ## The counter -/

/-- An id the counter of created orders has yet to reach. -/
def ToCome (orderIdCounter : ℕ) (id : String) : Prop :=
  ∃ n, orderIdCounter < n ∧ n < 2 ^ 64 ∧ id = "O" ++ toString n

theorem ToCome.mono {m n : ℕ} {id : String} (hmn : m ≤ n) (h : ToCome n id) : ToCome m id := by
  obtain ⟨k, hk, hlt, hid⟩ := h
  exact ⟨k, hmn.trans_lt hk, hlt, hid⟩

/-- Different numbers make different ids. -/
theorem orderId_injective {m n : ℕ} (h : "O" ++ toString m = "O" ++ toString n) : m = n :=
  toString_injective (String.append_right_inj _ |>.mp h)

theorem generateOrderId_of_lt {orderIdCounter : ℕ} (h : orderIdCounter + 1 < 2 ^ 64) :
    MatchingEngine.generateOrderId orderIdCounter =
      ("O" ++ toString (orderIdCounter + 1), orderIdCounter + 1) := by
  rw [MatchingEngine.generateOrderId, Nat.mod_eq_of_lt h]

/-- The system with the counter of created orders, and the ids that it gave them. -/
structure Creating where
  system : System
  orderIdCounter : ℕ
  created : List String

namespace Creating

open MatchingEngine

/-- An order is created, or a call begins or goes on. -/
inductive Event where
  | createOrder (symbol : String) (side : Side) (type : OrderType) (price quantity : ℚ)
  | system (event : System.Event)

inductive Step (s : Creating) : Event → Creating → Prop
  | createOrder (symbol : String) (side : Side) (type : OrderType) (price quantity : ℚ) {o : Order}
    {orderIdCounter : ℕ} :
    MatchingEngine.createOrder s.orderIdCounter symbol side type price quantity =
      (o, orderIdCounter) →
    Step s (.createOrder symbol side type price quantity)
      ⟨s.system, orderIdCounter, s.created ++ [o.id]⟩
  | system {event : System.Event} {t : System} : s.system.Step event t →
    Step s (.system event) { s with system := t }

/-- The system when an engine begins its calls. -/
def initial (e : MatchingEngine) : Creating := ⟨⟨e, []⟩, 0, []⟩

/-- The id that the next created order would get is fresh: no order was created with it, and no
order that rests or waits has it. -/
def Fresh (s : Creating) : Prop :=
  (generateOrderId s.orderIdCounter).1 ∉ s.created ∧
    ∀ r, s.system.engine.Holds r →
      (s.system.engine.mem.order r).id ≠ (generateOrderId s.orderIdCounter).1

/-- The counter does not overflow, and no order is submitted under an id to come. -/
def Admits (s : Creating) : Event → Prop
  | .createOrder .. => s.orderIdCounter + 1 < 2 ^ 64
  | .system (.begin (.submit true o)) => ¬ ToCome s.orderIdCounter o.id
  | .system _ => True

/-- A step that meets the condition. -/
def AdmittedStep (s : Creating) (event : Event) (t : Creating) : Prop :=
  s.Step event t ∧ s.Admits event

variable {s t : Creating} {event : Event} {events : List Event} {e : MatchingEngine}

/-- What such steps keep. -/
structure Counted (s : Creating) : Prop where
  created : ∀ id ∈ s.created, ∃ n, n ≤ s.orderIdCounter ∧ id = "O" ++ toString n
  held : s.system.engine.Throughout fun _ o => ¬ ToCome s.orderIdCounter o.id

theorem lasting_toCome (n : ℕ) : Lasting fun _ o => ¬ ToCome n o.id where
  modifyQuantity _ h := h
  activeOrder h := by
    unfold activeOrder
    split_ifs <;> exact h

theorem Counted.step (h : s.Counted) (hstep : s.AdmittedStep event t) : t.Counted := by
  obtain ⟨hstep, hadmits⟩ := hstep
  cases hstep with
  | @createOrder symbol side type price quantity o n hcreate =>
    rw [MatchingEngine.createOrder, generateOrderId_of_lt hadmits] at hcreate
    obtain ⟨rfl, rfl⟩ := Prod.mk.inj hcreate
    constructor
    · intro id hid
      rw [List.mem_append, List.mem_singleton] at hid
      rcases hid with hid | rfl
      · obtain ⟨n, hn, rfl⟩ := h.created id hid
        exact ⟨n, by dsimp only; omega, rfl⟩
      · exact ⟨s.orderIdCounter + 1, le_rfl, rfl⟩
    · exact h.held.mono fun _ o ho hnew => ho (hnew.mono (Nat.le_succ _))
  | @system event t hstep =>
    refine ⟨h.created, (lasting_toCome _).sections.step h.held (fun o hevent => ?_) hstep⟩
    subst hevent
    exact hadmits

/-- Fewer ids than the counter can hold: the next one is fresh. -/
theorem Counted.fresh (h : s.Counted) (hlt : s.orderIdCounter + 1 < 2 ^ 64) : s.Fresh := by
  rw [Fresh, generateOrderId_of_lt hlt]
  constructor
  · intro hid
    obtain ⟨n, hn, heq⟩ := h.created _ hid
    have hnext := orderId_injective heq
    omega
  · intro r hr hid
    exact h.held.holds (Q := fun o => ¬ ToCome s.orderIdCounter o.id) hr
      ⟨s.orderIdCounter + 1, Nat.lt_succ_self _, hlt, hid⟩

/-- Orders are created, and nothing else happens. By induction on their number. -/
theorem exists_run_createOrder (e : MatchingEngine) {n : ℕ} (hn : n < 2 ^ 64) :
    ∃ events created, Run AdmittedStep (initial e) events ⟨⟨e, []⟩, n, created⟩ := by
  induction n with
  | zero => exact ⟨_, _, .nil⟩
  | succ n ih =>
    obtain ⟨events, created, hrun⟩ := ih (Nat.lt_of_succ_lt hn)
    have hcreate : MatchingEngine.createOrder n "" .buy .limit 0 0 =
        (⟨"O" ++ toString (n + 1), "", .buy, .limit, 0, 0⟩, n + 1) := by
      rw [MatchingEngine.createOrder, generateOrderId_of_lt hn]
    exact ⟨_, _, hrun.snoc ⟨.createOrder "" .buy .limit 0 0 hcreate, hn⟩⟩

/-- An engine that holds no order under an id to come. -/
theorem fresh_of_run (h : e.Recovered) (he : ∀ r, e.Holds r → ¬ ToCome 0 (e.mem.order r).id)
    (hrun : Run AdmittedStep (initial e) events s) (hlt : s.orderIdCounter + 1 < 2 ^ 64) :
    s.Fresh := by
  have hstart : (initial e).Counted := ⟨nofun, h.built.throughout he⟩
  exact (hrun.invariant Counted hstart fun _ _ _ => Counted.step).fresh hlt

end Creating

namespace MatchingEngine

open Creating (AdmittedStep initial lasting_toCome fresh_of_run exists_run_createOrder)

/-- **Created ids are fresh exactly if a recovered engine holds none of them.** An engine begins
its calls after any replays and loads. In every run in which fewer than 2^64 orders are created,
and no order is submitted under an id that the counter has yet to reach, each created id differs
from those created before and from those of all orders that rest or wait, if and only if the
engine holds no order under an id to come when its calls begin. -/
theorem created_fresh_iff {e : MatchingEngine} (h : e.Recovered) :
    (∀ events s, Run AdmittedStep (initial e) events s → s.orderIdCounter + 1 < 2 ^ 64 → s.Fresh) ↔
      ∀ r, e.Holds r → ¬ ToCome 0 (e.mem.order r).id := by
  constructor
  · rintro hfresh r hr ⟨n, hpos, hlt, hid⟩
    obtain ⟨m, rfl⟩ := Nat.exists_eq_add_of_lt hpos
    rw [Nat.zero_add] at hlt hid
    obtain ⟨events, created, hrun⟩ := exists_run_createOrder e (Nat.lt_of_succ_lt hlt)
    have hnext := (hfresh _ _ hrun hlt).2 r hr
    rw [generateOrderId_of_lt hlt] at hnext
    exact hnext hid
  · intro he events s hrun hlt
    exact fresh_of_run h he hrun hlt

/-- The log holds an order that a caller named himself. -/
theorem created_fresh_iff_named : ∃ e : MatchingEngine, e.Recovered ∧
    (∃ r, e.Holds r ∧ (e.mem.order r).id = "bid") ∧ ∀ events s,
      Run AdmittedStep (initial e) events s → s.orderIdCounter + 1 < 2 ^ 64 → s.Fresh := by
  let bid : Order := ⟨"bid", "S", .buy, .limit, 10, 5⟩
  have hsome : ((fresh .empty .plain none).replayWAL 3 (some [(WalRecord.submit bid).toJson])).map
      (fun p => ((p.2.book "S").resting, (p.2.mem.order 0).id)) = some ([0], "bid") := by
    decide +kernel
  obtain ⟨⟨ok, e⟩, hreplay, hseen⟩ := Option.map_eq_some_iff.mp hsome
  obtain ⟨hresting, hid⟩ := Prod.mk.inj hseen
  have hrecovered : e.Recovered := .replayWAL (.fresh .empty .plain none) hreplay
  have hholds : e.Holds 0 := by
    refine ⟨"S", Or.inl (OrderBook.mem_resting.mp ?_)⟩
    rw [hresting]
    exact List.mem_singleton_self 0
  have hbid : ¬ ToCome 0 bid.id := by
    rintro ⟨n, -, -, hname⟩
    have hhead := congrArg (fun id : String => id.toList.head?) hname
    simp [bid] at hhead
  have hheld : e.Throughout fun _ o => ¬ ToCome 0 o.id := by
    refine (lasting_toCome 0).sections.replayWAL (fun hu hvec => hu.setPending hvec)
      (.of_empty rfl rfl) (fun lines hlines line hline o ho => ?_) hreplay
    obtain rfl := Option.some.inj hlines
    rw [List.mem_singleton.mp hline, WalRecord.ofJson_toJson (.submit bid) nofun] at ho
    obtain rfl := WalRecord.submit.inj (Option.some.inj (Except.ok.inj ho))
    exact hbid
  exact ⟨e, hrecovered, ⟨0, hholds, hid⟩, (created_fresh_iff hrecovered).mpr fun r hr =>
    hheld.holds (Q := fun o => ¬ ToCome 0 o.id) hr⟩

/-- **An id comes again.** An engine creates an order and submits it. The next engine replays
the log, and the id that it would give to its first order is that of the order in its book. -/
theorem reissued : ∃ (s : Creating) (e : MatchingEngine),
    Run Creating.Step (initial ((fresh .empty .plain none).startWAL (some [])).2)
      [.createOrder "S" .buy .limit 10 5,
        .system (.begin (.submit true (createOrder 0 "S" .buy .limit 10 5).1))] s ∧
    (fresh .empty .plain none).replayWAL 3 (some s.system.engine.walStream) = some (true, e) ∧
    ¬ (initial e).Fresh := by
  let o : Order := ⟨"O1", "S", .buy, .limit, 10, 5⟩
  let first := ((fresh .empty .plain none).startWAL (some [])).2
  have hcreate : createOrder 0 "S" .buy .limit 10 5 = (o, 1) := by decide +kernel
  have hsome : (System.advance 3 ⟨first, []⟩ (.begin (.submit true o))).bind (fun t =>
      ((fresh .empty .plain none).replayWAL 3 (some t.engine.walStream)).map fun p =>
        (p.1, (p.2.book "S").resting, (p.2.mem.order 0).id)) = some (true, [0], "O1") := by
    decide +kernel
  obtain ⟨t, hsubmit, hreplay⟩ := Option.bind_eq_some_iff.mp hsome
  obtain ⟨⟨ok, e⟩, hreplay, hseen⟩ := Option.map_eq_some_iff.mp hreplay
  obtain ⟨rfl, hseen⟩ := Prod.mk.inj hseen
  obtain ⟨hresting, hid⟩ := Prod.mk.inj hseen
  refine ⟨⟨t, 1, ["O1"]⟩, e, ?_, hreplay, fun hfresh => ?_⟩
  · rw [hcreate]
    exact (Run.one (.createOrder "S" .buy .limit 10 5 hcreate)).snoc
      (.system (System.step_of_advance hsubmit))
  · refine hfresh.2 0 ⟨"S", Or.inl (OrderBook.mem_resting.mp ?_)⟩ ?_
    · rw [show (initial e).system.engine = e from rfl, hresting]
      exact List.mem_singleton_self 0
    · have hnext : (generateOrderId 0).1 = "O1" := by decide +kernel
      exact hid.trans hnext.symm

end MatchingEngine

end GoQuant
