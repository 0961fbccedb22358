import GoQuant.Engine.Twins
import GoQuant.Engine.Recovery

/-!
# The order of the symbols

`cancelOrder` and `modifyOrder` name no symbol: they ask the books in the order in which a hash
map enumerates them, and the first one that knows the id takes the call. So the outcome is
determined exactly if no two books know the id. Nothing prevents two books from knowing one.

## Main definitions

* `enumerating` — the engine in a process that enumerates the symbols in another order.
* `Determined` — an operation that comes out the same in all of them.
* `Unambiguous` — a record that denotes one book in all of them.
* `SoloStep`, `SoloReplay` — a step of a call, or the replay of a record, that submits no id that
  another symbol carries.

## Main results

* `determined_iff`, `unambiguous_iff` — exactly if one book at most knows the id are a cancellation
  and a change of quantity determined, and their records unambiguous.
* `exists_run_of_replayLines` — a replay of a file is a run over records.
* `solo_replay`, `solo_of_run` — no id comes to be carried by two symbols.
* `determined_of_run` — all states, and the runs in which no id is submitted for two symbols at a
  time, in the replay and after it.
* `cancelOrder_undetermined` — two clients use one id for two symbols.
-/

namespace GoQuant

namespace MatchingEngine

variable {e : MatchingEngine} {symbol orderId : String} {newQuantity : ℚ}

/-! ## Enumerating the symbols -/

/-- The engine in a process that enumerates the symbols in another order. -/
def enumerating (e : MatchingEngine) (symbols : List String → List String)
    (h : ∀ keys, (symbols keys).Perm keys) : MatchingEngine :=
  { e with hashOrder := { e.hashOrder with symbols := symbols, symbols_perm := h } }

/-- An operation leads to the same state whatever the order of the symbols. -/
def Determined (e : MatchingEngine) (op : MatchingEngine → MatchingEngine) : Prop :=
  ∀ symbols h symbols' h', { op (e.enumerating symbols h) with hashOrder := e.hashOrder } =
    { op (e.enumerating symbols' h') with hashOrder := e.hashOrder }

/-- At most one book knows the id. -/
def KnownOnce (e : MatchingEngine) (orderId : String) : Prop :=
  ∀ symbol symbol', (e.book symbol).hasOrder orderId = true →
    (e.book symbol').hasOrder orderId = true → symbol = symbol'

/-- One symbol first, if it is there. -/
def firstly (symbol : String) (keys : List String) : List String :=
  if symbol ∈ keys then symbol :: keys.erase symbol else keys

theorem firstly_perm (symbol : String) (keys : List String) : (firstly symbol keys).Perm keys := by
  unfold firstly
  split_ifs with h
  · exact (List.perm_cons_erase h).symm
  · exact .refl _

section Commute

variable (symbols : List String → List String) (h : ∀ keys, (symbols keys).Perm keys)

theorem writeWAL_enumerating (e : MatchingEngine) (record : WalRecord) :
    (e.enumerating symbols h).writeWAL record = (e.writeWAL record).enumerating symbols h := by
  have hcondition : ((e.enumerating symbols h).walEnabled && !(e.enumerating symbols h).replaying) =
      (e.walEnabled && !e.replaying) := rfl
  unfold writeWAL
  rw [hcondition]
  split_ifs <;> rfl

theorem publishMarketDataUpdate_enumerating (e : MatchingEngine) (symbol : String) :
    (e.enumerating symbols h).publishMarketDataUpdate symbol =
      (e.publishMarketDataUpdate symbol).enumerating symbols h := by
  have hlookup : (e.enumerating symbols h).lastMarketSnapshot = e.lastMarketSnapshot := rfl
  have hchanges (v w : List (ℚ × ℚ)) :
      computeChanges (e.enumerating symbols h).hashOrder v w = computeChanges e.hashOrder v w := rfl
  have hread : (e.enumerating symbols h).getMarketData symbol 10 = e.getMarketData symbol 10 := rfl
  unfold publishMarketDataUpdate publishUpdate
  simp only [hlookup, hread]
  cases e.lastMarketSnapshot.lookup symbol with
  | none => rfl
  | some prev =>
    simp only [hchanges]
    split_ifs <;> rfl

end Commute

/-! ## The book that takes the call -/

/-- The state after the book of a symbol took a cancellation. -/
def cancelledIn (e : MatchingEngine) (orderId symbol : String) : MatchingEngine :=
  { e.setBook symbol ((e.book symbol).cancelOrder e.mem orderId).2 with
    metricOrdersCancelled := e.metricOrdersCancelled + 1 }.writeWAL (.cancel orderId)

/-- The state after the book of a symbol took a change of quantity. -/
def modifiedIn (e : MatchingEngine) (orderId : String) (newQuantity : ℚ) (symbol : String) :
    MatchingEngine :=
  match (e.book symbol).modifyOrder e.mem orderId newQuantity with
  | .ok (mem, b) => { e.setBook symbol b with mem := mem }.writeWAL (.modify orderId newQuantity)
  | .error _ => e

/-- The first book that knows an id. -/
def knower (e : MatchingEngine) (orderId : String) : Option String :=
  (e.hashOrder.symbols e.orderBooks.keys).find? fun s => (e.book s).hasOrder orderId

theorem cancelOrderUnlocked_eq (e : MatchingEngine) (orderId : String) :
    e.cancelOrderUnlocked orderId =
      match e.knower orderId with
      | none => (none, e)
      | some s => (some s, e.cancelledIn orderId s) := by
  unfold cancelOrderUnlocked knower
  rw [cancelIn_eq_find]
  cases (e.hashOrder.symbols e.orderBooks.keys).find? fun s => (e.book s).hasOrder orderId <;> rfl

theorem modifyOrderUnlocked_eq (e : MatchingEngine) (orderId : String) (newQuantity : ℚ) :
    e.modifyOrderUnlocked orderId newQuantity =
      match e.knower orderId with
      | none => (none, e)
      | some s => (some s, e.modifiedIn orderId newQuantity s) := by
  unfold modifyOrderUnlocked knower modifiedIn
  rw [modifyIn_eq_find]
  cases hfind : (e.hashOrder.symbols e.orderBooks.keys).find?
      fun s => (e.book s).hasOrder orderId with
  | none => rfl
  | some s =>
    obtain ⟨mem, b, hm⟩ := @OrderBook.modifyOrder_ok e.mem (e.book s) orderId newQuantity
      (by simpa using List.find?_some hfind)
    simp [hm, Except.toOption]

theorem knower_isSome (h : (e.book symbol).hasOrder orderId = true) :
    ∃ s, e.knower orderId = some s ∧ (e.book s).hasOrder orderId = true := by
  cases hfind : e.knower orderId with
  | none =>
    have hnone := (find_known_eq_none (e.hashOrder.symbols_perm _)).mp hfind symbol
    rw [h] at hnone
    cases hnone
  | some s => exact ⟨s, rfl, by simpa using List.find?_some hfind⟩

/-- An id that is known once is found in one book, in whatever order the books are asked. -/
theorem KnownOnce.knower_enumerating (hone : e.KnownOnce orderId)
    (symbols : List String → List String) (h : ∀ keys, (symbols keys).Perm keys) :
    (e.enumerating symbols h).knower orderId = e.knower orderId := by
  by_cases hknown : ∃ symbol, (e.book symbol).hasOrder orderId = true
  · obtain ⟨symbol, hid⟩ := hknown
    have hid' : ((e.enumerating symbols h).book symbol).hasOrder orderId = true := hid
    obtain ⟨s, hs, hsid⟩ := knower_isSome hid
    obtain ⟨s', hs', hsid'⟩ := knower_isSome hid'
    rw [hs, hs', hone s' s hsid' hsid]
  · have hnone : ∀ symbol, (e.book symbol).hasOrder orderId = false := by simpa using hknown
    have hnone' : ∀ symbol, ((e.enumerating symbols h).book symbol).hasOrder orderId = false :=
      hnone
    have hperm := (e.enumerating symbols h).hashOrder.symbols_perm
    exact ((find_known_eq_none (hperm _)).mpr hnone').trans
      ((find_known_eq_none (e.hashOrder.symbols_perm _)).mpr hnone).symm

/-- A book that is asked first, and knows the id. -/
theorem knower_firstly (h : (e.book symbol).hasOrder orderId = true) :
    (e.enumerating (firstly symbol) (firstly_perm symbol)).knower orderId = some symbol := by
  have hkeys : firstly symbol e.orderBooks.keys = symbol :: e.orderBooks.keys.erase symbol :=
    if_pos (mem_keys_of_hasOrder h)
  have hfind : (firstly symbol e.orderBooks.keys).find? (fun s => (e.book s).hasOrder orderId) =
      some symbol := by
    rw [hkeys, List.find?_cons_of_pos]
    simpa using h
  exact hfind

section Commute

variable (symbols : List String → List String) (h : ∀ keys, (symbols keys).Perm keys) (s : String)

theorem cancelledIn_enumerating : (e.enumerating symbols h).cancelledIn orderId s =
    (e.cancelledIn orderId s).enumerating symbols h :=
  writeWAL_enumerating symbols h { e.setBook s ((e.book s).cancelOrder e.mem orderId).2 with
    metricOrdersCancelled := e.metricOrdersCancelled + 1 } (.cancel orderId)

theorem modifiedIn_enumerating : (e.enumerating symbols h).modifiedIn orderId newQuantity s =
    (e.modifiedIn orderId newQuantity s).enumerating symbols h := by
  have hmodify : ((e.enumerating symbols h).book s).modifyOrder (e.enumerating symbols h).mem
      orderId newQuantity = (e.book s).modifyOrder e.mem orderId newQuantity := rfl
  unfold modifiedIn
  rw [hmodify]
  cases (e.book s).modifyOrder e.mem orderId newQuantity with
  | error message => rfl
  | ok p =>
    exact writeWAL_enumerating symbols h { e.setBook s p.2 with mem := p.1 }
      (.modify orderId newQuantity)

end Commute

/-! ## What is determined -/

/-- An operation on the book that knows an id. -/
def onKnower (orderId : String) (op : String → MatchingEngine → MatchingEngine)
    (e : MatchingEngine) : MatchingEngine :=
  match e.knower orderId with
  | none => e
  | some s => op s e

theorem KnownOnce.determined (hone : e.KnownOnce orderId)
    {op : String → MatchingEngine → MatchingEngine}
    (hop : ∀ symbols h s, op s (e.enumerating symbols h) = (op s e).enumerating symbols h) :
    e.Determined (onKnower orderId op) := by
  have hstate (symbols h) : { onKnower orderId op (e.enumerating symbols h) with
      hashOrder := e.hashOrder } = { onKnower orderId op e with hashOrder := e.hashOrder } := by
    unfold onKnower
    rw [hone.knower_enumerating symbols h]
    cases e.knower orderId with
    | none => rfl
    | some s =>
      simp only [hop]
      rfl
  intro symbols h symbols' h'
  exact (hstate symbols h).trans (hstate symbols' h').symm

/-- An operation that leaves a trace of the book that took it. -/
theorem knownOnce_of_determined {op : String → MatchingEngine → MatchingEngine} {α : Type}
    (trace : MatchingEngine → String → α)
    (hop : ∀ symbols h s s', s' ≠ s →
      trace (op s (e.enumerating symbols h)) s' = trace e s')
    (hself : ∀ symbols h s, (e.book s).hasOrder orderId = true →
      trace (op s (e.enumerating symbols h)) s ≠ trace e s)
    (htrace : ∀ u : MatchingEngine, trace { u with hashOrder := e.hashOrder } = trace u)
    (hdetermined : e.Determined (onKnower orderId op)) : e.KnownOnce orderId := by
  intro symbol symbol' hid hid'
  by_contra hne
  have hsame := hdetermined (firstly symbol) (firstly_perm symbol) (firstly symbol')
    (firstly_perm symbol')
  have htraces := congrArg (fun u : MatchingEngine => trace u symbol) hsame
  simp only [onKnower, knower_firstly hid, knower_firstly hid', htrace] at htraces
  rw [hop _ _ symbol' symbol hne] at htraces
  exact hself _ _ symbol hid htraces

theorem cancelOrder_eq (orderId : String) :
    (fun e : MatchingEngine => (e.cancelOrder orderId).2) =
      onKnower orderId fun s e => (e.cancelledIn orderId s).publishMarketDataUpdate s := by
  funext e
  unfold cancelOrder onKnower
  rw [cancelOrderUnlocked_eq]
  cases e.knower orderId <;> rfl

theorem modifyOrder_eq (orderId : String) (newQuantity : ℚ) :
    (fun e : MatchingEngine => (e.modifyOrder orderId newQuantity).2) =
      onKnower orderId fun s e =>
        (e.modifiedIn orderId newQuantity s).publishMarketDataUpdate s := by
  funext e
  unfold modifyOrder onKnower
  rw [modifyOrderUnlocked_eq]
  cases e.knower orderId <;> rfl

/-- Each publication takes a number of its symbol. -/
theorem publishMarketDataUpdate_marketDataSeqs (e : MatchingEngine) (symbol : String) :
    (e.publishMarketDataUpdate symbol).marketDataSeqs =
      e.marketDataSeqs.insert symbol ((e.marketDataSeqs.lookup symbol).getD 0 + 1) := by
  unfold publishMarketDataUpdate publishUpdate
  dsimp only
  split
  · rfl
  · split_ifs <;> rfl

theorem publishMarketDataUpdate_lookup_of_ne {s s' : String} (h : s' ≠ s) :
    (e.publishMarketDataUpdate s).marketDataSeqs.lookup s' = e.marketDataSeqs.lookup s' := by
  rw [publishMarketDataUpdate_marketDataSeqs, AList.lookup_insert_ne h]

theorem publishMarketDataUpdate_lookup_self (e : MatchingEngine) (s : String) :
    (e.publishMarketDataUpdate s).marketDataSeqs.lookup s ≠ e.marketDataSeqs.lookup s := by
  rw [publishMarketDataUpdate_marketDataSeqs, AList.lookup_insert]
  cases e.marketDataSeqs.lookup s with
  | none => exact Option.some_ne_none _
  | some n => simp

theorem writeWAL_marketDataSeqs (e : MatchingEngine) (record : WalRecord) :
    (e.writeWAL record).marketDataSeqs = e.marketDataSeqs := by
  unfold writeWAL
  split_ifs <;> rfl

theorem modifiedIn_marketDataSeqs (e : MatchingEngine) (s : String) :
    (e.modifiedIn orderId newQuantity s).marketDataSeqs = e.marketDataSeqs := by
  unfold modifiedIn
  split
  · exact writeWAL_marketDataSeqs _ _
  · rfl

/-- A cancellation and a change of quantity lead to the same state in all orders of the
symbols, exactly if at most one book knows the id. -/
theorem determined_iff (e : MatchingEngine) (orderId : String) (newQuantity : ℚ) :
    (e.Determined (fun e => (e.cancelOrder orderId).2) ↔ e.KnownOnce orderId) ∧
    (e.Determined (fun e => (e.modifyOrder orderId newQuantity).2) ↔ e.KnownOnce orderId) := by
  have hcancel (symbols h s) : (e.enumerating symbols h).cancelledIn orderId s = _ :=
    cancelledIn_enumerating symbols h s
  have hmodify (symbols h s) : (e.enumerating symbols h).modifiedIn orderId newQuantity s = _ :=
    modifiedIn_enumerating symbols h s
  let trace (u : MatchingEngine) (s : String) := u.marketDataSeqs.lookup s
  rw [cancelOrder_eq, modifyOrder_eq]
  refine ⟨⟨knownOnce_of_determined trace (fun symbols h s s' hne => ?_) (fun symbols h s _ => ?_)
      fun _ => rfl, fun hone => hone.determined fun symbols h s => ?_⟩,
    ⟨knownOnce_of_determined trace (fun symbols h s s' hne => ?_) (fun symbols h s _ => ?_)
      fun _ => rfl, fun hone => hone.determined fun symbols h s => ?_⟩⟩
  · simp only [trace]
    rw [publishMarketDataUpdate_lookup_of_ne hne, cancelledIn, writeWAL_marketDataSeqs]
    rfl
  · have hself :=
      publishMarketDataUpdate_lookup_self ((e.enumerating symbols h).cancelledIn orderId s) s
    rwa [cancelledIn, writeWAL_marketDataSeqs] at hself
  · rw [hcancel, publishMarketDataUpdate_enumerating]
  · simp only [trace]
    rw [publishMarketDataUpdate_lookup_of_ne hne, modifiedIn_marketDataSeqs]
    rfl
  · have hself := publishMarketDataUpdate_lookup_self
      ((e.enumerating symbols h).modifiedIn orderId newQuantity s) s
    rwa [modifiedIn_marketDataSeqs] at hself
  · rw [hmodify, publishMarketDataUpdate_enumerating]

/-! ## What a record denotes -/

/-- The book that the replay of a record finds for it. -/
def denoted (e : MatchingEngine) : WalRecord → Option String
  | .cancel orderId => (e.cancelOrderUnlocked orderId).1
  | .modify orderId newQty => (e.modifyOrderUnlocked orderId newQty).1
  | _ => none

/-- A record denotes the same book, and its replay leads to the same state, in all orders of the
symbols. -/
def Unambiguous (e : MatchingEngine) (record : WalRecord) : Prop :=
  (∀ symbols h symbols' h', (e.enumerating symbols h).denoted record =
    (e.enumerating symbols' h').denoted record) ∧
  ∀ fuel, e.Determined fun e => ((e.replayRecord fuel record).map Prod.snd).getD e

theorem denoted_eq_knower {record : WalRecord}
    (hrecord : record ∈ [WalRecord.cancel orderId, .modify orderId newQuantity]) :
    e.denoted record = e.knower orderId := by
  simp only [List.mem_cons, List.not_mem_nil, or_false] at hrecord
  rcases hrecord with rfl | rfl
  · simp only [denoted, cancelOrderUnlocked_eq]
    cases e.knower orderId <;> rfl
  · simp only [denoted, modifyOrderUnlocked_eq]
    cases e.knower orderId <;> rfl

/-- The records of a cancellation and of a change of quantity are unambiguous exactly if at most
one book knows the id. -/
theorem unambiguous_iff {record : WalRecord}
    (hrecord : record ∈ [WalRecord.cancel orderId, .modify orderId newQuantity]) :
    e.Unambiguous record ↔ e.KnownOnce orderId := by
  constructor
  · rintro ⟨hdenoted, -⟩ symbol symbol' hid hid'
    have hsame := hdenoted (firstly symbol) (firstly_perm symbol) (firstly symbol')
      (firstly_perm symbol')
    rw [denoted_eq_knower hrecord, denoted_eq_knower hrecord, knower_firstly hid,
      knower_firstly hid'] at hsame
    exact Option.some.inj hsame
  · intro hone
    refine ⟨fun symbols h symbols' h' => ?_, fun fuel => ?_⟩
    · rw [denoted_eq_knower hrecord, denoted_eq_knower hrecord, hone.knower_enumerating symbols h,
        hone.knower_enumerating symbols' h']
    simp only [List.mem_cons, List.not_mem_nil, or_false] at hrecord
    rcases hrecord with rfl | rfl
    · have heq : (fun e : MatchingEngine => ((e.replayRecord fuel (.cancel orderId)).map
          Prod.snd).getD e) = onKnower orderId fun s e => e.cancelledIn orderId s := by
        funext e
        simp only [replayRecord, cancelOrderUnlocked_eq, onKnower]
        cases e.knower orderId <;> rfl
      rw [heq]
      exact hone.determined cancelledIn_enumerating
    · have heq : (fun e : MatchingEngine => ((e.replayRecord fuel (.modify orderId newQuantity)).map
          Prod.snd).getD e) = onKnower orderId fun s e => e.modifiedIn orderId newQuantity s := by
        funext e
        simp only [replayRecord, modifyOrderUnlocked_eq, onKnower]
        cases e.knower orderId <;> rfl
      rw [heq]
      exact hone.determined modifiedIn_enumerating

/-! ## Who carries an id, in calls and in replays -/

theorem Carries.of_same {e' : MatchingEngine} {id : String} (h : e'.Carries symbol id)
    (hs : e.SameBooks e') : e.Carries symbol id := by
  simpa only [Carries, waiting, hs.mem, hs.book, hs.pending] using h

/-- Each section brings no id to a symbol but that of the order it accepts. -/
theorem carries_sections (symbol id : String) (C : Prop) :
    SectionInvariantOn (fun o => o.symbol = symbol → o.id = id → C) fun e =>
      (e.PendingApart ∧ e.Books Sane) ∧ (e.Carries symbol id → C) := by
  have hsteps {e e' : MatchingEngine} {event : System.Event} {calls calls' : List (List Task)}
      (h : (e.PendingApart ∧ e.Books Sane) ∧ (e.Carries symbol id → C))
      (hstep : System.Step ⟨e, calls⟩ event ⟨e', calls'⟩)
      (hkind : ∀ o, event = .begin (.submit true o) → o.symbol = symbol → o.id = id → C) :
      (e'.PendingApart ∧ e'.Books Sane) ∧ (e'.Carries symbol id → C) := by
    refine ⟨pendingApart_sections.step (s := ⟨e, calls⟩) h.1 hstep, fun hid => ?_⟩
    rcases System.carries_step h.1.1 h.1.2 hstep hid with hold | ⟨o, hevent, hsymbol, hid⟩
    · exact h.2 hold
    · exact hkind o hevent hsymbol hid
  constructor
  case of_same => exact fun h hs => ⟨pendingApart_sections.of_same h.1 hs, fun hid =>
    h.2 (hid.of_same hs)⟩
  case alloc =>
    intro e o h
    have hstep : System.Step ⟨e, []⟩ (.begin (.submit false o)) ⟨(e.alloc o).1, [[]]⟩ :=
      .begin (show e.start 0 _ = _ from rfl)
    exact hsteps h hstep fun o' hevent => by cases hevent
  case acceptOrder =>
    intro fuel e o r e' hkind h haccept
    obtain ⟨tasks, hstart⟩ : ∃ tasks, e.start fuel (.submit true o) = some (tasks, e') := by
      simp only [start, haccept]
      rcases r with _ | _ | _ <;> exact ⟨_, rfl⟩
    have hstep : System.Step ⟨e, []⟩ (.begin (.submit true o)) ⟨e', [tasks]⟩ := .begin hstart
    refine hsteps h hstep fun o' hevent => ?_
    cases hevent
    exact hkind
  case cancelOrderUnlocked =>
    intro e orderId h
    have hstep : System.Step ⟨e, []⟩ (.begin (.cancel orderId))
      ⟨(e.cancelOrderUnlocked orderId).2, [_]⟩ := .begin (show e.start 0 _ = _ from rfl)
    exact hsteps h hstep fun o' hevent => by cases hevent
  case modifyOrderUnlocked =>
    intro e orderId newQuantity h
    have hstep : System.Step ⟨e, []⟩ (.begin (.modify orderId newQuantity))
      ⟨(e.modifyOrderUnlocked orderId newQuantity).2, [_]⟩ :=
      .begin (show e.start 0 _ = _ from rfl)
    exact hsteps h hstep fun o' hevent => by cases hevent
  case checkTriggers =>
    intro fuel e symbol' price e' h hcheck
    have hperform : e.perform fuel (.check symbol' price) = some ([], e') := by
      simp only [perform, hcheck, Option.map_some]
    have hstep : System.Step ⟨e, [[.check symbol' price]]⟩ (.proceed 0) ⟨e', [[]]⟩ :=
      @System.Step.proceed ⟨e, [[.check symbol' price]]⟩ fuel 0 _ [] [] e' rfl hperform
    exact hsteps h hstep fun o' hevent => by cases hevent

/-- A replay that forgets pending orders. -/
theorem PendingApart.forget {vec : List Ref} (h : e.PendingApart)
    (hvec : ∀ ord ∈ vec, ord ∈ e.pending symbol) : (e.setPending symbol vec).PendingApart := by
  have hspares : e.Spares (e.setPending symbol vec) := fun r hr => ⟨hr, rfl⟩
  refine h.of_spares hspares fun symbol' ord hord => ?_
  by_cases hsymbol : symbol' = symbol
  · subst hsymbol
    rw [pending_setPending_self] at hord
    exact hvec ord hord
  · rwa [pending_setPending_of_ne _ _ hsymbol] at hord

/-- A pending order that is forgotten leaves no id behind. -/
theorem Carries.of_forget {vec : List Ref} {s id : String}
    (hid : (e.setPending symbol vec).Carries s id)
    (hvec : ∀ ord ∈ vec, ord ∈ e.pending symbol) : e.Carries s id := by
  rcases hid with hbook | ⟨o, ho, rfl⟩
  · exact Or.inl hbook
  · obtain ⟨ord, hord, rfl⟩ := List.mem_map.mp ho
    refine Or.inr ⟨_, List.mem_map.mpr ⟨ord, ?_, rfl⟩, rfl⟩
    by_cases hsymbol : s = symbol
    · subst hsymbol
      rw [pending_setPending_self] at hord
      exact hvec ord hord
    · rwa [pending_setPending_of_ne _ _ hsymbol] at hord

/-- The replay of a record brings no id to a symbol but that of the order it submits. -/
theorem carries_replayRecord {fuel : ℕ} {e' : MatchingEngine} {record : WalRecord}
    {r : Except String Unit} {id : String} (ha : e.PendingApart ∧ e.Books Sane)
    (h : e.replayRecord fuel record = some (r, e')) (hid : e'.Carries symbol id) :
    e.Carries symbol id ∨ ∃ o, record = .submit o ∧ o.symbol = symbol ∧ o.id = id := by
  have hsections := carries_sections symbol id
    (e.Carries symbol id ∨ ∃ o, record = .submit o ∧ o.symbol = symbol ∧ o.id = id)
  refine (hsections.replayRecord (fun hu hvec => ?_) ⟨ha, Or.inl⟩ (fun o ho hsymbol hid =>
    Or.inr ⟨o, ho, hsymbol, hid⟩) h).2 hid
  exact ⟨⟨hu.1.1.forget hvec, hu.1.2⟩, fun hid => hu.2 (hid.of_forget hvec)⟩

/-- Each id is carried by at most one symbol. -/
def Solo (e : MatchingEngine) : Prop := ∀ id symbol symbol', e.Carries symbol id →
  e.Carries symbol' id → symbol = symbol'

/-- An order has an id that no other symbol carries. -/
def SoloOrder (e : MatchingEngine) (o : Order) : Prop :=
  ∀ symbol, e.Carries symbol o.id → symbol = o.symbol

instance (e : MatchingEngine) (o : Order) : Decidable (e.SoloOrder o) :=
  decidable_of_iff
    (∀ symbol ∈ e.orderBooks.keys ++ e.triggerOrders.keys,
      e.Carries symbol o.id → symbol = o.symbol)
    ⟨fun h symbol hid => h symbol (List.mem_append.mpr hid.mem_keys) hid,
      fun h symbol _ => h symbol⟩

theorem Solo.knownOnce (h : e.Solo) (orderId : String) : e.KnownOnce orderId :=
  fun symbol symbol' hid hid' =>
    h orderId symbol symbol' (Or.inl (Or.inl hid)) (Or.inl (Or.inl hid'))

/-- One order may bring its id to its symbol. -/
theorem Solo.step {e' : MatchingEngine} (h : e.Solo) (new : Order → Prop)
    (hone : ∀ o o', new o → new o' → o = o') (hnew : ∀ o, new o → e.SoloOrder o)
    (hcarries : ∀ symbol id, e'.Carries symbol id →
      e.Carries symbol id ∨ ∃ o, new o ∧ o.symbol = symbol ∧ o.id = id) : e'.Solo := by
  intro id symbol symbol' hid hid'
  rcases hcarries symbol id hid with hold | ⟨o, ho, rfl, rfl⟩
  · rcases hcarries symbol' id hid' with hold' | ⟨o', ho', rfl, rfl⟩
    · exact h id symbol symbol' hold hold'
    · exact hnew o' ho' symbol hold
  · rcases hcarries symbol' _ hid' with hold' | ⟨o', ho', rfl, -⟩
    · exact (hnew o ho symbol' hold').symm
    · rw [hone o o' ho ho']

/-! ## Replays -/

/-- A record is replayed. -/
def ReplayStep (e : MatchingEngine) (record : WalRecord) (e' : MatchingEngine) : Prop :=
  ∃ fuel r, e.replayRecord fuel record = some (r, e')

/-- The order of a record has an id that no other symbol carries. -/
def SoloRecord (e : MatchingEngine) : WalRecord → Prop
  | .submit o => e.SoloOrder o
  | _ => True

instance (e : MatchingEngine) : (record : WalRecord) → Decidable (e.SoloRecord record)
  | .submit o => inferInstanceAs (Decidable (e.SoloOrder o))
  | .cancel _ | .modify _ _ | .activated _ _ | .trade _ => inferInstanceAs (Decidable True)

/-- A record is replayed that submits no id that another symbol carries. -/
def SoloReplay (e : MatchingEngine) (record : WalRecord) (e' : MatchingEngine) : Prop :=
  e.ReplayStep record e' ∧ e.SoloRecord record

/-- A replay of a file goes through the records that it reads from the lines. -/
theorem exists_run_of_replayLines {fuel : ℕ} {lines : List Json} {ok : Bool} {e' : MatchingEngine}
    (h : replayLines fuel lines e = some (ok, e')) : ∃ records, Run ReplayStep e records e' := by
  induction lines generalizing e with
  | nil =>
    obtain ⟨-, rfl⟩ := Prod.mk.inj (Option.some.inj h)
    exact ⟨[], .nil⟩
  | cons line lines ih =>
    simp only [replayLines] at h
    split at h
    · obtain ⟨-, rfl⟩ := Prod.mk.inj (Option.some.inj h)
      exact ⟨[], .nil⟩
    · exact ih h
    · rename_i record hline
      split at h
      · cases h
      · rename_i hrecord
        obtain ⟨-, rfl⟩ := Prod.mk.inj (Option.some.inj h)
        exact ⟨[record], Run.cons_iff.mpr ⟨_, ⟨fuel, _, hrecord⟩, .nil⟩⟩
      · rename_i hrecord
        obtain ⟨records, hrun⟩ := ih h
        exact ⟨record :: records, Run.cons_iff.mpr ⟨_, ⟨fuel, _, hrecord⟩, hrun⟩⟩

end MatchingEngine

/-! ## Runs -/

namespace System

open MatchingEngine

variable {s t : System} {event : Event} {events : List Event}

/-- The order that a step submits has an id that no other symbol carries. -/
def SoloAt (s : System) : Event → Prop
  | .begin (.submit true o) => s.engine.SoloOrder o
  | _ => True

instance (s : System) : (event : Event) → Decidable (s.SoloAt event)
  | .begin (.submit true o) => inferInstanceAs (Decidable (s.engine.SoloOrder o))
  | .begin (.submit false _) | .begin (.cancel _) | .begin (.modify _ _)
  | .begin (.subscribeToMarketData _ _) | .begin (.subscribeToTrades _ _) | .proceed _ =>
    inferInstanceAs (Decidable True)

/-- A step that submits no id that another symbol carries. -/
def SoloStep (s : System) (event : Event) (t : System) : Prop := s.Step event t ∧ s.SoloAt event

end System

namespace MatchingEngine

variable {mem : Memory} {hashOrder : HashOrder} {feeModel : Option FeeModel}
  {file : Option (List Json)} {records : List WalRecord} {s : System} {events : List System.Event}

theorem apart_replay (h : Run ReplayStep { fresh mem hashOrder feeModel with replaying := true }
    records e) : e.PendingApart ∧ e.Books Sane :=
  h.invariant (fun e => e.PendingApart ∧ e.Books Sane)
    ⟨fun _ _ hord => absurd hord List.not_mem_nil, bookInvariant_sane.fresh rfl⟩
    fun _ _ _ he ⟨_, _, hr⟩ => pendingApart_sections.on.replayRecord
      (fun hu hvec => ⟨hu.1.forget hvec, hu.2⟩) he (fun _ _ => trivial) hr

theorem solo_replay (h : Run SoloReplay { fresh mem hashOrder feeModel with replaying := true }
    records e) : (e.PendingApart ∧ e.Books Sane) ∧ e.Solo := by
  refine h.invariant (fun e => (e.PendingApart ∧ e.Books Sane) ∧ e.Solo)
    ⟨apart_replay .nil, fun id symbol _ hid => ?_⟩ fun e record e' he hstep => ?_
  · have hkeys := hid.mem_keys
    simp [fresh] at hkeys
  · obtain ⟨⟨fuel, r, hr⟩, hsolo⟩ := hstep
    refine ⟨pendingApart_sections.on.replayRecord
      (fun hu hvec => ⟨hu.1.forget hvec, hu.2⟩) he.1 (fun _ _ => trivial) hr, ?_⟩
    refine he.2.step (fun o => record = .submit o) (fun o o' ho ho' => ?_) (fun o ho => ?_)
      fun symbol id hid => carries_replayRecord he.1 hr hid
    · cases ho.symm.trans ho'
      rfl
    · rwa [ho] at hsolo

/-- An engine that has replayed opens its log. -/
theorem sameBooks_startWAL (e : MatchingEngine) (file : Option (List Json)) :
    e.SameBooks ({ e with replaying := false }.startWAL file).2 := by
  cases file <;> exact ⟨rfl, fun _ => rfl, fun _ => rfl, rfl, rfl⟩

theorem solo_of_run
    (hreplay : Run SoloReplay { fresh mem hashOrder feeModel with replaying := true } records e)
    (h : Run System.SoloStep ⟨({ e with replaying := false }.startWAL file).2, []⟩ events s) :
    s.engine.Solo := by
  obtain ⟨hapart, hsolo⟩ := solo_replay hreplay
  have hsame := sameBooks_startWAL e file
  refine (h.invariant (fun s => (s.engine.PendingApart ∧ s.engine.Books Sane) ∧ s.engine.Solo)
    ⟨pendingApart_sections.of_same hapart hsame, fun id symbol symbol' hid hid' =>
      hsolo id symbol symbol' (hid.of_same hsame) (hid'.of_same hsame)⟩
    fun t event u ht hstep => ⟨pendingApart_sections.step ht.1 hstep.1, ?_⟩).2
  refine ht.2.step (fun o => event = .begin (.submit true o)) (fun o o' ho ho' => ?_)
    (fun o ho => ?_) fun symbol id hid => System.carries_step ht.1.1 ht.1.2 hstep.1 hid
  · cases ho.symm.trans ho'
    rfl
  · have hat := hstep.2
    rw [ho] at hat
    exact hat

/-- **Hash-map order.** In every state, a cancellation and a change of quantity lead to the same
state in all orders of the symbols, exactly if at most one book knows the id. Exactly then does the
record of one denote the same book in a replay. An engine replays records and serves calls: if no
record and no call submits an id that another symbol carries at that moment, then this is so for
every id, of the records that it may replay next, and of the calls. -/
theorem determined_of_run (orderId : String) (newQuantity : ℚ) :
    (∀ e : MatchingEngine,
      (e.Determined (fun e => (e.cancelOrder orderId).2) ↔ e.KnownOnce orderId) ∧
      (e.Determined (fun e => (e.modifyOrder orderId newQuantity).2) ↔ e.KnownOnce orderId) ∧
      ∀ record ∈ [WalRecord.cancel orderId, .modify orderId newQuantity],
        (e.Unambiguous record ↔ e.KnownOnce orderId)) ∧
    ∀ mem hashOrder feeModel records e file events s,
      Run SoloReplay { fresh mem hashOrder feeModel with replaying := true } records e →
      Run System.SoloStep ⟨({ e with replaying := false }.startWAL file).2, []⟩ events s →
      (∀ record ∈ [WalRecord.cancel orderId, .modify orderId newQuantity],
        e.Unambiguous record) ∧
      s.engine.Determined (fun e => (e.cancelOrder orderId).2) ∧
      s.engine.Determined fun e => (e.modifyOrder orderId newQuantity).2 := by
  refine ⟨fun e => ?_, fun mem hashOrder feeModel records e file events s hreplay hcalls => ?_⟩
  · obtain ⟨hcancel, hmodify⟩ := determined_iff e orderId newQuantity
    exact ⟨hcancel, hmodify, fun _ hrecord => unambiguous_iff hrecord⟩
  · obtain ⟨hcancel, hmodify⟩ := determined_iff s.engine orderId newQuantity
    have hone := (solo_of_run hreplay hcalls).knownOnce orderId
    refine ⟨fun record hrecord => ?_, hcancel.mpr hone, hmodify.mpr hone⟩
    exact (unambiguous_iff hrecord).mpr ((solo_replay hreplay).2.knownOnce orderId)

/-- An id is used for one symbol in the replay, and for another one after that. -/
theorem determined_of_run_reuse : ∃ (e : MatchingEngine) (s : System) (events : List System.Event),
    Run ReplayStep { fresh .empty .plain none with replaying := true }
      [.submit ⟨"x", "A", .buy, .limit, 10, 1⟩] e ∧ e.Unambiguous (.cancel "x") ∧
    Run System.Step ⟨({ e with replaying := false }.startWAL none).2, []⟩ events s ∧
    (s.engine.book "B").hasOrder "x" = true ∧
    s.engine.Determined (fun e => (e.cancelOrder "x").2) := by
  let replay (e : MatchingEngine) (record : WalRecord) : Option MatchingEngine :=
    if e.SoloRecord record then (e.replayRecord 1 record).map Prod.snd else none
  let replayed := Run.exec (fun e record => (replay e record).map (record, ·))
    { fresh .empty .plain none with replaying := true } [.submit ⟨"x", "A", .buy, .limit, 10, 1⟩]
  let served (e : MatchingEngine) := Run.exec (System.advanceIf 1 System.SoloAt)
    ⟨({ e with replaying := false }.startWAL none).2, []⟩ [.begin (.cancel "x"),
      .begin (.submit true ⟨"stop", "B", .sell, .stopLoss, 5, 1⟩), .proceed 0,
      .begin (.submit true ⟨"x", "B", .buy, .limit, 10, 1⟩)]
  have hsome : (replayed.bind fun p => (served p.2).map fun q =>
      (q.2.engine.book "B").hasOrder "x") = some true := by decide +kernel
  obtain ⟨⟨records, e⟩, hreplayed, hserved⟩ := Option.bind_eq_some_iff.mp hsome
  obtain ⟨⟨events, s⟩, hserved, hseen⟩ := Option.map_eq_some_iff.mp hserved
  obtain rfl := Run.exec_events hreplayed
  have hreplay : Run SoloReplay { fresh .empty .plain none with replaying := true }
      [.submit ⟨"x", "A", .buy, .limit, 10, 1⟩] e := by
    refine Run.of_exec (fun e record record' e' he => ?_) hreplayed
    obtain ⟨u, hu, heq⟩ := Option.map_eq_some_iff.mp he
    obtain ⟨rfl, rfl⟩ := Prod.mk.inj heq
    obtain ⟨hsolo, hu⟩ := Option.ite_none_right_eq_some.mp hu
    obtain ⟨⟨r, w⟩, hw, rfl⟩ := Option.map_eq_some_iff.mp hu
    exact ⟨⟨1, r, hw⟩, hsolo⟩
  have hcalls : Run System.SoloStep ⟨({ e with replaying := false }.startWAL none).2, []⟩
    events s := System.run_of_execIf hserved
  obtain ⟨hrecords, hcancel, -⟩ :=
    (determined_of_run "x" 0).2 .empty .plain none _ e none events s hreplay hcalls
  exact ⟨e, s, events, hreplay.mono fun _ _ _ h => h.1, hrecords _ List.mem_cons_self,
    hcalls.mono fun _ _ _ h => h.1, hseen, hcancel⟩

/-- **An id for two symbols.** Two orders of one id rest in two books. Which of them a
cancellation takes out, and which one a record of it, depends on the hash map. -/
theorem cancelOrder_undetermined : ∃ s : System,
    (∃ events, Run System.Step ⟨fresh .empty .plain none, []⟩ events s) ∧ s.Idle ∧
    (∀ symbol ∈ ["A", "B"], (s.engine.book symbol).hasOrder "x" = true) ∧
    ¬ s.engine.Determined (fun e => (e.cancelOrder "x").2) ∧
    ¬ s.engine.Determined (fun e => ((e.replayRecord 0 (.cancel "x")).map Prod.snd).getD e) := by
  let events : List System.Event := [
    .begin (.submit true ⟨"x", "A", .buy, .limit, 10, 1⟩), .proceed 0, .proceed 0,
    .begin (.submit true ⟨"x", "B", .buy, .limit, 10, 1⟩), .proceed 1, .proceed 1]
  let final := Run.exec (fun (s : System) event => (s.advance 1 event).map (event, ·))
    ⟨fresh .empty .plain none, []⟩ events
  let reversed (e : MatchingEngine) := e.enumerating List.reverse fun keys => keys.reverse_perm
  let cancelled (e : MatchingEngine) := (e.cancelOrder "x").2
  let replayed (e : MatchingEngine) := ((e.replayRecord 0 (.cancel "x")).map Prod.snd).getD e
  let knows (e : MatchingEngine) := ["A", "B"].map fun symbol => (e.book symbol).hasOrder "x"
  have hseen : final.map (fun p => (decide p.2.Idle, [knows p.2.engine,
      knows (cancelled p.2.engine), knows (cancelled (reversed p.2.engine)),
      knows (replayed p.2.engine), knows (replayed (reversed p.2.engine))])) =
        some (true,
          [[true, true], [true, false], [false, true], [true, false], [false, true]]) := by
    decide +kernel
  obtain ⟨⟨events', s⟩, hfinal, hseen⟩ := Option.map_eq_some_iff.mp hseen
  simp only [Prod.mk.injEq, List.cons.injEq, and_true] at hseen
  obtain ⟨hidle, hknown, hcancelled, hcancelled', hreplayed, hreplayed'⟩ := hseen
  have hplain : s.engine.enumerating s.engine.hashOrder.symbols s.engine.hashOrder.symbols_perm =
      s.engine := rfl
  have hdiffers (op : MatchingEngine → MatchingEngine) (h : knows (op s.engine) = [true, false])
      (h' : knows (op (reversed s.engine)) = [false, true]) : ¬ s.engine.Determined op := by
    intro hdetermined
    have hsame := hdetermined s.engine.hashOrder.symbols s.engine.hashOrder.symbols_perm
      List.reverse fun keys => keys.reverse_perm
    rw [hplain] at hsame
    have hknows := congrArg knows hsame
    change knows (op s.engine) = knows (op (reversed s.engine)) at hknows
    rw [h, h'] at hknows
    exact absurd hknows (by decide)
  refine ⟨s, ⟨events', System.run_of_exec hfinal⟩, of_decide_eq_true hidle, ?_,
    hdiffers cancelled hcancelled hcancelled', hdiffers replayed hreplayed hreplayed'⟩
  simpa [knows] using hknown

end MatchingEngine

end GoQuant
