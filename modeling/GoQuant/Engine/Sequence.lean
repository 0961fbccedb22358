import GoQuant.Engine.Carriers
import GoQuant.Engine.Reports

/-!
# Numbers in the order of executions

A trade is executed in one critical section, numbered in a later one, and handed to the
callbacks outside of any. When calls overlap, the numbers and the deliveries can leave the order
of the executions. They keep it if every trade is numbered after the trades of its symbol that
earlier calls executed, and delivered after those that have smaller numbers.

## Main definitions

* `Sequenced` — numbers and deliveries follow the executions.
* `System.InOrderAt` — the next step does not overtake.

## Main results

* `sequenced_of_run` — runs whose steps do not overtake.
* `overtaken` — a run in which one does.
-/

namespace GoQuant

open MatchingAlgorithm

namespace MatchingEngine

variable {fuel : ℕ} {e e' e'' : MatchingEngine} {symbol orderId : String} {newQuantity : ℚ}
  {o : Order} {os : List Order} {tasks : List Task}

/-! ## The ids of the trades executed -/

/-- The ids of the trades executed so far. -/
def tradeIds (e : MatchingEngine) : List String := e.executed.map fun p => p.2.tradeId

/-- Trades are executed under the next ids. -/
def Mints (e e' : MatchingEngine) : Prop :=
  ∃ n, e'.tradeIds = e.tradeIds ++ e.mem.tradeIds n ∧
    e'.mem.tradeCounter = e.mem.tradeCounter + n

namespace Mints

theorem idle (hexecuted : e'.executed = e.executed)
    (hcounter : e'.mem.tradeCounter = e.mem.tradeCounter) : Mints e e' :=
  ⟨0, by rw [MatchingEngine.tradeIds, hexecuted]; exact (List.append_nil _).symm, hcounter⟩

theorem trans (h : Mints e e') (h' : Mints e' e'') : Mints e e'' := by
  obtain ⟨n, hids, hcounter⟩ := h
  obtain ⟨n', hids', hcounter'⟩ := h'
  refine ⟨n + n', ?_, by omega⟩
  have hconcat : e.mem.tradeIds (n + n') = e.mem.tradeIds n ++ e'.mem.tradeIds n' := by
    rw [Memory.tradeIds, ← List.range'_append_1, List.map_append, Memory.tradeIds,
      Memory.tradeIds, hcounter, Nat.add_right_comm]
  rw [hids', hids, hconcat, List.append_assoc]

theorem of_same (h : e.SameBooks e') (hx : Executes symbol [] e e') : Mints e e' :=
  .idle (hx.executed.trans (List.append_nil _)) (by rw [h.mem])

/-- By induction on the orders matched. -/
theorem of_matches (h : Matches symbol os e e') : Mints e e' := by
  induction h with
  | nil hs hx => exact .of_same hs hx
  | @cons e u e' o os result hs hx hr _ ih =>
    refine Mints.trans ?_ ih
    obtain ⟨n, hids, hcounter⟩ := returns_minted hr
    refine ⟨n, ?_, hcounter⟩
    have hexecuted : (u.matched symbol result).executed =
        e.executed ++ result.trades.map (symbol, ·) :=
      (hx.trans (.matched u symbol result)).executed
    rw [MatchingEngine.tradeIds, hexecuted, List.map_append, List.map_map]
    exact congrArg (e.tradeIds ++ ·) hids

theorem cancelOrderUnlocked (e : MatchingEngine) (orderId : String) :
    Mints e (e.cancelOrderUnlocked orderId).2 := by
  have hx := (@Executes.cancelOrderUnlocked "" e orderId).executed
  refine .idle (hx.trans (List.append_nil _)) ?_
  obtain hnone | ⟨s, b, -, u, hsome, hsame, -⟩ := cancelOrderUnlocked_cases e orderId
  · rw [hnone]
  · rw [hsome, hsame.mem]
    rfl

theorem modifyOrderUnlocked (e : MatchingEngine) (orderId : String) (newQuantity : ℚ) :
    Mints e (e.modifyOrderUnlocked orderId newQuantity).2 := by
  have hx := (@Executes.modifyOrderUnlocked "" e orderId newQuantity).executed
  refine .idle (hx.trans (List.append_nil _)) ?_
  obtain hnone | ⟨s, mem, b, hm, u, hsome, hsame, -⟩ :=
    modifyOrderUnlocked_cases e orderId newQuantity
  · rw [hnone]
  · rw [hsome, hsame.mem]
    exact OrderBook.modifyOrder_tradeCounter hm

theorem start {c : Call} (h : e.start fuel c = some (tasks, e')) : Mints e e' := by
  cases c with
  | submit tryAcceptOrder o =>
    have haccept {r : Except String (Option (List Trade))} {u : MatchingEngine}
        (ha : (e.alloc o).1.acceptOrder fuel (e.alloc o).2 = some (r, u)) : Mints e u := by
      have hidle {w : MatchingEngine} (hs : (e.alloc o).1.SameBooks w)
          (hx : Executes o.symbol [] e w) : Mints e w :=
        .idle (hx.executed.trans (List.append_nil _)) (by rw [hs.mem]; rfl)
      obtain ⟨-, -, w, hs, hx, rfl⟩ | ⟨-, -, hmatches⟩ | ⟨-, -, hs, hx⟩ := acceptOrder_matches ha
      · exact (hidle hs hx).trans (.idle rfl rfl)
      · exact .of_matches hmatches
      · exact hidle hs hx
    obtain ⟨-, r, ha, -⟩ | ⟨-, -, rfl⟩ := start_submit h
    · exact haccept ha
    · exact .idle rfl rfl
  | cancel orderId =>
    obtain ⟨-, rfl⟩ := Prod.mk.inj (Option.some.inj h)
    exact .cancelOrderUnlocked e orderId
  | modify orderId newQuantity =>
    obtain ⟨-, rfl⟩ := Prod.mk.inj (Option.some.inj h)
    exact .modifyOrderUnlocked e orderId newQuantity
  | _ =>
    obtain ⟨-, rfl⟩ := Prod.mk.inj (Option.some.inj h)
    exact .idle rfl rfl

theorem perform {task : Task} (ha : e.PendingApart)
    (h : e.perform fuel task = some (tasks, e')) : Mints e e' := by
  cases task with
  | publish trade =>
    obtain ⟨-, rfl⟩ := Prod.mk.inj (Option.some.inj h)
    exact .idle (recordTrade_executed _ trade)
      (congrArg Memory.tradeCounter (SameBooks.recordTrade e trade).mem)
  | check symbol price =>
    obtain ⟨u, hu, heq⟩ := Option.map_eq_some_iff.mp h
    obtain ⟨-, rfl⟩ := Prod.mk.inj heq
    obtain ⟨w, remaining, hmatches, hsame, hx⟩ := checkTriggers_matches hu ha
    refine (of_matches hmatches).trans (.idle (hx.executed.trans (List.append_nil _)) ?_)
    rw [hsame.mem]
    rfl
  | update symbol update =>
    obtain ⟨-, rfl⟩ := Prod.mk.inj (Option.some.inj h)
    exact .of_same (.publishUpdate e symbol update) (@Executes.publishUpdate symbol e symbol update)
  | _ =>
    obtain ⟨-, rfl⟩ := Prod.mk.inj (Option.some.inj h)
    exact .idle rfl rfl

end Mints

/-- The trades executed so far have different ids, and the next ids are new. -/
structure Minted (e : MatchingEngine) : Prop where
  nodup : e.tradeIds.Nodup
  old : ∀ id ∈ e.tradeIds, ∃ k ≤ e.mem.tradeCounter, id = "TRD" ++ toString k

theorem Minted.mints (h : e.Minted) (hm : Mints e e') : e'.Minted := by
  obtain ⟨n, hids, hcounter⟩ := hm
  have hnew : ∀ id ∈ e.mem.tradeIds n, ∃ k, e.mem.tradeCounter < k ∧
      k ≤ e'.mem.tradeCounter ∧ id = "TRD" ++ toString k := by
    intro id hid
    obtain ⟨k, hk, rfl⟩ := List.mem_map.mp hid
    rw [List.mem_range'_1] at hk
    exact ⟨k, by omega, by omega, rfl⟩
  constructor
  · rw [hids]
    refine h.nodup.append (e.mem.nodup_tradeIds n) fun id hold hid => ?_
    obtain ⟨k, hk, rfl⟩ := h.old id hold
    obtain ⟨k', hk', -, heq⟩ := hnew _ hid
    have hsame := toString_injective ((String.append_right_inj "TRD").mp heq)
    omega
  · intro id hid
    rw [hids, List.mem_append] at hid
    rcases hid with hold | hid
    · obtain ⟨k, hk, rfl⟩ := h.old id hold
      exact ⟨k, by omega, rfl⟩
    · obtain ⟨k, -, hk, rfl⟩ := hnew id hid
      exact ⟨k, hk, rfl⟩

/-! ## Numbers and deliveries -/

/-- Of two trades executed against the book of a symbol, the earlier one has the smaller number,
if both have been published. The trades handed to a callback come in the order of their numbers;
they come once if the callback was registered once. -/
structure Sequenced (e : MatchingEngine) : Prop where
  numbered : ∀ symbol, (e.executed.filter fun p => p.1 = symbol).Pairwise fun t u =>
    ∀ p ∈ e.published, ∀ q ∈ e.published, p.1.tradeId = t.2.tradeId →
      q.1.tradeId = u.2.tradeId → p.1.seqNum < q.1.seqNum
  delivered : ∀ symbol callback,
    (e.delivered.filter fun d => d.1 = callback ∧ d.2.symbol = symbol).Pairwise fun d d' =>
      d.2.seqNum ≤ d'.2.seqNum
  once : ∀ symbol callback, (∀ p ∈ e.published, p.1.symbol = symbol → p.2.count callback ≤ 1) →
    (e.delivered.filter fun d => d.1 = callback ∧ d.2.symbol = symbol).Pairwise fun d d' =>
      d.2.seqNum < d'.2.seqNum

end MatchingEngine

namespace Accounted

open MatchingEngine

variable {e₀ : MatchingEngine} {lost : Multiset Trade} {s : System}

/-- What was or will be delivered has been published. -/
theorem mem_published (h : Accounted e₀ lost s) {d : Subscriber × Trade}
    (hd : d ∈ s.engine.delivered) : ∃ p ∈ s.engine.published, p.1 = d.2 := by
  have howed : d ∈ s.engine.owed := by
    rw [← Multiset.mem_coe, h.delivered, Multiset.mem_add]
    exact Or.inl hd
  obtain ⟨p, hp, hmem⟩ := List.mem_flatMap.mp howed
  obtain ⟨callback, -, rfl⟩ := List.mem_map.mp hmem
  exact ⟨p, hp, rfl⟩

theorem seqNum_le (h : Accounted e₀ lost s) {d : Subscriber × Trade}
    (hd : d ∈ s.engine.delivered) :
    d.2.seqNum ≤ (s.engine.tradeSeqs.lookup d.2.symbol).getD 0 := by
  obtain ⟨p, hp, heq⟩ := h.mem_published hd
  have hnumber : d.2.seqNum ∈ List.range' 1 ((s.engine.tradeSeqs.lookup d.2.symbol).getD 0) := by
    rw [← h.numbered d.2.symbol]
    exact List.mem_map.mpr ⟨p, List.mem_filter.mpr ⟨hp, by simp [heq]⟩, by rw [heq]⟩
  rw [List.mem_range'_1] at hnumber
  omega

end Accounted

namespace System

open MatchingEngine

variable {s t : System} {event : Event} {events : List Event} {symbol : String}

/-- The next step does not overtake: a trade is published when the calls that began before have
published theirs of the same symbol, and handed to a callback when all trades of the symbol with
smaller numbers have been. -/
def InOrderAt (s : System) : Event → Prop
  | .begin _ => True
  | .proceed i =>
    match s.head? i with
    | some (.publish trade) =>
      ∀ u ∈ (s.calls.take i).flatten.filterMap Task.publish?, u.symbol ≠ trade.symbol
    | some (.deliver callback trade) =>
      ∀ d ∈ s.undelivered, d.1 = callback → d.2.symbol = trade.symbol →
        trade.seqNum ≤ d.2.seqNum
    | _ => True

instance (s : System) (event : Event) : Decidable (s.InOrderAt event) :=
  match event with
  | .begin _ => isTrue trivial
  | .proceed i => by
    dsimp only [InOrderAt]
    generalize s.head? i = task
    exact match task with
      | some (.publish _) | some (.deliver _ _) => inferInstance
      | none | some (.check _ _) | some (.read _) | some (.update _ _) => isTrue trivial

/-- What was executed against the book of a symbol, in that order, as it will be published. -/
def executions (s : System) (symbol : String) : List Trade :=
  (s.engine.executed.filter fun p => p.1 = symbol).map fun p => p.2.unstamped

/-- What was published for a symbol, and then what will be, in the order of the calls. -/
def publications (s : System) (symbol : String) : List Trade :=
  (s.engine.published.filter fun p => p.1.symbol = symbol).map (fun p => p.1.unstamped) ++
    (s.unpublished.filter fun t => t.symbol = symbol).map Trade.unstamped

/-- The publications of a symbol follow its executions, and the deliveries their numbers. -/
structure Ordered (s : System) : Prop where
  following : ∀ symbol, (s.publications symbol).Sublist (s.executions symbol)
  waiting : ∀ d ∈ s.engine.delivered, ∀ d' ∈ s.undelivered, d.1 = d'.1 →
    d.2.symbol = d'.2.symbol → d.2.seqNum ≤ d'.2.seqNum
  sorted : s.engine.delivered.Pairwise fun d d' => d.1 = d'.1 → d.2.symbol = d'.2.symbol →
    d.2.seqNum ≤ d'.2.seqNum

namespace Ordered

/-- Trades are executed; some of them will be published after those that will be already. -/
theorem execute {ts ts' : List Trade} (h : s.Ordered) (hts : Executes symbol ts s.engine t.engine)
    (hsymbol : ∀ t ∈ ts, t.symbol = symbol) (hsub : ts'.Sublist ts)
    (hpublish : t.unpublished = s.unpublished ++ ts')
    (hdeliver : t.undelivered = s.undelivered) : t.Ordered where
  following symbol' := by
    have hnew : ((ts'.filter fun t => t.symbol = symbol').map Trade.unstamped).Sublist
        (((ts.map (symbol, ·)).filter fun p => p.1 = symbol').map fun p => p.2.unstamped) := by
      have hlabel : (ts.map (symbol, ·)).filter (fun p => p.1 = symbol') =
          (ts.filter fun t => t.symbol = symbol').map (symbol, ·) := by
        rw [List.filter_map]
        refine congrArg _ (List.filter_congr fun t ht => ?_)
        simp [hsymbol t ht]
      rw [hlabel, List.map_map]
      exact (hsub.filter _).map _
    have hold := h.following symbol'
    rw [publications, executions, hts.published, hpublish, hts.executed, List.filter_append,
      List.filter_append, List.map_append, List.map_append, ← List.append_assoc]
    exact hold.append hnew
  waiting := by
    rw [hts.delivered, hdeliver]
    exact h.waiting
  sorted := by
    rw [hts.delivered]
    exact h.sorted

/-- A task that neither publishes nor delivers is done; its trades will not be published. -/
theorem proceed {ts : List Trade} {i : ℕ} {task : Task} {rest tasks : List Task}
    {e : MatchingEngine} (h : s.Ordered) (hcall : s.calls[i]? = some (task :: rest))
    (hts : Executes symbol ts s.engine e) (hsymbol : ∀ t ∈ ts, t.symbol = symbol)
    (hpublish : task.publish? = none) (hdeliver : task.deliver? = none)
    (hpublish' : tasks.filterMap Task.publish? = [])
    (hdeliver' : tasks.filterMap Task.deliver? = []) :
    Ordered ⟨e, s.calls.set i (tasks ++ rest)⟩ := by
  obtain ⟨later, hs, ht⟩ := tasks_proceed_eq hcall e tasks
  refine h.execute hts hsymbol (List.nil_sublist ts) ?_ ?_
  · rw [unpublished, unpublished, hs, ht]
    simp [List.filterMap_append, List.filterMap_cons_none hpublish, hpublish']
  · rw [undelivered, undelivered, hs, ht]
    simp [List.filterMap_append, List.filterMap_cons_none hdeliver, hdeliver']

/-- The first unpublished trade of its symbol is published. -/
theorem publications_publish {trade stamped : Trade} {callbacks : List Subscriber} {i : ℕ}
    {rest : List Task} {e : MatchingEngine} (hcall : s.calls[i]? = some (.publish trade :: rest))
    (hguard : s.InOrderAt (.proceed i))
    (hr : s.engine.recordTrade trade = (stamped, callbacks, e)) (symbol : String) :
    publications ⟨e, s.calls.set i
        (callbacks.map (.deliver · stamped) ++ [.check stamped.symbol stamped.price] ++ rest)⟩
      symbol = s.publications symbol := by
  obtain ⟨hstamped, -, hpublished, -⟩ := recordTrade_reports hr
  obtain ⟨later, hs, ht⟩ := tasks_proceed_eq hcall e
    (callbacks.map (.deliver · stamped) ++ [.check stamped.symbol stamped.price])
  have hsame : stamped.unstamped = trade.unstamped := by rw [hstamped]; rfl
  have hkey : stamped.symbol = trade.symbol := by rw [hstamped]
  have hfirst : ∀ u ∈ (s.calls.take i).flatten.filterMap Task.publish?,
      u.symbol ≠ trade.symbol := by
    simpa only [InOrderAt, head?_of_calls hcall] using hguard
  have hunpublished : s.unpublished = (s.calls.take i).flatten.filterMap Task.publish? ++
      trade :: later.filterMap Task.publish? := by
    rw [unpublished, hs, List.filterMap_append]
    rfl
  have hunpublished' : unpublished ⟨e, s.calls.set i
      (callbacks.map (.deliver · stamped) ++ [.check stamped.symbol stamped.price] ++ rest)⟩ =
        (s.calls.take i).flatten.filterMap Task.publish? ++ later.filterMap Task.publish? := by
    rw [unpublished, ht]
    simp [List.filterMap_append, List.filterMap_map, Function.comp_def, List.filterMap_cons,
      Task.publish?]
  rw [publications, publications, hpublished, hunpublished, hunpublished']
  generalize (s.calls.take i).flatten.filterMap Task.publish? = earlier at hfirst
  simp only [List.filter_append, List.map_append]
  by_cases hsymbol : trade.symbol = symbol
  · have hnone : earlier.filter (fun t => t.symbol = symbol) = [] :=
      List.filter_eq_nil_iff.mpr fun u hu => by simpa using hsymbol ▸ hfirst u hu
    simp [hnone, hkey, hsymbol, hsame]
  · simp [hkey, hsymbol]

/-- A trade is published. Its number is larger than those delivered before. -/
theorem publish {e₀ e : MatchingEngine} {lost : Multiset Trade} {trade stamped : Trade}
    {callbacks : List Subscriber} {i : ℕ} {rest : List Task} (h : s.Ordered)
    (ha : Accounted e₀ lost s) (hcall : s.calls[i]? = some (.publish trade :: rest))
    (hguard : s.InOrderAt (.proceed i))
    (hr : s.engine.recordTrade trade = (stamped, callbacks, e)) :
    Ordered ⟨e, s.calls.set i
      (callbacks.map (.deliver · stamped) ++ [.check stamped.symbol stamped.price] ++ rest)⟩ := by
  obtain ⟨hstamped, hexecuted, -, -, hdelivered, -⟩ := recordTrade_reports hr
  obtain ⟨others, hs, ht⟩ := tasks_proceed hcall e
    (callbacks.map (.deliver · stamped) ++ [.check stamped.symbol stamped.price])
  refine ⟨fun symbol => ?_, ?_, ?_⟩
  · rw [publications_publish hcall hguard hr, executions]
    simp only [hexecuted]
    exact h.following symbol
  · rw [hdelivered]
    intro d hd d' hd' hcallback hsymbol
    obtain ⟨task, htask, hdeliver⟩ := List.mem_filterMap.mp hd'
    rw [ht.mem_iff, List.mem_append] at htask
    rcases htask with hnew | hold
    · have hd' : d'.2 = stamped := by
        simp only [List.mem_append, List.mem_map, List.mem_singleton] at hnew
        obtain ⟨callback, -, rfl⟩ | rfl := hnew
        · cases hdeliver
          rfl
        · cases hdeliver
      rw [hd', hstamped] at hsymbol ⊢
      have hle := ha.seqNum_le hd
      rw [hsymbol] at hle
      dsimp only at hle ⊢
      omega
    · refine h.waiting d hd d' (List.mem_filterMap.mpr ⟨task, ?_, hdeliver⟩) hcallback hsymbol
      exact hs.mem_iff.mpr (List.mem_cons_of_mem _ hold)
  · rw [hdelivered]
    exact h.sorted

/-- A callback is called with the next trade. -/
theorem deliver {trade : Trade} {callback : Subscriber} {i : ℕ} {rest : List Task}
    (h : s.Ordered) (hcall : s.calls[i]? = some (.deliver callback trade :: rest))
    (hguard : s.InOrderAt (.proceed i)) :
    Ordered ⟨s.engine.deliverTrade callback trade, s.calls.set i ([] ++ rest)⟩ := by
  obtain ⟨later, hs, ht⟩ := tasks_proceed_eq hcall (s.engine.deliverTrade callback trade) []
  set t : System := ⟨s.engine.deliverTrade callback trade, s.calls.set i ([] ++ rest)⟩
  have hunpublished : t.unpublished = s.unpublished := by
    rw [unpublished, unpublished, hs, ht]
    simp [List.filterMap_append, List.filterMap_cons, Task.publish?]
  have hundelivered : s.undelivered.Perm ((callback, trade) :: t.undelivered) := by
    rw [undelivered, undelivered, hs, ht, List.filterMap_append, List.filterMap_append]
    exact List.perm_middle
  have hdelivered : t.engine.delivered = s.engine.delivered ++ [(callback, trade)] := by
    simp [t, MatchingEngine.delivered, deliverTrade, Delivery.trade?]
  have hnext : ∀ d ∈ s.undelivered, d.1 = callback → d.2.symbol = trade.symbol →
      trade.seqNum ≤ d.2.seqNum := by
    simpa only [InOrderAt, head?_of_calls hcall] using hguard
  have hkept : ∀ d ∈ t.undelivered, d ∈ s.undelivered := fun d hd =>
    hundelivered.mem_iff.mpr (List.mem_cons_of_mem _ hd)
  refine ⟨fun symbol => ?_, ?_, ?_⟩
  · rw [publications, hunpublished]
    exact h.following symbol
  · rw [hdelivered]
    intro d hd d' hd' hcallback hsymbol
    rcases List.mem_append.mp hd with hold | hnew
    · exact h.waiting d hold d' (hkept d' hd') hcallback hsymbol
    · obtain rfl := List.mem_singleton.mp hnew
      exact hnext d' (hkept d' hd') hcallback.symm hsymbol.symm
  · rw [hdelivered, List.pairwise_append]
    refine ⟨h.sorted, List.pairwise_singleton _ _, fun d hd d' hd' => ?_⟩
    obtain rfl := List.mem_singleton.mp hd'
    exact h.waiting d hd _ (hundelivered.mem_iff.mpr List.mem_cons_self)

end Ordered

/-- A step in which nothing is overtaken. -/
def InOrderStep (s : System) (event : Event) (t : System) : Prop :=
  s.Step event t ∧ s.InOrderAt event

theorem ordered_step {e₀ : MatchingEngine} {lost : Multiset Trade} (h : s.Ordered)
    (ha : Accounted e₀ lost s) (hl : s.engine.Labelled) (hs : s.engine.Books Sane)
    (hstep : s.Step event t) (hguard : s.InOrderAt event) : t.Ordered := by
  cases hstep with
  | @begin fuel c tasks e hstart =>
    obtain ⟨symbol, ts, hts, hsymbol, hpublish, hdeliver⟩ := start_executes hl hstart
    refine h.execute hts hsymbol (List.Sublist.refl ts) ?_ ?_
    · rw [unpublished, tasks_begin, List.filterMap_append, hpublish]
      rfl
    · rw [undelivered, tasks_begin, List.filterMap_append, hdeliver, List.append_nil]
      rfl
  | @proceed fuel i task rest tasks e hcall hperform =>
    cases task with
    | publish trade =>
      obtain ⟨rfl, rfl⟩ := Prod.mk.inj (Option.some.inj hperform)
      exact h.publish ha hcall hguard rfl
    | deliver callback trade =>
      obtain ⟨rfl, rfl⟩ := Prod.mk.inj (Option.some.inj hperform)
      exact h.deliver hcall hguard
    | check symbol price =>
      obtain ⟨u, hu, heq⟩ := Option.map_eq_some_iff.mp hperform
      obtain ⟨rfl, rfl⟩ := Prod.mk.inj heq
      obtain ⟨ts, hts, hsymbol, -⟩ := checkTriggers_executes hu hl hs
      exact h.proceed hcall hts hsymbol rfl rfl rfl rfl
    | read symbol =>
      obtain ⟨rfl, rfl⟩ := Prod.mk.inj (Option.some.inj hperform)
      have hidle : Executes symbol [] s.engine s.engine := .idle rfl rfl rfl rfl
      exact h.proceed hcall hidle (by simp) rfl rfl rfl rfl
    | update symbol update =>
      obtain ⟨rfl, rfl⟩ := Prod.mk.inj (Option.some.inj hperform)
      exact h.proceed hcall (@Executes.publishUpdate symbol s.engine symbol update) (by simp)
        rfl rfl rfl rfl

end System

namespace MatchingEngine

variable {e : MatchingEngine}

/-- The deliveries that a callback is owed for a symbol, if it is owed each trade once. -/
theorem owed_sublist (published : List (Trade × List Subscriber)) (symbol : String)
    (callback : Subscriber)
    (honce : ∀ p ∈ published, p.1.symbol = symbol → p.2.count callback ≤ 1) :
    (((published.flatMap fun p => p.2.map (·, p.1)).filter fun d : Subscriber × Trade =>
        d.1 = callback ∧ d.2.symbol = symbol).map fun d => d.2.seqNum).Sublist
      ((published.filter fun p => p.1.symbol = symbol).map fun p => p.1.seqNum) := by
  induction published with
  | nil => exact .slnil
  | cons p published ih =>
    have hrest := ih fun p' hp' => honce p' (List.mem_cons_of_mem _ hp')
    rw [List.flatMap_cons, List.filter_append, List.map_append]
    by_cases hsymbol : p.1.symbol = symbol
    · have hp := honce p List.mem_cons_self hsymbol
      have hfirst : ((p.2.map (·, p.1)).filter fun d : Subscriber × Trade =>
          d.1 = callback ∧ d.2.symbol = symbol).map (fun d => d.2.seqNum) =
            List.replicate (p.2.count callback) p.1.seqNum := by
        rw [List.filter_map, List.map_map, List.eq_replicate_iff]
        refine ⟨?_, ?_⟩
        · rw [List.length_map, List.count_eq_length_filter]
          congr 1
          refine List.filter_congr fun cb _ => ?_
          simp only [Function.comp_apply, hsymbol, and_true]
          rfl
        · intro n hn
          obtain ⟨cb, -, rfl⟩ := List.mem_map.mp hn
          rfl
      rw [hfirst, List.filter_cons_of_pos (by simpa using hsymbol), List.map_cons]
      have hone : (List.replicate (p.2.count callback) p.1.seqNum).Sublist [p.1.seqNum] :=
        (List.replicate_sublist_replicate p.1.seqNum).mpr hp
      exact hone.append hrest
    · have hfirst : (p.2.map (·, p.1)).filter (fun d : Subscriber × Trade =>
          d.1 = callback ∧ d.2.symbol = symbol) = [] := by
        simp [hsymbol]
      rw [hfirst, List.filter_cons_of_neg (by simpa using hsymbol)]
      exact hrest

end MatchingEngine

namespace System.Ordered

open MatchingEngine

variable {e₀ : MatchingEngine} {lost : Multiset Trade} {s : System}

/-- A published trade was executed. -/
theorem executed (h : s.Ordered) {p : Trade × List Subscriber} (hp : p ∈ s.engine.published) :
    ∃ x ∈ s.engine.executed, x.1 = p.1.symbol ∧ x.2.tradeId = p.1.tradeId := by
  have hmem : p.1.unstamped ∈ s.publications p.1.symbol :=
    List.mem_append_left _ (List.mem_map.mpr ⟨p, List.mem_filter.mpr ⟨hp, by simp⟩, rfl⟩)
  obtain ⟨x, hx, heq⟩ := List.mem_map.mp ((h.following p.1.symbol).subset hmem)
  obtain ⟨hx, hsymbol⟩ := List.mem_filter.mp hx
  have hid := congrArg Trade.tradeId heq
  exact ⟨x, hx, of_decide_eq_true hsymbol, hid⟩

/-- In an account in order, numbers and deliveries follow the executions. -/
theorem sequenced (h : s.Ordered) (ha : Accounted e₀ lost s) (hm : s.engine.Minted) :
    s.engine.Sequenced := by
  have hdelivered : ∀ symbol callback, (s.engine.delivered.filter fun d =>
      d.1 = callback ∧ d.2.symbol = symbol).Pairwise fun d d' => d.2.seqNum ≤ d'.2.seqNum := by
    intro symbol callback
    refine (h.sorted.sublist List.filter_sublist).imp_of_mem fun hd hd' hle => ?_
    obtain ⟨hcallback, hsymbol⟩ := of_decide_eq_true (List.mem_filter.mp hd).2
    obtain ⟨hcallback', hsymbol'⟩ := of_decide_eq_true (List.mem_filter.mp hd').2
    exact hle (hcallback.trans hcallback'.symm) (hsymbol.trans hsymbol'.symm)
  refine ⟨fun symbol => ?_, hdelivered, fun symbol callback honce => ?_⟩
  · set published := s.engine.published.filter fun p => p.1.symbol = symbol
    set executed := s.engine.executed.filter fun p => p.1 = symbol
    have hsub : (published.map fun p => p.1.tradeId).Sublist
        (executed.map fun p => p.2.tradeId) := by
      have hfollowing := ((List.sublist_append_left _ _).trans (h.following symbol)).map
        Trade.tradeId
      rw [executions, List.map_map, List.map_map] at hfollowing
      exact hfollowing
    have hnodup : (executed.map fun p => p.2.tradeId).Nodup :=
      hm.nodup.sublist (List.filter_sublist.map _)
    have hincreasing : published.Pairwise fun p q => p.1.seqNum < q.1.seqNum := by
      have hnumbers := ha.numbered symbol
      exact List.pairwise_map.mp (hnumbers ▸ List.pairwise_lt_range')
    refine (Keyed.pairwise_of_sublist hsub hnodup hincreasing).imp_of_mem
      fun {t u} ht hu hlt p hp q hq hpt hqu => ?_
    -- published under the symbol it was executed for
    have hmem : ∀ p ∈ s.engine.published, ∀ t ∈ executed, p.1.tradeId = t.2.tradeId →
        p ∈ published := by
      intro p hp t ht hid
      obtain ⟨x, hx, hxsymbol, hxid⟩ := h.executed hp
      obtain ⟨ht, htsymbol⟩ := List.mem_filter.mp ht
      obtain rfl : x = t := List.inj_on_of_nodup_map hm.nodup hx ht (hxid.trans hid)
      exact List.mem_filter.mpr ⟨hp, by simpa [← hxsymbol] using htsymbol⟩
    exact hlt p (hmem p hp t ht hpt) q (hmem q hq u hu hqu) hpt hqu
  · have howed := owed_sublist s.engine.published symbol callback honce
    rw [ha.numbered symbol] at howed
    have hnodup := List.Nodup.sublist howed List.nodup_range'
    have hle : (s.engine.delivered : Multiset (Subscriber × Trade)) ≤ s.engine.owed := by
      rw [ha.delivered]
      exact Multiset.le_add_right _ _
    have hdistinct := Multiset.nodup_of_le (Multiset.map_le_map (Multiset.filter_le_filter
      (fun d : Subscriber × Trade => d.1 = callback ∧ d.2.symbol = symbol) hle))
      (Multiset.coe_nodup.mpr hnodup)
    rw [Multiset.filter_coe, Multiset.map_coe, Multiset.coe_nodup] at hdistinct
    exact ((hdelivered symbol callback).and (List.pairwise_map.mp hdistinct)).imp
      fun ⟨hle, hne⟩ => lt_of_le_of_ne hle hne

end System.Ordered

namespace MatchingEngine

variable {mem : Memory} {hashOrder : HashOrder} {feeModel : Option FeeModel}
  {file : Option (List Json)} {s : System} {events : List System.Event}

theorem minted_startWAL (mem : Memory) (hashOrder : HashOrder) (feeModel : Option FeeModel)
    (file : Option (List Json)) : ((fresh mem hashOrder feeModel).startWAL file).2.Minted := by
  cases file <;> exact ⟨List.nodup_nil, nofun⟩

/-- A new engine has executed nothing. -/
theorem ordered_startWAL (mem : Memory) (hashOrder : HashOrder) (feeModel : Option FeeModel)
    (file : Option (List Json)) :
    System.Ordered ⟨((fresh mem hashOrder feeModel).startWAL file).2, []⟩ := by
  cases file <;> exact ⟨fun symbol => List.Sublist.refl _, nofun, .nil⟩

/-- **Trades are numbered and delivered in the order of their executions, as long as none is
overtaken.** In every state of a run of overlapping calls on a new engine in which no trade is
published before one of its symbol that an earlier call executed, and none is handed to a
callback before one with a smaller number: of two published trades of a symbol the one executed
first has the smaller number, and every callback has received its trades by their numbers. -/
theorem sequenced_of_run
    (h : Run System.InOrderStep ⟨((fresh mem hashOrder feeModel).startWAL file).2, []⟩ events s) :
    s.engine.Sequenced := by
  set e₀ := ((fresh mem hashOrder feeModel).startWAL file).2
  have hinv : s.engine.Labelled ∧ (s.engine.PendingApart ∧ s.engine.Books Sane) ∧
      s.engine.Minted ∧ s.Ordered ∧ ∃ lost, Accounted e₀ lost s := by
    refine h.invariant (fun s => s.engine.Labelled ∧
      (s.engine.PendingApart ∧ s.engine.Books Sane) ∧ s.engine.Minted ∧ s.Ordered ∧
      ∃ lost, Accounted e₀ lost s) ?_ ?_
    · exact ⟨labelled_startWAL mem hashOrder feeModel file,
        pendingApart_fresh mem hashOrder feeModel file,
        minted_startWAL mem hashOrder feeModel file,
        ordered_startWAL mem hashOrder feeModel file,
        0, accounted_startWAL mem hashOrder feeModel file⟩
    · rintro s event t ⟨hl, hp, hm, ho, lost, ha⟩ ⟨hstep, hguard⟩
      obtain ⟨lost', ha', -⟩ := System.accounted_step ha hl hp.2 hstep
      have hmints : Mints s.engine t.engine := by
        cases hstep with
        | begin hstart => exact .start hstart
        | proceed _ hperform => exact .perform hp.1 hperform
      exact ⟨labelled_sections.step hl hstep, pendingApart_sections.step hp hstep,
        hm.mints hmints, System.ordered_step ho ha hl hp.2 hstep hguard, _, ha'⟩
  obtain ⟨-, -, hm, ho, lost, ha⟩ := hinv
  exact ho.sequenced ha hm

/-- Two market orders of two overlapping calls meet one bid. The first one is published first,
and delivered first. -/
theorem sequenced_of_run_overlapping : ∃ (s : System) (events : List System.Event),
    Run System.InOrderStep ⟨((fresh .empty .plain none).startWAL none).2, []⟩ events s ∧
    s.engine.published.map (fun p => (p.1.takerOrderId, p.1.seqNum)) =
      [("first", 1), ("second", 2)] ∧
    s.engine.delivered.map (fun d => (d.1, d.2.seqNum)) = [(7, 1), (7, 2)] ∧
    s.engine.Sequenced := by
  let final := Run.exec (System.advanceIf 3 System.InOrderAt)
    ⟨((fresh .empty .plain none).startWAL none).2, []⟩ [
    .begin (.subscribeToTrades "S" 7),
    .begin (.submit true ⟨"bid", "S", .buy, .limit, 10, 5⟩), .proceed 1, .proceed 1,
    .begin (.submit true ⟨"first", "S", .sell, .market, 0, 1⟩),
    .begin (.submit true ⟨"second", "S", .sell, .market, 0, 2⟩),
    .proceed 2, .proceed 3, .proceed 2, .proceed 3]
  have hseen : final.map (fun p =>
      (p.2.engine.published.map (fun p => (p.1.takerOrderId, p.1.seqNum)),
        p.2.engine.delivered.map (fun d => (d.1, d.2.seqNum)))) =
          some ([("first", 1), ("second", 2)], [(7, 1), (7, 2)]) := by decide +kernel
  obtain ⟨⟨events, s⟩, hfinal, hseen⟩ := Option.map_eq_some_iff.mp hseen
  obtain ⟨hpublished, hdelivered⟩ := Prod.mk.inj hseen
  have hrun : Run System.InOrderStep ⟨((fresh .empty .plain none).startWAL none).2, []⟩ events s :=
    System.run_of_execIf hfinal
  exact ⟨s, events, hrun, hpublished, hdelivered, sequenced_of_run hrun⟩

/-- **Overtaken.** The second of two market orders is published first, so the trade that was
executed first has the larger number. The first call then delivers before the second, so the
callback gets the larger number before the smaller one. -/
theorem overtaken : ∃ (s : System) (events : List System.Event),
    Run System.Step ⟨((fresh .empty .plain none).startWAL none).2, []⟩ events s ∧
    s.engine.executed.map (fun p => p.2.takerOrderId) = ["first", "second"] ∧
    s.engine.published.map (fun p => (p.1.takerOrderId, p.1.seqNum)) =
      [("second", 1), ("first", 2)] ∧
    (s.engine.delivered.filter fun d => d.1 = 7 ∧ d.2.symbol = "S").map (fun d => d.2.seqNum) =
      [2, 1] ∧
    ¬ s.engine.Sequenced := by
  let final := Run.exec (fun (s : System) event => (s.advance 3 event).map (event, ·))
    ⟨((fresh .empty .plain none).startWAL none).2, []⟩ [
    .begin (.subscribeToTrades "S" 7),
    .begin (.submit true ⟨"bid", "S", .buy, .limit, 10, 5⟩), .proceed 1, .proceed 1,
    .begin (.submit true ⟨"first", "S", .sell, .market, 0, 1⟩),
    .begin (.submit true ⟨"second", "S", .sell, .market, 0, 2⟩),
    .proceed 3, .proceed 2, .proceed 2, .proceed 3]
  have hseen : final.map (fun p =>
      (p.2.engine.executed.map (fun p => p.2.takerOrderId),
        p.2.engine.published.map (fun p => (p.1.takerOrderId, p.1.seqNum)),
        (p.2.engine.delivered.filter fun d => d.1 = 7 ∧ d.2.symbol = "S").map
          fun d => d.2.seqNum)) =
      some (["first", "second"], [("second", 1), ("first", 2)],
        [2, 1]) := by decide +kernel
  obtain ⟨⟨events, s⟩, hfinal, hseen⟩ := Option.map_eq_some_iff.mp hseen
  simp only [Prod.mk.injEq] at hseen
  obtain ⟨hexecuted, hpublished, hdelivered⟩ := hseen
  refine ⟨s, events, System.run_of_exec hfinal, hexecuted, hpublished, hdelivered, fun h => ?_⟩
  have hincreasing := List.pairwise_map.mpr (h.delivered "S" 7)
  rw [hdelivered] at hincreasing
  exact absurd hincreasing (by decide)

end MatchingEngine

end GoQuant
