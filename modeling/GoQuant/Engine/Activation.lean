import GoQuant.Engine.Logging
import GoQuant.Book.Renaming

/-!
# Replaying activations

When a trade activates pending orders, each becomes an order that is matched, and an
`activated` record says so. The replay of that record takes the order off the pending list
and does nothing else. So the records rebuild the engine as long as the activated orders
leave the book alone and the records name nobody else.

## Main definitions

* `Agrees` — two engines with the same books and pending orders.
* `Harmless` — no activated order has an effect on the book, and none shares its id with an
  order that stays.

## Main results

* `replay_of_activation` — then the records of a check lead from agreeing engines to agreeing
  engines.
* `replay_of_activation_differs` — a stop order that trades is lost in the replay.
-/

namespace GoQuant

open MatchingAlgorithm

namespace MatchingEngine

variable {fuel : ℕ} {e e' e'' r r' : MatchingEngine} {symbol orderId : String} {price : ℚ}
  {ord : Ref} {vec remaining : List Ref} {o : Order}

/-- The same books and pending trigger orders, whatever the objects are. -/
def Agrees (e r : MatchingEngine) : Prop :=
  ∀ symbol, SameContents e.mem (e.book symbol) r.mem (r.book symbol) ∧
    r.waiting symbol = e.waiting symbol

theorem Agrees.refl (e : MatchingEngine) : e.Agrees e :=
  fun _ => ⟨⟨fun _ => rfl, fun _ => rfl⟩, rfl⟩

/-- A trade at a price activates only orders that neither trade nor rest, and no order that
stays has the id of one of them. -/
def Harmless (e : MatchingEngine) (symbol : String) (price : ℚ) : Prop :=
  ∀ o ∈ e.waiting symbol, triggered o price = true →
    (e.book symbol).Inert e.mem (activeOrder o) ∧
      ∀ o' ∈ e.waiting symbol, o'.id = o.id → triggered o' price = true

instance (e : MatchingEngine) (symbol : String) (price : ℚ) :
    Decidable (e.Harmless symbol price) := by
  unfold Harmless; infer_instance

/-! ## Activating orders without effect -/

/-- The books and the orders there were are as before. -/
structure Keeps (e e' : MatchingEngine) : Prop where
  book : ∀ symbol, e'.book symbol = e.book symbol
  next : e.mem.next ≤ e'.mem.next
  order : ∀ r < e.mem.next, e'.mem.order r = e.mem.order r

namespace Keeps

theorem refl (e : MatchingEngine) : e.Keeps e := ⟨fun _ => rfl, le_rfl, fun _ _ => rfl⟩

theorem trans (h : e.Keeps e') (h' : e'.Keeps e'') : e.Keeps e'' where
  book symbol := (h'.book symbol).trans (h.book symbol)
  next := h.next.trans h'.next
  order r hr := (h'.order r (hr.trans_le h.next)).trans (h.order r hr)

theorem alloc (e : MatchingEngine) (o : Order) : e.Keeps (e.alloc o).1 :=
  ⟨fun _ => rfl, Nat.le_succ _, fun r hr => Memory.alloc_order_of_lt e.mem r o hr⟩

theorem of_same (h : e.SameBooks e') : e.Keeps e' :=
  ⟨h.book, h.mem ▸ le_rfl, fun _ _ => h.mem ▸ rfl⟩

theorem inert (h : e.Keeps e') (hs : e.Books Sane) (ho : (e.book symbol).Inert e.mem o) :
    (e'.book symbol).Inert e'.mem o := by
  rw [h.book]
  exact ho.congr fun r hr => h.order r ((hs symbol).restsAllocated r hr)

theorem sane (h : e.Keeps e') (hs : e.Books Sane) : e'.Books Sane := by
  intro symbol
  rw [h.book]
  exact (hs symbol).of_extends ⟨h.next, fun r hr => ⟨_, h.order r hr⟩⟩

/-- A book that is kept holds the same. -/
theorem sameContents (h : e.Keeps e') (hs : e.Books Sane) (symbol : String) :
    SameContents e'.mem (e'.book symbol) e.mem (e.book symbol) := by
  rw [h.book]
  refine ⟨fun s => List.map_congr_left fun l hl => ?_, fun id => ?_⟩
  · have horders : l.orders.map e'.mem.order = l.orders.map e.mem.order :=
      List.map_congr_left fun r hr =>
        h.order r ((hs symbol).restsAllocated r ⟨s, l, hl, hr⟩)
    rw [PriceLevel.contents, PriceLevel.contents, horders]
  · cases hid : (e.book symbol).orderMap.lookup id with
    | none => rfl
    | some r => exact congrArg some (h.order r ((hs symbol).mapAllocated id r hid)).symm

end Keeps

/-- An activated order without effect leaves an order object and a record behind. -/
theorem activate_keeps (h : e.activate fuel symbol ord = some e') (hs : e.Books Sane)
    (hi : (e.book symbol).Inert e.mem (activeOrder (e.mem.order ord))) : e.Keeps e' := by
  obtain ⟨result, hr, rfl⟩ := activate_eq_some h
  have halloc := Keeps.alloc e (activeOrder (e.mem.order ord))
  have hself : (e.mem.alloc (activeOrder (e.mem.order ord))).1.order e.mem.next =
      activeOrder (e.mem.order ord) := Memory.alloc_order_self _ _
  have htype : (activeOrder (e.mem.order ord)).type.Matchable := by
    unfold activeOrder
    split_ifs
    · exact Or.inr (Or.inl rfl)
    · exact Or.inl rfl
  have hresult : result = MatchingAlgorithm.start (e.mem.alloc (activeOrder (e.mem.order ord))).1
      (e.book symbol) e.mem.next := by
    refine hr.unique (returns_start ?_ ?_)
    · rwa [hself]
    · rw [hself]
      exact halloc.inert hs hi
  subst hresult
  have hcreate := SameBooks.getOrCreateOrderBook (e.alloc (activeOrder (e.mem.order ord))).1 symbol
  refine Keeps.trans ?_ (.of_same (.writeWAL _ _))
  refine ⟨fun s => ?_, halloc.next, halloc.order⟩
  by_cases hsymbol : s = symbol
  · subst hsymbol
    exact book_setBook_self _ (e.book s)
  · exact (book_setBook_of_ne _ (e.book symbol) hsymbol).trans (hcreate.book s)

/-- By induction on the orders still to look at. -/
theorem activateAll_keeps (h : activateAll fuel symbol price vec e = some (remaining, e'))
    (hs : e.Books Sane) (hvec : ∀ ord ∈ vec, ord < e.mem.next)
    (hi : ∀ ord ∈ vec, triggered (e.mem.order ord) price = true →
      (e.book symbol).Inert e.mem (activeOrder (e.mem.order ord))) : e.Keeps e' := by
  induction vec generalizing e remaining with
  | nil =>
    obtain ⟨-, rfl⟩ := Prod.mk.inj (Option.some.inj h)
    exact .refl e
  | cons ord vec ih =>
    have hrest : ∀ ord ∈ vec, ord < e.mem.next := fun ord hm => hvec ord (List.mem_cons_of_mem _ hm)
    simp only [activateAll] at h
    split_ifs at h with ht
    · obtain ⟨u, hu, hall⟩ := Option.bind_eq_some_iff.mp h
      have hkeeps := activate_keeps hu hs (hi ord List.mem_cons_self ht)
      refine hkeeps.trans (ih hall (hkeeps.sane hs)
        (fun ord hm => (hrest ord hm).trans_le hkeeps.next) fun ord hm ht' => ?_)
      rw [hkeeps.order ord (hrest ord hm)] at ht' ⊢
      exact hkeeps.inert hs (hi ord (List.mem_cons_of_mem _ hm) ht')
    · obtain ⟨⟨remaining', u⟩, hu, heq⟩ := Option.map_eq_some_iff.mp h
      obtain ⟨-, rfl⟩ := Prod.mk.inj heq
      exact ih hu hs hrest fun ord hm => hi ord (List.mem_cons_of_mem _ hm)

/-- A check that activates orders without effect only. -/
theorem checkTriggers_keeps (h : e.checkTriggers fuel symbol price = some e')
    (hs : e.Books Sane) (hw : e.Waits)
    (hi : ∀ o ∈ e.waiting symbol, triggered o price = true →
      (e.book symbol).Inert e.mem (activeOrder o)) : e.Keeps e' := by
  obtain ⟨remaining, u, hu, hbook, hmem, -, -, -⟩ := exists_activateAll h
  have hkeeps := activateAll_keeps hu hs (hw symbol) fun ord hord ht =>
    hi _ (List.mem_map.mpr ⟨ord, hord, rfl⟩) ht
  exact ⟨fun s => (congrFun hbook s).symm.trans (hkeeps.book s), hmem ▸ hkeeps.next,
    hmem ▸ hkeeps.order⟩

/-! ## Replaying their records -/

/-- A record of an activation takes the orders it names off the pending list. -/
theorem replayRecord_activated (fuel : ℕ) (orderId symbol : String) (r : MatchingEngine) :
    ∃ r', r.replayRecord fuel (.activated orderId symbol) = some (.ok (), r') ∧ r'.mem = r.mem ∧
      (∀ s, r'.book s = r.book s) ∧ (∀ s, s ≠ symbol → r'.waiting s = r.waiting s) ∧
      r'.waiting symbol = (r.waiting symbol).filter fun o => o.id ≠ orderId := by
  simp only [replayRecord, waiting]
  cases hvec : r.triggerOrders.lookup symbol with
  | none =>
    have hnil : r.pending symbol = [] := by rw [pending, hvec]; rfl
    exact ⟨r, rfl, rfl, fun _ => rfl, fun _ _ => rfl, by rw [hnil]; rfl⟩
  | some vec =>
    have hpending : r.pending symbol = vec := by rw [pending, hvec]; rfl
    refine ⟨_, rfl, rfl, fun _ => rfl, fun s hs => ?_, ?_⟩
    · rw [pending_setPending_of_ne r _ hs]
      rfl
    · rw [hpending, pending_setPending_self, List.filter_map]
      rfl

/-- The records of a check, one after another. -/
theorem replayLines_activated (fuel : ℕ) (ids : List String) (symbol : String)
    (r : MatchingEngine) :
    ∃ r', replayLines fuel (ids.map fun id => (WalRecord.activated id symbol).toJson) r =
        some (true, r') ∧ r'.mem = r.mem ∧ (∀ s, r'.book s = r.book s) ∧
      (∀ s, s ≠ symbol → r'.waiting s = r.waiting s) ∧
      r'.waiting symbol = (r.waiting symbol).filter fun o => o.id ∉ ids := by
  induction ids generalizing r with
  | nil => exact ⟨r, rfl, rfl, fun _ => rfl, fun _ _ => rfl, by simp⟩
  | cons id ids ih =>
    obtain ⟨u, hu, hmem, hbook, hothers, hself⟩ := replayRecord_activated fuel id symbol r
    obtain ⟨r', hr', hmem', hbook', hothers', hself'⟩ := ih u
    refine ⟨r', ?_, hmem'.trans hmem, fun s => (hbook' s).trans (hbook s),
      fun s hs => (hothers' s hs).trans (hothers s hs), ?_⟩
    · have hread := WalRecord.ofJson_toJson (.activated id symbol) fun t ht => by cases ht
      simp only [List.map_cons, replayLines, hread, hu]
      exact hr'
    · rw [hself', hself, List.filter_filter]
      exact List.filter_congr fun o _ => by simp [not_or, Bool.and_comm]

/-- The ids that the records of a check name. -/
def activatedIds (e : MatchingEngine) (symbol : String) (price : ℚ) : List String :=
  ((e.waiting symbol).filter fun o => triggered o price).map Order.id

theorem mem_activatedIds {id : String} : id ∈ e.activatedIds symbol price ↔
    ∃ o ∈ e.waiting symbol, triggered o price = true ∧ o.id = id := by
  simp [activatedIds, and_assoc]

/-- The records of a check. -/
theorem Checks.walStream (h : Checks symbol price e e') (hwal : e.walEnabled = true)
    (hreplaying : e.replaying = false) : e'.walStream = e.walStream ++
      (e.activatedIds symbol price).map fun id => (WalRecord.activated id symbol).toJson := by
  rw [h.logs.walStream, activatedIds, waiting, List.filter_map]
  simp [hwal, hreplaying, Function.comp_def]

/-- Who waits after a check. -/
theorem Checks.waiting (h : Checks symbol price e e') (hkeeps : e.Keeps e') (hw : e.Waits) :
    e'.waiting symbol = (e.waiting symbol).filter (fun o => !triggered o price) ∧
      ∀ s, s ≠ symbol → e'.waiting s = e.waiting s := by
  have hmap (s : String) (l : List Ref) (hl : l ⊆ e.pending s) :
      l.map e'.mem.order = l.map e.mem.order :=
    List.map_congr_left fun ord hord => hkeeps.order ord (hw s ord (hl hord))
  constructor
  · rw [MatchingEngine.waiting, h.pending, hmap symbol _ (List.filter_subset_self _),
      MatchingEngine.waiting, List.filter_map]
    rfl
  · intro s hs
    rw [MatchingEngine.waiting, h.others s hs, hmap s _ (List.Subset.refl _)]
    rfl

/-- **Replaying an activation.** In any state the engine reaches with its log on: if a trade
at a price activates harmless orders only, the records of its check take an engine that
agrees with the state before the check to one that agrees with the state after it. -/
theorem replay_of_activation {mem : Memory} {hashOrder : HashOrder} {feeModel : Option FeeModel}
    {file : List Json} {s : System} {events : List System.Event}
    (h : Run System.Step ⟨((fresh mem hashOrder feeModel).startWAL (some file)).2, []⟩ events s)
    (hharmless : s.engine.Harmless symbol price)
    (hc : s.engine.checkTriggers fuel symbol price = some e') (hr : s.engine.Agrees r)
    (fuel' : ℕ) :
    ∃ lines r', e'.walStream = s.engine.walStream ++ lines ∧
      r.replayWAL fuel' (some lines) = some (true, r') ∧ e'.Agrees r' := by
  have hstart := labelled_startWAL mem hashOrder feeModel (some file)
  have hw := (labelled_sections.run h hstart).waits
  have hsane := bookInvariant_sane.run h rfl
  obtain ⟨hwal, hreplaying⟩ := walEnabled_of_run h hstart
  have hchecks := checkTriggers_spec hc hw
  have hkeeps := checkTriggers_keeps hc hsane hw fun o ho ht => (hharmless o ho ht).1
  obtain ⟨hwaiting, hothers⟩ := hchecks.waiting hkeeps hw
  obtain ⟨u, hu, hmem, hbook, hothers', hself⟩ := replayLines_activated fuel'
    (s.engine.activatedIds symbol price) symbol { r with replaying := true }
  refine ⟨_, { u with replaying := false }, hchecks.walStream hwal hreplaying, ?_,
    fun s' => ⟨?_, ?_⟩⟩
  · rw [replayWAL, hu]
    rfl
  · have hsame := (hkeeps.sameContents hsane s').trans (hr s').1
    have hb : ({ u with replaying := false } : MatchingEngine).book s' = r.book s' := hbook s'
    rw [hb]
    exact hmem ▸ hsame
  · have hu' : ({ u with replaying := false } : MatchingEngine).waiting s' = u.waiting s' := rfl
    have hr' : ({ r with replaying := true } : MatchingEngine).waiting s' = r.waiting s' := rfl
    rw [hu']
    by_cases hs : s' = symbol
    · subst hs
      rw [hself, hwaiting, hr', (hr s').2]
      refine List.filter_congr fun o ho => ?_
      -- a record names an order exactly if the order is activated
      have hnamed : o.id ∈ s.engine.activatedIds s' price ↔ triggered o price = true := by
        rw [mem_activatedIds]
        constructor
        · rintro ⟨o', ho', ht, hid⟩
          exact (hharmless o' ho' ht).2 o ho hid.symm
        · intro ht
          exact ⟨o, ho, ht, rfl⟩
      simp [hnamed]
    · rw [hothers' s' hs, hothers s' hs, hr']
      exact (hr s').2

/-- A stop order is activated when the bids are used up: it is dropped, in the replay too. -/
theorem replay_of_activation_dropped : ∃ (s : System) (e' : MatchingEngine) (lines : List Json)
    (r' : MatchingEngine),
    (∃ events, Run System.Step ⟨((fresh .empty .plain none).startWAL (some [])).2, []⟩ events s) ∧
    s.engine.activatedIds "S" 10 = ["stop"] ∧ s.engine.checkTriggers 3 "S" 10 = some e' ∧
    e'.walStream = s.engine.walStream ++ lines ∧
    s.engine.replayWAL 3 (some lines) = some (true, r') ∧ e'.Agrees r' := by
  let events : List System.Event := [
    .begin (.submit true ⟨"stop", "S", .sell, .stopLoss, 10, 3⟩),
    .begin (.submit true ⟨"low", "S", .sell, .stopLoss, 5, 3⟩),
    .begin (.submit true ⟨"bid", "S", .buy, .limit, 10, 1⟩),
    .begin (.submit true ⟨"ask", "S", .sell, .market, 0, 1⟩), .proceed 3]
  let final := Run.exec (fun (s : System) event => (s.advance 3 event).map (event, ·))
    ⟨((fresh .empty .plain none).startWAL (some [])).2, []⟩ events
  have hseen : final.map (fun p => (p.2.engine.activatedIds "S" 10,
      decide (p.2.engine.Harmless "S" 10), (p.2.engine.checkTriggers 3 "S" 10).isSome)) =
        some (["stop"], true, true) := by decide +kernel
  obtain ⟨⟨events', s⟩, hfinal, hseen⟩ := Option.map_eq_some_iff.mp hseen
  obtain ⟨hids, hseen⟩ := Prod.mk.inj hseen
  obtain ⟨hharmless, hsome⟩ := Prod.mk.inj hseen
  obtain ⟨e', hc⟩ := Option.isSome_iff_exists.mp hsome
  have hrun := System.run_of_exec hfinal
  obtain ⟨lines, r', hlines, hr', hagrees⟩ := replay_of_activation hrun
    (of_decide_eq_true hharmless) hc (.refl s.engine) 3
  exact ⟨s, e', lines, r', ⟨events', hrun⟩, hids, hc, hlines, hr', hagrees⟩

/-- **An activation is lost in the replay.** A stop order is activated by a trade and sells
three lots to the bid. The bid has one lot left; after the replay of the record it has four. -/
theorem replay_of_activation_differs : ∃ (s : System) (e' : MatchingEngine) (lines : List Json)
    (r' : MatchingEngine),
    (∃ events, Run System.Step ⟨((fresh .empty .plain none).startWAL (some [])).2, []⟩ events s) ∧
    s.engine.published.map (·.1.price) = [10] ∧ s.engine.checkTriggers 3 "S" 10 = some e' ∧
    e'.walStream = s.engine.walStream ++ lines ∧
    s.engine.replayWAL 3 (some lines) = some (true, r') ∧
    ¬ SameContents e'.mem (e'.book "S") r'.mem (r'.book "S") := by
  let events : List System.Event := [
    .begin (.submit true ⟨"stop", "S", .sell, .stopLoss, 10, 3⟩),
    .begin (.submit true ⟨"bid", "S", .buy, .limit, 10, 5⟩),
    .begin (.submit true ⟨"ask", "S", .sell, .market, 0, 1⟩), .proceed 2]
  let final := Run.exec (fun (s : System) event => (s.advance 3 event).map (event, ·))
    ⟨((fresh .empty .plain none).startWAL (some [])).2, []⟩ events
  let record := WalRecord.activated "stop" "S"
  let bids (e : MatchingEngine) := ((e.book "S").levels .buy).map (PriceLevel.contents e.mem)
  have hseen : final.map (fun p => (p.2.engine.published.map (·.1.price),
      p.2.engine.activatedIds "S" 10)) = some ([10], ["stop"]) := by decide +kernel
  have hlive : final.bind (fun p => (p.2.engine.checkTriggers 3 "S" 10).map bids) =
      some [(10, [⟨"bid", "S", .buy, .limit, 10, 1⟩], 1)] := by decide +kernel
  have hreplay : final.bind (fun p => (p.2.engine.replayWAL 3 (some [record.toJson])).map
      fun q => (q.1, bids q.2)) =
        some (true, [(10, [⟨"bid", "S", .buy, .limit, 10, 4⟩], 4)]) := by decide +kernel
  obtain ⟨⟨events', s⟩, hfinal, hseen⟩ := Option.map_eq_some_iff.mp hseen
  obtain ⟨hprices, hids⟩ := Prod.mk.inj hseen
  simp only [hfinal, Option.bind_some] at hlive hreplay
  obtain ⟨e', hc, hlive⟩ := Option.map_eq_some_iff.mp hlive
  obtain ⟨⟨ok, r'⟩, hr', hreplay⟩ := Option.map_eq_some_iff.mp hreplay
  obtain ⟨rfl, hreplay⟩ := Prod.mk.inj hreplay
  have hrun := System.run_of_exec hfinal
  have hstart := labelled_startWAL .empty .plain none (some [])
  obtain ⟨hwal, hreplaying⟩ := walEnabled_of_run hrun hstart
  have hwaits := (labelled_sections.run hrun hstart).waits
  have hlines := (checkTriggers_spec hc hwaits).walStream hwal hreplaying
  rw [hids] at hlines
  refine ⟨s, e', _, r', ⟨events', hrun⟩, hprices, hc, hlines, hr', fun hsame => ?_⟩
  have hlevels : bids r' = bids e' := hsame.levels .buy
  rw [hlive, hreplay] at hlevels
  exact absurd hlevels (by decide)

end MatchingEngine

end GoQuant
