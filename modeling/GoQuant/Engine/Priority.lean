import GoQuant.Engine.Venues

/-!
# No overtaking

An order that stands in front of another one of its side, at a better price or at the same price and
earlier, is served first: as long as it is there the other one makes no trade, and it stays in front
of it. That holds in whatever way calls overlap, and whichever trigger orders are activated. A
change of its quantity, up or down, does not cost an order its place.

## Main definitions

* `MatchingEngine.line` — the ids that stand on a side of a book, level after level.

## Main results

* `Venue.InLine.submit` — what one order does to two that stand in line.
* `System.no_overtaking` — all steps, in any order.
-/

namespace GoQuant

open MatchingAlgorithm

namespace Venue

/-- What holds of two ids of a side since one has stood in front of the other, with `n` trades made
until then. -/
structure InLine (n : ℕ) (symbol : String) (side : Side) (a b : String) (v : Venue) : Prop where
  order : a ∈ v.line symbol side → b ∈ v.line symbol side → Before a b (v.line symbol side)
  here : b ∉ v.line symbol side.opposite
  length : n ≤ v.executed.length
  served : ∀ trade, (symbol, trade) ∈ v.executed.drop n → trade.makerOrderId = b →
    a ∉ v.line symbol side

variable {n : ℕ} {v u : Venue} {o : Order} {symbol a b : String} {side : Side} {l : Event}
  {ls : List Event} {req : Request}

namespace InLine

/-- No new trade, and shorter lines. -/
theorem of_sublist (h : InLine n symbol side a b v) (hv : v.Sound)
    (hline : ∀ side, (u.line symbol side).Sublist (v.line symbol side))
    (hexecuted : u.executed = v.executed) : InLine n symbol side a b u where
  order ha hb := (h.order ((hline side).subset ha) ((hline side).subset hb)).of_sublist
    ((hv.proper symbol).distinct side) (hline side) ha hb
  here hb := h.here ((hline _).subset hb)
  length := hexecuted ▸ h.length
  served trade htrade hmaker ha := by
    rw [hexecuted] at htrade
    exact h.served trade htrade hmaker ((hline side).subset ha)

/-- A third order is matched. -/
theorem submit (h : InLine n symbol side a b v) (hv : v.Sound)
    (hid : ∀ symbol, ¬ v.Carries symbol o.id) (ha : o.id ≠ a) (hb : o.id ≠ b) :
    InLine n symbol side a b (v.submit o) := by
  have hproper := hv.proper o.symbol
  -- nobody else joins the lines
  have hold {id : String} {s : Side} (hne : o.id ≠ id) (hin : id ∈ (v.submit o).line symbol s) :
      id ∈ v.line symbol s := by
    rcases mem_line_submit hv hin with hold | ⟨-, -, heq⟩
    · exact hold
    · exact absurd heq.symm hne
  refine ⟨fun ha' hb' => ?_, fun hb' => h.here (hold hb hb'), ?_, ?_⟩
  · have hbefore := h.order (hold ha ha') (hold hb hb')
    by_cases hs : symbol = o.symbol
    · subst hs
      rcases Side.eq_or_eq_opposite side o.side with rfl | rfl
      · refine hbefore.mono ?_
        rw [line, line, ladders_submit_self]
        exact Greedy.line_after_own fun hin => hid o.symbol (Or.inl ⟨o.side, hin⟩)
      · refine hbefore.of_sublist (hproper.distinct _) ?_ ha' hb'
        rw [line, line, ladders_submit_self]
        exact Greedy.line_after_opposite hproper
    · rw [line, ladders_submit_of_ne hs]
      exact hbefore
  · exact h.length.trans (by simp [Venue.submit])
  · intro trade htrade hmaker ha'
    have hexecuted : (v.submit o).executed = v.executed ++ (v.trades o).map (o.symbol, ·) := rfl
    rw [hexecuted, List.drop_append_of_le_length h.length, List.mem_append] at htrade
    rcases htrade with hearlier | hnew
    · exact h.served trade hearlier hmaker (hold ha ha')
    · obtain ⟨t, ht, heq⟩ := List.mem_map.mp hnew
      obtain ⟨rfl, rfl⟩ := Prod.mk.inj heq
      obtain ⟨m, p, hp, rfl⟩ := mem_tradesOf ht
      have hmakerIn := (hproper.fst_mem_of_mem_takes hp).1
      have hbIn : b ∈ v.line o.symbol o.side.opposite :=
        List.mem_map.mpr ⟨p.1, hmakerIn, hmaker⟩
      -- the trade is made on the side of the two
      rcases Side.eq_or_eq_opposite side o.side with rfl | rfl
      · exact h.here hbIn
      · have hbefore := h.order (hold ha ha') hbIn
        rw [line, ladders_submit_self] at ha'
        exact Greedy.not_mem_line_of_gives hproper hbefore ⟨p, hp, hmaker⟩ ha'

/-- One step, in which nobody takes the ids again. -/
theorem step (h : InLine n symbol side a b v) (hv : v.Sound) (hstep : SoundStep v l u)
    (hnew : ∀ o, l.submitted? = some o → o.id ≠ a ∧ o.id ≠ b)
    (hwaits : ∀ s, ∀ o ∈ v.waiting s, o.id ≠ a ∧ o.id ≠ b) : InLine n symbol side a b u := by
  refine hv.keeps hstep (fun w waiting due hw => ⟨hw.order, hw.here, hw.length, hw.served⟩)
    (fun w o ho hw hid hline => ?_) (fun req hreq => ?_) h
  · rcases mem_orders ho with hsubmitted | ⟨s, o', ho', rfl⟩
    · exact hline.submit hw hid (hnew o hsubmitted).1 (hnew o hsubmitted).2
    · have hids := hwaits s o' ho'
      rw [← MatchingEngine.activeOrder_id] at hids
      exact hline.submit hw hid hids.1 hids.2
  · have hnot : ∀ o, req ≠ .submit o := by
      rintro o rfl
      unfold Event.request? at hreq
      split at hreq <;> cases hreq
    exact h.of_sublist hv (fun side => Greedy.line_call (hv.proper symbol) hnot side) rfl

end InLine

/-- By induction on the run. -/
theorem inLine_of_run (h : Run SoundStep v ls u) (hv : v.Sound)
    (hbefore : Before a b (v.line symbol side))
    (hnew : ∀ l ∈ ls, ∀ o, l.submitted? = some o → o.id ≠ a ∧ o.id ≠ b) :
    InLine v.executed.length symbol side a b u := by
  have hstart : InLine v.executed.length symbol side a b v :=
    ⟨fun _ _ => hbefore, hv.apart symbol side b hbefore.mem_right, le_rfl, by simp⟩
  have hwaits : ∀ s, ∀ o ∈ v.waiting s, o.id ≠ a ∧ o.id ≠ b := by
    have hnot {id : String} (hid : id ∈ v.line symbol side) (s : String) :
        ∀ o ∈ v.waiting s, o.id ≠ id := by
      rintro o ho rfl
      obtain rfl := hv.exclusive _ _ _ (Or.inr ⟨o, ho, rfl⟩) (Or.inl ⟨side, hid⟩)
      exact hv.unnamed s o ho side hid
    exact fun s o ho => ⟨hnot hbefore.mem_left s o ho, hnot hbefore.mem_right s o ho⟩
  refine (h.history (fun ls u => (∀ l ∈ ls, ∀ o, l.submitted? = some o → o.id ≠ a ∧ o.id ≠ b) →
    u.Sound ∧ InLine v.executed.length symbol side a b u ∧
      ∀ s, ∀ o ∈ u.waiting s, o.id ≠ a ∧ o.id ≠ b) (fun _ => ⟨hv, hstart, hwaits⟩) ?_ hnew).2.1
  intro ls w l u ih hstep hnew
  obtain ⟨hw, hline, hwaits⟩ := ih fun l hl => hnew l (List.mem_append_left _ hl)
  have hlast := hnew l (List.mem_append_right _ List.mem_cons_self)
  refine ⟨hw.step hstep, hline.step hw hstep hlast hwaits, fun s o ho => ?_⟩
  rcases hstep.2.mem_waiting ho with hold | ⟨hsubmitted, -⟩
  · exact hwaits s o hold
  · exact hlast o hsubmitted

end Venue

namespace MatchingEngine

/-- The ids that stand on a side of the book of a symbol, level after level and in the order of
their arrival. -/
def line (e : MatchingEngine) (symbol : String) (side : Side) : List String :=
  ((e.book symbol).levels side).flatMap fun l => l.orders.map fun r => (e.mem.order r).id

theorem line_venue (e : MatchingEngine) (due : Multiset (String × ℚ)) (symbol : String)
    (side : Side) : (e.venue due).line symbol side = e.line symbol side := by
  have hitems : Ladder.items ((e.book symbol).ladder e.mem side) =
      (Ladder.items ((e.book symbol).queues side)).map e.mem.order :=
    items_ladder e.mem (e.book symbol) side
  rw [Venue.line, Greedy.line, venue, hitems, List.map_map, Ladder.items, OrderBook.queues,
    List.flatMap_map, List.map_flatMap]
  rfl

end MatchingEngine

open MatchingEngine

namespace System

variable {mem : Memory} {hashOrder : HashOrder} {feeModel : Option FeeModel}
  {file : Option (List Json)} {s t : System} {ls ls' : List (Event × List Venue.Event)}
  {symbol a b : String} {side : Side}

/-- An order that stands in front of another one stays in front of it. Whenever the other one has
made a trade, it is gone. -/
theorem no_overtaking
    (h : Run CleanStep ⟨((fresh mem hashOrder feeModel).startWAL file).2, []⟩ ls s)
    (hbefore : Before a b (s.engine.line symbol side)) (h' : Run CleanStep s ls' t)
    (hnew : ∀ l ∈ ls', ∀ o ∈ l.1.submitted?, o.id ≠ a ∧ o.id ≠ b) :
    (a ∈ t.engine.line symbol side → b ∈ t.engine.line symbol side →
        Before a b (t.engine.line symbol side)) ∧
      ∀ trade, (symbol, trade) ∈ t.engine.executed.drop s.engine.executed.length →
        trade.makerOrderId = b → a ∉ t.engine.line symbol side := by
  obtain ⟨-, hs⟩ := soundRun h (orderly_startWAL mem hashOrder feeModel file)
  obtain ⟨hrun, -⟩ := soundRun h' hs
  rw [← line_venue _ s.due] at hbefore
  have hline := Venue.inLine_of_run hrun (hs.sound s.due) hbefore fun x hx o ho => by
    obtain ⟨l, hl, hevent⟩ := submitted_of_run h' hx ho
    exact hnew l hl o hevent
  rw [← line_venue _ t.due]
  exact ⟨hline.order, hline.served⟩

/-- Two orders at one price. The first one is given a larger quantity, and keeps its place. -/
theorem no_overtaking_two_asks : ∃ (s t : System) (trade : Trade),
    s.engine.line "S" .sell = ["a", "b"] ∧
    ("S", trade) ∈ t.engine.executed.drop s.engine.executed.length ∧ trade.makerOrderId = "b" ∧
    "a" ∉ t.engine.line "S" .sell := by
  let first : List Event := [.begin (.submit true ⟨"a", "S", .sell, .limit, 10, 2⟩),
    .begin (.submit true ⟨"b", "S", .sell, .limit, 10, 2⟩)]
  let start : System := ⟨((fresh .empty .plain none).startWAL none).2, []⟩
  let later : List Event := [.begin (.submit true ⟨"c", "S", .buy, .limit, 10, 1⟩),
    .begin (.modify "a" 5), .begin (.submit true ⟨"d", "S", .buy, .limit, 10, 6⟩)]
  let makers (e e' : MatchingEngine) : List (String × String) :=
    (e'.executed.drop e.executed.length).map fun r => (r.1, r.2.makerOrderId)
  have hfinal : ((Run.exec (advanceClean 9) start first).bind fun p =>
      (Run.exec (advanceClean 9) p.2 later).map fun q =>
        (p.2.engine.line "S" .sell, makers p.2.engine q.2.engine,
          decide (∀ l ∈ q.1, ∀ o ∈ l.1.submitted?, o.id ≠ "a" ∧ o.id ≠ "b"))) =
      some (["a", "b"], [("S", "a"), ("S", "a"), ("S", "b")], true) := by
    decide +kernel
  obtain ⟨⟨ls, s⟩, hls, hq⟩ := Option.bind_eq_some_iff.mp hfinal
  obtain ⟨⟨ls', t⟩, hls', heq⟩ := Option.map_eq_some_iff.mp hq
  obtain ⟨hline, heq⟩ := Prod.mk.inj heq
  obtain ⟨hmakers, hnew⟩ := Prod.mk.inj heq
  have hrun : Run CleanStep start ls s := Run.of_exec (fun _ _ _ _ => cleanStep_of_advance) hls
  have hrun' : Run CleanStep s ls' t := Run.of_exec (fun _ _ _ _ => cleanStep_of_advance) hls'
  have hbefore : Before "a" "b" (s.engine.line "S" .sell) := by
    rw [hline]
    decide
  obtain ⟨⟨symbol, trade⟩, htrade, hids⟩ : ∃ r ∈ t.engine.executed.drop s.engine.executed.length,
      (r.1, r.2.makerOrderId) = ("S", "b") := by
    have hmem : (("S", "b") : String × String) ∈ makers s.engine t.engine := by
      rw [show makers s.engine t.engine = _ from hmakers]
      decide
    exact List.mem_map.mp hmem
  obtain ⟨rfl, hmaker⟩ := Prod.mk.inj hids
  obtain ⟨-, hserved⟩ := no_overtaking hrun hbefore hrun' (of_decide_eq_true hnew)
  exact ⟨s, t, trade, hline, htrade, hmaker, hserved trade htrade hmaker⟩

end System

end GoQuant
