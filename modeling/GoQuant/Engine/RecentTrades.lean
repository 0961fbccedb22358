import GoQuant.Engine.Feeds
import GoQuant.Engine.Reports
import GoQuant.Lib.Window

/-!
# The trade history

`publishTrade` numbers the trades of a symbol and appends each to the history of the symbol,
which holds 1000 trades at most. `getRecentTrades` reads the end of that history.

## Main definitions

* `publishedFor` — the trades published for a symbol, `Kept` — the history holds the last of
  them.

## Main results

* `step_trades` — a step publishes one trade, or leaves the trade feed alone.
* `recentTrades_of_run` — what `getRecentTrades` returns after any run.
-/

namespace GoQuant

namespace MatchingEngine

variable {e e' : MatchingEngine} {symbol : String} {trade stamped : Trade}
  {callbacks : List Subscriber}

/-- The trades published for a symbol, in order. -/
def publishedFor (e : MatchingEngine) (symbol : String) : List Trade :=
  (e.published.map Prod.fst).filter fun t => t.symbol = symbol

/-- Two engine states with the same trade feed. -/
structure SameTrades (e e' : MatchingEngine) : Prop where
  tradeHistory : e'.tradeHistory = e.tradeHistory
  tradeSeqs : e'.tradeSeqs = e.tradeSeqs
  published : e'.published = e.published

theorem SameFeeds.trades (h : e.SameFeeds e') : e.SameTrades e' :=
  ⟨h.tradeHistory, h.tradeSeqs, h.published⟩

theorem SameTrades.publishUpdate (e : MatchingEngine) (symbol : String)
    (update : MarketDataUpdate) : e.SameTrades (e.publishUpdate symbol update) := by
  unfold MatchingEngine.publishUpdate
  dsimp only
  split
  · exact ⟨rfl, rfl, rfl⟩
  · split_ifs <;> exact ⟨rfl, rfl, rfl⟩

/-- Every trade published for a symbol is numbered, and the history holds the last 1000. -/
structure Kept (e : MatchingEngine) : Prop where
  numbered : e.Numbered
  history : ∀ symbol,
    (e.tradeHistory.lookup symbol).getD [] = (e.publishedFor symbol).rtake 1000

namespace Kept

/-- An engine that has published nothing. -/
theorem of_nothing (hpublished : e.published = []) (hseqs : e.tradeSeqs = ∅)
    (hhistory : e.tradeHistory = ∅) : e.Kept where
  numbered symbol := by
    rw [hpublished, hseqs]
    rfl
  history symbol := by
    rw [publishedFor, hpublished, hhistory, AList.lookup_empty, List.map_nil, List.filter_nil,
      List.rtake_nil, Option.getD_none]

theorem of_same (h : e.Kept) (hsame : e.SameTrades e') : e'.Kept where
  numbered symbol := by
    rw [hsame.published, hsame.tradeSeqs]
    exact h.numbered symbol
  history symbol := by
    rw [publishedFor, hsame.published, hsame.tradeHistory]
    exact h.history symbol

/-- A trade is published. -/
theorem recordTrade (h : e.Kept) (hr : e.recordTrade trade = (stamped, callbacks, e')) :
    e'.Kept := by
  refine ⟨h.numbered.recordTrade hr, ?_⟩
  intro symbol
  obtain ⟨hstamped, -, hpublished, -⟩ := recordTrade_reports hr
  have hfor : e'.publishedFor symbol =
      e.publishedFor symbol ++ if stamped.symbol = symbol then [stamped] else [] := by
    simp [publishedFor, hpublished, List.filter_singleton]
  have hsymbol : stamped.symbol = trade.symbol := by rw [hstamped]
  have hhistory : e'.tradeHistory = e.tradeHistory.insert stamped.symbol
      (if 1000 < ((e.tradeHistory.lookup stamped.symbol).getD [] ++ [stamped]).length then
        ((e.tradeHistory.lookup stamped.symbol).getD [] ++ [stamped]).tail
      else (e.tradeHistory.lookup stamped.symbol).getD [] ++ [stamped]) := by
    unfold MatchingEngine.recordTrade at hr
    obtain ⟨rfl, hrest⟩ := Prod.mk.inj hr
    obtain ⟨-, rfl⟩ := Prod.mk.inj hrest
    exact (SameFeeds.writeWAL _ _).tradeHistory
  rw [hhistory, hfor]
  by_cases hkey : symbol = stamped.symbol
  · subst hkey
    rw [AList.lookup_insert, Option.getD_some, h.history, if_pos rfl]
    exact Window.rtake_push _ _ (by omega)
  · rw [AList.lookup_insert_ne hkey, if_neg (Ne.symm hkey), List.append_nil]
    exact h.history symbol

/-- The trades of a symbol carry the numbers from one on. -/
theorem seqNum (h : e.Kept) (symbol : String) :
    (e.publishedFor symbol).map Trade.seqNum = List.range' 1 (e.publishedFor symbol).length := by
  have hnumbers : (e.publishedFor symbol).map Trade.seqNum =
      List.range' 1 ((e.tradeSeqs.lookup symbol).getD 0) := by
    rw [← h.numbered symbol, publishedFor, List.filter_map, List.map_map]
    rfl
  have hlength := congrArg List.length hnumbers
  rw [List.length_map, List.length_range'] at hlength
  rw [hnumbers, hlength]

/-- Reading the history. -/
theorem getRecentTrades (h : e.Kept) (symbol : String) (count : ℕ) :
    e.getRecentTrades symbol count =
      some ((e.publishedFor symbol).rtake
        (min count (min (e.publishedFor symbol).length 1000))) := by
  have hhistory := h.history symbol
  unfold MatchingEngine.getRecentTrades
  cases hlookup : e.tradeHistory.lookup symbol with
  | none =>
    rw [hlookup, Option.getD_none] at hhistory
    have hlength := congrArg List.length hhistory
    rw [Window.length_rtake, List.length_nil] at hlength
    have hzero : min count (min (e.publishedFor symbol).length 1000) = 0 := by omega
    rw [hzero, List.rtake_zero]
  | some dq =>
    rw [hlookup, Option.getD_some] at hhistory
    dsimp only
    rw [hhistory, Window.mapM_window _ (Nat.min_le_right _ _), Window.rtake_rtake,
      Window.length_rtake]
    have hwindow : min (min count (min 1000 (e.publishedFor symbol).length)) 1000 =
        min count (min (e.publishedFor symbol).length 1000) := by omega
    rw [hwindow]

end Kept

end MatchingEngine

namespace System

open MatchingEngine

variable {s t : System} {event : Event} {events : List Event}

/-- A step publishes one trade, or it leaves the trade feed alone. -/
theorem step_trades (hstep : s.Step event t) :
    s.engine.SameTrades t.engine ∨ ∃ i trade, event = .proceed i ∧
      s.head? i = some (.publish trade) ∧ t.engine = (s.engine.recordTrade trade).2.2 := by
  cases hstep with
  | @begin fuel c tasks e hstart =>
    left
    cases c with
    | submit tryAcceptOrder o =>
      have halloc := SameFeeds.alloc s.engine o
      obtain ⟨-, r, haccept, -⟩ | ⟨-, -, rfl⟩ := start_submit hstart
      · exact (halloc.trans (.acceptOrder haccept)).trades
      · exact halloc.trades
    | cancel orderId =>
      obtain ⟨-, rfl⟩ := Prod.mk.inj (Option.some.inj hstart)
      exact (SameFeeds.cancelOrderUnlocked s.engine orderId).trades
    | modify orderId newQuantity =>
      obtain ⟨-, rfl⟩ := Prod.mk.inj (Option.some.inj hstart)
      exact (SameFeeds.modifyOrderUnlocked s.engine orderId newQuantity).trades
    | _ =>
      obtain ⟨-, rfl⟩ := Prod.mk.inj (Option.some.inj hstart)
      exact ⟨rfl, rfl, rfl⟩
  | @proceed fuel i task rest tasks e hcall hperform =>
    cases task with
    | publish trade =>
      obtain ⟨-, rfl⟩ := Prod.mk.inj (Option.some.inj hperform)
      exact Or.inr ⟨i, trade, rfl, head?_of_calls hcall, rfl⟩
    | check symbol price =>
      obtain ⟨u, hu, heq⟩ := Option.map_eq_some_iff.mp hperform
      obtain ⟨-, rfl⟩ := Prod.mk.inj heq
      exact Or.inl (SameFeeds.checkTriggers hu).trades
    | update symbol update =>
      obtain ⟨-, rfl⟩ := Prod.mk.inj (Option.some.inj hperform)
      exact Or.inl (.publishUpdate s.engine symbol update)
    | _ =>
      obtain ⟨-, rfl⟩ := Prod.mk.inj (Option.some.inj hperform)
      exact Or.inl ⟨rfl, rfl, rfl⟩

theorem kept_of_run (hrun : Run Step s events t) (h : s.engine.Kept) : t.engine.Kept := by
  refine hrun.invariant (fun u => u.engine.Kept) h ?_
  intro u event w hu hstep
  obtain hsame | ⟨-, trade, -, -, heq⟩ := step_trades hstep
  · exact hu.of_same hsame
  · rw [heq]
    exact hu.recordTrade rfl

end System

namespace MatchingEngine

variable {e : MatchingEngine} {s : System} {events : List System.Event}

/-- **The history is the end of what was published, numbered from one.** In any run of
interleaved calls on an engine that has published nothing: the trades published for a symbol
carry the numbers from one on, in the order in which they were published; the history holds the
last thousand of them in increasing order; and `getRecentTrades` returns the last ones, as many
as are asked for and there are, and reads no index out of range. -/
theorem recentTrades_of_run (hpublished : e.published = []) (hseqs : e.tradeSeqs = ∅)
    (hhistory : e.tradeHistory = ∅) (hrun : Run System.Step ⟨e, []⟩ events s) (symbol : String) :
    (s.engine.publishedFor symbol).map Trade.seqNum =
      List.range' 1 (s.engine.publishedFor symbol).length ∧
    (s.engine.tradeHistory.lookup symbol).getD [] =
      (s.engine.publishedFor symbol).rtake (min (s.engine.publishedFor symbol).length 1000) ∧
    ((s.engine.tradeHistory.lookup symbol).getD []).Pairwise (fun t t' => t.seqNum < t'.seqNum) ∧
    ∀ count, s.engine.getRecentTrades symbol count = some ((s.engine.publishedFor symbol).rtake
      (min count (min (s.engine.publishedFor symbol).length 1000))) := by
  have hkept := System.kept_of_run hrun (.of_nothing hpublished hseqs hhistory)
  have hnumbers := hkept.seqNum symbol
  have hhistory := hkept.history symbol
  refine ⟨hnumbers, ?_, ?_, hkept.getRecentTrades symbol⟩
  · rw [hhistory, Window.rtake_min_length]
  · have hincreasing : ((s.engine.publishedFor symbol).map Trade.seqNum).Pairwise (· < ·) := by
      rw [hnumbers]
      exact List.pairwise_lt_range'
    rw [hhistory]
    exact (List.pairwise_map.mp hincreasing).sublist (List.drop_sublist _ _)

/-- Three lots are sold one by one; the last two of the three trades are asked for. -/
theorem recentTrades_of_run_two_of_three : ∃ (s : System) (events : List System.Event),
    Run System.Step ⟨fresh .empty .plain none, []⟩ events s ∧
    (s.engine.publishedFor "S").map (fun t => (t.seqNum, t.takerOrderId)) =
      [(1, "a1"), (2, "a2"), (3, "a3")] ∧
    s.engine.getRecentTrades "S" 2 = some ((s.engine.publishedFor "S").rtake 2) := by
  let final := Run.exec (fun (s : System) event => (s.advance 3 event).map (event, ·))
    ⟨fresh .empty .plain none, []⟩ [
    .begin (.submit true ⟨"bid", "S", .buy, .limit, 10, 5⟩),
    .begin (.submit true ⟨"a1", "S", .sell, .market, 0, 1⟩),
    .begin (.submit true ⟨"a2", "S", .sell, .market, 0, 1⟩), .proceed 1, .proceed 2,
    .begin (.submit true ⟨"a3", "S", .sell, .market, 0, 1⟩), .proceed 3]
  have hseen : final.map (fun p =>
      (p.2.engine.publishedFor "S").map fun t => (t.seqNum, t.takerOrderId)) =
        some [(1, "a1"), (2, "a2"), (3, "a3")] := by decide +kernel
  obtain ⟨⟨events, s⟩, hfinal, hseen⟩ := Option.map_eq_some_iff.mp hseen
  have hrun := System.run_of_exec hfinal
  obtain ⟨-, -, -, hrecent⟩ := recentTrades_of_run rfl rfl rfl hrun "S"
  have hlength := congrArg List.length hseen
  rw [List.length_map] at hlength
  have htwo := hrecent 2
  rw [hlength] at htwo
  exact ⟨s, events, hrun, hseen, htwo⟩

end MatchingEngine

end GoQuant
