import GoQuant.Engine.Mirrors
import GoQuant.Engine.Carriers

/-!
# Symbols do not interfere

A caller makes requests for several symbols, one after another, and uses each order id for one
symbol only. What the engine keeps and sends for a symbol is then what it would keep and send if
the caller had only made the requests that concern this symbol.

## Main definitions

* `MatchingEngine.Serves` — a request is served before the next one is made.
* `onlyFor` — the requests that concern a symbol.
* `SameFor` — two engines that keep and have sent the same for a symbol.

## Main results

* `served_of_run` — among what holds after requests: a symbol carries no ids but those submitted
  to it.
* `bypasses_of_serves`, `mirror_of_serves` — one request.
* `isolated_of_run` — a sequence of requests.
-/

namespace GoQuant

open MatchingAlgorithm

/-- The call that makes a request, which the rate limiter admits. -/
def Request.call : Request → Call
  | .submit o => .submit true o
  | .cancel orderId => .cancel orderId
  | .modify orderId newQuantity => .modify orderId newQuantity

/-- The orders that are submitted. -/
def submittedOrders (reqs : List Request) : List Order :=
  reqs.filterMap fun req =>
    match req with
    | .submit o => some o
    | _ => none

/-- An id is submitted to a symbol. -/
def submitsTo (reqs : List Request) (symbol id : String) : Bool :=
  (submittedOrders reqs).any fun o => o.symbol = symbol ∧ o.id = id

/-- A request for a symbol: an order, or a cancellation or a change of an id submitted to it. -/
def Request.concerns (reqs : List Request) (symbol : String) : Request → Bool
  | .submit o => o.symbol = symbol
  | .cancel orderId => submitsTo reqs symbol orderId
  | .modify orderId _ => submitsTo reqs symbol orderId

/-- The requests that concern a symbol, in the same order. -/
def onlyFor (symbol : String) (reqs : List Request) : List Request :=
  reqs.filter (Request.concerns reqs symbol)

/-- Each order id is used for one symbol only. -/
def OneSymbol (reqs : List Request) : Prop :=
  ∀ o ∈ submittedOrders reqs, ∀ o' ∈ submittedOrders reqs, o.id = o'.id → o.symbol = o'.symbol

instance (reqs : List Request) : Decidable (OneSymbol reqs) :=
  inferInstanceAs (Decidable (∀ o ∈ submittedOrders reqs, ∀ o' ∈ submittedOrders reqs,
    o.id = o'.id → o.symbol = o'.symbol))

variable {reqs reqs' : List Request} {req : Request} {s symbol id : String}

theorem mem_submittedOrders {o : Order} : o ∈ submittedOrders reqs ↔ .submit o ∈ reqs := by
  unfold submittedOrders
  rw [List.mem_filterMap]
  constructor
  · rintro ⟨req, hreq, h⟩
    cases req with
    | submit o' => exact Option.some.inj h ▸ hreq
    | _ => cases h
  · intro ho
    exact ⟨.submit o, ho, rfl⟩

theorem submitsTo_iff : submitsTo reqs symbol id = true ↔
    ∃ o, .submit o ∈ reqs ∧ o.symbol = symbol ∧ o.id = id := by
  simp [submitsTo, mem_submittedOrders]

theorem submitsTo_mono (hsub : ∀ req ∈ reqs, req ∈ reqs')
    (h : submitsTo reqs symbol id = true) : submitsTo reqs' symbol id = true := by
  rw [submitsTo_iff] at h ⊢
  obtain ⟨o, ho, hid⟩ := h
  exact ⟨o, hsub _ ho, hid⟩

theorem OneSymbol.eq {symbol' : String} (h : OneSymbol reqs)
    (hs : submitsTo reqs symbol id = true) (hs' : submitsTo reqs symbol' id = true) :
    symbol = symbol' := by
  obtain ⟨o, ho, rfl, rfl⟩ := submitsTo_iff.mp hs
  obtain ⟨o', ho', rfl, hid⟩ := submitsTo_iff.mp hs'
  exact h o (mem_submittedOrders.mpr ho) o' (mem_submittedOrders.mpr ho') hid.symm

namespace MatchingEngine

variable {fuel : ℕ} {start e e' r r' : MatchingEngine} {c : Call} {tasks : List Task}

/-- A request is served before the next one is made. -/
def Serves (e : MatchingEngine) (req : Request) (e' : MatchingEngine) : Prop :=
  e.CallStep req.call e'

/-- Two engines that keep and have sent the same for a symbol. Trades are compared without their
ids, which number the trades of the whole process. -/
structure SameFor (s : String) (e r : MatchingEngine) : Prop where
  exists_book : (r.orderBooks.lookup s).isSome = (e.orderBooks.lookup s).isSome
  book : SameContents e.mem (e.book s) r.mem (r.book s)
  waiting : r.waiting s = e.waiting s
  tradeHistory : ((r.tradeHistory.lookup s).getD []).map Trade.anonymous =
    ((e.tradeHistory.lookup s).getD []).map Trade.anonymous
  tradeSeqs : (r.tradeSeqs.lookup s).getD 0 = (e.tradeSeqs.lookup s).getD 0
  marketDataSeqs : (r.marketDataSeqs.lookup s).getD 0 = (e.marketDataSeqs.lookup s).getD 0
  lastMarketSnapshot : r.lastMarketSnapshot.lookup s = e.lastMarketSnapshot.lookup s
  messages : (r.feed.filter fun d => d.symbol = s).map Delivery.anonymous =
    (e.feed.filter fun d => d.symbol = s).map Delivery.anonymous

theorem Mirror.sameFor (h : Mirror s e r) : SameFor s e r := by
  obtain ⟨f, known, h⟩ := h
  have hfeed := h.market.feed
  refine ⟨?_, h.book.sameContents h.mem, ?_, congrArg Feed.tradeHistory hfeed,
    congrArg Feed.tradeSeq hfeed, congrArg Feed.marketDataSeq hfeed,
    congrArg Feed.lastMarketSnapshot hfeed, congrArg Feed.messages hfeed⟩
  · have hbook : Option.Rel (OrderBook.Renames f known) (e.orderBooks.lookup s)
      (r.orderBooks.lookup s) := h.market.orderBook
    generalize e.orderBooks.lookup s = x, r.orderBooks.lookup s = y at hbook
    cases hbook <;> rfl
  · rw [waiting, waiting, h.pending]
    exact h.mem.map_order fun ord hord => h.mem_known hord

/-- An engine without orders, twice. -/
theorem mirror_self (hbooks : start.orderBooks = ∅) (htriggers : start.triggerOrders = ∅) :
    Mirror s start start := by
  refine ⟨id, ∅, ⟨by simp, by simp, by simp⟩, ⟨?_, ?_, ?_, rfl⟩, ?_, rfl, rfl⟩
  · simp only [market, hbooks, AList.lookup_empty]
    exact .none
  · simp only [market, htriggers, AList.lookup_empty, Option.map_none]
  · simp [market, htriggers]
  · rintro ref ⟨symbol, -, hmapped⟩
    refine absurd ?_ hmapped
    intro id
    simp [book, hbooks, OrderBook.empty]

/-! ## Ids -/

/-- What a call still has to do brings no id to a symbol. -/
theorem carries_performs (h : System.Performs fuel tasks e e') (ha : e.PendingApart)
    (hs : e.Books Sane) (hid : e'.Carries symbol id) : e.Carries symbol id := by
  induction h with
  | nil => exact hid
  | @cons task tasks rest e u e' hperform _ ih =>
    have hstep : System.Step ⟨e, [task :: rest]⟩ (.proceed 0) ⟨u, [tasks ++ rest]⟩ :=
      .proceed rfl hperform
    obtain ⟨ha', hs'⟩ := pendingApart_sections.step (s := ⟨e, [task :: rest]⟩) ⟨ha, hs⟩ hstep
    obtain hold | ⟨o, hevent, -⟩ := System.carries_step ha hs hstep (ih ha' hs' hid)
    · exact hold
    · cases hevent

/-- A call brings no id to a symbol but that of the order it submits. -/
theorem carries_call (h : e.call fuel c = some e') (ha : e.PendingApart) (hs : e.Books Sane)
    (hid : e'.Carries symbol id) :
    e.Carries symbol id ∨ ∃ o, c = .submit true o ∧ o.symbol = symbol ∧ o.id = id := by
  obtain ⟨tasks, u, hstart, hperforms⟩ := System.exists_performs_of_call h
  have hstep : System.Step ⟨e, []⟩ (.begin c) ⟨u, [tasks]⟩ := .begin hstart
  obtain ⟨ha', hs'⟩ := pendingApart_sections.step (s := ⟨e, []⟩) ⟨ha, hs⟩ hstep
  refine (System.carries_step ha hs hstep (carries_performs hperforms ha' hs' hid)).imp_right ?_
  rintro ⟨o, hevent, ho⟩
  exact ⟨o, System.Event.begin.inj hevent, ho⟩

/-- A state that requests lead to. -/
structure Served (reqs : List Request) (e : MatchingEngine) : Prop where
  apart : e.PendingApart
  sane : e.Books Sane
  labelled : e.Labelled
  carries : ∀ symbol id, e.Carries symbol id → submitsTo reqs symbol id = true

theorem Served.mono (h : Served reqs e) (hsub : ∀ req ∈ reqs, req ∈ reqs') : Served reqs' e :=
  { h with carries := fun symbol id hid => submitsTo_mono hsub (h.carries symbol id hid) }

theorem Served.snoc (h : Served reqs e) (hserve : e.Serves req e') :
    Served (reqs ++ [req]) e' := by
  have hcalls : Run CallStep e [req.call] e' := .one hserve
  obtain ⟨ha, hs⟩ := pendingApart_sections.calls hcalls ⟨h.apart, h.sane⟩
  refine ⟨ha, hs, labelled_sections.calls hcalls h.labelled, fun symbol id hid => ?_⟩
  obtain ⟨fuel, hcall⟩ := hserve
  obtain hold | ⟨o, hc, ho⟩ := carries_call hcall h.apart h.sane hid
  · exact submitsTo_mono (fun _ => List.mem_append_left _) (h.carries symbol id hold)
  · have hreq : req = .submit o := by
      cases req <;> cases hc
      rfl
    exact submitsTo_iff.mpr ⟨o, by simp [hreq], ho⟩

/-- By induction on the requests. -/
theorem served_of_run (hbooks : start.orderBooks = ∅) (htriggers : start.triggerOrders = ∅)
    (hrun : Run Serves start reqs e) : Served reqs e := by
  refine hrun.history Served ⟨?_, ?_, ?_, ?_⟩ fun reqs t req u h hserve => h.snoc hserve
  · intro symbol ord hord
    simp [pending, htriggers] at hord
  · exact bookInvariant_sane.fresh hbooks
  · exact labelled_iff.mpr (.of_empty hbooks htriggers)
  · intro symbol id hid
    rcases hid.mem_keys with hkeys | hkeys
    · simp [hbooks] at hkeys
    · simp [htriggers] at hkeys

/-! ## Requests -/

/-- A request that does not concern a symbol bypasses it. -/
theorem bypasses_of_serves (h : Served reqs' e) (hserve : e.Serves req e')
    (hsub : ∀ req ∈ reqs', req ∈ reqs) (hreq : req.concerns reqs s = false) :
    e.Bypasses s e' := by
  have hunknown {id : String} (hid : submitsTo reqs s id = false) :
      (e.book s).hasOrder id = false := by
    by_contra hknown
    have hcarries := h.carries s id (Or.inl (Or.inl (by simpa using hknown)))
    rw [submitsTo_mono hsub hcarries] at hid
    cases hid
  obtain ⟨fuel, hcall⟩ := hserve
  cases req with
  | submit o => exact Bypasses.submit h.labelled (of_decide_eq_false hreq) hcall
  | cancel orderId =>
    obtain rfl := Option.some.inj hcall
    exact .cancelOrder e (hunknown hreq)
  | modify orderId newQuantity =>
    obtain rfl := Option.some.inj hcall
    exact .modifyOrder e (hunknown hreq)

/-- A request that concerns the symbol is served alike. -/
theorem mirror_of_serves (h : Mirror s e r) (hids : OneSymbol reqs) (he : Served reqs e)
    (hr : Served reqs r) (hserve : e.Serves req e') (hreq : req.concerns reqs s = true) :
    ∃ r', r.Serves req r' ∧ Mirror s e' r' := by
  have hone {u : MatchingEngine} (hu : Served reqs u) {id : String}
      (hid : submitsTo reqs s id = true) (symbol : String)
      (hknown : (u.book symbol).hasOrder id = true) : symbol = s :=
    hids.eq (hu.carries symbol id (Or.inl (Or.inl hknown))) hid
  obtain ⟨fuel, hcall⟩ := hserve
  cases req with
  | submit o =>
    obtain rfl : o.symbol = s := of_decide_eq_true hreq
    obtain ⟨r', hr', h'⟩ := (h.submit he.labelled).exists_of_some hcall
    exact ⟨r', ⟨fuel, hr'⟩, h'⟩
  | cancel orderId =>
    obtain rfl := Option.some.inj hcall
    exact ⟨_, ⟨fuel, rfl⟩, h.cancelOrder (hone he hreq) (hone hr hreq)⟩
  | modify orderId newQuantity =>
    obtain rfl := Option.some.inj hcall
    exact ⟨_, ⟨fuel, rfl⟩, h.modifyOrder (hone he hreq) (hone hr hreq)⟩

/-- The requests so far, of which one symbol is concerned by some. -/
theorem mirror_of_run (hbooks : start.orderBooks = ∅) (htriggers : start.triggerOrders = ∅)
    (hids : OneSymbol reqs) (hrun : Run Serves start reqs' e) (hsub : ∀ req ∈ reqs', req ∈ reqs)
    (s : String) : ∃ r, Run Serves start (reqs'.filter (Request.concerns reqs s)) r ∧
      Mirror s e r := by
  induction hrun with
  | nil => exact ⟨start, .nil, mirror_self hbooks htriggers⟩
  | @snoc reqs' e e' req hrun hserve ih =>
    have hsub' : ∀ req ∈ reqs', req ∈ reqs := fun req hreq =>
      hsub req (List.mem_append_left _ hreq)
    obtain ⟨r, hr, h⟩ := ih hsub'
    have he : Served reqs' e := served_of_run hbooks htriggers hrun
    cases hreq : req.concerns reqs s with
    | false =>
      refine ⟨r, ?_, h.bypass (bypasses_of_serves he hserve hsub' hreq)⟩
      rwa [List.filter_append, List.filter_singleton, hreq, cond_false, List.append_nil]
    | true =>
      have hrs : Served reqs r := (served_of_run hbooks htriggers hr).mono fun req hreq =>
        hsub' req (List.mem_of_mem_filter hreq)
      obtain ⟨r', hserve', h'⟩ := mirror_of_serves h hids (he.mono hsub') hrs hserve hreq
      refine ⟨r', ?_, h'⟩
      rw [List.filter_append, List.filter_singleton, hreq, cond_true]
      exact hr.snoc hserve'

/-- **Symbols do not interfere.** Let requests that the rate limiter admits be served one after
another, by an engine without orders that anyone may have subscribed to, and let each order id be
used for one symbol only. For every symbol the same engine has one outcome when it only serves the
requests that concern this symbol, in the same order, and the two outcomes agree on the book, the
pending trigger orders, the trade history, the numbers given so far, the last snapshot, and all
messages to the subscribers of the symbol. -/
theorem isolated_of_run (hbooks : start.orderBooks = ∅) (htriggers : start.triggerOrders = ∅)
    (hids : OneSymbol reqs) (hrun : Run Serves start reqs e) (s : String) :
    ∃ r, (∀ r', Run Serves start (onlyFor s reqs) r' ↔ r' = r) ∧ SameFor s e r := by
  obtain ⟨r, hr, h⟩ := mirror_of_run hbooks htriggers hids hrun (fun _ hreq => hreq) s
  refine ⟨r, fun r' => ⟨fun hr' => ?_, fun heq => heq ▸ hr⟩, h.sameFor⟩
  have hunique (t : MatchingEngine) (req : Request) (u w : MatchingEngine) (hu : t.Serves req u)
      (hw : t.Serves req w) : w = u := CallStep.unique hu hw
  exact hr.unique hunique hr'

/-- Executed requests make up a run. -/
theorem serves_of_exec {ls : List Request}
    (h : Run.exec (fun (e : MatchingEngine) (req : Request) =>
      (e.call fuel req.call).map (req, ·)) start reqs = some (ls, e)) :
    Run Serves start reqs e := by
  obtain rfl := Run.exec_events h
  refine Run.of_exec (fun e req req' e' he => ?_) h
  obtain ⟨u, hu, heq⟩ := Option.map_eq_some_iff.mp he
  obtain ⟨rfl, rfl⟩ := Prod.mk.inj heq
  exact ⟨fuel, hu⟩

/-- A stop order of one symbol waits and is activated while orders of another one rest, trade and
are cancelled. -/
theorem isolated_of_run_two_symbols : ∃ (reqs : List Request) (start e r : MatchingEngine),
    Run Serves start reqs e ∧ Run Serves start (onlyFor "A" reqs) r ∧ SameFor "A" e r ∧
    (onlyFor "A" reqs).length = 5 ∧ e.feed.length = 9 ∧
    (e.feed.filter fun d => d.symbol = "A").length = 5 := by
  let start := ((((fresh .empty .plain none).subscribeToMarketData "A" 1).subscribeToTrades "A" 1
    ).subscribeToMarketData "B" 1).subscribeToTrades "B" 2
  let reqs : List Request := [
    .submit ⟨"a1", "A", .buy, .limit, 10, 5⟩, .submit ⟨"b1", "B", .buy, .limit, 10, 5⟩,
    .submit ⟨"a2", "A", .sell, .stopLoss, 11, 1⟩, .submit ⟨"b2", "B", .sell, .market, 0, 2⟩,
    .submit ⟨"a3", "A", .sell, .limit, 10, 2⟩, .cancel "b1", .modify "a1" 1, .cancel "a1"]
  let final := Run.exec (fun (e : MatchingEngine) (req : Request) =>
    (e.call 3 req.call).map (req, ·)) start reqs
  have hseen : final.map (fun p =>
      (p.2.feed.length, (p.2.feed.filter fun d => d.symbol = "A").length)) = some (9, 5) := by
    decide +kernel
  obtain ⟨⟨ls, e⟩, hfinal, hseen⟩ := Option.map_eq_some_iff.mp hseen
  obtain ⟨hall, hown⟩ := Prod.mk.inj hseen
  have hrun : Run Serves start reqs e := serves_of_exec hfinal
  obtain ⟨r, hr, hsame⟩ := isolated_of_run rfl rfl (by decide) hrun "A"
  exact ⟨reqs, start, e, r, hrun, (hr r).mpr rfl, hsame, by decide, hall, hown⟩

end MatchingEngine

end GoQuant
