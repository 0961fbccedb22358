import GoQuant.Engine.Symbols

/-!
# Where trades are executed

Trades are executed when an order is submitted, and when a trade activates pending orders.
The former are published by the call that submitted the order, the latter by nobody. Whether
a trade at a price executes any can be seen beforehand: no activated order matches anything
in the book, and none meets an activated STOP_LIMIT order that has come to rest before it.

## Main definitions

* `Executes` — trades are executed, and nothing is reported.
* `Silent` — a trade at a price activates orders that execute nothing.

## Main results

* `start_executes` — a submitted order's trades are those to be published.
* `checkTriggers_executes` — activated orders execute nothing exactly if they are silent.
-/

namespace GoQuant

open MatchingAlgorithm OrderBook

/-- The trade a callback was called with. -/
def Delivery.trade? : Delivery → Option (Subscriber × Trade)
  | .trade subscriber t => some (subscriber, t)
  | .marketData _ _ => none

/-- The trade a task will publish. -/
def Task.publish? : Task → Option Trade
  | .publish trade => some trade
  | _ => none

/-- The delivery a task will make. -/
def Task.deliver? : Task → Option (Subscriber × Trade)
  | .deliver callback t => some (callback, t)
  | _ => none

namespace MatchingEngine

variable {fuel : ℕ} {e e' e'' : MatchingEngine} {symbol orderId : String} {price : ℚ}
  {ord : Ref} {vec remaining : List Ref} {o : Order} {result : Matching}
  {ts ts' : List Trade} {tasks : List Task}

/-- The trades delivered so far. -/
def delivered (e : MatchingEngine) : List (Subscriber × Trade) :=
  e.feed.filterMap Delivery.trade?

/-- Trades are executed against the book of a symbol, and nothing is reported. -/
structure Executes (symbol : String) (ts : List Trade) (e e' : MatchingEngine) : Prop where
  executed : e'.executed = e.executed ++ ts.map (symbol, ·)
  published : e'.published = e.published
  tradeSeqs : e'.tradeSeqs = e.tradeSeqs
  delivered : e'.delivered = e.delivered

namespace Executes

theorem idle (hexecuted : e'.executed = e.executed) (hpublished : e'.published = e.published)
    (hseqs : e'.tradeSeqs = e.tradeSeqs) (hfeed : e'.feed = e.feed) : Executes symbol [] e e' :=
  ⟨by simpa using hexecuted, hpublished, hseqs, by rw [MatchingEngine.delivered, hfeed]; rfl⟩

theorem trans (h : Executes symbol ts e e') (h' : Executes symbol ts' e' e'') :
    Executes symbol (ts ++ ts') e e'' where
  executed := by rw [h'.executed, h.executed, List.map_append, List.append_assoc]
  published := h'.published.trans h.published
  tradeSeqs := h'.tradeSeqs.trans h.tradeSeqs
  delivered := h'.delivered.trans h.delivered

/-- Something happens afterwards that executes nothing. -/
theorem then_idle (h : Executes symbol ts e e') (h' : Executes symbol [] e' e'') :
    Executes symbol ts e e'' :=
  List.append_nil ts ▸ h.trans h'

theorem getOrCreateOrderBook (e : MatchingEngine) (s : String) :
    Executes symbol [] e (e.getOrCreateOrderBook s) := by
  unfold MatchingEngine.getOrCreateOrderBook
  split <;> exact .idle rfl rfl rfl rfl

theorem writeWAL (e : MatchingEngine) (record : WalRecord) :
    Executes symbol [] e (e.writeWAL record) := by
  unfold MatchingEngine.writeWAL
  split_ifs <;> exact .idle rfl rfl rfl rfl

theorem receive (e : MatchingEngine) (o : Order) : Executes symbol [] e (e.receive o) := by
  have hcount :
      Executes symbol [] e { e with metricOrdersReceived := e.metricOrdersReceived + 1 } :=
    .idle rfl rfl rfl rfl
  exact hcount.then_idle ((getOrCreateOrderBook _ o.symbol).then_idle (writeWAL _ _))

theorem matched (e : MatchingEngine) (symbol : String) (result : Matching) :
    Executes symbol result.trades e (e.matched symbol result) :=
  ⟨rfl, rfl, rfl, rfl⟩

theorem deliverMarketData (e : MatchingEngine) (s : String) (update : MarketDataUpdate) :
    Executes symbol [] e (e.deliverMarketData s update) := by
  refine ⟨(List.append_nil _).symm, rfl, rfl, ?_⟩
  have hnone : ∀ subscribers : List Subscriber, (subscribers.map fun cb =>
      Delivery.marketData cb update).filterMap Delivery.trade? = [] := fun subscribers => by
    rw [List.filterMap_map]
    exact List.filterMap_eq_nil_iff.mpr fun _ _ => rfl
  simp [MatchingEngine.delivered, MatchingEngine.deliverMarketData, hnone]

theorem publishUpdate (e : MatchingEngine) (s : String) (update : MarketDataUpdate) :
    Executes symbol [] e (e.publishUpdate s update) := by
  unfold MatchingEngine.publishUpdate
  dsimp only
  split
  · refine then_idle ?_ (deliverMarketData _ _ _)
    exact .idle rfl rfl rfl rfl
  · split_ifs
    · exact .idle rfl rfl rfl rfl
    · refine then_idle ?_ (deliverMarketData _ _ _)
      exact .idle rfl rfl rfl rfl

theorem cancelOrderUnlocked (e : MatchingEngine) (orderId : String) :
    Executes symbol [] e (e.cancelOrderUnlocked orderId).2 := by
  unfold MatchingEngine.cancelOrderUnlocked
  split
  · exact .idle rfl rfl rfl rfl
  · refine then_idle ?_ (writeWAL _ _)
    exact .idle rfl rfl rfl rfl

theorem modifyOrderUnlocked (e : MatchingEngine) (orderId : String) (newQuantity : ℚ) :
    Executes symbol [] e (e.modifyOrderUnlocked orderId newQuantity).2 := by
  unfold MatchingEngine.modifyOrderUnlocked
  split
  · exact .idle rfl rfl rfl rfl
  · refine then_idle ?_ (writeWAL _ _)
    exact .idle rfl rfl rfl rfl

end Executes

/-! ## Submitted orders -/

/-- The trades that the locked part of `submitOrder` hands over are those it executed. -/
theorem acceptOrder_executes (hl : e.Labelled) {r : Except String (Option (List Trade))}
    (h : (e.alloc o).1.acceptOrder fuel (e.alloc o).2 = some (r, e')) :
    ∃ ts, Executes o.symbol ts e e' ∧ (∀ t ∈ ts, t.symbol = o.symbol) ∧
      (∀ trades, r = .ok (some trades) → ts = trades) ∧
      ((∀ trades, r ≠ .ok (some trades)) → ts = []) := by
  have hself := e.alloc_order_self o
  have halloc : Executes o.symbol [] e (e.alloc o).1 := .idle rfl rfl rfl rfl
  have hreceive : Executes o.symbol [] e ((e.alloc o).1.receive o) :=
    halloc.then_idle (.receive (e.alloc o).1 o)
  obtain ⟨-, rfl, rfl⟩ | ⟨-, result, hr, rfl, m, n, rfl⟩ | ⟨-, _, rfl, rfl⟩ := acceptOrder_cases h
  all_goals rw [hself] at *
  · refine ⟨[], hreceive.then_idle (.idle rfl rfl rfl rfl), by simp, ?_, fun _ => rfl⟩
    intro trades htrades
    cases htrades
  · refine ⟨result.trades, ?_, fun t ht => hl.symbol_of_trade hr ht, ?_, ?_⟩
    · have hmatched := hreceive.trans (.matched ((e.alloc o).1.receive o) o.symbol result)
      exact hmatched.then_idle (.idle rfl rfl rfl rfl)
    · intro trades htrades
      exact Option.some.inj (Except.ok.inj htrades)
    · intro hne
      exact absurd rfl (hne result.trades)
  · refine ⟨[], hreceive, by simp, ?_, fun _ => rfl⟩
    intro trades htrades
    cases htrades

/-- The first critical section of a call leaves the trades it executed to be published. -/
theorem start_executes (hl : e.Labelled) {c : Call} (h : e.start fuel c = some (tasks, e')) :
    ∃ symbol ts, Executes symbol ts e e' ∧ (∀ t ∈ ts, t.symbol = symbol) ∧
      tasks.filterMap Task.publish? = ts ∧ tasks.filterMap Task.deliver? = [] := by
  have hread (s : Option String) : (s.toList.map Task.read).filterMap Task.publish? = [] ∧
      (s.toList.map Task.read).filterMap Task.deliver? = [] := by
    cases s <;> exact ⟨rfl, rfl⟩
  cases c with
  | submit tryAcceptOrder o =>
    obtain ⟨-, r, ha, ⟨trades, rfl, rfl⟩ | ⟨hne, rfl⟩⟩ | ⟨-, rfl, rfl⟩ := start_submit h
    · obtain ⟨ts, hexecutes, hsymbol, htrades, -⟩ := acceptOrder_executes hl ha
      obtain rfl := htrades trades rfl
      refine ⟨o.symbol, ts, hexecutes, hsymbol, ?_, ?_⟩
      · simp [List.filterMap_append, List.filterMap_map, Function.comp_def, Task.publish?]
      · simp [List.filterMap_append, List.filterMap_map, Function.comp_def, Task.deliver?]
    · obtain ⟨ts, hexecutes, hsymbol, -, hnone⟩ := acceptOrder_executes hl ha
      obtain rfl := hnone hne
      exact ⟨o.symbol, [], hexecutes, hsymbol, rfl, rfl⟩
    · exact ⟨o.symbol, [], .idle rfl rfl rfl rfl, by simp, rfl, rfl⟩
  | cancel orderId =>
    obtain ⟨rfl, rfl⟩ := Prod.mk.inj (Option.some.inj h)
    exact ⟨"", [], .cancelOrderUnlocked e orderId, by simp, hread _⟩
  | modify orderId newQuantity =>
    obtain ⟨rfl, rfl⟩ := Prod.mk.inj (Option.some.inj h)
    exact ⟨"", [], .modifyOrderUnlocked e orderId newQuantity, by simp, hread _⟩
  | subscribeToMarketData symbol callback =>
    obtain ⟨rfl, rfl⟩ := Prod.mk.inj (Option.some.inj h)
    exact ⟨"", [], .idle rfl rfl rfl rfl, by simp, rfl, rfl⟩
  | subscribeToTrades symbol callback =>
    obtain ⟨rfl, rfl⟩ := Prod.mk.inj (Option.some.inj h)
    exact ⟨"", [], .idle rfl rfl rfl rfl, by simp, rfl, rfl⟩

/-! ## Activated orders -/

/-- The orders that a trade at a price makes of pending orders. -/
def activated (mem : Memory) (price : ℚ) (vec : List Ref) : List Order :=
  ((vec.map mem.order).filter fun o => triggered o price).map activeOrder

/-- No activated order matches anything in the book, nor an activated limit order that has
come to rest before it. -/
def Silent (e : MatchingEngine) (symbol : String) (price : ℚ) : Prop :=
  (∀ act ∈ activated e.mem price (e.pending symbol),
      (e.book symbol).getMatchingOrders e.mem act = []) ∧
    (activated e.mem price (e.pending symbol)).Pairwise fun o act => ¬ Meets o act

instance (e : MatchingEngine) (symbol : String) (price : ℚ) :
    Decidable (e.Silent symbol price) := by
  unfold Silent; infer_instance

theorem activeOrder_type (o : Order) :
    (activeOrder o).type = .market ∨ (activeOrder o).type = .limit := by
  unfold activeOrder
  split_ifs
  · exact Or.inr rfl
  · exact Or.inl rfl

@[simp] theorem activeOrder_id (o : Order) : (activeOrder o).id = o.id := by
  unfold activeOrder
  split_ifs <;> rfl

/-- An activated order that matches nothing leaves the other orders alone, and the book as it
does. -/
theorem activate_silent (h : e.activate fuel symbol ord = some e') (hs : e.Books Sane)
    (hnil : (e.book symbol).getMatchingOrders e.mem (activeOrder (e.mem.order ord)) = []) :
    (∀ r < e.mem.next, e'.mem.order r = e.mem.order r) ∧
      ∀ o, (e'.book symbol).getMatchingOrders e'.mem o = [] ↔
        (e.book symbol).getMatchingOrders e.mem o = [] ∧
          ¬ Meets (activeOrder (e.mem.order ord)) o := by
  obtain ⟨result, hr, rfl⟩ := activate_eq_some h
  generalize hact : activeOrder (e.mem.order ord) = act at *
  generalize hrecord : WalRecord.activated _ symbol = record
  have hself : (e.mem.alloc act).1.order e.mem.next = act := Memory.alloc_order_self _ _
  have hmatching := getMatchingOrders_congr (b := e.book symbol) (fun r hr =>
    Memory.alloc_order_of_lt e.mem r act ((hs symbol).restsAllocated r hr)) act
  have hresult := hr.unique (returns_silent e.feeModel (by
    rw [hself, ← hact]
    exact activeOrder_type _) (by rw [hself, hmatching, hnil]))
  have hsame := SameBooks.writeWAL
    (((e.alloc act).1.getOrCreateOrderBook symbol).matched symbol result) record
  rw [hsame.mem, hsame.book, book_matched_self]
  have hmem : (((e.alloc act).1.getOrCreateOrderBook symbol).matched symbol result).mem =
      result.mem := rfl
  rw [hmem, hresult]
  refine ⟨fun r hlt => ?_, getMatchingOrders_finish (hs symbol) act⟩
  rw [order_finish hlt.ne, start_mem, Memory.alloc_order_of_lt e.mem r act hlt]

/-- An activated order executes nothing exactly if it matches nothing. -/
theorem activate_executes (h : e.activate fuel symbol ord = some e') (hl : e.Labelled)
    (hs : e.Books Sane) :
    ∃ ts, Executes symbol ts e e' ∧ (∀ t ∈ ts, t.symbol = symbol) ∧
      (ts = [] ↔
        (e.book symbol).getMatchingOrders e.mem (activeOrder (e.mem.order ord)) = []) := by
  obtain ⟨result, hr, rfl⟩ := activate_eq_some h
  generalize hact : activeOrder (e.mem.order ord) = act at *
  have hself : (e.mem.alloc act).1.order e.mem.next = act := Memory.alloc_order_self _ _
  have hmatching := getMatchingOrders_congr (b := e.book symbol) (fun r hr =>
    Memory.alloc_order_of_lt e.mem r act ((hs symbol).restsAllocated r hr)) act
  have hsane : Sane (e.mem.alloc act).1 (e.book symbol) := (hs symbol).of_extends (.alloc _ _)
  refine ⟨result.trades, ?_, fun t ht => hl.symbol_of_trade hr ht, ?_⟩
  · have hbuilt : Executes symbol [] e (e.alloc act).1 := .idle rfl rfl rfl rfl
    exact ((hbuilt.then_idle (.getOrCreateOrderBook _ symbol)).trans
      (.matched _ symbol result)).then_idle (.writeWAL _ _)
  · have htrades := returns_trades_eq_nil hsane (by
      rw [hself, ← hact]
      exact activeOrder_type _) hr
    rwa [hself, hmatching] at htrades

/-- The loop of `checkTriggers`, by induction on the orders still to look at. Only the first
order that executes something matters. -/
theorem activateAll_executes (h : activateAll fuel symbol price vec e = some (remaining, e'))
    (hl : e.Labelled) (hs : e.Books Sane) (hvec : ∀ ord ∈ vec, e.Labels symbol ord) :
    ∃ ts, Executes symbol ts e e' ∧ (∀ t ∈ ts, t.symbol = symbol) ∧
      (ts = [] ↔ (∀ act ∈ activated e.mem price vec,
          (e.book symbol).getMatchingOrders e.mem act = []) ∧
        (activated e.mem price vec).Pairwise fun o act => ¬ Meets o act) := by
  induction vec generalizing e remaining with
  | nil =>
    obtain ⟨-, rfl⟩ := Prod.mk.inj (Option.some.inj h)
    exact ⟨[], .idle rfl rfl rfl rfl, by simp, by simp [activated]⟩
  | cons ord vec ih =>
    have hord := hvec ord List.mem_cons_self
    have hrest : ∀ ord ∈ vec, e.Labels symbol ord :=
      fun ord hm => hvec ord (List.mem_cons_of_mem _ hm)
    simp only [activateAll] at h
    split_ifs at h with ht
    · obtain ⟨u, hu, hall⟩ := Option.bind_eq_some_iff.mp h
      have hext := (activate_spec hu hord.1).1
      obtain ⟨ts, hts, hsymbol, hnone⟩ := activate_executes hu hl hs
      obtain ⟨ts', hts', hsymbol', hnone'⟩ := ih hall (hl.activate hu hord)
        (hs.activate bookInvariant_sane hu) fun ord hm => (hrest ord hm).of_extends hext
      refine ⟨ts ++ ts', hts.trans hts', ?_, ?_⟩
      · intro t htmem
        exact (List.mem_append.mp htmem).elim (hsymbol t) (hsymbol' t)
      · have hcons : activated e.mem price (ord :: vec) =
            activeOrder (e.mem.order ord) :: activated e.mem price vec := by
          simp [activated, ht]
        have hkeep : (∀ r < e.mem.next, u.mem.order r = e.mem.order r) →
            activated u.mem price vec = activated e.mem price vec := fun hkept => by
          rw [activated, activated, List.map_congr_left fun ord hm => hkept ord (hrest ord hm).1]
        rw [hcons, List.append_eq_nil_iff, hnone, List.forall_mem_cons, List.pairwise_cons]
        constructor
        · rintro ⟨hnil, hnil'⟩
          obtain ⟨hkept, hmatching⟩ := activate_silent hu hs hnil
          obtain ⟨hbook, hpairs⟩ := hnone'.mp hnil'
          rw [hkeep hkept] at hbook hpairs
          exact ⟨⟨hnil, fun act hact => ((hmatching act).mp (hbook act hact)).1⟩,
            fun act hact => ((hmatching act).mp (hbook act hact)).2, hpairs⟩
        · rintro ⟨⟨hnil, hbook⟩, hmeets, hpairs⟩
          obtain ⟨hkept, hmatching⟩ := activate_silent hu hs hnil
          rw [hkeep hkept] at hnone'
          exact ⟨hnil, hnone'.mpr ⟨fun act hact =>
            (hmatching act).mpr ⟨hbook act hact, hmeets act hact⟩, hpairs⟩⟩
    · obtain ⟨⟨remaining', u⟩, hu, heq⟩ := Option.map_eq_some_iff.mp h
      obtain ⟨-, rfl⟩ := Prod.mk.inj heq
      have hskip : activated e.mem price (ord :: vec) = activated e.mem price vec := by
        simp [activated, ht]
      rw [hskip]
      exact ih hu hl hs hrest

/-- **A check executes nothing exactly if it is silent.** -/
theorem checkTriggers_executes (h : e.checkTriggers fuel symbol price = some e')
    (hl : e.Labelled) (hs : e.Books Sane) :
    ∃ ts, Executes symbol ts e e' ∧ (∀ t ∈ ts, t.symbol = symbol) ∧
      (ts = [] ↔ e.Silent symbol price) := by
  unfold checkTriggers at h
  cases hvec : e.triggerOrders.lookup symbol with
  | none =>
    simp only [hvec] at h
    obtain rfl := Option.some.inj h
    have hnil : e.pending symbol = [] := by rw [pending, hvec]; rfl
    exact ⟨[], .idle rfl rfl rfl rfl, by simp, by simp [Silent, hnil, activated]⟩
  | some vec =>
    simp only [hvec] at h
    obtain ⟨⟨remaining, u⟩, hu, rfl⟩ := Option.map_eq_some_iff.mp h
    have hpending : e.pending symbol = vec := by rw [pending, hvec]; rfl
    obtain ⟨ts, hts, hsymbol, hsilent⟩ := activateAll_executes hu hl hs
      (hpending ▸ hl.pending symbol)
    refine ⟨ts, hts.then_idle (.idle rfl rfl rfl rfl), hsymbol, ?_⟩
    rw [Silent, hpending]
    exact hsilent

end MatchingEngine

end GoQuant
