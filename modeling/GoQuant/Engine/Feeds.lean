import GoQuant.Engine.Sections

/-!
# What the feeds do not notice

The critical sections that match, cancel and activate orders change books and pending trigger
orders. They leave the feeds alone: the callbacks, what was sent to them, the numbers given so
far, the last snapshots and the trade history.

## Main results

* `SameFeeds` — one lemma for each function that leaves the feeds alone.
-/

namespace GoQuant

namespace MatchingEngine

/-- Two engine states with the same feeds. -/
structure SameFeeds (e e' : MatchingEngine) : Prop where
  marketDataSubscribers : e'.marketDataSubscribers = e.marketDataSubscribers
  tradeSubscribers : e'.tradeSubscribers = e.tradeSubscribers
  lastMarketSnapshot : e'.lastMarketSnapshot = e.lastMarketSnapshot
  tradeHistory : e'.tradeHistory = e.tradeHistory
  marketDataSeqs : e'.marketDataSeqs = e.marketDataSeqs
  tradeSeqs : e'.tradeSeqs = e.tradeSeqs
  feed : e'.feed = e.feed
  published : e'.published = e.published

namespace SameFeeds

variable {fuel : ℕ} {e e' e'' : MatchingEngine} {symbol : String} {price : ℚ} {ord : Ref}
  {vec remaining : List Ref}

theorem refl (e : MatchingEngine) : e.SameFeeds e := ⟨rfl, rfl, rfl, rfl, rfl, rfl, rfl, rfl⟩

theorem trans (h : e.SameFeeds e') (h' : e'.SameFeeds e'') : e.SameFeeds e'' where
  marketDataSubscribers := h'.marketDataSubscribers.trans h.marketDataSubscribers
  tradeSubscribers := h'.tradeSubscribers.trans h.tradeSubscribers
  lastMarketSnapshot := h'.lastMarketSnapshot.trans h.lastMarketSnapshot
  tradeHistory := h'.tradeHistory.trans h.tradeHistory
  marketDataSeqs := h'.marketDataSeqs.trans h.marketDataSeqs
  tradeSeqs := h'.tradeSeqs.trans h.tradeSeqs
  feed := h'.feed.trans h.feed
  published := h'.published.trans h.published

theorem alloc (e : MatchingEngine) (o : Order) : e.SameFeeds (e.alloc o).1 :=
  ⟨rfl, rfl, rfl, rfl, rfl, rfl, rfl, rfl⟩

theorem matched (e : MatchingEngine) (symbol : String) (result : Matching) :
    e.SameFeeds (e.matched symbol result) :=
  ⟨rfl, rfl, rfl, rfl, rfl, rfl, rfl, rfl⟩

theorem getOrCreateOrderBook (e : MatchingEngine) (symbol : String) :
    e.SameFeeds (e.getOrCreateOrderBook symbol) := by
  unfold MatchingEngine.getOrCreateOrderBook
  split <;> exact ⟨rfl, rfl, rfl, rfl, rfl, rfl, rfl, rfl⟩

theorem writeWAL (e : MatchingEngine) (record : WalRecord) : e.SameFeeds (e.writeWAL record) := by
  unfold MatchingEngine.writeWAL
  split_ifs <;> exact ⟨rfl, rfl, rfl, rfl, rfl, rfl, rfl, rfl⟩

theorem receive (e : MatchingEngine) (o : Order) : e.SameFeeds (e.receive o) := by
  have hcount : e.SameFeeds { e with metricOrdersReceived := e.metricOrdersReceived + 1 } :=
    ⟨rfl, rfl, rfl, rfl, rfl, rfl, rfl, rfl⟩
  exact hcount.trans ((getOrCreateOrderBook _ o.symbol).trans (writeWAL _ _))

theorem acceptOrder {r : Except String (Option (List Trade))} {order : Ref}
    (h : e.acceptOrder fuel order = some (r, e')) : e.SameFeeds e' := by
  have hreceive := receive e (e.mem.order order)
  obtain ⟨-, -, rfl⟩ | ⟨-, result, -, -, _, _, rfl⟩ | ⟨-, _, -, rfl⟩ := acceptOrder_cases h
  · exact hreceive.trans ⟨rfl, rfl, rfl, rfl, rfl, rfl, rfl, rfl⟩
  · exact hreceive.trans ⟨rfl, rfl, rfl, rfl, rfl, rfl, rfl, rfl⟩
  · exact hreceive

theorem cancelOrderUnlocked (e : MatchingEngine) (orderId : String) :
    e.SameFeeds (e.cancelOrderUnlocked orderId).2 := by
  unfold MatchingEngine.cancelOrderUnlocked
  split
  · exact .refl e
  · refine trans ?_ (writeWAL _ _)
    exact ⟨rfl, rfl, rfl, rfl, rfl, rfl, rfl, rfl⟩

theorem modifyOrderUnlocked (e : MatchingEngine) (orderId : String) (newQuantity : ℚ) :
    e.SameFeeds (e.modifyOrderUnlocked orderId newQuantity).2 := by
  unfold MatchingEngine.modifyOrderUnlocked
  split
  · exact .refl e
  · refine trans ?_ (writeWAL _ _)
    exact ⟨rfl, rfl, rfl, rfl, rfl, rfl, rfl, rfl⟩

theorem activate (h : e.activate fuel symbol ord = some e') : e.SameFeeds e' := by
  obtain ⟨result, -, rfl⟩ := activate_eq_some h
  exact (alloc e _).trans ((getOrCreateOrderBook _ symbol).trans
    ((matched _ symbol result).trans (writeWAL _ _)))

/-- By induction on the orders still to look at. -/
theorem activateAll (h : activateAll fuel symbol price vec e = some (remaining, e')) :
    e.SameFeeds e' := by
  induction vec generalizing e remaining with
  | nil =>
    obtain ⟨-, rfl⟩ := Prod.mk.inj (Option.some.inj h)
    exact .refl e
  | cons ord vec ih =>
    simp only [MatchingEngine.activateAll] at h
    split_ifs at h
    · obtain ⟨u, hu, hall⟩ := Option.bind_eq_some_iff.mp h
      exact (activate hu).trans (ih hall)
    · obtain ⟨⟨remaining', u⟩, hu, heq⟩ := Option.map_eq_some_iff.mp h
      obtain ⟨-, rfl⟩ := Prod.mk.inj heq
      exact ih hu

theorem checkTriggers (h : e.checkTriggers fuel symbol price = some e') : e.SameFeeds e' := by
  unfold MatchingEngine.checkTriggers at h
  split at h
  · obtain rfl := Option.some.inj h
    exact .refl e
  · obtain ⟨⟨remaining, u⟩, hu, rfl⟩ := Option.map_eq_some_iff.mp h
    exact (activateAll hu).trans ⟨rfl, rfl, rfl, rfl, rfl, rfl, rfl, rfl⟩

end SameFeeds

end MatchingEngine

end GoQuant
