import GoQuant.Engine.Markets
import GoQuant.Engine.Executions
import GoQuant.Engine.System
import GoQuant.Engine.Twins

/-!
# The markets of other symbols

A call that concerns one symbol bypasses the others: it leaves their markets alone, and the
order objects in them. A book hands out its own objects only, so that no operation on it
changes an object that it does not know.

## Main definitions

* `Elsewhere` — an order object that the book of another symbol knows.
* `Bypasses` — what happens does not concern a symbol.

## Main results

* `Bypasses.acceptOrder`, `Bypasses.checkTriggers`, … — one lemma for each function of the engine.
* `Bypasses.submit`, `Bypasses.cancelOrder`, `Bypasses.modifyOrder` — calls about other symbols.
-/

namespace GoQuant

open MatchingAlgorithm

namespace MatchingEngine

variable {fuel : ℕ} {e e' e'' u : MatchingEngine} {symbol s orderId : String}
  {newQuantity price : ℚ} {ord : Ref} {vec remaining : List Ref} {o : Order} {result : Matching}
  {trade : Trade} {trades : List Trade} {mem : Memory} {b : OrderBook}

/-- Some book, and not that of a symbol, knows an order object. -/
def Elsewhere (e : MatchingEngine) (s : String) (r : Ref) : Prop :=
  ∃ symbol, symbol ≠ s ∧ ¬ (e.book symbol).Unmapped r

/-- What happens does not concern a symbol: its market stays as it is, and of the order objects
only those change that other books know. -/
structure Bypasses (s : String) (e e' : MatchingEngine) : Prop where
  market : e'.market s = e.market s
  next : e.mem.next ≤ e'.mem.next
  order : ∀ r < e.mem.next, ¬ e.Elsewhere s r → e'.mem.order r = e.mem.order r
  elsewhere : ∀ r, e'.Elsewhere s r → e.Elsewhere s r ∨ e.mem.next ≤ r ∧ r < e'.mem.next
  feeModel : e'.feeModel = e.feeModel
  hashOrder : e'.hashOrder = e.hashOrder

namespace Bypasses

theorem trans (h : e.Bypasses s e') (h' : e'.Bypasses s e'') : e.Bypasses s e'' where
  market := h'.market.trans h.market
  next := h.next.trans h'.next
  order r hr helse := by
    have helse' : ¬ e'.Elsewhere s r := fun hr' => (h.elsewhere r hr').elim helse fun hnew =>
      absurd hr hnew.1.not_gt
    rw [h'.order r (hr.trans_le h.next) helse', h.order r hr helse]
  elsewhere r hr := by
    rcases h'.elsewhere r hr with hr | hnew
    · exact (h.elsewhere r hr).imp_right fun hnew => ⟨hnew.1, hnew.2.trans_le h'.next⟩
    · exact Or.inr ⟨h.next.trans hnew.1, hnew.2⟩
  feeModel := h'.feeModel.trans h.feeModel
  hashOrder := h'.hashOrder.trans h.hashOrder

/-- The books and their objects stay as they are, and so do the feeds of the symbol. -/
theorem of_books (hs : e.SameBooks e') (hmarket : e'.market s = e.market s) : e.Bypasses s e' where
  market := hmarket
  next := hs.mem ▸ le_rfl
  order r _ _ := by rw [hs.mem]
  elsewhere r hr := by
    obtain ⟨symbol, hne, hmapped⟩ := hr
    rw [hs.book] at hmapped
    exact Or.inl ⟨symbol, hne, hmapped⟩
  feeModel := hs.feeModel
  hashOrder := hs.hashOrder

theorem refl (e : MatchingEngine) : e.Bypasses s e := of_books (.refl e) rfl

theorem of_same (hs : e.SameMarkets e') : e.Bypasses s e' :=
  of_books ⟨hs.mem, hs.book, hs.pending, hs.feeModel, hs.hashOrder⟩ (hs.market s)

theorem alloc (e : MatchingEngine) (o : Order) : e.Bypasses s (e.alloc o).1 where
  market := rfl
  next := Nat.le_succ _
  order r hr _ := Memory.alloc_order_of_lt e.mem r o hr
  elsewhere _ hr := Or.inl hr
  feeModel := rfl
  hashOrder := rfl

/-- The book of another symbol changes, and objects that it knows. -/
theorem setBook (hs : symbol ≠ s) (hnext : e.mem.next ≤ mem.next)
    (horder : ∀ r < e.mem.next, (e.book symbol).Unmapped r → mem.order r = e.mem.order r)
    (hmapped : ∀ r, (e.book symbol).Unmapped r → ¬ b.Unmapped r →
      e.mem.next ≤ r ∧ r < mem.next) :
    e.Bypasses s { e.setBook symbol b with mem := mem } where
  market := market_setBook_of_ne e b (Ne.symm hs)
  next := hnext
  order r hr helse := horder r hr (not_not.mp fun hmapped => helse ⟨symbol, hs, hmapped⟩)
  elsewhere r hr := by
    obtain ⟨symbol', hne, hmapped'⟩ := hr
    by_cases hsymbol : symbol' = symbol
    · subst hsymbol
      rw [book_replace_self] at hmapped'
      by_cases hold : (e.book symbol').Unmapped r
      · exact Or.inr (hmapped r hold hmapped')
      · exact Or.inl ⟨symbol', hne, hold⟩
    · rw [book_replace_of_ne _ _ _ hsymbol] at hmapped'
      exact Or.inl ⟨symbol', hne, hmapped'⟩
  feeModel := rfl
  hashOrder := rfl

theorem setPending (e : MatchingEngine) (vec : List Ref) (hs : symbol ≠ s) :
    e.Bypasses s (e.setPending symbol vec) where
  market := market_setPending_of_ne e vec (Ne.symm hs)
  next := le_rfl
  order _ _ _ := rfl
  elsewhere _ hr := Or.inl hr
  feeModel := rfl
  hashOrder := rfl

theorem getOrCreateOrderBook (e : MatchingEngine) (hs : symbol ≠ s) :
    e.Bypasses s (e.getOrCreateOrderBook symbol) :=
  of_books (.getOrCreateOrderBook e symbol) (market_getOrCreateOrderBook_of_ne e (Ne.symm hs))

theorem receive (e : MatchingEngine) (hs : o.symbol ≠ s) : e.Bypasses s (e.receive o) := by
  have hcount : e.SameMarkets { e with metricOrdersReceived := e.metricOrdersReceived + 1 } :=
    ⟨fun _ => rfl, rfl, rfl, rfl⟩
  exact (of_same hcount).trans ((getOrCreateOrderBook _ hs).trans (of_same (.writeWAL _ _)))

/-- An object built for the occasion is matched in the book of another symbol. -/
theorem matched (hs : symbol ≠ s) (hsame : (e.alloc o).1.SameBooks u)
    (hu : u.market s = e.market s)
    (hr : Returns e.feeModel (e.mem.alloc o).1 (e.book symbol) e.mem.next result) :
    e.Bypasses s (u.matched symbol result) := by
  have hext : (e.mem.alloc o).1.next ≤ result.mem.next := (returns_extends hr).1
  have hbook : e.Bypasses s { e.setBook symbol result.book with mem := result.mem } := by
    refine setBook hs ((Nat.le_succ _).trans hext) (fun r hlt hun => ?_) fun r hun hmapped => ?_
    · rw [(returns_untouched hr hun hlt.ne).1, Memory.alloc_order_of_lt e.mem r o hlt]
    · by_cases hnew : r = e.mem.next
      · rw [hnew]
        exact ⟨le_rfl, hext⟩
      · exact absurd (returns_untouched hr hun hnew).2 hmapped
  refine hbook.trans (of_books (.matched hsame) ?_)
  calc (u.matched symbol result).market s
      = u.market s := market_setBook_of_ne u result.book (Ne.symm hs)
    _ = e.market s := hu
    _ = _ := hbook.market.symm

theorem acceptOrder (hs : o.symbol ≠ s) {r : Except String (Option (List Trade))}
    (ha : (e.alloc o).1.acceptOrder fuel (e.alloc o).2 = some (r, e')) : e.Bypasses s e' := by
  have hself := e.alloc_order_self o
  have hreceive := (alloc (s := s) e o).trans (receive (e.alloc o).1 hs)
  obtain ⟨-, -, rfl⟩ | ⟨-, result, hr, -, _, _, rfl⟩ | ⟨-, _, -, rfl⟩ := acceptOrder_cases ha
  all_goals rw [hself] at *
  · exact hreceive.trans (setPending _ _ hs)
  · refine (matched hs (.receive (e.alloc o).1 o) hreceive.market hr).trans (of_same ?_)
    exact ⟨fun _ => rfl, rfl, rfl, rfl⟩
  · exact hreceive

theorem activate (hs : symbol ≠ s) (ha : e.activate fuel symbol ord = some e') :
    e.Bypasses s e' := by
  obtain ⟨result, hr, rfl⟩ := activate_eq_some ha
  have hcreate :
      ((e.alloc (activeOrder (e.mem.order ord))).1.getOrCreateOrderBook symbol).market s =
        e.market s := market_getOrCreateOrderBook_of_ne _ (Ne.symm hs)
  exact (matched hs (.getOrCreateOrderBook _ symbol) hcreate hr).trans (of_same (.writeWAL _ _))

/-- By induction on the orders still to look at. -/
theorem activateAll (hs : symbol ≠ s)
    (ha : activateAll fuel symbol price vec e = some (remaining, e')) : e.Bypasses s e' := by
  induction vec generalizing e remaining with
  | nil =>
    obtain ⟨-, rfl⟩ := Prod.mk.inj (Option.some.inj ha)
    exact .refl e
  | cons ord vec ih =>
    simp only [MatchingEngine.activateAll] at ha
    split_ifs at ha
    · obtain ⟨u, hu, hall⟩ := Option.bind_eq_some_iff.mp ha
      exact (activate hs hu).trans (ih hall)
    · obtain ⟨⟨remaining', u⟩, hu, heq⟩ := Option.map_eq_some_iff.mp ha
      obtain ⟨-, rfl⟩ := Prod.mk.inj heq
      exact ih hu

theorem checkTriggers (hs : symbol ≠ s) (hc : e.checkTriggers fuel symbol price = some e') :
    e.Bypasses s e' := by
  unfold MatchingEngine.checkTriggers at hc
  split at hc
  · obtain rfl := Option.some.inj hc
    exact .refl e
  · obtain ⟨⟨remaining, u⟩, hu, rfl⟩ := Option.map_eq_some_iff.mp hc
    exact (activateAll hs hu).trans (setPending u remaining hs)

theorem publishTrade (hs : trade.symbol ≠ s) (hp : e.publishTrade fuel trade = some e') :
    e.Bypasses s e' :=
  (of_books (.announce e trade) (market_announce_of_ne e (Ne.symm hs))).trans
    (checkTriggers hs hp)

theorem publishTrades (hs : ∀ t ∈ trades, t.symbol ≠ s)
    (hp : publishTrades fuel trades e = some e') : e.Bypasses s e' := by
  induction trades generalizing e with
  | nil =>
    obtain rfl := Option.some.inj hp
    exact .refl e
  | cons t trades ih =>
    obtain ⟨u, hu, hrest⟩ := Option.bind_eq_some_iff.mp hp
    exact (publishTrade (hs t List.mem_cons_self) hu).trans
      (ih (fun t ht => hs t (List.mem_cons_of_mem _ ht)) hrest)

theorem publishMarketDataUpdate (e : MatchingEngine) (hs : symbol ≠ s) :
    e.Bypasses s (e.publishMarketDataUpdate symbol) := by
  have hsymbol := symbol_getMarketData e symbol 10
  exact of_books (.publishUpdate e symbol _) (market_publishUpdate_of_ne e hsymbol (Ne.symm hs))

end Bypasses

/-! ## Cancellations and changes of quantities -/

/-- No book knows the id, or one that does cancels its order. -/
theorem cancelOrderUnlocked_markets (e : MatchingEngine) (orderId : String) :
    (e.cancelOrderUnlocked orderId = (none, e) ∧
      ∀ symbol, (e.book symbol).hasOrder orderId = false) ∨
    ∃ symbol, (e.book symbol).hasOrder orderId = true ∧
      ∃ e', e.cancelOrderUnlocked orderId = (some symbol, e') ∧
        (e.setBook symbol ((e.book symbol).cancelOrder e.mem orderId).2).SameMarkets e' := by
  have hnone := @cancelOrderUnlocked_none e orderId
  unfold cancelOrderUnlocked at hnone ⊢
  cases hcancel : e.cancelIn orderId (e.hashOrder.symbols e.orderBooks.keys) with
  | none =>
    rw [hcancel] at hnone
    exact Or.inl ⟨rfl, hnone rfl⟩
  | some p =>
    obtain ⟨symbol, b⟩ := p
    have hfound := cancelIn_eq_some hcancel
    have hcount : (e.setBook symbol b).SameMarkets
        { e.setBook symbol b with metricOrdersCancelled := e.metricOrdersCancelled + 1 } :=
      ⟨fun _ => rfl, rfl, rfl, rfl⟩
    refine Or.inr ⟨symbol, ?_, _, rfl, ?_⟩
    · rw [← OrderBook.cancelOrder_fst _ e.mem, hfound]
    · rw [hfound]
      exact hcount.trans (.writeWAL _ _)

/-- No book knows the id, or one that does changes the quantity of its order. -/
theorem modifyOrderUnlocked_markets (e : MatchingEngine) (orderId : String) (newQuantity : ℚ) :
    (e.modifyOrderUnlocked orderId newQuantity = (none, e) ∧
      ∀ symbol, (e.book symbol).hasOrder orderId = false) ∨
    ∃ symbol mem b, (e.book symbol).modifyOrder e.mem orderId newQuantity = .ok (mem, b) ∧
      ∃ e', e.modifyOrderUnlocked orderId newQuantity = (some symbol, e') ∧
        { e.setBook symbol b with mem := mem }.SameMarkets e' := by
  have hnone := @modifyOrderUnlocked_none e orderId newQuantity
  unfold modifyOrderUnlocked at hnone ⊢
  cases hmodify : e.modifyIn orderId newQuantity (e.hashOrder.symbols e.orderBooks.keys) with
  | none =>
    rw [hmodify] at hnone
    exact Or.inl ⟨rfl, hnone rfl⟩
  | some p =>
    obtain ⟨symbol, mem, b⟩ := p
    exact Or.inr ⟨symbol, mem, b, modifyIn_eq_some hmodify, _, rfl, .writeWAL _ _⟩

namespace Bypasses

/-- No book cancels an order, or another book does. -/
theorem cancelOrder_of_ne (e : MatchingEngine) (hs : (e.cancelOrderUnlocked orderId).1 ≠ some s) :
    e.Bypasses s (e.cancelOrder orderId).2 := by
  unfold MatchingEngine.cancelOrder
  obtain ⟨hnone, -⟩ | ⟨symbol, -, u, hsome, hsame⟩ := cancelOrderUnlocked_markets e orderId
  · rw [hnone]
    exact .refl e
  · rw [hsome] at hs ⊢
    have hne : symbol ≠ s := fun heq => hs (congrArg some heq)
    have hshrinks := OrderBook.cancelOrder_shrinks e.mem (e.book symbol) orderId
    have hbook : e.Bypasses s (e.setBook symbol ((e.book symbol).cancelOrder e.mem orderId).2) :=
      setBook hne le_rfl (fun _ _ _ => rfl) fun r hun hmapped =>
        absurd (hun.of_shrinks hshrinks) hmapped
    exact (hbook.trans (of_same hsame)).trans (publishMarketDataUpdate u hne)

/-- An order that no book knows under its id, or another book does. -/
theorem cancelOrder (e : MatchingEngine) (hs : (e.book s).hasOrder orderId = false) :
    e.Bypasses s (e.cancelOrder orderId).2 := by
  refine cancelOrder_of_ne e fun hsome => ?_
  obtain ⟨hnone, -⟩ | ⟨symbol, hid, u, hcancel, -⟩ := cancelOrderUnlocked_markets e orderId
  · rw [hnone] at hsome
    cases hsome
  · rw [hcancel] at hsome
    obtain rfl := Option.some.inj hsome
    simp [hs] at hid

theorem modifyOrder_of_ne (e : MatchingEngine)
    (hs : (e.modifyOrderUnlocked orderId newQuantity).1 ≠ some s) :
    e.Bypasses s (e.modifyOrder orderId newQuantity).2 := by
  unfold MatchingEngine.modifyOrder
  obtain ⟨hnone, -⟩ | ⟨symbol, mem, b, hmod, u, hsome, hsame⟩ :=
    modifyOrderUnlocked_markets e orderId newQuantity
  · rw [hnone]
    exact .refl e
  · rw [hsome] at hs ⊢
    have hne : symbol ≠ s := fun heq => hs (congrArg some heq)
    have hext := OrderBook.modifyOrder_extends e.mem _ orderId newQuantity hmod
    have hshrinks := OrderBook.modifyOrder_shrinks _ _ _ _ hmod
    have hbook : e.Bypasses s { e.setBook symbol b with mem := mem } :=
      setBook hne hext.1 (fun r _ hun => OrderBook.modifyOrder_order_of_unmapped hun hmod)
        fun r hun hmapped => absurd (hun.of_shrinks hshrinks) hmapped
    exact (hbook.trans (of_same hsame)).trans (publishMarketDataUpdate u hne)

theorem modifyOrder (e : MatchingEngine) (hs : (e.book s).hasOrder orderId = false) :
    e.Bypasses s (e.modifyOrder orderId newQuantity).2 := by
  refine modifyOrder_of_ne e fun hsome => ?_
  obtain ⟨hnone, -⟩ | ⟨symbol, mem, b, hmod, u, hmodify, -⟩ :=
    modifyOrderUnlocked_markets e orderId newQuantity
  · rw [hnone] at hsome
    cases hsome
  · rw [hmodify] at hsome
    obtain rfl := Option.some.inj hsome
    simp [OrderBook.hasOrder_of_modifyOrder hmod] at hs

end Bypasses

/-! ## Submitted orders -/

/-- An order of another symbol. -/
theorem Bypasses.submit (hl : e.Labelled) (hs : o.symbol ≠ s)
    (h : e.call fuel (.submit true o) = some e') : e.Bypasses s e' := by
  rw [call_submit] at h
  obtain ⟨⟨r, u⟩, ha, hpublish⟩ := Option.bind_eq_some_iff.mp h
  have haccept : e.Bypasses s u := acceptOrder hs ha
  obtain ⟨ts, -, hts, htrades, -⟩ := acceptOrder_executes hl ha
  match r, htrades, hpublish with
  | .error message, _, hpublish =>
    obtain rfl := Option.some.inj hpublish
    exact haccept
  | .ok none, _, hpublish =>
    obtain rfl := Option.some.inj hpublish
    exact haccept
  | .ok (some trades), htrades, hpublish =>
    obtain ⟨w, hw, rfl⟩ := Option.map_eq_some_iff.mp hpublish
    obtain rfl := htrades trades rfl
    have hothers : ∀ t ∈ ts, t.symbol ≠ s := fun t ht => hts t ht ▸ hs
    exact (haccept.trans (publishTrades hothers hw)).trans (publishMarketDataUpdate w hs)

end MatchingEngine

end GoQuant
