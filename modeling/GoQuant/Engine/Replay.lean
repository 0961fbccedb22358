import GoQuant.Engine.Books
import GoQuant.Engine.Twins

/-!
# Replaying the write-ahead log

A record stands for the operation that wrote it: replaying the records of a run in a new
engine leaves books that hold the same. So it does up to every record. The runs are those
without trigger orders, in which no order comes under the id of a resting one.

## Main definitions

* `Logged` — the calls the log can be trusted with.
* `Replayed` — the effect of a call is that of its record.

## Main results

* `Live.call` — one call, and the replay of what it wrote.
* `replay_at_every_record` — the whole run, up to any record.
-/

namespace GoQuant

open MatchingAlgorithm

namespace MatchingEngine

variable {fuel : ℕ} {e e' e'' r r' : MatchingEngine} {symbol orderId : String}
  {symbols : List String} {newQuantity : ℚ} {o : Order}

/-! ## Publishing without pending trigger orders -/

/-- No trigger order is pending. -/
def Untriggered (e : MatchingEngine) : Prop := ∀ symbol, e.pending symbol = []

theorem Untriggered.of_same (h : e.Untriggered) (hs : e.SameBooks e') : e'.Untriggered :=
  fun symbol => (hs.pending symbol).trans (h symbol)

theorem checkTriggers_idle (h : e.Untriggered) {price : ℚ}
    (hc : e.checkTriggers fuel symbol price = some e') : e.SameBooks e' ∧ Logs [] e e' := by
  have hpending := h symbol
  unfold checkTriggers at hc
  unfold pending at hpending
  split at hc
  · obtain rfl := Option.some.inj hc
    exact ⟨.refl _, .refl _⟩
  · rename_i vec hvec
    rw [hvec, Option.getD_some] at hpending
    subst hpending
    obtain rfl := Option.some.inj hc
    refine ⟨⟨rfl, fun _ => rfl, fun symbol' => ?_, rfl, rfl⟩, .idle rfl rfl rfl⟩
    by_cases hs : symbol' = symbol
    · rw [hs, pending_setPending_self, h symbol]
    · exact pending_setPending_of_ne e [] hs

theorem publishTrade_idle (h : e.Untriggered) {t : Trade}
    (hp : e.publishTrade fuel t = some e') :
    e.SameBooks e' ∧ Logs [.trade (e.recordTrade t).1] e e' := by
  have hrecord := SameBooks.recordTrade e t
  obtain ⟨hdeliver, hdelivers⟩ :=
    deliverTrades_idle (e.recordTrade t).1 (e.recordTrade t).2.1 (e.recordTrade t).2.2
  obtain ⟨hcheck, hchecks⟩ := checkTriggers_idle (h.of_same (hrecord.trans hdeliver)) hp
  exact ⟨hrecord.trans (hdeliver.trans hcheck),
    (Logs.recordTrade e t).trans (hdelivers.trans hchecks)⟩

theorem publishTrades_idle (h : e.Untriggered) {trades : List Trade}
    (hp : publishTrades fuel trades e = some e') :
    e.SameBooks e' ∧ ∃ ts : List Trade, Logs (ts.map .trade) e e' := by
  induction trades generalizing e with
  | nil =>
    obtain rfl := Option.some.inj hp
    exact ⟨.refl e, [], .refl e⟩
  | cons t trades ih =>
    obtain ⟨u, hu, hrest⟩ := Option.bind_eq_some_iff.mp hp
    obtain ⟨hsame, hlogs⟩ := publishTrade_idle h hu
    obtain ⟨hsame', ts, hlogs'⟩ := ih (h.of_same hsame) hrest
    exact ⟨hsame.trans hsame', _ :: ts, hlogs.trans hlogs'⟩

/-! ## Live engines -/

/-- An engine that writes its log. No id is known to two books, no trigger order waits. -/
structure Live (e : MatchingEngine) : Prop where
  walEnabled : e.walEnabled = true
  replaying : e.replaying = false
  sane : e.Books Sane
  distinct : e.Distinct
  untriggered : e.Untriggered

theorem Distinct.of_same (h : e.Distinct) (hs : e.SameBooks e') : e'.Distinct := by
  intro id symbol symbol' hid hid'
  rw [hs.book] at hid hid'
  exact h id symbol symbol' hid hid'

/-- One book changes, and every id that is new to it is new to all books. -/
theorem Distinct.update (h : e.Distinct) (symbol : String)
    (hself : ∀ id, (e'.book symbol).hasOrder id = true →
      (e.book symbol).hasOrder id = true ∨ ∀ symbol', (e.book symbol').hasOrder id = false)
    (hother : ∀ symbol', symbol' ≠ symbol → e'.book symbol' = e.book symbol') :
    e'.Distinct := by
  have hunknown (id : String) (s : String) (hs : s ≠ symbol)
      (hid : (e'.book symbol).hasOrder id = true) (hid' : (e'.book s).hasOrder id = true) :
      False := by
    rw [hother s hs] at hid'
    rcases hself id hid with hold | hnew
    · exact hs (h id s symbol hid' hold)
    · rw [hnew s] at hid'
      exact Bool.false_ne_true hid'
  intro id s s' hid hid'
  by_cases hs : s = symbol <;> by_cases hs' : s' = symbol
  · exact hs.trans hs'.symm
  · exact (hunknown id s' hs' (hs ▸ hid) hid').elim
  · exact (hunknown id s hs (hs' ▸ hid') hid).elim
  · rw [hother s hs] at hid
    rw [hother s' hs'] at hid'
    exact h id s s' hid hid'

namespace Live

theorem of_same {records : List WalRecord} (h : e.Live) (hs : e.SameBooks e')
    (hl : Logs records e e') : e'.Live where
  walEnabled := hl.walEnabled.trans h.walEnabled
  replaying := hl.replaying.trans h.replaying
  sane := h.sane.of_same hs
  distinct := h.distinct.of_same hs
  untriggered := h.untriggered.of_same hs

theorem alloc (h : e.Live) (o : Order) : (e.alloc o).1.Live where
  walEnabled := h.walEnabled
  replaying := h.replaying
  sane := h.sane.alloc bookInvariant_sane o
  distinct := h.distinct
  untriggered := h.untriggered

/-- An order is matched under an id that no book knows. -/
theorem matched {records : List WalRecord} (h : e.Live)
    (hid : ∀ symbol, (e.book symbol).hasOrder o.id = false) (hs : (e.alloc o).1.SameBooks e')
    (hl : Logs records e e') {result : Matching}
    (hr : Returns e.feeModel (e.mem.alloc o).1 (e.book symbol) e.mem.next result) :
    (e'.matched symbol result).Live where
  walEnabled := hl.walEnabled.trans h.walEnabled
  replaying := hl.replaying.trans h.replaying
  sane := h.sane.matched bookInvariant_sane hs hr
  distinct := by
    refine h.distinct.update symbol (fun id hnew => ?_) fun symbol' hne => ?_
    · rw [book_matched_self] at hnew
      have horder : ((e.mem.alloc o).1.order e.mem.next).id = o.id :=
        congrArg Order.id (Memory.alloc_order_self e.mem o)
      rcases hr.hasOrder ((h.sane symbol).fresh o).unmapped hnew with hold | heq
      · exact Or.inl hold
      · rw [heq, horder]
        exact Or.inr hid
    · exact (book_setBook_of_ne e' result.book hne).trans (hs.book symbol')
  untriggered symbol' := (hs.pending symbol').trans (h.untriggered symbol')

/-- A book that only forgets orders. -/
theorem shrink {records : List WalRecord} {mem : Memory} {b : OrderBook} (h : e.Live)
    (hshrinks : (e.book symbol).Shrinks b)
    (hsame : { e.setBook symbol b with mem := mem }.SameBooks e') (hlogs : Logs records e e')
    (hsane : e'.Books Sane) : e'.Live where
  walEnabled := hlogs.walEnabled.trans h.walEnabled
  replaying := hlogs.replaying.trans h.replaying
  sane := hsane
  distinct := by
    refine h.distinct.update symbol (fun id hid => ?_) fun symbol' hne => ?_
    · have hbook : e'.book symbol = b := (hsame.book symbol).trans (book_setBook_self e b)
      rw [hbook] at hid
      exact Or.inl (hshrinks.hasOrder hid)
    · exact (hsame.book symbol').trans (book_setBook_of_ne e b hne)
  untriggered symbol' := (hsame.pending symbol').trans (h.untriggered symbol')

theorem cancelOrderUnlocked (h : e.Live) (orderId : String) :
    (e.cancelOrderUnlocked orderId).2.Live := by
  have hsane := h.sane.cancelOrderUnlocked bookInvariant_sane orderId
  obtain hnone | ⟨symbol, b, hcancel, e', hsome, hsame, hlogs⟩ :=
    cancelOrderUnlocked_cases e orderId
  · rw [hnone]
    exact h
  · have hshrinks := OrderBook.cancelOrder_shrinks e.mem (e.book symbol) orderId
    rw [hcancel] at hshrinks
    rw [hsome] at hsane ⊢
    exact h.shrink hshrinks hsame hlogs hsane

theorem modifyOrderUnlocked (h : e.Live) (orderId : String) (newQuantity : ℚ) :
    (e.modifyOrderUnlocked orderId newQuantity).2.Live := by
  have hsane := h.sane.modifyOrderUnlocked bookInvariant_sane orderId newQuantity
  obtain hnone | ⟨symbol, mem, b, hmodify, e', hsome, hsame, hlogs⟩ :=
    modifyOrderUnlocked_cases e orderId newQuantity
  · rw [hnone]
    exact h
  · rw [hsome] at hsane ⊢
    exact h.shrink (OrderBook.modifyOrder_shrinks _ _ _ _ hmodify) hsame hlogs hsane

end Live

/-! ## One call -/

/-- The calls the log can be trusted with: a submitted order is of one of the four matched
types, and no book knows its id. -/
def Logged (e : MatchingEngine) : Call → Prop
  | .submit _ o => o.type.Matchable ∧ ∀ symbol, (e.book symbol).hasOrder o.id = false
  | _ => True

instance (e : MatchingEngine) (c : Call) : Decidable (e.Logged c) :=
  match c with
  | .submit _ o =>
    decidable_of_iff (o.type.Matchable ∧
        ∀ symbol ∈ e.orderBooks.keys, (e.book symbol).hasOrder o.id = false)
      (and_congr_right fun _ => unknown_iff.symm)
  | .cancel _ => isTrue trivial
  | .modify _ _ => isTrue trivial
  | .subscribeToMarketData _ _ => isTrue trivial
  | .subscribeToTrades _ _ => isTrue trivial

/-- What a call leaves in the log: nothing, if it left the books alone, or else one record
that does the same again in every twin, and trades. -/
def Replayed (e e' : MatchingEngine) : Prop :=
  (Logs [] e e' ∧ ∀ r, Twin e r → Twin e' r) ∨
  ∃ (record : WalRecord) (ts : List Trade), (∀ t, record ≠ .trade t) ∧
    Logs (record :: ts.map .trade) e e' ∧
    ∀ r, Twin e r → ∃ fuel r', r.replayRecord fuel record = some (.ok (), r') ∧ Twin e' r'

theorem Replayed.of_same (h : Replayed e e') (hs : e'.SameBooks e'') (hl : Logs [] e' e'') :
    Replayed e e'' := by
  obtain ⟨hlogs, htwin⟩ | ⟨record, ts, htrade, hlogs, hreplay⟩ := h
  · exact Or.inl ⟨hlogs.trans hl, fun r hr => (htwin r hr).of_same hs (.refl r)⟩
  · refine Or.inr ⟨record, ts, htrade, by simpa using hlogs.trans hl, fun r hr => ?_⟩
    obtain ⟨fuel, r', hrecord, htwin⟩ := hreplay r hr
    exact ⟨fuel, r', hrecord, htwin.of_same hs (.refl r')⟩

/-- A submit record is executed again. Its id is new to the twin, as it was to the engine. -/
theorem Twin.replayRecord_submit (h : Twin e r) (htype : ¬ o.type.isTrigger)
    (hid : (e.book o.symbol).hasOrder o.id = false) (he : (e.alloc o).1.SameBooks e')
    {result : Matching}
    (hret : Returns e.feeModel (e.mem.alloc o).1 (e.book o.symbol) e.mem.next result) :
    ∃ fuel r', r.replayRecord fuel (.submit o) = some (.ok (), r') ∧
      Twin (e'.matched o.symbol result) r' := by
  have hsame := SameBooks.getOrCreateOrderBook (r.alloc o).1 o.symbol
  obtain ⟨result', ⟨fuel, hret'⟩, htwin⟩ := h.matched he hsame hret
  refine ⟨fuel, _, ?_, htwin⟩
  have hbook : (((r.alloc o).1.getOrCreateOrderBook o.symbol).book o.symbol).hasOrder o.id =
      false := by
    rw [hsame.book, ← hid]
    exact h.hasOrder o.symbol o.id
  have hprocess : processOrder ((r.alloc o).1.getOrCreateOrderBook o.symbol).feeModel fuel
      ((r.alloc o).1.getOrCreateOrderBook o.symbol).mem
      (((r.alloc o).1.getOrCreateOrderBook o.symbol).book o.symbol) (r.alloc o).2 =
        .ok (some result') := by
    rw [hsame.feeModel, hsame.mem, hsame.book]
    exact hret'
  simp only [replayRecord, htype, hbook, hprocess, Bool.false_eq_true, if_false]

theorem not_isTrigger_of_matchable {t : OrderType} (h : t.Matchable) : ¬ t.isTrigger := by
  rcases h with rfl | rfl | rfl | rfl <;> decide

/-- What `submitOrder` does with an order that it matches. -/
theorem submitOrder_eq_some {order : Ref} {out : Except String Unit}
    (htype : (e.mem.order order).type.Matchable)
    (h : e.submitOrder fuel true order = some (out, e')) :
    let o := e.mem.order order
    out = .ok () ∧ ∃ result u w, Returns e.feeModel e.mem (e.book o.symbol) order result ∧
      ((e.receive o).matched o.symbol result).SameBooks u ∧
      Logs [] ((e.receive o).matched o.symbol result) u ∧
      publishTrades fuel result.trades u = some w ∧ e' = w.publishMarketDataUpdate o.symbol := by
  intro o
  rcases haccept : e.acceptOrder fuel order with _ | ⟨r, u⟩
  · simp [submitOrder, haccept] at h
  · obtain ⟨htrigger, -⟩ | ⟨-, result, hret, rfl, m, n, rfl⟩ | ⟨hthrow, -⟩ :=
      acceptOrder_cases haccept
    · exact absurd htrigger (not_isTrigger_of_matchable htype)
    · simp only [submitOrder, if_true, haccept] at h
      obtain ⟨w, hw, heq⟩ := Option.map_eq_some_iff.mp h
      obtain ⟨hout, rfl⟩ := Prod.mk.inj heq
      refine ⟨hout.symm, result, _, w, hret, ?_, ?_, hw, rfl⟩
      · exact ⟨rfl, fun _ => rfl, fun _ => rfl, rfl, rfl⟩
      · exact .idle rfl rfl rfl
    · exact absurd htype hthrow

theorem publishMarketDataUpdate_idle (e : MatchingEngine) (symbol : String) :
    e.SameBooks (e.publishMarketDataUpdate symbol) ∧
      Logs [] e (e.publishMarketDataUpdate symbol) :=
  ⟨.publishUpdate e symbol _, .publishUpdate e symbol _⟩

/-- A submitted order that the rate limiter lets through. -/
theorem Live.submitOrder (h : e.Live) (htype : o.type.Matchable)
    (hid : ∀ symbol, (e.book symbol).hasOrder o.id = false) {out : Except String Unit}
    (hs : (e.alloc o).1.submitOrder fuel true (e.alloc o).2 = some (out, e')) :
    e'.Live ∧ Replayed e e' := by
  have hself := e.alloc_order_self o
  have hreceive := SameBooks.receive (e.alloc o).1 o
  have hrecord : Logs [.submit o] e ((e.alloc o).1.receive o) := by
    have halloc : Logs [] e (e.alloc o).1 := .idle rfl rfl rfl
    exact halloc.trans (.receive _ o)
  obtain ⟨-, result, u, w, hret, hsame, hlogs, hpublish, rfl⟩ :=
    submitOrder_eq_some (hself.symm ▸ htype) hs
  rw [hself] at hret hsame hlogs ⊢
  have hmatch : Logs [] ((e.alloc o).1.receive o)
      (((e.alloc o).1.receive o).matched o.symbol result) := .idle rfl rfl rfl
  have hu : u.Live := (h.matched hid hreceive hrecord hret).of_same hsame hlogs
  obtain ⟨hsame', ts, hlogs'⟩ := publishTrades_idle hu.untriggered hpublish
  obtain ⟨hsame'', hlogs''⟩ := publishMarketDataUpdate_idle w o.symbol
  refine ⟨(hu.of_same hsame' hlogs').of_same hsame'' hlogs'', Or.inr ⟨.submit o, ts, ?_, ?_, ?_⟩⟩
  · intro t ht
    cases ht
  · simpa using hrecord.trans (hmatch.trans (hlogs.trans (hlogs'.trans hlogs'')))
  · intro r hr
    obtain ⟨fuel', r', hrecord', htwin⟩ := hr.replayRecord_submit
      (not_isTrigger_of_matchable htype) (hid o.symbol) hreceive hret
    exact ⟨fuel', r', hrecord', htwin.of_same (hsame.trans (hsame'.trans hsame'')) (.refl r')⟩

theorem Live.cancelOrder (h : e.Live) (orderId : String) :
    (e.cancelOrder orderId).2.Live ∧ Replayed e (e.cancelOrder orderId).2 := by
  have hlive := h.cancelOrderUnlocked orderId
  unfold MatchingEngine.cancelOrder
  obtain hnone | ⟨symbol, b, -, e', hsome, -, hlogs⟩ := cancelOrderUnlocked_cases e orderId
  · rw [hnone]
    exact ⟨h, Or.inl ⟨.refl e, fun r hr => hr⟩⟩
  · obtain ⟨hsame', hlogs'⟩ := publishMarketDataUpdate_idle e' symbol
    rw [hsome] at hlive ⊢
    have hreplayed : Replayed e e' := by
      refine Or.inr ⟨.cancel orderId, [], ?_, hlogs, fun r hr => ⟨0, _, rfl, ?_⟩⟩
      · intro t ht
        cases ht
      · exact hr.cancelOrderUnlocked h.distinct hsome
    exact ⟨hlive.of_same hsame' hlogs', hreplayed.of_same hsame' hlogs'⟩

theorem Live.modifyOrder (h : e.Live) (orderId : String) (newQuantity : ℚ) :
    (e.modifyOrder orderId newQuantity).2.Live ∧
      Replayed e (e.modifyOrder orderId newQuantity).2 := by
  have hlive := h.modifyOrderUnlocked orderId newQuantity
  unfold MatchingEngine.modifyOrder
  obtain hnone | ⟨symbol, mem, b, -, e', hsome, -, hlogs⟩ :=
    modifyOrderUnlocked_cases e orderId newQuantity
  · rw [hnone]
    exact ⟨h, Or.inl ⟨.refl e, fun r hr => hr⟩⟩
  · obtain ⟨hsame', hlogs'⟩ := publishMarketDataUpdate_idle e' symbol
    rw [hsome] at hlive ⊢
    have hreplayed : Replayed e e' := by
      refine Or.inr ⟨.modify orderId newQuantity, [], ?_, hlogs, fun r hr => ⟨0, _, rfl, ?_⟩⟩
      · intro t ht
        cases ht
      · exact hr.modifyOrderUnlocked h.distinct hsome
    exact ⟨hlive.of_same hsame' hlogs', hreplayed.of_same hsame' hlogs'⟩

/-- One call of a live engine, and what the log makes of it. -/
theorem Live.call (h : e.Live) {c : Call} (hc : e.Logged c) (hcall : e.call fuel c = some e') :
    e'.Live ∧ Replayed e e' := by
  cases c with
  | submit tryAcceptOrder o =>
    obtain ⟨htype, hid⟩ := hc
    obtain ⟨⟨out, u⟩, hs, rfl⟩ := Option.map_eq_some_iff.mp hcall
    cases tryAcceptOrder with
    | true => exact h.submitOrder htype hid hs
    | false =>
      obtain ⟨-, rfl⟩ := Prod.mk.inj (Option.some.inj hs)
      exact ⟨h.alloc o, Or.inl ⟨.idle rfl rfl rfl, fun r hr => hr.alloc_left o⟩⟩
  | cancel orderId =>
    obtain rfl := Option.some.inj hcall
    exact h.cancelOrder orderId
  | modify orderId newQuantity =>
    obtain rfl := Option.some.inj hcall
    exact h.modifyOrder orderId newQuantity
  | subscribeToMarketData symbol callback =>
    obtain rfl := Option.some.inj hcall
    have hsame := SameBooks.subscribeToMarketData e symbol callback
    have hlogs : Logs [] e (e.subscribeToMarketData symbol callback) := .idle rfl rfl rfl
    exact ⟨h.of_same hsame hlogs, Or.inl ⟨hlogs, fun r hr => hr.of_same hsame (.refl r)⟩⟩
  | subscribeToTrades symbol callback =>
    obtain rfl := Option.some.inj hcall
    have hsame := SameBooks.subscribeToTrades e symbol callback
    have hlogs : Logs [] e (e.subscribeToTrades symbol callback) := .idle rfl rfl rfl
    exact ⟨h.of_same hsame hlogs, Or.inl ⟨hlogs, fun r hr => hr.of_same hsame (.refl r)⟩⟩

/-! ## Replaying the file -/

variable {fuel' : ℕ} {record : WalRecord} {lines lines' : List Json}

theorem replayRecord_mono {out : Except String Unit × MatchingEngine}
    (h : r.replayRecord fuel record = some out) (hle : fuel ≤ fuel') :
    r.replayRecord fuel' record = some out := by
  cases record with
  | submit o =>
    simp only [replayRecord] at h ⊢
    split_ifs at h ⊢
    · exact h
    · exact h
    · split at h
      · rename_i hthrow
        rw [(processOrder_error hthrow).2 fuel']
        exact h
      · cases h
      · rename_i hresult
        rw [processOrder_mono hresult hle]
        exact h
  | cancel orderId => exact h
  | modify orderId newQuantity => exact h
  | activated orderId symbol => exact h
  | trade t => exact h

theorem replayLines_mono {out : Bool × MatchingEngine}
    (h : replayLines fuel lines r = some out) (hle : fuel ≤ fuel') :
    replayLines fuel' lines r = some out := by
  induction lines generalizing r with
  | nil => exact h
  | cons line lines ih =>
    simp only [replayLines] at h ⊢
    split at h
    · exact h
    · exact ih h
    · split at h
      · cases h
      · rename_i hrecord
        rw [replayRecord_mono hrecord hle]
        exact h
      · rename_i hrecord
        rw [replayRecord_mono hrecord hle]
        exact ih h

/-- A file is replayed in two parts. -/
theorem replayLines_append (h : replayLines fuel lines r = some (true, r')) :
    replayLines fuel (lines ++ lines') r = replayLines fuel lines' r' := by
  induction lines generalizing r with
  | nil =>
    obtain ⟨-, rfl⟩ := Prod.mk.inj (Option.some.inj h)
    rfl
  | cons line lines ih =>
    simp only [List.cons_append, replayLines] at h ⊢
    split at h
    · cases h
    · exact ih h
    · split at h
      · cases h
      · cases h
      · exact ih h

/-- Trade records are skipped. -/
theorem replayLines_trades (ts : List Trade) (r : MatchingEngine) :
    replayLines fuel (ts.map fun t => (WalRecord.trade t).toJson) r = some (true, r) := by
  induction ts with
  | nil => rfl
  | cons t ts ih => simpa only [List.map_cons, replayLines, WalRecord.ofJson_trade] using ih

/-- One record, and some of the trades after it. -/
theorem replayLines_record (htrade : ∀ t, record ≠ .trade t)
    (h : r.replayRecord fuel record = some (.ok (), r')) (ts : List Trade) :
    replayLines fuel (record.toJson :: ts.map fun t => (WalRecord.trade t).toJson) r =
      some (true, r') := by
  simp only [replayLines, WalRecord.ofJson_toJson record htrade, h]
  exact replayLines_trades ts r'

/-! ## Runs -/

/-- A call the log can be trusted with returns. -/
def LoggedStep (e : MatchingEngine) (c : Call) (e' : MatchingEngine) : Prop :=
  e.Logged c ∧ ∃ fuel, e.call fuel c = some e'

/-- The file rebuilds the books. -/
def Rebuilds (lines : List Json) (r e : MatchingEngine) : Prop :=
  ∃ fuel r', replayLines fuel lines r = some (true, r') ∧ Twin e r'

theorem Rebuilds.append (h : Rebuilds lines r e)
    (h' : ∀ r', Twin e r' → Rebuilds lines' r' e') : Rebuilds (lines ++ lines') r e' := by
  obtain ⟨fuel, r₁, hlines, htwin⟩ := h
  obtain ⟨fuel', r₂, hlines', htwin'⟩ := h' r₁ htwin
  refine ⟨max fuel fuel', r₂, ?_, htwin'⟩
  rw [replayLines_append (replayLines_mono hlines (le_max_left _ _))]
  exact replayLines_mono hlines' (le_max_right _ _)

/-- A call appends to the file. Any part of what it appended, if it is not empty, does the
same again. -/
theorem Replayed.exists_append (h : Replayed e e') (hl : e.Live) :
    ∃ lines, e'.walStream = e.walStream ++ lines ∧ (lines = [] → ∀ r, Twin e r → Twin e' r) ∧
      ∀ n, n < lines.length → ∀ r, Twin e r → Rebuilds (lines.take (n + 1)) r e' := by
  obtain ⟨hlogs, htwin⟩ | ⟨record, ts, htrade, hlogs, hreplay⟩ := h
  · refine ⟨[], ?_, fun _ => htwin, fun n hn => ?_⟩
    · simpa using hlogs.walStream
    · exact absurd hn (Nat.not_lt_zero n)
  · refine ⟨record.toJson :: ts.map fun t => (WalRecord.trade t).toJson, ?_, ?_, ?_⟩
    · simpa [hl.walEnabled, hl.replaying, Function.comp_def] using hlogs.walStream
    · intro hnil
      cases hnil
    · intro n _ r hr
      obtain ⟨fuel, r', hrecord, htwin⟩ := hreplay r hr
      refine ⟨fuel, r', ?_, htwin⟩
      rw [List.take_succ_cons, ← List.map_take]
      exact replayLines_record htrade hrecord _

theorem LoggedStep.live {c : Call} (h : LoggedStep e c e') (hl : e.Live) :
    e'.Live ∧ Replayed e e' := by
  obtain ⟨hlogged, fuel, hcall⟩ := h
  exact hl.call hlogged hcall

/-- What was written before a run is still there after it. -/
theorem live_of_run {calls : List Call} (h : Run LoggedStep e calls e') (hl : e.Live) :
    e'.Live ∧ ∃ lines, e'.walStream = e.walStream ++ lines := by
  refine h.invariant (fun u => u.Live ∧ ∃ lines, u.walStream = e.walStream ++ lines)
    ⟨hl, [], (List.append_nil _).symm⟩ ?_
  rintro u c v ⟨hu, lines, hlines⟩ hstep
  obtain ⟨hv, hreplayed⟩ := hstep.live hu
  obtain ⟨lines', happend, -⟩ := hreplayed.exists_append hu
  exact ⟨hv, lines ++ lines', by rw [happend, hlines, List.append_assoc]⟩

/-- The whole file rebuilds the books at the end of a run. -/
theorem rebuilds_of_run {calls : List Call} (h : Run LoggedStep e calls e') (hl : e.Live)
    (hr : Rebuilds e.walStream r e) : Rebuilds e'.walStream r e' := by
  refine (h.invariant (fun u => u.Live ∧ Rebuilds u.walStream r u) ⟨hl, hr⟩ ?_).2
  rintro u c v ⟨hu, hrebuilds⟩ hstep
  obtain ⟨hv, hreplayed⟩ := hstep.live hu
  obtain ⟨lines, happend, hnil, hlines⟩ := hreplayed.exists_append hu
  refine ⟨hv, ?_⟩
  rw [happend]
  refine hrebuilds.append fun r' hr' => ?_
  rcases lines with _ | ⟨line, lines⟩
  · exact ⟨0, r', rfl, hnil rfl r' hr'⟩
  · simpa using hlines lines.length (by simp) r' hr'

/-- **Replay at every record.** A new engine writes its log while calls are made on it; `e₂`
is its state when the call that wrote the record `k` has returned. Replayed in another new
engine, the first `k` records succeed and leave books that hold the same as those of `e₂`. -/
theorem replay_at_every_record {mem mem' : Memory} {hashOrder hashOrder' : HashOrder}
    {feeModel feeModel' : Option FeeModel} {e₁ e₂ e₃ : MatchingEngine}
    {calls calls' : List Call} {c : Call}
    (h₁ : Run LoggedStep ((fresh mem hashOrder feeModel).startWAL (some [])).2 calls e₁)
    (h₂ : LoggedStep e₁ c e₂) (h₃ : Run LoggedStep e₂ calls' e₃) {k : ℕ}
    (hk : e₁.walStream.length < k) (hk' : k ≤ e₂.walStream.length) :
    ∃ fuel r, (fresh mem' hashOrder' feeModel').replayWAL fuel (some (e₃.walStream.take k)) =
        some (true, r) ∧
      ∀ symbol, SameContents e₂.mem (e₂.book symbol) r.mem (r.book symbol) := by
  set e₀ := ((fresh mem hashOrder feeModel).startWAL (some [])).2
  set r₀ : MatchingEngine := { fresh mem' hashOrder' feeModel' with replaying := true }
  have hl₀ : e₀.Live := by
    refine ⟨rfl, rfl, bookInvariant_sane.fresh rfl, ?_, fun symbol => rfl⟩
    intro id symbol symbol' hid
    cases hid
  have htwin₀ : Twin e₀ r₀ := by
    refine ⟨id, ∅, ⟨?_, ?_, ?_⟩, fun symbol => .empty id ∅ symbol symbol⟩ <;> simp
  have hr₁ : Rebuilds e₁.walStream r₀ e₁ := rebuilds_of_run h₁ hl₀ ⟨0, r₀, rfl, htwin₀⟩
  have hl₁ := (live_of_run h₁ hl₀).1
  obtain ⟨hl₂, hreplayed⟩ := h₂.live hl₁
  obtain ⟨-, later, hlater⟩ := live_of_run h₃ hl₂
  obtain ⟨lines, happend, -, hlines⟩ := hreplayed.exists_append hl₁
  obtain ⟨n, rfl⟩ := Nat.exists_eq_add_of_lt hk
  have hn : n < lines.length := by
    rw [happend, List.length_append] at hk'
    omega
  have htake : e₃.walStream.take (e₁.walStream.length + n + 1) =
      e₁.walStream ++ lines.take (n + 1) := by
    rw [hlater, List.take_append_of_le_length hk', happend, Nat.add_assoc,
      List.take_length_add_append]
  obtain ⟨fuel, r, hreplay, htwin⟩ := hr₁.append (hlines n hn)
  refine ⟨fuel, { r with replaying := false }, ?_, htwin.sameContents⟩
  rw [htake]
  simp only [replayWAL]
  rw [hreplay]
  rfl

/-- Two orders trade, and the rest of the first one is modified and cancelled later. Up to the
trade record the file rebuilds the book with that rest. -/
theorem replay_at_every_record_trade :
    ∃ (e r : MatchingEngine) (lines : List Json) (fuel : ℕ), lines.length = 3 ∧
      ((e.book "S").levels .sell).map (PriceLevel.contents e.mem) =
        [(10, [⟨"ask", "S", .sell, .limit, 10, 2⟩], 2)] ∧
      (fresh .empty .plain none).replayWAL fuel (some lines) = some (true, r) ∧
      ∀ symbol, SameContents e.mem (e.book symbol) r.mem (r.book symbol) := by
  let step (e : MatchingEngine) (c : Call) :=
    if e.Logged c then (e.call 5 c).map (c, ·) else none
  have hstep : ∀ e c c' e', step e c = some (c', e') → LoggedStep e c' e' := by
    intro e c c' e' h
    simp only [step] at h
    split_ifs at h with hlogged
    obtain ⟨u, hu, heq⟩ := Option.map_eq_some_iff.mp h
    obtain ⟨rfl, rfl⟩ := Prod.mk.inj heq
    exact ⟨hlogged, 5, hu⟩
  let final₁ := Run.exec step ((fresh .empty .plain none).startWAL (some [])).2
    [.submit true ⟨"ask", "S", .sell, .limit, 10, 5⟩]
  let final₂ := final₁.bind fun p => step p.2 (.submit true ⟨"bid", "S", .buy, .limit, 11, 3⟩)
  let final₃ := final₂.bind fun p => Run.exec step p.2 [.modify "ask" 4, .cancel "bid"]
  have hwal₁ : final₁.map (fun p => p.2.walStream.length) = some 1 := by decide +kernel
  have hwal₂ : final₂.map (fun p => p.2.walStream.length) = some 3 := by decide +kernel
  have hwal₃ : final₃.map (fun p => p.2.walStream.length) = some 4 := by decide +kernel
  have hsell : final₂.map (fun p => ((p.2.book "S").levels .sell).map
      (PriceLevel.contents p.2.mem)) = some [(10, [⟨"ask", "S", .sell, .limit, 10, 2⟩], 2)] := by
    decide +kernel
  obtain ⟨⟨calls, e₁⟩, h₁, hlength₁⟩ := Option.map_eq_some_iff.mp hwal₁
  obtain ⟨⟨c, e₂⟩, h₂, hlength₂⟩ := Option.map_eq_some_iff.mp hwal₂
  obtain ⟨⟨calls', e₃⟩, h₃, hlength₃⟩ := Option.map_eq_some_iff.mp hwal₃
  have hstep₂ : step e₁ (.submit true ⟨"bid", "S", .buy, .limit, 11, 3⟩) = some (c, e₂) := by
    simpa only [final₂, h₁, Option.bind_some] using h₂
  have hrun₃ : Run.exec step e₂ [.modify "ask" 4, .cancel "bid"] = some (calls', e₃) := by
    simpa only [final₃, h₂, Option.bind_some] using h₃
  have hsell₂ : ((e₂.book "S").levels .sell).map (PriceLevel.contents e₂.mem) =
      [(10, [⟨"ask", "S", .sell, .limit, 10, 2⟩], 2)] := by
    rw [h₂] at hsell
    exact Option.some.inj hsell
  obtain ⟨fuel, r, hreplay, hsame⟩ := replay_at_every_record (Run.of_exec hstep h₁)
    (hstep _ _ _ _ hstep₂) (Run.of_exec hstep hrun₃) (k := 3)
    (hlength₁.trans_lt (by decide)) hlength₂.ge
  exact ⟨e₂, r, e₃.walStream.take 3, fuel, by rw [List.length_take, hlength₃]; rfl, hsell₂,
    hreplay, hsame⟩

end MatchingEngine

end GoQuant
