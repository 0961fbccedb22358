import GoQuant.MatchingEngine
import GoQuant.Book.Matching

/-!
# What the critical sections do

Most of what the engine does leaves its order objects, books and pending trigger orders
alone. What remains is one operation on one book at a time.

## Main results

* `SameBooks` — one lemma for each function that changes nothing there.
* `acceptOrder_cases`, `activate_eq_some`, `cancelIn_eq_some`, `modifyIn_eq_some` — the one
  operation on one book that each of the others performs.
-/

namespace GoQuant

namespace MatchingEngine

section Fields

variable (e : MatchingEngine) {symbol symbol' : String} (b : OrderBook) (orders : List Ref)

/-- The object that a call builds holds the submitted order. -/
theorem alloc_order_self (o : Order) : (e.alloc o).1.mem.order (e.alloc o).2 = o :=
  Memory.alloc_order_self e.mem o

@[simp] theorem book_setBook_self : (e.setBook symbol b).book symbol = b := by
  simp [book, setBook]

theorem book_setBook_of_ne (h : symbol' ≠ symbol) :
    (e.setBook symbol b).book symbol' = e.book symbol' := by
  simp [book, setBook, AList.lookup_insert_ne h]

@[simp] theorem pending_setPending_self : (e.setPending symbol orders).pending symbol = orders := by
  simp [pending, setPending]

theorem pending_setPending_of_ne (h : symbol' ≠ symbol) :
    (e.setPending symbol orders).pending symbol' = e.pending symbol' := by
  simp [pending, setPending, AList.lookup_insert_ne h]

variable (mem : Memory) (result : Matching)

/-- A book and the memory are replaced. -/
theorem book_replace_self :
    ({ e.setBook symbol b with mem := mem } : MatchingEngine).book symbol = b :=
  book_setBook_self e b

theorem book_replace_of_ne (h : symbol' ≠ symbol) :
    ({ e.setBook symbol b with mem := mem } : MatchingEngine).book symbol' = e.book symbol' :=
  book_setBook_of_ne e b h

theorem book_matched_self : (e.matched symbol result).book symbol = result.book :=
  book_setBook_self e result.book

theorem book_matched_of_ne (h : symbol' ≠ symbol) :
    (e.matched symbol result).book symbol' = e.book symbol' :=
  book_setBook_of_ne e result.book h

end Fields

/-- Two engine states with the same order objects, books and pending trigger orders. -/
structure SameBooks (e e' : MatchingEngine) : Prop where
  mem : e'.mem = e.mem
  book : ∀ symbol, e'.book symbol = e.book symbol
  pending : ∀ symbol, e'.pending symbol = e.pending symbol
  feeModel : e'.feeModel = e.feeModel
  hashOrder : e'.hashOrder = e.hashOrder

namespace SameBooks

variable {e e' e'' : MatchingEngine}

theorem refl (e : MatchingEngine) : e.SameBooks e :=
  ⟨rfl, fun _ => rfl, fun _ => rfl, rfl, rfl⟩

theorem trans (h : e.SameBooks e') (h' : e'.SameBooks e'') : e.SameBooks e'' where
  mem := h'.mem.trans h.mem
  book symbol := (h'.book symbol).trans (h.book symbol)
  pending symbol := (h'.pending symbol).trans (h.pending symbol)
  feeModel := h'.feeModel.trans h.feeModel
  hashOrder := h'.hashOrder.trans h.hashOrder

/-- A book that is created is empty, like one that does not exist. -/
theorem getOrCreateOrderBook (e : MatchingEngine) (symbol : String) :
    e.SameBooks (e.getOrCreateOrderBook symbol) := by
  unfold MatchingEngine.getOrCreateOrderBook
  cases h : e.orderBooks.lookup symbol with
  | some b => exact .refl e
  | none =>
    refine ⟨rfl, fun symbol' => ?_, fun _ => rfl, rfl, rfl⟩
    by_cases hs : symbol' = symbol
    · subst hs
      rw [book_setBook_self, MatchingEngine.book, h]
      rfl
    · exact book_setBook_of_ne e _ hs

/-- The state after a match is the one with the book put in its place. -/
theorem matched {o : Order} {symbol : String} {result : Matching}
    (hs : (e.alloc o).1.SameBooks e') :
    { e.setBook symbol result.book with mem := result.mem }.SameBooks
      (e'.matched symbol result) where
  mem := rfl
  book symbol' := by
    by_cases hsymbol : symbol' = symbol
    · subst hsymbol
      rw [book_matched_self, book_replace_self]
    · rw [book_matched_of_ne _ _ hsymbol, book_replace_of_ne _ _ _ hsymbol]
      exact hs.book symbol'
  pending := hs.pending
  feeModel := hs.feeModel
  hashOrder := hs.hashOrder

theorem writeWAL (e : MatchingEngine) (record : WalRecord) : e.SameBooks (e.writeWAL record) := by
  unfold MatchingEngine.writeWAL
  split_ifs
  · exact ⟨rfl, fun _ => rfl, fun _ => rfl, rfl, rfl⟩
  · exact .refl e

theorem receive (e : MatchingEngine) (o : Order) : e.SameBooks (e.receive o) := by
  have hcount : e.SameBooks { e with metricOrdersReceived := e.metricOrdersReceived + 1 } :=
    ⟨rfl, fun _ => rfl, fun _ => rfl, rfl, rfl⟩
  exact hcount.trans ((getOrCreateOrderBook _ o.symbol).trans (writeWAL _ _))

theorem publishUpdate (e : MatchingEngine) (symbol : String) (update : MarketDataUpdate) :
    e.SameBooks (e.publishUpdate symbol update) := by
  unfold MatchingEngine.publishUpdate
  dsimp only
  split
  · exact ⟨rfl, fun _ => rfl, fun _ => rfl, rfl, rfl⟩
  · split_ifs <;> exact ⟨rfl, fun _ => rfl, fun _ => rfl, rfl, rfl⟩

theorem recordTrade (e : MatchingEngine) (t : Trade) : e.SameBooks (e.recordTrade t).2.2 := by
  unfold MatchingEngine.recordTrade
  exact ⟨(writeWAL _ _).mem, (writeWAL _ _).book, (writeWAL _ _).pending, (writeWAL _ _).feeModel,
    (writeWAL _ _).hashOrder⟩

theorem deliverTrade (e : MatchingEngine) (subscriber : Subscriber) (t : Trade) :
    e.SameBooks (e.deliverTrade subscriber t) :=
  ⟨rfl, fun _ => rfl, fun _ => rfl, rfl, rfl⟩

theorem subscribeToMarketData (e : MatchingEngine) (symbol : String) (callback : Subscriber) :
    e.SameBooks (e.subscribeToMarketData symbol callback) :=
  ⟨rfl, fun _ => rfl, fun _ => rfl, rfl, rfl⟩

theorem subscribeToTrades (e : MatchingEngine) (symbol : String) (callback : Subscriber) :
    e.SameBooks (e.subscribeToTrades symbol callback) :=
  ⟨rfl, fun _ => rfl, fun _ => rfl, rfl, rfl⟩

end SameBooks

/-- What is written to the log between two engine states. -/
structure Logs (records : List WalRecord) (e e' : MatchingEngine) : Prop where
  walStream : e'.walStream = e.walStream ++
    if e.walEnabled && !e.replaying then records.map WalRecord.toJson else []
  walEnabled : e'.walEnabled = e.walEnabled
  replaying : e'.replaying = e.replaying

namespace Logs

variable {e e' e'' : MatchingEngine} {records records' : List WalRecord}

/-- The log is not touched. -/
theorem idle (hwal : e'.walStream = e.walStream) (henabled : e'.walEnabled = e.walEnabled)
    (hreplaying : e'.replaying = e.replaying) : Logs [] e e' :=
  ⟨by simp [hwal], henabled, hreplaying⟩

theorem refl (e : MatchingEngine) : Logs [] e e := idle rfl rfl rfl

theorem trans (h : Logs records e e') (h' : Logs records' e' e'') :
    Logs (records ++ records') e e'' := by
  refine ⟨?_, h'.walEnabled.trans h.walEnabled, h'.replaying.trans h.replaying⟩
  rw [h'.walStream, h.walStream, h.walEnabled, h.replaying]
  split_ifs <;> simp

theorem getOrCreateOrderBook (e : MatchingEngine) (symbol : String) :
    Logs [] e (e.getOrCreateOrderBook symbol) := by
  unfold MatchingEngine.getOrCreateOrderBook
  split <;> exact idle rfl rfl rfl

theorem writeWAL (e : MatchingEngine) (record : WalRecord) :
    Logs [record] e (e.writeWAL record) := by
  unfold MatchingEngine.writeWAL
  split_ifs with h
  · exact ⟨by simp [h], rfl, rfl⟩
  · exact ⟨by simp [h], rfl, rfl⟩

theorem receive (e : MatchingEngine) (o : Order) : Logs [.submit o] e (e.receive o) := by
  have hcount : Logs [] e { e with metricOrdersReceived := e.metricOrdersReceived + 1 } :=
    idle rfl rfl rfl
  exact hcount.trans ((getOrCreateOrderBook _ o.symbol).trans (writeWAL _ _))

theorem publishUpdate (e : MatchingEngine) (symbol : String) (update : MarketDataUpdate) :
    Logs [] e (e.publishUpdate symbol update) := by
  unfold MatchingEngine.publishUpdate
  dsimp only
  split
  · exact idle rfl rfl rfl
  · split_ifs <;> exact idle rfl rfl rfl

theorem recordTrade (e : MatchingEngine) (t : Trade) :
    Logs [.trade (e.recordTrade t).1] e (e.recordTrade t).2.2 := by
  unfold MatchingEngine.recordTrade
  exact ⟨(writeWAL _ _).walStream, (writeWAL _ _).walEnabled, (writeWAL _ _).replaying⟩

end Logs

/-! ## What the sections do -/

section Sections

variable {fuel : ℕ} {e e' : MatchingEngine} {order : Ref} {symbol orderId : String}
  {newQuantity : ℚ} {symbols : List String} {b : OrderBook} {mem : Memory}

/-- How the locked part of `submitOrder` ends: the order waits for its trigger, or it was
matched, or `processOrder` threw. -/
theorem acceptOrder_cases {r : Except String (Option (List Trade))}
    (h : e.acceptOrder fuel order = some (r, e')) :
    let o := e.mem.order order
    (o.type.isTrigger ∧ r = .ok none ∧ e' = (e.receive o).addTrigger o.symbol order) ∨
    (¬ o.type.isTrigger ∧ ∃ result,
      MatchingAlgorithm.Returns e.feeModel e.mem (e.book o.symbol) order result ∧
      r = .ok (some result.trades) ∧
      ∃ matched executed, e' = { (e.receive o).matched o.symbol result with
        metricOrdersMatched := matched, metricTradesExecuted := executed }) ∨
    (¬ o.type.Matchable ∧ ∃ message, r = .error message ∧ e' = e.receive o) := by
  have hsame := SameBooks.receive e (e.mem.order order)
  intro o
  unfold acceptOrder at h
  dsimp only at h
  split_ifs at h with htype
  · obtain ⟨rfl, rfl⟩ := Prod.mk.inj (Option.some.inj h)
    exact Or.inl ⟨htype, rfl, rfl⟩
  · rw [hsame.feeModel, hsame.mem, hsame.book] at h
    split at h
    · rename_i hprocess
      obtain ⟨rfl, rfl⟩ := Prod.mk.inj (Option.some.inj h)
      exact Or.inr (Or.inr ⟨(MatchingAlgorithm.processOrder_error hprocess).1, _, rfl, rfl⟩)
    · cases h
    · rename_i result hresult
      obtain ⟨rfl, rfl⟩ := Prod.mk.inj (Option.some.inj h)
      exact Or.inr (Or.inl ⟨htype, result, ⟨fuel, hresult⟩, rfl, _, _, rfl⟩)

theorem activate_eq_some {ord : Ref} (h : e.activate fuel symbol ord = some e') :
    ∃ result, MatchingAlgorithm.Returns e.feeModel
        (e.mem.alloc (activeOrder (e.mem.order ord))).1 (e.book symbol) e.mem.next result ∧
      e' = (((e.alloc (activeOrder (e.mem.order ord))).1.getOrCreateOrderBook symbol).matched
        symbol result).writeWAL (.activated (((e.alloc (activeOrder (e.mem.order ord))
          ).1.getOrCreateOrderBook symbol).mem.order ord).id symbol) := by
  have hsame := SameBooks.getOrCreateOrderBook (e.alloc (activeOrder (e.mem.order ord))).1 symbol
  unfold activate at h
  dsimp only at h
  split at h
  · rename_i result hresult
    rw [hsame.feeModel, hsame.mem, hsame.book] at hresult
    exact ⟨result, ⟨fuel, hresult⟩, (Option.some.inj h).symm⟩
  · cases h

theorem cancelIn_eq_some (h : e.cancelIn orderId symbols = some (symbol, b)) :
    (e.book symbol).cancelOrder e.mem orderId = (true, b) := by
  induction symbols with
  | nil => cases h
  | cons s symbols ih =>
    simp only [cancelIn] at h
    split at h
    · rename_i hcancel
      obtain ⟨rfl, rfl⟩ := Prod.mk.inj (Option.some.inj h)
      exact hcancel
    · exact ih h

theorem modifyIn_eq_some (h : e.modifyIn orderId newQuantity symbols = some (symbol, mem, b)) :
    (e.book symbol).modifyOrder e.mem orderId newQuantity = .ok (mem, b) := by
  induction symbols with
  | nil => cases h
  | cons s symbols ih =>
    simp only [modifyIn] at h
    split at h
    · rename_i hmodify
      obtain ⟨rfl, hp⟩ := Prod.mk.inj (Option.some.inj h)
      obtain ⟨rfl, rfl⟩ := Prod.mk.inj hp
      exact hmodify
    · exact ih h

/-- A cancellation finds the id in no book, or takes it out of one and writes its record. -/
theorem cancelOrderUnlocked_cases (e : MatchingEngine) (orderId : String) :
    e.cancelOrderUnlocked orderId = (none, e) ∨
    ∃ symbol b, (e.book symbol).cancelOrder e.mem orderId = (true, b) ∧
      ∃ e', e.cancelOrderUnlocked orderId = (some symbol, e') ∧
        (e.setBook symbol b).SameBooks e' ∧ Logs [.cancel orderId] e e' := by
  unfold cancelOrderUnlocked
  split
  · exact Or.inl rfl
  · rename_i symbol b hcancel
    refine Or.inr ⟨symbol, b, cancelIn_eq_some hcancel, _, rfl, ?_, ?_⟩
    · have hcount : (e.setBook symbol b).SameBooks
          { e.setBook symbol b with metricOrdersCancelled := e.metricOrdersCancelled + 1 } :=
        ⟨rfl, fun _ => rfl, fun _ => rfl, rfl, rfl⟩
      exact hcount.trans (.writeWAL _ _)
    · have hcount : Logs [] e
          { e.setBook symbol b with metricOrdersCancelled := e.metricOrdersCancelled + 1 } :=
        .idle rfl rfl rfl
      exact hcount.trans (.writeWAL _ _)

/-- The same for a change of quantity. -/
theorem modifyOrderUnlocked_cases (e : MatchingEngine) (orderId : String) (newQuantity : ℚ) :
    e.modifyOrderUnlocked orderId newQuantity = (none, e) ∨
    ∃ symbol mem b, (e.book symbol).modifyOrder e.mem orderId newQuantity = .ok (mem, b) ∧
      ∃ e', e.modifyOrderUnlocked orderId newQuantity = (some symbol, e') ∧
        { e.setBook symbol b with mem := mem }.SameBooks e' ∧
          Logs [.modify orderId newQuantity] e e' := by
  unfold modifyOrderUnlocked
  split
  · exact Or.inl rfl
  · rename_i symbol mem b hmodify
    refine Or.inr ⟨symbol, mem, b, modifyIn_eq_some hmodify, _, rfl, .writeWAL _ _, ?_⟩
    have hset : Logs [] e { e.setBook symbol b with mem := mem } := .idle rfl rfl rfl
    exact hset.trans (.writeWAL _ _)

/-- Whether the answer to a cancellation is positive. -/
theorem cancelOrder_fst (e : MatchingEngine) (orderId : String) :
    (e.cancelOrder orderId).1 = (e.cancelOrderUnlocked orderId).1.isSome := by
  unfold cancelOrder
  generalize e.cancelOrderUnlocked orderId = p
  obtain ⟨_ | symbol, u⟩ := p <;> rfl

end Sections

/-- Callbacks see a trade, and change nothing. -/
theorem deliverTrades_idle (t : Trade) (callbacks : List Subscriber) (e : MatchingEngine) :
    e.SameBooks (callbacks.foldl (fun e cb => e.deliverTrade cb t) e) ∧
      Logs [] e (callbacks.foldl (fun e cb => e.deliverTrade cb t) e) := by
  induction callbacks generalizing e with
  | nil => exact ⟨.refl e, .refl e⟩
  | cons cb callbacks ih =>
    obtain ⟨hsame, hlogs⟩ := ih (e.deliverTrade cb t)
    have hlog : Logs [] e (e.deliverTrade cb t) := .idle rfl rfl rfl
    exact ⟨(SameBooks.deliverTrade e cb t).trans hsame, hlog.trans hlogs⟩

end MatchingEngine

end GoQuant
