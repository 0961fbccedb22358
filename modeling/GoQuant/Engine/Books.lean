import GoQuant.Engine.Sections
import GoQuant.Engine.System
import GoQuant.Book.Matching

/-!
# What holds of every book of an engine

Whatever calls are made and however their critical sections interleave, a book of the
engine only ever sees the operations of `order_book.cpp` and the matching of fresh orders.
So a property of a single book that these keep, and that quantities written elsewhere do
not disturb, holds of all books at all times.

## Main definitions

* `BookInvariant` — such a property.

## Main results

* `BookInvariant.run` — it holds in every state the system reaches.
* `uncrossed_of_run` — no book is ever crossed between two critical sections.
-/

namespace GoQuant

open MatchingAlgorithm

/-- A property of a book that every operation on it keeps, and that does not depend on
quantities or on later objects. -/
structure BookInvariant (P : Memory → OrderBook → Prop) : Prop where
  empty : ∀ mem symbol, P mem (.empty symbol)
  of_extends : ∀ {mem mem' b}, P mem b → mem.Extends mem' → P mem' b
  submit : ∀ {feeModel mem b result} (o : Order), P mem b →
    Returns feeModel (mem.alloc o).1 b mem.next result → P result.mem result.book
  cancelOrder : ∀ {mem b} orderId, P mem b → P mem (b.cancelOrder mem orderId).2
  modifyOrder : ∀ {mem b orderId newQuantity mem' b'}, P mem b →
    b.modifyOrder mem orderId newQuantity = .ok (mem', b') → P mem' b'

/-- All books of an engine have a property. -/
def MatchingEngine.Books (P : Memory → OrderBook → Prop) (e : MatchingEngine) : Prop :=
  ∀ symbol, P e.mem (e.book symbol)

namespace MatchingEngine

variable {P : Memory → OrderBook → Prop} {fuel : ℕ} {e e' : MatchingEngine}
  {symbol orderId : String} {newQuantity : ℚ} {mem : Memory} {b : OrderBook} {order : Ref}
  {o : Order} {result : Matching}

theorem Books.congr (h : Books P e) (hmem : e'.mem = e.mem)
    (hbook : ∀ symbol, e'.book symbol = e.book symbol) : Books P e' := by
  intro symbol
  rw [hmem, hbook]
  exact h symbol

theorem Books.of_same (h : Books P e) (hs : e.SameBooks e') : Books P e' :=
  h.congr hs.mem hs.book

/-- One book and the memory change, the other books stay. -/
theorem Books.update (hP : BookInvariant P) (h : Books P e) (symbol : String)
    (hmem : e'.mem = mem) (hext : e.mem.Extends mem) (hb : P mem b)
    (hself : e'.book symbol = b)
    (hother : ∀ symbol', symbol' ≠ symbol → e'.book symbol' = e.book symbol') : Books P e' := by
  intro symbol'
  rw [hmem]
  by_cases hs : symbol' = symbol
  · rw [hs, hself]
    exact hb
  · rw [hother symbol' hs]
    exact hP.of_extends (h symbol') hext

/-- An order object built for the occasion is matched. -/
theorem Books.matched (hP : BookInvariant P) (h : Books P e)
    (hs : (e.alloc o).1.SameBooks e')
    (hr : Returns e.feeModel (e.mem.alloc o).1 (e.book symbol) e.mem.next result) :
    Books P (e'.matched symbol result) := by
  refine h.update hP symbol rfl ((Memory.Extends.alloc e.mem o).trans
    (returns_extends hr)) (hP.submit o (h symbol) hr) ?_ fun symbol' hne => ?_
  · exact book_setBook_self e' result.book
  · exact (book_setBook_of_ne e' result.book hne).trans (hs.book symbol')

theorem Books.cancelOrderUnlocked (hP : BookInvariant P) (h : Books P e) (orderId : String) :
    Books P (e.cancelOrderUnlocked orderId).2 := by
  obtain hnone | ⟨symbol, b, hcancel, e', hsome, hsame, -⟩ := cancelOrderUnlocked_cases e orderId
  · rw [hnone]
    exact h
  · rw [hsome]
    have hb : P e.mem b := by
      have hp := hP.cancelOrder orderId (h symbol)
      rwa [hcancel] at hp
    refine Books.of_same ?_ hsame
    refine h.update hP symbol rfl (.refl _) hb ?_ fun symbol' hne => ?_
    · exact book_setBook_self e b
    · exact book_setBook_of_ne e b hne

theorem Books.modifyOrderUnlocked (hP : BookInvariant P) (h : Books P e) (orderId : String)
    (newQuantity : ℚ) : Books P (e.modifyOrderUnlocked orderId newQuantity).2 := by
  obtain hnone | ⟨symbol, mem, b, hmodify, e', hsome, hsame, -⟩ :=
    modifyOrderUnlocked_cases e orderId newQuantity
  · rw [hnone]
    exact h
  · rw [hsome]
    refine Books.of_same ?_ hsame
    refine h.update hP symbol rfl (OrderBook.modifyOrder_extends e.mem _ orderId
      newQuantity hmodify) (hP.modifyOrder (h symbol) hmodify) ?_ fun symbol' hne => ?_
    · exact book_setBook_self e b
    · exact book_setBook_of_ne e b hne

theorem Books.alloc (hP : BookInvariant P) (h : Books P e) (o : Order) :
    Books P (e.alloc o).1 :=
  fun symbol => hP.of_extends (h symbol) (.alloc e.mem o)

theorem Books.acceptOrder (hP : BookInvariant P) (h : Books P e)
    {r : Except String (Option (List Trade))}
    (ha : (e.alloc o).1.acceptOrder fuel (e.alloc o).2 = some (r, e')) : Books P e' := by
  have hself := e.alloc_order_self o
  have hreceive := SameBooks.receive (e.alloc o).1 o
  obtain ⟨-, -, rfl⟩ | ⟨-, result, hr, -, _, _, rfl⟩ | ⟨-, _, -, rfl⟩ := acceptOrder_cases ha
  all_goals rw [hself] at *
  · exact (h.alloc hP o).congr hreceive.mem hreceive.book
  · exact (h.matched hP hreceive hr).of_same ⟨rfl, fun _ => rfl, fun _ => rfl, rfl, rfl⟩
  · exact (h.alloc hP o).of_same hreceive

theorem Books.activate (hP : BookInvariant P) (h : Books P e) {ord : Ref}
    (ha : e.activate fuel symbol ord = some e') : Books P e' := by
  obtain ⟨result, hr, rfl⟩ := activate_eq_some ha
  exact (h.matched hP (.getOrCreateOrderBook _ _) hr).of_same (.writeWAL _ _)

/-- The loop of `checkTriggers`, by induction on the orders still to look at. -/
theorem Books.activateAll (hP : BookInvariant P) {price : ℚ} {vec remaining : List Ref}
    (h : Books P e) (ha : activateAll fuel symbol price vec e = some (remaining, e')) :
    Books P e' := by
  induction vec generalizing e remaining with
  | nil =>
    obtain ⟨-, rfl⟩ := Prod.mk.inj (Option.some.inj ha)
    exact h
  | cons ord vec ih =>
    simp only [MatchingEngine.activateAll] at ha
    split_ifs at ha
    · obtain ⟨u, hu, hrest⟩ := Option.bind_eq_some_iff.mp ha
      exact ih (h.activate hP hu) hrest
    · obtain ⟨⟨remaining', u⟩, hu, heq⟩ := Option.map_eq_some_iff.mp ha
      obtain ⟨-, rfl⟩ := Prod.mk.inj heq
      exact ih h hu

theorem Books.checkTriggers (hP : BookInvariant P) (h : Books P e) {price : ℚ}
    (hc : e.checkTriggers fuel symbol price = some e') : Books P e' := by
  unfold MatchingEngine.checkTriggers at hc
  split at hc
  · exact Option.some.inj hc ▸ h
  · obtain ⟨⟨remaining, u⟩, hu, rfl⟩ := Option.map_eq_some_iff.mp hc
    exact (h.activateAll hP hu).congr rfl fun _ => rfl

end MatchingEngine

namespace BookInvariant

variable {P : Memory → OrderBook → Prop} {e : MatchingEngine}

/-- Every critical section keeps a property of the books. -/
theorem sections (hP : BookInvariant P) : SectionInvariant (MatchingEngine.Books P) where
  of_same h hs := h.of_same hs
  alloc o h := h.alloc hP o
  acceptOrder h ha := h.acceptOrder hP ha
  cancelOrderUnlocked orderId h := h.cancelOrderUnlocked hP orderId
  modifyOrderUnlocked orderId newQuantity h := h.modifyOrderUnlocked hP orderId newQuantity
  checkTriggers h hc := h.checkTriggers hP hc

/-- An engine without books has none that fails a property of empty books. -/
theorem fresh (hP : BookInvariant P) (he : e.orderBooks = ∅) : e.Books P := by
  intro symbol
  rw [MatchingEngine.book, he, AList.lookup_empty]
  exact hP.empty e.mem symbol

/-- What every operation on a book keeps holds of every book in every state reached. -/
theorem run (hP : BookInvariant P) {s t : System} {events : List System.Event}
    (h : Run System.Step s events t) (hs : s.engine.orderBooks = ∅) : t.engine.Books P :=
  hP.sections.run h (hP.fresh hs)

end BookInvariant

/-- Sane books stay so. -/
theorem bookInvariant_sane : BookInvariant Sane where
  empty := .empty
  of_extends h hext := h.of_extends hext
  submit o h hr := returns_sane (h.of_extends (.alloc _ o)) (h.fresh o) hr
  cancelOrder orderId h := h.cancelOrder orderId
  modifyOrder h hm := h.modifyOrder hm

/-- Sane and uncrossed books stay so. -/
theorem bookInvariant_uncrossed :
    BookInvariant fun mem b => Sane mem b ∧ b.Uncrossed where
  empty mem symbol := ⟨.empty mem symbol, .empty symbol⟩
  of_extends h hext := ⟨bookInvariant_sane.of_extends h.1 hext, h.2⟩
  submit o h hr := by
    have hs := h.1.of_extends (.alloc _ o)
    exact ⟨bookInvariant_sane.submit o h.1 hr, h.2.returns hs (h.1.fresh _) hr⟩
  cancelOrder orderId h :=
    ⟨bookInvariant_sane.cancelOrder orderId h.1, h.2.of_shrinks (OrderBook.cancelOrder_shrinks ..)⟩
  modifyOrder h hm :=
    ⟨bookInvariant_sane.modifyOrder h.1 hm,
      h.2.of_shrinks (OrderBook.modifyOrder_shrinks _ _ _ _ hm)⟩

/-- **No crossed book.** Whatever calls are made on an engine that starts without books, and
however their critical sections interleave: between two of them every book with both sides
has its best bid below its best ask. -/
theorem uncrossed_of_run {s t : System} {events : List System.Event}
    (h : Run System.Step s events t) (hs : s.engine.orderBooks = ∅) {symbol : String}
    {b : OrderBook} (hb : t.engine.orderBooks.lookup symbol = some b)
    (hbids : b.levels .buy ≠ []) (hasks : b.levels .sell ≠ []) :
    b.getBestPrice .buy < b.getBestPrice .sell := by
  have hbook : t.engine.book symbol = b := by rw [MatchingEngine.book, hb, Option.getD_some]
  have huncrossed := (bookInvariant_uncrossed.run h hs symbol).2
  rw [hbook] at huncrossed
  exact huncrossed.getBestPrice_lt hbids hasks

/-- A stop-limit order is activated by the trade of two other calls and rests as a bid below
the remaining ask, all steps interleaved. -/
theorem uncrossed_of_run_activation : ∃ (t : System) (b : OrderBook),
    (∃ events, Run System.Step ⟨{ mem := .empty, hashOrder := .plain }, []⟩ events t) ∧
      t.engine.orderBooks.lookup "S" = some b ∧ b.levels .buy ≠ [] ∧
      b.getBestPrice .buy < b.getBestPrice .sell := by
  let events : List System.Event := [
    .begin (.submit true ⟨"stop", "S", .buy, .stopLimit, 100, 2⟩),
    .begin (.submit true ⟨"ask", "S", .sell, .limit, 101, 5⟩),
    .begin (.submit true ⟨"bid", "S", .buy, .market, 0, 3⟩),
    .proceed 1, .proceed 2, .proceed 1, .proceed 2, .proceed 2]
  let final := Run.exec (fun (s : System) event => (s.advance 3 event).map (event, ·))
    ⟨{ mem := .empty, hashOrder := .plain }, []⟩ events
  let seen (s : System) := (s.engine.orderBooks.lookup "S").map fun b : OrderBook =>
    (b.levels .buy != [], b.levels .sell != [])
  have hsome : (final.bind fun p => seen p.2) = some (true, true) := by decide +kernel
  obtain ⟨⟨events', t⟩, hfinal, hseen⟩ := Option.bind_eq_some_iff.mp hsome
  obtain ⟨b, hb, hsides⟩ := Option.map_eq_some_iff.mp hseen
  obtain ⟨hbids, hasks⟩ := Prod.mk.inj hsides
  have hrun := System.run_of_exec hfinal
  have hbids : b.levels .buy ≠ [] := bne_iff_ne.mp hbids
  exact ⟨t, b, ⟨events', hrun⟩, hb, hbids,
    uncrossed_of_run hrun rfl hb hbids (bne_iff_ne.mp hasks)⟩

end GoQuant
