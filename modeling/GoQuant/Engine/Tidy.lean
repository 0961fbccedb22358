import GoQuant.Book.Walk
import GoQuant.Engine.Matches
import GoQuant.Engine.Twins

/-!
# Books that share no order

All books keep their orders in one memory. As long as no book knows an object that rests in
another one, what happens to one book leaves the ladders of the others alone, and the operations
on a single well-formed book are operations on the ladders of its symbol.

## Main definitions

* `Affects` — something happens to the book of one symbol.
* `Tidy` — well-formed books, none of which knows an order that rests in another one.
* `Finds` — what a request about an id does.

## Main results

* `Affects.matched`, `Affects.cancelOrder`, `Affects.modifyOrder` — the operations on a book.
* `Tidy.matched`, `Tidy.cancelOrderUnlocked`, `Tidy.modifyOrderUnlocked` — what they do to the
  ladders.
-/

namespace GoQuant

open MatchingAlgorithm

namespace MatchingEngine

variable {e e' u : MatchingEngine} {symbol s orderId : String} {newQuantity : ℚ} {o : Order}
  {result : Matching} {mem : Memory} {b : OrderBook}

/-- Something happens to the book of one symbol, and to the objects that this book knows. -/
structure Affects (symbol : String) (e e' : MatchingEngine) : Prop where
  sane : e'.Books Sane
  book : ∀ s, s ≠ symbol → e'.book s = e.book s
  untouched : ∀ r < e.mem.next, (e.book symbol).Unmapped r →
    (e'.book symbol).Unmapped r ∧ e'.mem.order r = e.mem.order r
  rests : ∀ r, (e'.book symbol).Rests r → (e.book symbol).Rests r ∨ e.mem.next ≤ r

namespace Affects

/-- An object built for the occasion is matched. -/
theorem matched (h : e.Books Sane) (hs : (e.alloc o).1.SameBooks u)
    (hr : Returns e.feeModel (e.mem.alloc o).1 (e.book symbol) e.mem.next result) :
    Affects symbol e (u.matched symbol result) where
  sane := h.matched bookInvariant_sane hs hr
  book s hne := (book_matched_of_ne u result hne).trans (hs.book s)
  untouched r hlt hun := by
    obtain ⟨horder, hmap⟩ := returns_untouched hr hun hlt.ne
    rw [book_matched_self]
    exact ⟨hmap, horder.trans (Memory.alloc_order_of_lt e.mem r o hlt)⟩
  rests r hrests := by
    rw [book_matched_self] at hrests
    exact (returns_rests hr hrests).imp_right Eq.ge

/-- A book forgets orders, and the quantities of some that it knows change. -/
theorem shrink (h : e'.Books Sane) (hshrinks : (e.book symbol).Shrinks b)
    (horder : ∀ r, (e.book symbol).Unmapped r → mem.order r = e.mem.order r)
    (hsame : { e.setBook symbol b with mem := mem }.SameBooks e') : Affects symbol e e' where
  sane := h
  book s hne := (hsame.book s).trans (book_replace_of_ne e b mem hne)
  untouched r _ hun := by
    rw [hsame.book, book_replace_self, hsame.mem]
    exact ⟨hun.of_shrinks hshrinks, horder r hun⟩
  rests r hrests := by
    rw [hsame.book, book_replace_self] at hrests
    exact Or.inl (hshrinks.rests hrests)

end Affects

/-- Well-formed books. What rests in one of them is not known to another one. -/
structure Tidy (e : MatchingEngine) : Prop where
  wellFormed : e.Books WellFormed
  separate : ∀ symbol r, (e.book symbol).Rests r → ∀ s, s ≠ symbol → (e.book s).Unmapped r

/-- A request about an id finds it in no book, or works on the ladders of one symbol. -/
def Finds (e : MatchingEngine) (orderId : String) (req : Request)
    (p : Option String × MatchingEngine) : Prop :=
  (p.1 = none ∧ (∀ symbol, (e.book symbol).hasOrder orderId = false) ∧ e.SameBooks p.2) ∨
    ∃ symbol, p.1 = some symbol ∧ (e.book symbol).hasOrder orderId = true ∧
      p.2.feeModel = e.feeModel ∧ p.2.mem.tradeCounter = e.mem.tradeCounter ∧
      (fun s => (p.2.book s).ladder p.2.mem) =
        Function.update (fun s => (e.book s).ladder e.mem) symbol
          (Greedy.call ((e.book symbol).ladder e.mem) req)

namespace Tidy

theorem sane (h : e.Tidy) : e.Books Sane := fun symbol => (h.wellFormed symbol).toSane

theorem of_same (h : e.Tidy) (hs : e.SameBooks e') : e'.Tidy where
  wellFormed := h.wellFormed.of_same hs
  separate symbol r hr s hne := by
    rw [hs.book] at hr ⊢
    exact h.separate symbol r hr s hne

theorem alloc (h : e.Tidy) (o : Order) : (e.alloc o).1.Tidy where
  wellFormed symbol := (h.wellFormed symbol).of_alloc o
  separate := h.separate

/-- An order of another book keeps its fields. -/
theorem order_eq (h : e.Tidy) (ha : Affects symbol e e') (hs : s ≠ symbol) {r : Ref}
    (hr : (e.book s).Rests r) : e'.mem.order r = e.mem.order r :=
  (ha.untouched r ((h.sane s).restsAllocated r hr) (h.separate s r hr symbol hs.symm)).2

theorem ladder_of_ne (h : e.Tidy) (ha : Affects symbol e e') (hs : s ≠ symbol) :
    (e'.book s).ladder e'.mem = (e.book s).ladder e.mem := by
  rw [ha.book s hs]
  funext side
  exact Ladder.map_congr fun r hr => h.order_eq ha hs (OrderBook.rests_iff.mpr ⟨side, hr⟩)

/-- The book that is affected is well formed again, and so are the others. -/
theorem update (h : e.Tidy) (ha : Affects symbol e e')
    (hself : WellFormed e'.mem (e'.book symbol)) : e'.Tidy where
  wellFormed s := by
    by_cases hs : s = symbol
    · exact hs ▸ hself
    · have hsane := ha.sane s
      rw [ha.book s hs] at hsane ⊢
      exact (h.wellFormed s).congr hsane fun r hr => h.order_eq ha hs hr
  separate s r hr s' hne := by
    by_cases hs : s = symbol
    · subst hs
      rw [ha.book s' hne]
      rcases ha.rests r hr with hold | hnew
      · exact h.separate s r hold s' hne
      · intro id hid
        exact absurd ((h.sane s').mapAllocated id r hid) hnew.not_gt
    · rw [ha.book s hs] at hr
      by_cases hs' : s' = symbol
      · subst hs'
        exact (ha.untouched r ((h.sane s).restsAllocated r hr) (h.separate s r hr s' hne)).1
      · rw [ha.book s' hs']
        exact h.separate s r hr s' hne

/-- The ladders of all symbols, where the ladder of one of them has changed. -/
theorem ladders (h : e.Tidy) (ha : Affects symbol e e')
    {ladder : Side → List (Tier ℚ Order)}
    (hself : ∀ side, (e'.book symbol).ladder e'.mem side = ladder side) :
    (fun s => (e'.book s).ladder e'.mem) =
      Function.update (fun s => (e.book s).ladder e.mem) symbol ladder := by
  funext s
  by_cases hs : s = symbol
  · subst hs
    rw [Function.update_self]
    exact funext hself
  · rw [Function.update_of_ne hs]
    exact h.ladder_of_ne ha hs

/-! ## The operations on a book -/

/-- An order walks down the ladder of its symbol. -/
theorem matched (h : e.Tidy) (htype : o.type.Matchable) (hq : 0 < o.quantity)
    (hid : (e.book symbol).hasOrder o.id = false) (hs : (e.alloc o).1.SameBooks u)
    (hr : Returns e.feeModel (e.mem.alloc o).1 (e.book symbol) e.mem.next result) :
    (u.matched symbol result).Tidy ∧
      result.trades = tradesOf e.feeModel o e.mem.tradeCounter
        (Greedy.takes o ((e.book symbol).ladder e.mem)) ∧
      (u.matched symbol result).mem.tradeCounter = e.mem.tradeCounter + result.trades.length ∧
      (fun s => ((u.matched symbol result).book s).ladder (u.matched symbol result).mem) =
        Function.update (fun s => (e.book s).ladder e.mem) symbol
          (Greedy.after o ((e.book symbol).ladder e.mem)) := by
  have ha := Affects.matched h.sane hs hr
  obtain ⟨result', hrun, htrades, hladder, -, hcounter, hself⟩ :=
    (h.wellFormed symbol).processOrder_alloc e.feeModel htype hq hid
  obtain rfl := hr.unique ⟨2, hrun 2 le_rfl⟩
  refine ⟨h.update ha ?_, htrades, hcounter, h.ladders ha fun side => ?_⟩
  · rw [book_matched_self]
    exact hself
  · rw [book_matched_self]
    exact hladder side

/-- A cancellation takes an order off the ladders. -/
theorem cancelOrderUnlocked (h : e.Tidy) (orderId : String) :
    (e.cancelOrderUnlocked orderId).2.Tidy ∧
      e.Finds orderId (.cancel orderId) (e.cancelOrderUnlocked orderId) := by
  have hsane := bookInvariant_sane.sections.cancelOrderUnlocked orderId h.sane
  obtain hnone | ⟨symbol, b, hcancel, u, hsome, hsame, -⟩ := cancelOrderUnlocked_cases e orderId
  · have hunknown := cancelOrderUnlocked_none (congrArg Prod.fst hnone)
    rw [hnone]
    exact ⟨h, Or.inl ⟨rfl, hunknown, .refl e⟩⟩
  · obtain rfl : ((e.book symbol).cancelOrder e.mem orderId).2 = b := by rw [hcancel]
    have hid : (e.book symbol).hasOrder orderId = true := by
      rw [← OrderBook.cancelOrder_fst _ e.mem, hcancel]
    rw [hsome] at hsane ⊢
    have hbook := (hsame.book symbol).trans (book_setBook_self e _)
    have ha : Affects symbol e u :=
      .shrink hsane (OrderBook.cancelOrder_shrinks _ _ _) (fun _ _ => rfl) hsame
    refine ⟨h.update ha ?_, Or.inr ⟨symbol, rfl, hid, hsame.feeModel,
      congrArg Memory.tradeCounter hsame.mem, h.ladders ha fun side => ?_⟩⟩
    · rw [hbook, hsame.mem]
      exact (h.wellFormed symbol).cancelOrder orderId
    · rw [hbook, hsame.mem]
      exact (h.wellFormed symbol).ladder_cancelOrder orderId side

/-- A change of quantity lets an order keep its place. -/
theorem modifyOrderUnlocked (h : e.Tidy) (orderId : String) (hq : 0 < newQuantity) :
    (e.modifyOrderUnlocked orderId newQuantity).2.Tidy ∧
      e.Finds orderId (.modify orderId newQuantity)
        (e.modifyOrderUnlocked orderId newQuantity) := by
  have hsane := bookInvariant_sane.sections.modifyOrderUnlocked orderId newQuantity h.sane
  obtain hnone | ⟨symbol, mem, b, hmodify, u, hsome, hsame, -⟩ :=
    modifyOrderUnlocked_cases e orderId newQuantity
  · have hunknown := modifyOrderUnlocked_none (congrArg Prod.fst hnone)
    rw [hnone]
    exact ⟨h, Or.inl ⟨rfl, hunknown, .refl e⟩⟩
  · rw [hsome] at hsane ⊢
    have hbook := (hsame.book symbol).trans (book_replace_self e b mem)
    have ha : Affects symbol e u :=
      .shrink hsane (OrderBook.modifyOrder_shrinks _ _ _ _ hmodify)
        (fun r hun => OrderBook.modifyOrder_order_of_unmapped hun hmodify) hsame
    have hcounter : u.mem.tradeCounter = e.mem.tradeCounter :=
      (congrArg Memory.tradeCounter hsame.mem).trans (OrderBook.modifyOrder_tradeCounter hmodify)
    refine ⟨h.update ha ?_, Or.inr ⟨symbol, rfl, OrderBook.hasOrder_of_modifyOrder hmodify,
      hsame.feeModel, hcounter, h.ladders ha fun side => ?_⟩⟩
    · rw [hbook, hsame.mem]
      exact (h.wellFormed symbol).modifyOrder hq hmodify
    · rw [hbook, hsame.mem]
      exact (h.wellFormed symbol).ladder_modifyOrder hq hmodify side

/-- No order of an unknown id stands on the ladders. -/
theorem call_unknown (h : e.Tidy) (hid : (e.book s).hasOrder orderId = false) :
    Greedy.call ((e.book s).ladder e.mem) (.cancel orderId) = (e.book s).ladder e.mem ∧
      ∀ q, Greedy.call ((e.book s).ladder e.mem) (.modify orderId q) =
        (e.book s).ladder e.mem := by
  have hnone : (e.book s).orderMap.lookup orderId = none := by
    simpa [OrderBook.hasOrder] using hid
  refine ⟨funext fun side => ?_, fun q => funext fun side => ?_⟩
  · have hladder := (h.wellFormed s).ladder_cancelOrder orderId side
    rw [OrderBook.cancelOrder, hnone] at hladder
    exact hladder.symm
  · exact (h.wellFormed s).resize_of_none hnone side

end Tidy

end MatchingEngine

end GoQuant
