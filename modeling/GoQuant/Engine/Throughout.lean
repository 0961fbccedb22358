import GoQuant.Engine.Waiting
import GoQuant.Book.Silence

/-!
# What holds of every order an engine holds

An order rests in the book of a symbol, or waits for a trigger there. Between the moment it is
submitted and the moment it is gone, its quantity changes, and its type and price when it is
activated. A property of orders that does not depend on these holds of all orders an engine
holds, if it holds of those that are submitted.

## Main definitions

* `Lasting` — such a property.
* `Throughout` — every order that rests or waits has it.

## Main results

* `Lasting.sections` — every critical section keeps that so.
-/

namespace GoQuant

open MatchingAlgorithm

namespace MatchingEngine

/-- A property of the orders of a symbol that neither a fill nor an activation takes away. -/
structure Lasting (Q : String → Order → Prop) : Prop where
  modifyQuantity : ∀ {symbol o} q, Q symbol o → Q symbol { o with quantity := q }
  activeOrder : ∀ {symbol o}, Q symbol o → Q symbol (activeOrder o)

/-- An object of a symbol is built, and has a property. -/
def Satisfies (e : MatchingEngine) (Q : String → Order → Prop) (symbol : String) (r : Ref) : Prop :=
  r < e.mem.next ∧ Q symbol (e.mem.order r)

/-- Every order that rests or waits has a property. -/
structure Throughout (Q : String → Order → Prop) (e : MatchingEngine) : Prop where
  resting : ∀ symbol r, (e.book symbol).Rests r → e.Satisfies Q symbol r
  pending : ∀ symbol, ∀ ord ∈ e.pending symbol, e.Satisfies Q symbol ord

variable {Q Q' : String → Order → Prop} {fuel : ℕ} {e e' : MatchingEngine} {symbol : String}
  {price : ℚ} {ord : Ref} {vec remaining : List Ref} {o : Order} {result : Matching}

theorem Satisfies.of_extends {r : Ref} (h : e.Satisfies Q symbol r) (hQ : Lasting Q)
    (hmem : e.mem.Extends e'.mem) : e'.Satisfies Q symbol r := by
  obtain ⟨q, hq⟩ := hmem.2 r h.1
  refine ⟨h.1.trans_le hmem.1, ?_⟩
  rw [hq]
  exact hQ.modifyQuantity q h.2

namespace Throughout

theorem waits (h : e.Throughout Q) : e.Waits := fun symbol ord hord => (h.pending symbol ord hord).1

theorem mono (h : e.Throughout Q) (hQ : ∀ symbol o, Q symbol o → Q' symbol o) :
    e.Throughout Q' where
  resting symbol r hr := (h.resting symbol r hr).imp_right (hQ symbol _)
  pending symbol ord hord := (h.pending symbol ord hord).imp_right (hQ symbol _)

/-- An engine that holds no orders. -/
theorem of_empty (hbooks : e.orderBooks = ∅) (hpending : e.triggerOrders = ∅) :
    e.Throughout Q where
  resting symbol r hr := by
    rw [book, hbooks, AList.lookup_empty] at hr
    exact absurd hr (OrderBook.not_rests_empty symbol r)
  pending symbol ord hord := by
    rw [MatchingEngine.pending, hpending, AList.lookup_empty] at hord
    exact absurd hord List.not_mem_nil

/-- Whatever rests or waits afterwards did so before, or is put in its place. -/
theorem update (h : e.Throughout Q) (hQ : Lasting Q) (hmem : e.mem.Extends e'.mem)
    (hresting : ∀ symbol r, (e'.book symbol).Rests r →
      (e.book symbol).Rests r ∨ e'.Satisfies Q symbol r)
    (hpending : ∀ symbol, ∀ ord ∈ e'.pending symbol,
      ord ∈ e.pending symbol ∨ e'.Satisfies Q symbol ord) : e'.Throughout Q where
  resting symbol r hr := (hresting symbol r hr).elim
    (fun hold => (h.resting symbol r hold).of_extends hQ hmem) id
  pending symbol ord hord := (hpending symbol ord hord).elim
    (fun hold => (h.pending symbol ord hold).of_extends hQ hmem) id

theorem of_same (h : e.Throughout Q) (hs : e.SameBooks e') : e'.Throughout Q where
  resting symbol r hr := by
    rw [hs.book] at hr
    rw [Satisfies, hs.mem]
    exact h.resting symbol r hr
  pending symbol ord hord := by
    rw [hs.pending] at hord
    rw [Satisfies, hs.mem]
    exact h.pending symbol ord hord

/-- Pending orders are forgotten. -/
theorem setPending (h : e.Throughout Q) (hvec : ∀ ord ∈ vec, ord ∈ e.pending symbol) :
    (e.setPending symbol vec).Throughout Q where
  resting symbol' r hr := h.resting symbol' r hr
  pending symbol' ord hord := by
    refine h.pending symbol' ord ?_
    by_cases hs : symbol' = symbol
    · subst hs
      rw [pending_setPending_self] at hord
      exact hvec ord hord
    · rwa [pending_setPending_of_ne _ _ hs] at hord

theorem alloc (h : e.Throughout Q) (hQ : Lasting Q) (o : Order) : (e.alloc o).1.Throughout Q :=
  h.update hQ (.alloc e.mem o) (fun _ _ hr => Or.inl hr) fun _ _ hord => Or.inl hord

/-- An order object built for the occasion is matched. -/
theorem matched (h : e.Throughout Q) (hQ : Lasting Q) (hs : (e.alloc o).1.SameBooks e')
    (hr : Returns e.feeModel (e.mem.alloc o).1 (e.book symbol) e.mem.next result)
    (ho : Q symbol o) : (e'.matched symbol result).Throughout Q := by
  have hext := returns_extends hr
  have hnew : (e'.matched symbol result).Satisfies Q symbol e.mem.next := by
    obtain ⟨q, hq⟩ := hext.2 e.mem.next (Nat.lt_succ_self _)
    refine ⟨(Nat.lt_succ_self _).trans_le hext.1, ?_⟩
    have horder : (e'.matched symbol result).mem.order e.mem.next = { o with quantity := q } := by
      rw [← Memory.alloc_order_self e.mem o]
      exact hq
    rw [horder]
    exact hQ.modifyQuantity q ho
  refine h.update hQ ((Memory.Extends.alloc e.mem o).trans hext) (fun symbol' r hrests => ?_)
    fun symbol' ord hord => ?_
  · by_cases hsymbol : symbol' = symbol
    · subst hsymbol
      rw [book_matched_self] at hrests
      rcases returns_rests hr hrests with hold | rfl
      · exact Or.inl hold
      · exact Or.inr hnew
    · rw [book_matched_of_ne _ _ hsymbol, hs.book] at hrests
      exact Or.inl hrests
  · exact Or.inl (hs.pending symbol' ▸ hord)

theorem acceptOrder (h : e.Throughout Q) (hQ : Lasting Q) (ho : Q o.symbol o)
    {r : Except String (Option (List Trade))}
    (ha : (e.alloc o).1.acceptOrder fuel (e.alloc o).2 = some (r, e')) : e'.Throughout Q := by
  have hself := e.alloc_order_self o
  have hreceive := SameBooks.receive (e.alloc o).1 o
  obtain ⟨-, -, rfl⟩ | ⟨-, result, hr, -, _, _, rfl⟩ | ⟨-, _, -, rfl⟩ := acceptOrder_cases ha
  all_goals rw [hself] at *
  · have hreceived := (h.alloc hQ o).of_same hreceive
    refine hreceived.update hQ (.refl _) (fun _ _ hr => Or.inl hr) fun symbol ord hord => ?_
    by_cases hs : symbol = o.symbol
    · subst hs
      rw [addTrigger, pending_setPending_self, List.mem_append, List.mem_singleton] at hord
      refine hord.imp_right fun hnew => ?_
      -- the new pending order is the object just built
      have hmem : (((e.alloc o).1.receive o).addTrigger o.symbol (e.alloc o).2).mem =
          (e.alloc o).1.mem := hreceive.mem
      have horder := e.alloc_order_self o
      rw [Satisfies, hmem, hnew, horder]
      exact ⟨Nat.lt_succ_self _, ho⟩
    · rw [addTrigger, pending_setPending_of_ne _ _ hs] at hord
      exact Or.inl hord
  · exact (h.matched hQ hreceive hr ho).of_same ⟨rfl, fun _ => rfl, fun _ => rfl, rfl, rfl⟩
  · exact (h.alloc hQ o).of_same hreceive

/-- One book is replaced, and the memory has changed in quantities only. -/
theorem setBook {mem : Memory} {b : OrderBook} (h : e.Throughout Q) (hQ : Lasting Q)
    (hmem : e.mem.Extends mem) (hb : ∀ r, b.Rests r → r < mem.next ∧ Q symbol (mem.order r)) :
    ({ e.setBook symbol b with mem := mem } : MatchingEngine).Throughout Q := by
  refine h.update hQ hmem (fun symbol' r hr => ?_) fun _ _ hord => Or.inl hord
  by_cases hs : symbol' = symbol
  · subst hs
    rw [book_replace_self] at hr
    exact Or.inr (hb r hr)
  · rw [book_replace_of_ne _ _ _ hs] at hr
    exact Or.inl hr

/-- A book that only forgets orders. -/
theorem shrink {mem : Memory} {b : OrderBook} (h : e.Throughout Q) (hQ : Lasting Q)
    (hmem : e.mem.Extends mem) (hshrinks : (e.book symbol).Shrinks b)
    (hsame : { e.setBook symbol b with mem := mem }.SameBooks e') : e'.Throughout Q := by
  refine (h.setBook hQ hmem fun r hr => ?_).of_same hsame
  have hold := h.resting symbol r (hshrinks.rests hr)
  exact hold.of_extends hQ (show e.mem.Extends { e with mem := mem }.mem from hmem)

theorem cancelOrderUnlocked (h : e.Throughout Q) (hQ : Lasting Q) (orderId : String) :
    (e.cancelOrderUnlocked orderId).2.Throughout Q := by
  obtain hnone | ⟨symbol, b, hcancel, u, hsome, hsame, -⟩ := cancelOrderUnlocked_cases e orderId
  · rwa [hnone]
  · rw [hsome]
    have hshrinks := OrderBook.cancelOrder_shrinks e.mem (e.book symbol) orderId
    rw [hcancel] at hshrinks
    exact h.shrink hQ (.refl e.mem) hshrinks hsame

theorem modifyOrderUnlocked (h : e.Throughout Q) (hQ : Lasting Q) (orderId : String)
    (newQuantity : ℚ) : (e.modifyOrderUnlocked orderId newQuantity).2.Throughout Q := by
  obtain hnone | ⟨symbol, mem, b, hm, u, hsome, hsame, -⟩ :=
    modifyOrderUnlocked_cases e orderId newQuantity
  · rwa [hnone]
  · rw [hsome]
    exact h.shrink hQ (OrderBook.modifyOrder_extends e.mem _ orderId newQuantity hm)
      (OrderBook.modifyOrder_shrinks _ _ _ _ hm) hsame

theorem activate (h : e.Throughout Q) (hQ : Lasting Q) (ha : e.activate fuel symbol ord = some e')
    (hord : e.Satisfies Q symbol ord) : e'.Throughout Q := by
  obtain ⟨result, hr, rfl⟩ := activate_eq_some ha
  have hsame := SameBooks.getOrCreateOrderBook (e.alloc (activeOrder (e.mem.order ord))).1 symbol
  exact (h.matched hQ hsame hr (hQ.activeOrder hord.2)).of_same (.writeWAL _ _)

/-- By induction on the orders still to look at. -/
theorem activateAll (h : e.Throughout Q) (hQ : Lasting Q)
    (ha : activateAll fuel symbol price vec e = some (remaining, e'))
    (hvec : ∀ ord ∈ vec, e.Satisfies Q symbol ord) : e'.Throughout Q := by
  induction vec generalizing e remaining with
  | nil =>
    obtain ⟨-, rfl⟩ := Prod.mk.inj (Option.some.inj ha)
    exact h
  | cons ord vec ih =>
    have hord := hvec ord List.mem_cons_self
    have hrest : ∀ ord ∈ vec, e.Satisfies Q symbol ord :=
      fun ord hm => hvec ord (List.mem_cons_of_mem _ hm)
    simp only [MatchingEngine.activateAll] at ha
    split_ifs at ha
    · obtain ⟨u, hu, hall⟩ := Option.bind_eq_some_iff.mp ha
      exact ih (h.activate hQ hu hord) hall fun ord hm =>
        (hrest ord hm).of_extends hQ (activate_spec hu hord.1).1
    · obtain ⟨⟨remaining', u⟩, hu, heq⟩ := Option.map_eq_some_iff.mp ha
      obtain ⟨-, rfl⟩ := Prod.mk.inj heq
      exact ih h hu hrest

theorem checkTriggers (h : e.Throughout Q) (hQ : Lasting Q)
    (hc : e.checkTriggers fuel symbol price = some e') : e'.Throughout Q := by
  obtain ⟨remaining, u, hu, hbook, hmem, hself, hothers, -⟩ := exists_activateAll hc
  have hu' := h.activateAll hQ hu (h.pending symbol)
  have hall := activateAll_spec hu (h.waits symbol)
  refine hu'.update hQ (hmem ▸ .refl _) (fun s r hr => Or.inl (hbook ▸ hr)) fun s ord hord =>
    Or.inl ?_
  rw [hall.pending]
  by_cases hs : s = symbol
  · subst hs
    rw [hself, hall.remaining] at hord
    exact List.mem_of_mem_filter hord
  · rw [hothers s hs, hall.pending] at hord
    exact hord

end Throughout

/-- The orders an engine holds keep a property, whatever happens, if the submitted ones have it. -/
theorem Lasting.sections (hQ : Lasting Q) :
    SectionInvariantOn (fun o => Q o.symbol o) (Throughout Q) where
  of_same h hs := h.of_same hs
  alloc o h := h.alloc hQ o
  acceptOrder ho h ha := h.acceptOrder hQ ho ha
  cancelOrderUnlocked orderId h := h.cancelOrderUnlocked hQ orderId
  modifyOrderUnlocked orderId newQuantity h := h.modifyOrderUnlocked hQ orderId newQuantity
  checkTriggers h hc := h.checkTriggers hQ hc

end MatchingEngine

end GoQuant
