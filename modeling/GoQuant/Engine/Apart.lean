import GoQuant.Engine.Waiting

/-!
# Order objects outside the books

An order object that no book knows keeps out of them, and keeps its quantity, whatever else
the engine does: books take in the objects built for matching only. Pending trigger orders
are such objects.

## Main definitions

* `Apart` — an object no book knows.
* `Spares` — what a step does to such objects: nothing.

## Main results

* `Spares.matched`, `Spares.cancelOrderUnlocked`, `Spares.modifyOrderUnlocked`,
  `Spares.activate` — one lemma for each operation on a book.
* `pendingApart_sections` — pending trigger orders are such objects.
-/

namespace GoQuant

open MatchingAlgorithm

namespace MatchingEngine

variable {fuel : ℕ} {e e' e'' : MatchingEngine} {symbol orderId : String} {newQuantity price : ℚ}
  {r ord : Ref} {vec remaining : List Ref} {o : Order} {result : Matching}

/-- An order object that was built and that no book knows. -/
def Apart (e : MatchingEngine) (r : Ref) : Prop :=
  r < e.mem.next ∧ ∀ symbol, (e.book symbol).Unmapped r ∧ ¬ (e.book symbol).Rests r

/-- The objects no book knows are left alone. -/
def Spares (e e' : MatchingEngine) : Prop :=
  ∀ r, e.Apart r → e'.Apart r ∧ e'.mem.order r = e.mem.order r

/-- An object just built. -/
theorem Books.apart_alloc (h : e.Books Sane) (o : Order) : (e.alloc o).1.Apart e.mem.next :=
  ⟨Nat.lt_succ_self _, fun symbol =>
    ⟨((h symbol).fresh o).unmapped, ((h symbol).fresh o).notResting⟩⟩

namespace Spares

theorem refl (e : MatchingEngine) : e.Spares e := fun _ hr => ⟨hr, rfl⟩

theorem trans (h : e.Spares e') (h' : e'.Spares e'') : e.Spares e'' := by
  intro r hr
  obtain ⟨hr', horder⟩ := h r hr
  obtain ⟨hr'', horder'⟩ := h' r hr'
  exact ⟨hr'', horder'.trans horder⟩

theorem of_same (hs : e.SameBooks e') : e.Spares e' := by
  intro r hr
  refine ⟨⟨?_, fun symbol => ?_⟩, by rw [hs.mem]⟩
  · rw [hs.mem]
    exact hr.1
  · rw [hs.book]
    exact hr.2 symbol

theorem alloc (e : MatchingEngine) (o : Order) : e.Spares (e.alloc o).1 := fun r hr =>
  ⟨⟨hr.1.trans (Nat.lt_succ_self _), hr.2⟩, Memory.alloc_order_of_lt e.mem r o hr.1⟩

/-- One book changes: it takes in no object from outside. -/
theorem update {mem : Memory} {b : OrderBook} (hnext : e.mem.next ≤ mem.next)
    (h : ∀ r, r < e.mem.next → (e.book symbol).Unmapped r → ¬ (e.book symbol).Rests r →
      b.Unmapped r ∧ ¬ b.Rests r ∧ mem.order r = e.mem.order r)
    (hs : { e.setBook symbol b with mem := mem }.SameBooks e') : e.Spares e' := by
  refine Spares.trans ?_ (.of_same hs)
  intro r hr
  obtain ⟨hmap, hrests, horder⟩ := h r hr.1 (hr.2 symbol).1 (hr.2 symbol).2
  refine ⟨⟨hr.1.trans_le hnext, fun symbol' => ?_⟩, horder⟩
  by_cases hsymbol : symbol' = symbol
  · subst hsymbol
    rw [book_replace_self]
    exact ⟨hmap, hrests⟩
  · rw [book_replace_of_ne _ _ _ hsymbol]
    exact hr.2 symbol'

/-- An object built for the occasion is matched. -/
theorem matched (hs : (e.alloc o).1.SameBooks e')
    (hr : Returns e.feeModel (e.mem.alloc o).1 (e.book symbol) e.mem.next result) :
    e.Spares (e'.matched symbol result) := by
  have hnext : (e.mem.alloc o).1.next ≤ result.mem.next := (returns_extends hr).1
  refine update ((Nat.le_succ _).trans hnext) (fun r hlt hmap hrests => ?_) (.matched hs)
  obtain ⟨horder, hmap'⟩ := returns_untouched hr hmap hlt.ne
  refine ⟨hmap', fun hr' => ?_, horder.trans (Memory.alloc_order_of_lt e.mem r o hlt)⟩
  exact (returns_rests hr hr').elim hrests hlt.ne

theorem cancelOrderUnlocked (e : MatchingEngine) (orderId : String) :
    e.Spares (e.cancelOrderUnlocked orderId).2 := by
  obtain hnone | ⟨symbol, b, hcancel, e', hsome, hsame, -⟩ := cancelOrderUnlocked_cases e orderId
  · rw [hnone]
    exact .refl e
  · have hshrinks := OrderBook.cancelOrder_shrinks e.mem (e.book symbol) orderId
    rw [hcancel] at hshrinks
    rw [hsome]
    refine @update _ _ _ e.mem _ le_rfl (fun r _ hmap hrests => ?_) hsame
    exact ⟨hmap.of_shrinks hshrinks, fun hr => hrests (hshrinks.rests hr), rfl⟩

theorem modifyOrderUnlocked (e : MatchingEngine) (orderId : String) (newQuantity : ℚ) :
    e.Spares (e.modifyOrderUnlocked orderId newQuantity).2 := by
  obtain hnone | ⟨symbol, mem, b, hmodify, e', hsome, hsame, -⟩ :=
    modifyOrderUnlocked_cases e orderId newQuantity
  · rw [hnone]
    exact .refl e
  · have hshrinks := OrderBook.modifyOrder_shrinks e.mem (e.book symbol) orderId newQuantity hmodify
    have hext := OrderBook.modifyOrder_extends e.mem (e.book symbol) orderId newQuantity hmodify
    rw [hsome]
    refine update hext.1 (fun r _ hmap hrests => ?_) hsame
    exact ⟨hmap.of_shrinks hshrinks, fun hr => hrests (hshrinks.rests hr),
      OrderBook.modifyOrder_order_of_unmapped hmap hmodify⟩

theorem activate (h : e.activate fuel symbol ord = some e') : e.Spares e' := by
  obtain ⟨result, hr, rfl⟩ := activate_eq_some h
  exact (matched (.getOrCreateOrderBook _ symbol) hr).trans (.of_same (.writeWAL _ _))

/-- By induction on the orders still to look at. -/
theorem activateAll (h : activateAll fuel symbol price vec e = some (remaining, e')) :
    e.Spares e' := by
  induction vec generalizing e remaining with
  | nil =>
    obtain ⟨-, rfl⟩ := Prod.mk.inj (Option.some.inj h)
    exact .refl e
  | cons ord vec ih =>
    simp only [MatchingEngine.activateAll] at h
    split_ifs at h
    · obtain ⟨u, hu, hall⟩ := Option.bind_eq_some_iff.mp h
      exact (activate hu).trans (ih hall)
    · obtain ⟨⟨remaining', u⟩, hu, heq⟩ := Option.map_eq_some_iff.mp h
      obtain ⟨-, rfl⟩ := Prod.mk.inj heq
      exact ih hu

theorem checkTriggers (h : e.checkTriggers fuel symbol price = some e') : e.Spares e' := by
  obtain ⟨remaining, u, hu, hbook, hmem, -, -, -⟩ := exists_activateAll h
  intro r hr
  have hspared := activateAll hu r hr
  unfold Apart at hspared ⊢
  rwa [hbook, hmem] at hspared

end Spares

/-! ## Pending trigger orders -/

/-- No book knows a pending trigger order. -/
def PendingApart (e : MatchingEngine) : Prop := ∀ symbol, ∀ ord ∈ e.pending symbol, e.Apart ord

theorem PendingApart.waits (h : e.PendingApart) : e.Waits :=
  fun symbol ord hord => (h symbol ord hord).1

/-- The pending orders are among those that were pending. -/
theorem PendingApart.of_spares (h : e.PendingApart) (hs : e.Spares e')
    (hpending : ∀ symbol, ∀ ord ∈ e'.pending symbol, ord ∈ e.pending symbol) : e'.PendingApart :=
  fun symbol ord hord => (hs ord (h symbol ord (hpending symbol ord hord))).1

/-- They are the same orders, with the same fields. -/
theorem PendingApart.waiting (h : e.PendingApart) (hs : e.Spares e')
    (hpending : e'.pending symbol = e.pending symbol) : e'.waiting symbol = e.waiting symbol := by
  rw [MatchingEngine.waiting, hpending]
  exact List.map_congr_left fun ord hord => (hs ord (h symbol ord hord)).2

/-- A trigger order is queued. -/
theorem PendingApart.addTrigger (h : e.PendingApart) (hs : e.Books Sane) (o : Order)
    (hsame : (e.alloc o).1.SameBooks e') : (e'.addTrigger symbol e.mem.next).PendingApart ∧
      (e'.addTrigger symbol e.mem.next).waiting symbol = e.waiting symbol ++ [o] ∧
      ∀ s, s ≠ symbol → (e'.addTrigger symbol e.mem.next).waiting s = e.waiting s := by
  have hspares : e.Spares e' := (Spares.alloc e o).trans (.of_same hsame)
  have hnew := (Spares.of_same hsame _ (hs.apart_alloc o)).1
  have horder : e'.mem.order e.mem.next = o := by
    rw [hsame.mem]
    exact Memory.alloc_order_self e.mem o
  have hwaiting (s : String) : (e.pending s).map e'.mem.order = e.waiting s :=
    List.map_congr_left fun ord hord => (hspares ord (h s ord hord)).2
  refine ⟨fun s ord hord => ?_, ?_, fun s hne => ?_⟩
  · have happend : ord ∈ e.pending s ∨ ord = e.mem.next := by
      by_cases hsymbol : s = symbol
      · subst hsymbol
        rw [MatchingEngine.addTrigger, pending_setPending_self, hsame.pending, List.mem_append,
          List.mem_singleton] at hord
        exact hord
      · rw [MatchingEngine.addTrigger, pending_setPending_of_ne _ _ hsymbol, hsame.pending] at hord
        exact Or.inl hord
    rcases happend with hold | rfl
    · exact (hspares ord (h s ord hold)).1
    · exact hnew
  · rw [MatchingEngine.waiting, MatchingEngine.addTrigger, pending_setPending_self, hsame.pending]
    have hmem : (e'.setPending symbol ((e.alloc o).1.pending symbol ++ [e.mem.next])).mem =
        e'.mem := rfl
    rw [hmem, List.map_append, List.map_singleton, horder]
    exact congrArg (· ++ [o]) (hwaiting symbol)
  · have hpending : (e'.addTrigger symbol e.mem.next).pending s = e.pending s :=
      (pending_setPending_of_ne _ _ hne).trans (hsame.pending s)
    rw [MatchingEngine.waiting, hpending]
    exact hwaiting s

theorem cancelOrderUnlocked_pending (e : MatchingEngine) (orderId symbol : String) :
    (e.cancelOrderUnlocked orderId).2.pending symbol = e.pending symbol := by
  obtain hnone | ⟨_, b, -, u, hsome, hsame, -⟩ := cancelOrderUnlocked_cases e orderId
  · rw [hnone]
  · rw [hsome]
    exact hsame.pending symbol

theorem modifyOrderUnlocked_pending (e : MatchingEngine) (orderId : String) (newQuantity : ℚ)
    (symbol : String) :
    (e.modifyOrderUnlocked orderId newQuantity).2.pending symbol = e.pending symbol := by
  obtain hnone | ⟨_, mem, b, -, u, hsome, hsame, -⟩ :=
    modifyOrderUnlocked_cases e orderId newQuantity
  · rw [hnone]
  · rw [hsome]
    exact hsame.pending symbol

theorem PendingApart.acceptOrder (h : e.PendingApart) (hs : e.Books Sane)
    {r : Except String (Option (List Trade))}
    (ha : (e.alloc o).1.acceptOrder fuel (e.alloc o).2 = some (r, e')) : e'.PendingApart := by
  have hself := e.alloc_order_self o
  have hreceive := SameBooks.receive (e.alloc o).1 o
  obtain ⟨-, -, rfl⟩ | ⟨-, result, hr, -, _, _, rfl⟩ | ⟨-, _, -, rfl⟩ := acceptOrder_cases ha
  all_goals rw [hself] at *
  · exact (h.addTrigger hs o hreceive).1
  · have hmatched := h.of_spares (.matched hreceive hr)
      fun symbol ord hord => (hreceive.pending symbol).symm ▸ hord
    exact hmatched.of_spares (.of_same ⟨rfl, fun _ => rfl, fun _ => rfl, rfl, rfl⟩)
      fun _ _ hord => hord
  · exact h.of_spares ((Spares.alloc e o).trans (.of_same hreceive))
      fun symbol ord hord => hreceive.pending symbol ▸ hord

/-- A check takes the orders off the list whose condition the price meets. -/
theorem PendingApart.checkTriggers (h : e.PendingApart)
    (hc : e.checkTriggers fuel symbol price = some e') :
    e'.waiting symbol = (e.waiting symbol).filter (fun o => !triggered o price) ∧
      ∀ s, s ≠ symbol → e'.waiting s = e.waiting s := by
  have hspares := Spares.checkTriggers hc
  have hchecks := checkTriggers_spec hc h.waits
  refine ⟨?_, fun s hs => h.waiting hspares (hchecks.others s hs)⟩
  rw [MatchingEngine.waiting, hchecks.pending, MatchingEngine.waiting, List.filter_map]
  exact List.map_congr_left fun ord hord =>
    (hspares ord (h symbol ord (List.mem_of_mem_filter hord))).2

/-- No book gets to know a pending trigger order, whatever happens. -/
theorem pendingApart_sections : SectionInvariant fun e => e.PendingApart ∧ e.Books Sane where
  of_same h hs := ⟨h.1.of_spares (.of_same hs) fun symbol ord hord => hs.pending symbol ▸ hord,
    h.2.of_same hs⟩
  alloc o h := ⟨h.1.of_spares (.alloc _ o) fun _ _ hord => hord, h.2.alloc bookInvariant_sane o⟩
  acceptOrder h ha := ⟨h.1.acceptOrder h.2 ha, h.2.acceptOrder bookInvariant_sane ha⟩
  cancelOrderUnlocked {e} orderId h :=
    ⟨h.1.of_spares (.cancelOrderUnlocked e orderId) fun symbol ord hord =>
      cancelOrderUnlocked_pending e orderId symbol ▸ hord,
      h.2.cancelOrderUnlocked bookInvariant_sane orderId⟩
  modifyOrderUnlocked {e} orderId newQuantity h :=
    ⟨h.1.of_spares (.modifyOrderUnlocked e orderId newQuantity) fun symbol ord hord =>
      modifyOrderUnlocked_pending e orderId newQuantity symbol ▸ hord,
      h.2.modifyOrderUnlocked bookInvariant_sane orderId newQuantity⟩
  checkTriggers {fuel e symbol price e'} h hc := by
    have hchecks := checkTriggers_spec hc h.1.waits
    refine ⟨h.1.of_spares (.checkTriggers hc) fun s ord hord => ?_,
      h.2.checkTriggers bookInvariant_sane hc⟩
    by_cases hs : s = symbol
    · subst hs
      rw [hchecks.pending] at hord
      exact List.mem_of_mem_filter hord
    · rwa [hchecks.others s hs] at hord

theorem pendingApart_fresh (mem : Memory) (hashOrder : HashOrder) (feeModel : Option FeeModel)
    (file : Option (List Json)) : ((fresh mem hashOrder feeModel).startWAL file).2.PendingApart ∧
      ((fresh mem hashOrder feeModel).startWAL file).2.Books Sane := by
  refine ⟨fun symbol ord hord => absurd hord ?_, bookInvariant_sane.fresh (by cases file <;> rfl)⟩
  cases file <;> exact List.not_mem_nil

end MatchingEngine

end GoQuant
