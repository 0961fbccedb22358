import GoQuant.Engine.Apart
import GoQuant.Engine.Executions
import GoQuant.Book.Names

/-!
# Orders matched one after another

Books change by cancellations, by changes of quantities, and by matching: of the order that a
call submits, or of the orders that a check activates, one after another and in the order in
which they were submitted. Matching brings no id into a book but those of the orders matched,
and its trades name no others than these and the ids that the book carried.

## Main definitions

* `Matches` — orders are matched against the book of a symbol.

## Main results

* `acceptOrder_matches`, `checkTriggers_matches` — the critical sections that match orders.
* `Matches.names`, `Matches.executes` — the ids in the book and on the trades.
-/

namespace GoQuant

open MatchingAlgorithm

namespace MatchingEngine

variable {fuel : ℕ} {e e' e'' u w : MatchingEngine} {symbol id : String} {price : ℚ}
  {ord : Ref} {vec remaining : List Ref} {o : Order} {os : List Order} {result : Matching}
  {tasks : List Task}

/-- Orders are matched against the book of a symbol, one after another. -/
inductive Matches (symbol : String) : List Order → MatchingEngine → MatchingEngine → Prop
  | nil {e e' : MatchingEngine} : e.SameBooks e' → Executes symbol [] e e' → Matches symbol [] e e'
  | cons {e u e' : MatchingEngine} {o : Order} {os : List Order} {result : Matching} :
      (e.alloc o).1.SameBooks u → Executes symbol [] e u →
      Returns e.feeModel (e.mem.alloc o).1 (e.book symbol) e.mem.next result →
      Matches symbol os (u.matched symbol result) e' → Matches symbol (o :: os) e e'

theorem SameBooks.alloc (h : e.SameBooks e') (o : Order) :
    (e.alloc o).1.SameBooks (e'.alloc o).1 where
  mem := congrArg (fun mem : Memory => (mem.alloc o).1) h.mem
  book := h.book
  pending := h.pending
  feeModel := h.feeModel
  hashOrder := h.hashOrder

namespace Matches

/-- Something happens afterwards that leaves the books alone. -/
theorem then_same (h : Matches symbol os e e') (hs : e'.SameBooks e'')
    (hx : Executes symbol [] e' e'') : Matches symbol os e e'' := by
  induction h with
  | nil hs' hx' => exact .nil (hs'.trans hs) (hx'.then_idle hx)
  | cons hs' hx' hr _ ih => exact .cons hs' hx' hr (ih hs hx)

/-- Something happens beforehand that leaves the books alone. -/
theorem of_same (h : Matches symbol os e' e'') (hs : e.SameBooks e')
    (hx : Executes symbol [] e e') : Matches symbol os e e'' := by
  cases h with
  | nil hs' hx' => exact .nil (hs.trans hs') (hx.then_idle hx')
  | cons hs' hx' hr hrest =>
    rw [hs.feeModel, hs.mem, hs.book] at hr
    exact .cons ((hs.alloc _).trans hs') (hx.then_idle hx') hr hrest

theorem one (hs : (e.alloc o).1.SameBooks u) (hx : Executes symbol [] e u)
    (hr : Returns e.feeModel (e.mem.alloc o).1 (e.book symbol) e.mem.next result) :
    Matches symbol [o] e (u.matched symbol result) :=
  .cons hs hx hr (.nil (.refl _) (.idle rfl rfl rfl rfl))

/-! ## What matching leaves alone -/

theorem extends_mem (h : Matches symbol os e e') : e.mem.Extends e'.mem := by
  induction h with
  | nil hs _ =>
    rw [hs.mem]
    exact .refl _
  | @cons e _ _ o _ result _ _ hr _ ih =>
    exact ((Memory.Extends.alloc e.mem o).trans (returns_extends hr)).trans ih

theorem book_of_ne (h : Matches symbol os e e') {s : String} (hs : s ≠ symbol) :
    e'.book s = e.book s := by
  induction h with
  | nil hsame _ => exact hsame.book s
  | @cons e u _ _ _ result hsame _ _ _ ih =>
    exact (ih.trans (book_setBook_of_ne u result.book hs)).trans (hsame.book s)

theorem pending (h : Matches symbol os e e') (s : String) : e'.pending s = e.pending s := by
  induction h with
  | nil hsame _ => exact hsame.pending s
  | cons hsame _ _ _ ih => exact ih.trans (hsame.pending s)

theorem spares (h : Matches symbol os e e') : e.Spares e' := by
  induction h with
  | nil hsame _ => exact .of_same hsame
  | cons hsame _ hr _ ih => exact (Spares.matched hsame hr).trans ih

/-! ## The ids -/

/-- The id of an order that is matched, after its object was built. -/
theorem id_alloc (e : MatchingEngine) (o : Order) :
    ((e.mem.alloc o).1.order e.mem.next).id = o.id :=
  congrArg Order.id (Memory.alloc_order_self e.mem o)

/-- After one order, the book carries its id, or ids it carried before. -/
theorem names_one (hs : e.Books Sane)
    (hr : Returns e.feeModel (e.mem.alloc o).1 (e.book symbol) e.mem.next result)
    (h : result.book.Names result.mem id) : (e.book symbol).Names e.mem id ∨ id = o.id := by
  have hext := Memory.Extends.alloc e.mem o
  have hnames := returns_names ((hs symbol).of_extends hext) ((hs symbol).fresh o) hr h
  rw [id_alloc] at hnames
  exact hnames.imp_left (OrderBook.names_of_extends (hs symbol) hext).mp

/-- By induction on the orders. -/
theorem names (h : Matches symbol os e e') (hs : e.Books Sane)
    (hid : (e'.book symbol).Names e'.mem id) :
    (e.book symbol).Names e.mem id ∨ ∃ o ∈ os, o.id = id := by
  induction h with
  | nil hsame _ =>
    rw [hsame.mem, hsame.book] at hid
    exact Or.inl hid
  | @cons e u e' o os result hsame _ hr _ ih =>
    rcases ih (hs.matched bookInvariant_sane hsame hr) hid with hold | ⟨o', ho', heq⟩
    · rw [book_matched_self] at hold
      refine (names_one hs hr hold).imp_right fun heq => ⟨o, List.mem_cons_self, heq.symm⟩
    · exact Or.inr ⟨o', List.mem_cons_of_mem _ ho', heq⟩

/-- The trades name the orders matched, and ids that the book carried. -/
theorem executes (h : Matches symbol os e e') (hs : e.Books Sane) :
    ∃ ts, Executes symbol ts e e' ∧ ∀ t ∈ ts, (∃ o ∈ os, o.id = t.takerOrderId) ∧
      ((e.book symbol).Names e.mem t.makerOrderId ∨ ∃ o ∈ os, o.id = t.makerOrderId) := by
  induction h with
  | nil _ hx => exact ⟨[], hx, by simp⟩
  | @cons e u e' o os result hsame hx hr _ ih =>
    obtain ⟨ts, hts, hids⟩ := ih (hs.matched bookInvariant_sane hsame hr)
    refine ⟨result.trades ++ ts, (hx.trans (.matched u symbol result)).trans hts, fun t ht => ?_⟩
    rcases List.mem_append.mp ht with ht | ht
    · have hext := Memory.Extends.alloc e.mem o
      obtain ⟨htaker, m, hm, hmaker⟩ := returns_tradeIds ((hs symbol).of_extends hext)
        ((hs symbol).fresh o).allocated hr ht
      rw [id_alloc] at htaker
      refine ⟨⟨o, List.mem_cons_self, htaker.symm⟩, Or.inl (Or.inr ⟨m, hm, ?_⟩)⟩
      rw [hmaker]
      exact (hext.id_eq ((hs symbol).restsAllocated m hm)).symm
    · obtain ⟨⟨o', ho', htaker⟩, hmaker⟩ := hids t ht
      refine ⟨⟨o', List.mem_cons_of_mem _ ho', htaker⟩, ?_⟩
      rcases hmaker with hmaker | ⟨o'', ho'', hmaker⟩
      · rw [book_matched_self] at hmaker
        exact (names_one hs hr hmaker).imp_right fun heq => ⟨o, List.mem_cons_self, heq.symm⟩
      · exact Or.inr ⟨o'', List.mem_cons_of_mem _ ho'', hmaker⟩

end Matches

/-! ## The sections that match orders -/

/-- The first critical section of `submitOrder` matches the order, or queues it, or leaves the
books alone. -/
theorem acceptOrder_matches {r : Except String (Option (List Trade))}
    (h : (e.alloc o).1.acceptOrder fuel (e.alloc o).2 = some (r, e')) :
    (o.type.isTrigger = true ∧ r = .ok none ∧ ∃ u, (e.alloc o).1.SameBooks u ∧
      Executes o.symbol [] e u ∧ e' = u.addTrigger o.symbol e.mem.next) ∨
    (o.type.isTrigger ≠ true ∧ (∃ trades, r = .ok (some trades)) ∧ Matches o.symbol [o] e e') ∨
    (o.type.isTrigger ≠ true ∧ (∃ message, r = .error message) ∧ (e.alloc o).1.SameBooks e' ∧
      Executes o.symbol [] e e') := by
  have hself := e.alloc_order_self o
  have halloc : Executes o.symbol [] e (e.alloc o).1 := .idle rfl rfl rfl rfl
  have hreceive := SameBooks.receive (e.alloc o).1 o
  have hx : Executes o.symbol [] e ((e.alloc o).1.receive o) := halloc.then_idle (.receive _ o)
  -- `processOrder` alone throws, and it does not see trigger orders
  have hthrow (htype : o.type.isTrigger = true) : r = .ok none := by
    unfold acceptOrder at h
    dsimp only at h
    rw [hself, if_pos htype] at h
    exact (Prod.mk.inj (Option.some.inj h)).1.symm
  obtain ⟨htype, rfl, rfl⟩ | ⟨htype, result, hr, rfl, _, _, rfl⟩ | ⟨-, message, rfl, rfl⟩ :=
    acceptOrder_cases h
  all_goals rw [hself] at *
  · exact Or.inl ⟨htype, rfl, _, hreceive, hx, rfl⟩
  · refine Or.inr (Or.inl ⟨htype, ⟨_, rfl⟩, (Matches.one hreceive hx hr).then_same ?_ ?_⟩)
    · exact ⟨rfl, fun _ => rfl, fun _ => rfl, rfl, rfl⟩
    · exact .idle rfl rfl rfl rfl
  · refine Or.inr (Or.inr ⟨fun htype => ?_, ⟨_, rfl⟩, hreceive, hx⟩)
    cases hthrow htype

/-- Activated orders are matched in the order in which they wait. -/
theorem activateAll_matches (h : activateAll fuel symbol price vec e = some (remaining, e'))
    (hvec : ∀ ord ∈ vec, e.Apart ord) : Matches symbol (activated e.mem price vec) e e' := by
  induction vec generalizing e remaining with
  | nil =>
    obtain ⟨-, rfl⟩ := Prod.mk.inj (Option.some.inj h)
    exact .nil (.refl e) (.idle rfl rfl rfl rfl)
  | cons ord vec ih =>
    have hrest : ∀ ord ∈ vec, e.Apart ord := fun ord hm => hvec ord (List.mem_cons_of_mem _ hm)
    simp only [activateAll] at h
    split_ifs at h with ht
    · obtain ⟨w, hw, hall⟩ := Option.bind_eq_some_iff.mp h
      have hspares := Spares.activate hw
      have hcons : activated e.mem price (ord :: vec) =
          activeOrder (e.mem.order ord) :: activated w.mem price vec := by
        have hsame : vec.map w.mem.order = vec.map e.mem.order :=
          List.map_congr_left fun ord hm => (hspares ord (hrest ord hm)).2
        simp [activated, ht, hsame]
      rw [hcons]
      obtain ⟨result, hr, rfl⟩ := activate_eq_some hw
      have hbuilt : Executes symbol [] e (e.alloc (activeOrder (e.mem.order ord))).1 :=
        .idle rfl rfl rfl rfl
      refine .cons (.getOrCreateOrderBook _ symbol)
        (hbuilt.then_idle (.getOrCreateOrderBook _ symbol)) hr ?_
      exact (ih hall fun ord hm => (hspares ord (hrest ord hm)).1).of_same (.writeWAL _ _)
        (.writeWAL _ _)
    · obtain ⟨⟨remaining', w⟩, hw, heq⟩ := Option.map_eq_some_iff.mp h
      obtain ⟨-, rfl⟩ := Prod.mk.inj heq
      have hskip : activated e.mem price (ord :: vec) = activated e.mem price vec := by
        simp [activated, ht]
      rw [hskip]
      exact ih hw hrest

/-- The orders that a trade at a price activates, as they are matched. -/
def activations (e : MatchingEngine) (symbol : String) (price : ℚ) : List Order :=
  ((e.waiting symbol).filter fun o => triggered o price).map activeOrder

/-- A check matches the orders it activates, and then forgets them. -/
theorem checkTriggers_matches (h : e.checkTriggers fuel symbol price = some e')
    (ha : e.PendingApart) :
    ∃ u remaining, Matches symbol (e.activations symbol price) e u ∧
      (u.setPending symbol remaining).SameBooks e' ∧ Executes symbol [] u e' := by
  unfold checkTriggers at h
  cases hvec : e.triggerOrders.lookup symbol with
  | none =>
    simp only [hvec] at h
    obtain rfl := Option.some.inj h
    have hnil : e.pending symbol = [] := by rw [pending, hvec]; rfl
    have hnone : e.activations symbol price = [] := by rw [activations, waiting, hnil]; rfl
    rw [hnone]
    refine ⟨e, [], .nil (.refl e) (.idle rfl rfl rfl rfl), ?_, .idle rfl rfl rfl rfl⟩
    refine ⟨rfl, fun _ => rfl, fun s => ?_, rfl, rfl⟩
    by_cases hs : s = symbol
    · subst hs
      rw [pending_setPending_self, hnil]
    · rw [pending_setPending_of_ne _ _ hs]
  | some vec =>
    simp only [hvec] at h
    obtain ⟨⟨remaining, u⟩, hu, rfl⟩ := Option.map_eq_some_iff.mp h
    have hpending : e.pending symbol = vec := by rw [pending, hvec]; rfl
    refine ⟨u, remaining, ?_, .refl _, .idle rfl rfl rfl rfl⟩
    have hmatches := activateAll_matches hu (hpending ▸ ha symbol)
    rwa [activated, ← hpending] at hmatches

end MatchingEngine

end GoQuant
