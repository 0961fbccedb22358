import GoQuant.Engine.Activation
import GoQuant.Engine.Apart
import GoQuant.Engine.Twins
import GoQuant.Book.Overlay
import GoQuant.Book.Silence

/-!
# Replaying the log again

`replayWAL` skips a submit record whose id is in the book, and nothing else. So a second
replay leaves alone what the first one left resting, executes again what it did not, and
queues every trigger order again.

## Main definitions

* `Settled` — a record that a second replay may meet: the submitted order is skipped, or has no
  effect, or rests until a later record cancels it; an order of the first replay is not
  cancelled, and ends with the quantity it had.
* `Overlaid` — the first replay's orders, under those that came again.

## Main results

* `waiting_twice` — a second replay leaves the pending orders exactly if each of them was activated
  in the file.
* `sameContents_of_settled` — it leaves the books, if every record is settled at its turn.
-/

namespace GoQuant

open MatchingAlgorithm

/-- What the lines of a file ask to redo. -/
def walRecords (lines : List Json) : List WalRecord :=
  lines.filterMap fun line =>
    match WalRecord.ofJson line with
    | .ok record => record
    | .error _ => none

/-- The order a record changes the quantity of. -/
def WalRecord.modified : WalRecord → Option String
  | .modify orderId _ => some orderId
  | _ => none

/-- What a record makes of the pending trigger orders of a symbol. -/
def WalRecord.queue (symbol : String) : WalRecord → List Order → List Order
  | .submit o, os => if o.type.isTrigger = true ∧ o.symbol = symbol then os ++ [o] else os
  | .activated orderId symbol', os =>
    if symbol' = symbol then os.filter fun o => o.id ≠ orderId else os
  | _, os => os

namespace MatchingEngine

variable {fuel : ℕ} {e e' r₁ u u' : MatchingEngine} {symbol orderId : String} {newQuantity : ℚ}
  {record : WalRecord} {records rest : List WalRecord} {o : Order} {result : Matching}

/-! ## One record after another -/

/-- The records of a file, as long as none of them throws. -/
def replayRecords (fuel : ℕ) : List WalRecord → MatchingEngine → Option MatchingEngine
  | [], e => some e
  | record :: records, e =>
    match e.replayRecord fuel record with
    | some (.ok (), e) => replayRecords fuel records e
    | _ => none

theorem replayRecords_of_lines {lines : List Json}
    (h : replayLines fuel lines e = some (true, e')) :
    replayRecords fuel (walRecords lines) e = some e' := by
  induction lines generalizing e with
  | nil =>
    obtain ⟨-, rfl⟩ := Prod.mk.inj (Option.some.inj h)
    rfl
  | cons line lines ih =>
    simp only [replayLines] at h
    split at h
    · cases h
    · rename_i hread
      have hskip : walRecords (line :: lines) = walRecords lines := by simp [walRecords, hread]
      rw [hskip]
      exact ih h
    · rename_i record hread
      have hnext : walRecords (line :: lines) = record :: walRecords lines := by
        simp [walRecords, hread]
      rw [hnext, replayRecords]
      split at h
      · cases h
      · cases h
      · rename_i hrecord
        rw [hrecord]
        exact ih h

/-- A replay that succeeds. -/
theorem exists_replayRecords {lines : List Json}
    (h : e.replayWAL fuel (some lines) = some (true, e')) :
    ∃ u, replayRecords fuel (walRecords lines) { e with replaying := true } = some u ∧
      e' = { u with replaying := false } := by
  obtain ⟨⟨ok, u⟩, hu, heq⟩ := Option.map_eq_some_iff.mp h
  obtain ⟨rfl, rfl⟩ := Prod.mk.inj heq
  exact ⟨u, replayRecords_of_lines hu, rfl⟩

/-- By induction on the records still to come. -/
theorem replayRecords_invariant (P : MatchingEngine → Prop)
    (h : replayRecords fuel records e = some e') (he : P e)
    (hstep : ∀ {u record u'}, P u → u.replayRecord fuel record = some (.ok (), u') → P u') :
    P e' := by
  induction records generalizing e with
  | nil =>
    obtain rfl := Option.some.inj h
    exact he
  | cons record records ih =>
    simp only [replayRecords] at h
    split at h
    · rename_i hrecord
      exact ih h (hstep he hrecord)
    · cases h

/-- How the replay of a submit record ends. -/
theorem replayRecord_submit_cases
    (h : e.replayRecord fuel (.submit o) = some (.ok (), e')) :
    ∃ u, (e.alloc o).1.SameBooks u ∧
      (o.type.isTrigger = true ∧ e' = u.addTrigger o.symbol e.mem.next ∨
      o.type.isTrigger ≠ true ∧ (e.book o.symbol).hasOrder o.id = true ∧ e' = u ∨
      o.type.isTrigger ≠ true ∧ (e.book o.symbol).hasOrder o.id = false ∧ ∃ result,
        Returns e.feeModel (e.mem.alloc o).1 (e.book o.symbol) e.mem.next result ∧
          e' = u.matched o.symbol result) := by
  have hsame := SameBooks.getOrCreateOrderBook (e.alloc o).1 o.symbol
  have hbook : ((e.alloc o).1.getOrCreateOrderBook o.symbol).book o.symbol = e.book o.symbol :=
    hsame.book o.symbol
  refine ⟨_, hsame, ?_⟩
  simp only [replayRecord] at h
  split_ifs at h with htrigger hold
  · obtain ⟨-, rfl⟩ := Prod.mk.inj (Option.some.inj h)
    exact Or.inl ⟨htrigger, rfl⟩
  · obtain ⟨-, rfl⟩ := Prod.mk.inj (Option.some.inj h)
    exact Or.inr (Or.inl ⟨htrigger, hbook ▸ hold, rfl⟩)
  · rw [hbook] at hold
    split at h
    · cases (Prod.mk.inj (Option.some.inj h)).1
    · cases h
    · rename_i result hresult
      obtain ⟨-, rfl⟩ := Prod.mk.inj (Option.some.inj h)
      rw [hsame.feeModel, hsame.mem, hsame.book] at hresult
      exact Or.inr (Or.inr ⟨htrigger, by simpa using hold, result, ⟨fuel, hresult⟩, rfl⟩)

/-- An order without effect is matched. -/
theorem Keeps.of_inert (hs : Sane u.mem (u.book o.symbol)) (hsame : (u.alloc o).1.SameBooks e)
    (hi : (u.book o.symbol).Inert u.mem o)
    (hr : Returns u.feeModel (u.mem.alloc o).1 (u.book o.symbol) u.mem.next result) :
    u.Keeps (e.matched o.symbol result) := by
  have hself : (u.mem.alloc o).1.order u.mem.next = o := Memory.alloc_order_self u.mem o
  have hresult : result = MatchingAlgorithm.start (u.mem.alloc o).1 (u.book o.symbol)
      u.mem.next := by
    refine hr.unique (returns_start hr.matchable ?_)
    rw [hself]
    exact hi.congr fun r hr => Memory.alloc_order_of_lt u.mem r o (hs.restsAllocated r hr)
  have hk := Keeps.alloc u o
  refine ⟨fun s => ?_, ?_, ?_⟩
  · rw [(SameBooks.matched hsame).book, hresult]
    by_cases hs : s = o.symbol
    · subst hs
      exact book_setBook_self u (u.book o.symbol)
    · exact book_setBook_of_ne u (u.book o.symbol) hs
  · rw [(SameBooks.matched hsame).mem, hresult]
    exact hk.next
  · rw [(SameBooks.matched hsame).mem, hresult]
    exact hk.order

/-! ## The books of a replay -/

/-- One book changes. -/
theorem Books.indexed_update {mem : Memory} {b : OrderBook} (h : e.Books Indexed)
    (hext : e.mem.Extends mem) (hb : Indexed mem b)
    (hs : { e.setBook symbol b with mem := mem }.SameBooks e') : e'.Books Indexed := by
  refine Books.of_same (fun symbol' => ?_) hs
  by_cases hsymbol : symbol' = symbol
  · subst hsymbol
    rw [book_replace_self]
    exact hb
  · rw [book_replace_of_ne _ _ _ hsymbol]
    exact (h symbol').of_extends hext

/-- A replay lets no order in under an id that its book knows. -/
theorem replayRecord_indexed (h : e.Books Indexed)
    (hr : e.replayRecord fuel record = some (.ok (), e')) : e'.Books Indexed := by
  cases record with
  | submit o =>
    have halloc : (e.alloc o).1.Books Indexed := fun symbol =>
      (h symbol).of_extends (.alloc e.mem o)
    obtain ⟨u, hsame, ⟨-, rfl⟩ | ⟨-, -, rfl⟩ | ⟨-, hnew, result, hret, rfl⟩⟩ :=
      replayRecord_submit_cases hr
    · exact (halloc.of_same hsame).congr rfl fun _ => rfl
    · exact halloc.of_same hsame
    · have hi : Indexed (e.mem.alloc o).1 (e.book o.symbol) := halloc o.symbol
      refine h.indexed_update ((Memory.Extends.alloc e.mem o).trans (returns_extends hret)) ?_
        (SameBooks.matched hsame)
      refine hi.returns ((h o.symbol).toSane.fresh o) ?_ hret
      rwa [Memory.alloc_order_self]
  | cancel orderId =>
    obtain ⟨-, rfl⟩ := Prod.mk.inj (Option.some.inj hr)
    obtain hnone | ⟨symbol, b, hcancel, u, hsome, hsame, -⟩ := cancelOrderUnlocked_cases e orderId
    · rwa [hnone]
    · have hb := (h symbol).cancelOrder orderId
      rw [hcancel] at hb
      rw [hsome]
      exact h.indexed_update (.refl e.mem) hb hsame
  | modify orderId newQuantity =>
    obtain ⟨-, rfl⟩ := Prod.mk.inj (Option.some.inj hr)
    obtain hnone | ⟨symbol, mem, b, hm, u, hsome, hsame, -⟩ :=
      modifyOrderUnlocked_cases e orderId newQuantity
    · rwa [hnone]
    · rw [hsome]
      exact h.indexed_update (OrderBook.modifyOrder_extends _ _ _ _ hm) ((h symbol).modifyOrder hm)
        hsame
  | activated orderId symbol =>
    obtain ⟨u, hu, hmem, hbook, -⟩ := replayRecord_activated fuel orderId symbol e
    obtain ⟨-, rfl⟩ := Prod.mk.inj (Option.some.inj (hu.symm.trans hr))
    exact h.congr hmem hbook
  | trade t =>
    obtain ⟨-, rfl⟩ := Prod.mk.inj (Option.some.inj hr)
    exact h

/-! ## The pending orders of a replay -/

theorem replayRecord_activated_pending {symbol : String}
    (h : e.replayRecord fuel (.activated orderId symbol) = some (.ok (), e')) (s : String) :
    ∀ ord ∈ e'.pending s, ord ∈ e.pending s := by
  simp only [replayRecord] at h
  split at h
  · obtain ⟨-, rfl⟩ := Prod.mk.inj (Option.some.inj h)
    exact fun _ hord => hord
  · rename_i vec hvec
    obtain ⟨-, rfl⟩ := Prod.mk.inj (Option.some.inj h)
    intro ord hord
    by_cases hs : s = symbol
    · subst hs
      rw [pending_setPending_self] at hord
      rw [pending, hvec]
      exact List.mem_of_mem_filter hord
    · rwa [pending_setPending_of_ne _ _ hs] at hord

theorem replayRecord_waiting (ha : e.PendingApart) (hs : e.Books Sane)
    (hr : e.replayRecord fuel record = some (.ok (), e')) :
    e'.PendingApart ∧ ∀ symbol, e'.waiting symbol = record.queue symbol (e.waiting symbol) := by
  -- a step that leaves the pending lists alone
  have hkeep (hspares : e.Spares e') (hpending : ∀ symbol, e'.pending symbol = e.pending symbol) :
      e'.PendingApart ∧ ∀ symbol, e'.waiting symbol = e.waiting symbol :=
    ⟨ha.of_spares hspares fun symbol ord hord => hpending symbol ▸ hord,
      fun symbol => ha.waiting hspares (hpending symbol)⟩
  cases record with
  | submit o =>
    obtain ⟨u, hsame, ⟨htrigger, rfl⟩ | ⟨htrigger, -, rfl⟩ | ⟨htrigger, -, result, hret, rfl⟩⟩ :=
      replayRecord_submit_cases hr
    · obtain ⟨hapart, hself, hothers⟩ := @PendingApart.addTrigger _ _ o.symbol ha hs o hsame
      refine ⟨hapart, fun symbol => ?_⟩
      by_cases hsymbol : symbol = o.symbol
      · subst hsymbol
        rw [hself, WalRecord.queue, if_pos ⟨htrigger, rfl⟩]
      · rw [hothers symbol hsymbol, WalRecord.queue, if_neg fun h => hsymbol h.2.symm]
    · obtain ⟨hapart, hwaiting⟩ := hkeep ((Spares.alloc e o).trans (.of_same hsame)) hsame.pending
      refine ⟨hapart, fun symbol => ?_⟩
      rw [hwaiting, WalRecord.queue, if_neg fun h => htrigger h.1]
    · obtain ⟨hapart, hwaiting⟩ := hkeep (.matched hsame hret) hsame.pending
      refine ⟨hapart, fun symbol => ?_⟩
      rw [hwaiting, WalRecord.queue, if_neg fun h => htrigger h.1]
  | cancel orderId =>
    obtain ⟨-, rfl⟩ := Prod.mk.inj (Option.some.inj hr)
    exact hkeep (.cancelOrderUnlocked e orderId) (cancelOrderUnlocked_pending e orderId)
  | modify orderId newQuantity =>
    obtain ⟨-, rfl⟩ := Prod.mk.inj (Option.some.inj hr)
    exact hkeep (.modifyOrderUnlocked e orderId newQuantity)
      (modifyOrderUnlocked_pending e orderId newQuantity)
  | activated orderId symbol =>
    obtain ⟨u, hu, hmem, hbook, hothers, hself⟩ := replayRecord_activated fuel orderId symbol e
    obtain ⟨-, rfl⟩ := Prod.mk.inj (Option.some.inj (hu.symm.trans hr))
    have hspares : e.Spares u := by
      intro r hr
      unfold Apart at hr ⊢
      rw [hmem, funext hbook]
      exact ⟨hr, rfl⟩
    refine ⟨ha.of_spares hspares (replayRecord_activated_pending hu), fun symbol' => ?_⟩
    by_cases hsymbol : symbol' = symbol
    · subst hsymbol
      rw [hself, WalRecord.queue, if_pos rfl]
    · rw [hothers symbol' hsymbol, WalRecord.queue, if_neg (Ne.symm hsymbol)]
  | trade t =>
    obtain ⟨-, rfl⟩ := Prod.mk.inj (Option.some.inj hr)
    exact ⟨ha, fun _ => rfl⟩

/-- The pending orders after a replay. -/
theorem replayRecords_waiting (h : replayRecords fuel records e = some e') (ha : e.PendingApart)
    (hi : e.Books Indexed) (symbol : String) :
    e'.waiting symbol =
      records.foldl (fun os record => record.queue symbol os) (e.waiting symbol) := by
  induction records generalizing e with
  | nil =>
    obtain rfl := Option.some.inj h
    rfl
  | cons record records ih =>
    simp only [replayRecords] at h
    split at h
    · rename_i u hu
      obtain ⟨ha', hwaiting⟩ := replayRecord_waiting ha (fun symbol => (hi symbol).toSane) hu
      rw [ih h ha' (replayRecord_indexed hi hu), hwaiting, List.foldl_cons]
    · cases h

/-- The second replay comes to a record in the state `u`. The submitted order is skipped, or it
has no effect, or it rests until a later record cancels it. No order of the first replay's end
`r₁` is cancelled. A quantity stays positive enough for the level to stay, and is the one of
`r₁`, unless a later record sets it again. -/
def Settled (r₁ : MatchingEngine) (rest : List WalRecord) (u : MatchingEngine) :
    WalRecord → Prop
  | .submit o => o.type.isTrigger = true ∨ (u.book o.symbol).hasOrder o.id = true ∨
      (u.book o.symbol).Inert u.mem o ∨
      (u.book o.symbol).getMatchingOrders u.mem o = [] ∧ .cancel o.id ∈ rest ∧
        ∀ symbol ∈ u.orderBooks.keys, (u.book symbol).hasOrder o.id = false
  | .cancel orderId => ∀ symbol ∈ r₁.orderBooks.keys, (r₁.book symbol).hasOrder orderId = false
  | .modify orderId newQuantity => ∀ symbol ∈ u.orderBooks.keys,
      match (u.book symbol).orderMap.lookup orderId with
      | none => True
      | some r =>
        (∀ symbol' ∈ u.orderBooks.keys, (u.book symbol').hasOrder orderId = true →
          symbol' = symbol) ∧
        (∀ l ∈ (u.book symbol).levels (u.mem.order r).side, l.price = (u.mem.order r).price →
          0 < l.totalQuantity - (u.mem.order r).quantity + newQuantity) ∧
        ((r₁.book symbol).hasOrder orderId = true → newQuantity = (r₁.mem.order r).quantity ∨
          (r₁.book symbol).Rests r ∧ some orderId ∈ rest.map WalRecord.modified)
  | .activated _ _ => True
  | .trade _ => True

instance (r₁ : MatchingEngine) (rest : List WalRecord) (u : MatchingEngine) (record : WalRecord) :
    Decidable (Settled r₁ rest u record) := by
  cases record with
  | modify orderId newQuantity =>
    refine @List.decidableBAll _ _ (fun symbol => ?_) _
    split <;> infer_instance
  | _ =>
    unfold Settled
    infer_instance

/-- Every record is settled at its turn. -/
def SettledFrom (fuel : ℕ) (r₁ : MatchingEngine) : List WalRecord → MatchingEngine → Prop
  | [], _ => True
  | record :: rest, u => Settled r₁ rest u record ∧
      match u.replayRecord fuel record with
      | some (.ok (), u) => SettledFrom fuel r₁ rest u
      | _ => True

instance decidableSettledFrom (fuel : ℕ) (r₁ : MatchingEngine) :
    ∀ records u, Decidable (SettledFrom fuel r₁ records u)
  | [], _ => .isTrue trivial
  | record :: rest, u => by
    unfold SettledFrom
    have hrest := decidableSettledFrom fuel r₁ rest
    refine @instDecidableAnd _ _ _ ?_
    split
    · exact hrest _
    · infer_instance

/-- The state `u` of the second replay, before the records `rest`: the orders of the first
replay's end `r₁` in their places, under orders that are still to be cancelled, and with
quantities that are still to be set. -/
structure Overlaid (r₁ u : MatchingEngine) (rest : List WalRecord) : Prop where
  mem : r₁.mem.Extends u.mem
  indexed : u.Books Indexed
  book : ∀ symbol, Overlays r₁.mem (r₁.book symbol) u.mem (u.book symbol)
  extra : ∀ symbol id, (u.book symbol).hasOrder id = true → (r₁.book symbol).hasOrder id = false →
    .cancel id ∈ rest ∧ ∀ symbol', (u.book symbol').hasOrder id = true → symbol' = symbol
  quantity : ∀ symbol id r, (r₁.book symbol).orderMap.lookup id = some r →
    (u.mem.order r).quantity = (r₁.mem.order r).quantity ∨
      (r₁.book symbol).Rests r ∧ some id ∈ rest.map WalRecord.modified

namespace Overlaid

theorem of_same (h : r₁.Books Indexed) (hs : r₁.SameBooks u) (records : List WalRecord) :
    Overlaid r₁ u records where
  mem := hs.mem ▸ .refl r₁.mem
  indexed := h.of_same hs
  book symbol := by
    rw [hs.mem, hs.book]
    exact .refl (h symbol).toSane
  extra symbol id hid hnone := by
    rw [hs.book, hnone] at hid
    cases hid
  quantity _ _ _ _ := Or.inl (by rw [hs.mem])

/-- A record that leaves the books alone, and names no order they know. -/
theorem keeps (h : Overlaid r₁ u (record :: rest)) (hk : u.Keeps u')
    (hrecord : ∀ symbol id, (u.book symbol).hasOrder id = true →
      record ≠ .cancel id ∧ record.modified ≠ some id) : Overlaid r₁ u' rest where
  mem := h.mem.trans ⟨hk.next, fun r hr => ⟨_, hk.order r hr⟩⟩
  indexed symbol := by
    rw [hk.book]
    exact (h.indexed symbol).of_extends ⟨hk.next, fun r hr => ⟨_, hk.order r hr⟩⟩
  book symbol := by
    rw [hk.book]
    exact (h.book symbol).of_order fun id r hid =>
      hk.order r ((h.indexed symbol).mapAllocated id r hid)
  extra symbol id hid hnone := by
    rw [hk.book] at hid
    obtain ⟨hcancel, hone⟩ := h.extra symbol id hid hnone
    refine ⟨(List.mem_cons.mp hcancel).resolve_left (hrecord symbol id hid).1.symm,
      fun symbol' hid' => hone symbol' ?_⟩
    rwa [hk.book] at hid'
  quantity symbol id r hid := by
    have hu := (h.book symbol).lookup id r hid
    rw [hk.order r ((h.indexed symbol).mapAllocated id r hu)]
    have hknown : (u.book symbol).hasOrder id = true := Option.isSome_iff_exists.mpr ⟨r, hu⟩
    refine (h.quantity symbol id r hid).imp_right fun ⟨hrests, hlater⟩ => ⟨hrests, ?_⟩
    rw [List.map_cons, List.mem_cons] at hlater
    exact hlater.resolve_left (hrecord symbol id hknown).2.symm

/-- One book changes. -/
theorem update {mem : Memory} {b : OrderBook} (h : Overlaid r₁ u (record :: rest))
    (hs : { u.setBook symbol b with mem := mem }.SameBooks u') (hext : u.mem.Extends mem)
    (hi : Indexed mem b) (hb : Overlays r₁.mem (r₁.book symbol) mem b)
    (hothers : ∀ s, s ≠ symbol → ∀ id r, (u.book s).orderMap.lookup id = some r →
      mem.order r = u.mem.order r)
    (hextra : ∀ s id, (u'.book s).hasOrder id = true → (r₁.book s).hasOrder id = false →
      .cancel id ∈ rest ∧ ∀ s', (u'.book s').hasOrder id = true → s' = s)
    (hquantity : ∀ s id r, (r₁.book s).orderMap.lookup id = some r →
      (mem.order r).quantity = (r₁.mem.order r).quantity ∨
        (r₁.book s).Rests r ∧ some id ∈ rest.map WalRecord.modified) : Overlaid r₁ u' rest where
  mem := by
    rw [hs.mem]
    exact h.mem.trans hext
  indexed := h.indexed.indexed_update hext hi hs
  book s := by
    rw [hs.mem, hs.book]
    by_cases hsymbol : s = symbol
    · subst hsymbol
      rwa [book_replace_self]
    · rw [book_replace_of_ne _ _ _ hsymbol]
      exact (h.book s).of_order (hothers s hsymbol)
  extra := hextra
  quantity s id r hid := by
    rw [hs.mem]
    exact hquantity s id r hid

/-- An order that rests until it is cancelled. -/
theorem rests (h : Overlaid r₁ u (.submit o :: rest)) (hs : (u.alloc o).1.SameBooks e)
    (hnil : (u.book o.symbol).getMatchingOrders u.mem o = []) (htype : o.type = .limit)
    (hcancel : .cancel o.id ∈ rest) (hnew : ∀ symbol, (u.book symbol).hasOrder o.id = false)
    (hr : Returns u.feeModel (u.mem.alloc o).1 (u.book o.symbol) u.mem.next result) :
    Overlaid r₁ (e.matched o.symbol result) rest := by
  have hself : (u.mem.alloc o).1.order u.mem.next = o := Memory.alloc_order_self u.mem o
  have hext := Memory.Extends.alloc u.mem o
  have hf := (h.indexed o.symbol).toSane.fresh o
  have hold : ∀ r < u.mem.next, (u.mem.alloc o).1.order r = u.mem.order r := fun r hr =>
    Memory.alloc_order_of_lt u.mem r o hr
  have hresult : result = finish u.mem.next
      (MatchingAlgorithm.start (u.mem.alloc o).1 (u.book o.symbol) u.mem.next) := by
    refine hr.unique (returns_silent _ (Or.inr (by rw [hself]; exact htype)) ?_)
    rw [hself, OrderBook.getMatchingOrders_congr fun r hr =>
      hold r ((h.indexed o.symbol).restsAllocated r hr)]
    exact hnil
  have horder : ∀ r < u.mem.next, result.mem.order r = u.mem.order r := fun r hr => by
    rw [hresult, order_finish hr.ne]
    exact hold r hr
  have hmem : r₁.mem.next ≤ u.mem.next := h.mem.1
  have hmatched : { u.setBook o.symbol result.book with mem := result.mem }.SameBooks
      (e.matched o.symbol result) := SameBooks.matched hs
  have hknown : ∀ s id, ((e.matched o.symbol result).book s).hasOrder id = true →
      (u.book s).hasOrder id = true ∨ s = o.symbol ∧ id = o.id := by
    intro s id hid
    rw [hmatched.book] at hid
    by_cases hsymbol : s = o.symbol
    · subst hsymbol
      rw [book_replace_self] at hid
      refine (hr.hasOrder hf.unmapped hid).imp_right fun heq => ⟨rfl, ?_⟩
      rwa [hself] at heq
    · rw [book_replace_of_ne _ _ _ hsymbol] at hid
      exact Or.inl hid
  refine h.update hmatched (hext.trans (returns_extends hr)) ?_ ?_ (fun s _ id r hid => ?_)
    (fun s id hid hnone => ?_) fun s id r hid => ?_
  · refine ((h.indexed o.symbol).of_extends hext).returns hf ?_ hr
    rw [hself]
    exact hnew o.symbol
  · have hb := (h.book o.symbol).of_order fun id r hid =>
      hold r ((h.indexed o.symbol).mapAllocated id r hid)
    rw [hresult]
    unfold finish restRemainder
    split_ifs
    · refine (hb.of_order fun id r hid => ?_).addOrder hmem ?_
      · refine Memory.modifyQuantity_order_of_ne _ _ _ _ ?_
        exact ((h.indexed o.symbol).mapAllocated id r hid).ne
      · rw [Memory.modifyQuantity_order]
        simpa [hself] using hnew o.symbol
    · exact hb
    · exact hb
  · exact horder r ((h.indexed s).mapAllocated id r hid)
  · rcases hknown s id hid with hold | ⟨rfl, rfl⟩
    · have hne : id ≠ o.id := by
        rintro rfl
        rw [hnew s] at hold
        cases hold
      obtain ⟨hlater, hone⟩ := h.extra s id hold hnone
      refine ⟨(List.mem_cons.mp hlater).resolve_left (nofun), fun s' hs' => ?_⟩
      exact hone s' ((hknown s' id hs').resolve_right fun heq => hne heq.2)
    · refine ⟨hcancel, fun s' hs' => ?_⟩
      refine ((hknown s' _ hs').resolve_left ?_).1
      rw [hnew s']
      exact Bool.false_ne_true
  · rw [horder r ((h.indexed s).mapAllocated id r ((h.book s).lookup id r hid))]
    refine (h.quantity s id r hid).imp_right fun ⟨hrests, hlater⟩ => ⟨hrests, ?_⟩
    simpa [WalRecord.modified] using hlater

/-- An order that was not there is cancelled. -/
theorem cancel (h : Overlaid r₁ u (.cancel orderId :: rest)) (h₁ : r₁.Books Sane)
    (hunknown : ∀ symbol, (r₁.book symbol).hasOrder orderId = false) :
    Overlaid r₁ (u.cancelOrderUnlocked orderId).2 rest := by
  obtain hnone | ⟨symbol, b, hcancel, u', hsome, hsame, -⟩ := cancelOrderUnlocked_cases u orderId
  · have hid := cancelOrderUnlocked_none (congrArg Prod.fst hnone)
    rw [hnone]
    refine h.keeps (.refl u) fun symbol id hknown => ⟨fun heq => ?_, fun heq => by cases heq⟩
    rw [← WalRecord.cancel.inj heq, hid symbol] at hknown
    cases hknown
  · have hid : (u.book symbol).hasOrder orderId = true := by
      rw [← OrderBook.cancelOrder_fst _ u.mem, hcancel]
    obtain ⟨-, hone⟩ := h.extra symbol orderId hid (hunknown symbol)
    have hb : b = ((u.book symbol).cancelOrder u.mem orderId).2 := by rw [hcancel]
    have hi := (h.indexed symbol).cancelOrder orderId
    have hover := (h.book symbol).cancelOrder h.mem (h₁ symbol) (h.indexed symbol) (hunknown symbol)
    rw [← hb] at hi hover
    -- afterwards a book knows what it knew, and not the cancelled id
    have hknown : ∀ s id, (u'.book s).hasOrder id = true →
        (u.book s).hasOrder id = true ∧ id ≠ orderId := by
      intro s id hid'
      rw [hsame.book] at hid'
      by_cases hsymbol : s = symbol
      · subst hsymbol
        rw [book_setBook_self, hb] at hid'
        obtain ⟨r, hr⟩ := Option.isSome_iff_exists.mp hid
        rw [OrderBook.hasOrder, Indexed.cancelOrder_orderMap hr] at hid'
        by_cases hne : id = orderId
        · rw [hne, AList.lookup_erase] at hid'
          cases hid'
        · rw [AList.lookup_erase_ne hne] at hid'
          exact ⟨hid', hne⟩
      · rw [book_setBook_of_ne _ _ hsymbol] at hid'
        refine ⟨hid', ?_⟩
        rintro rfl
        exact hsymbol (hone s hid')
    rw [hsome]
    refine h.update hsame (.refl u.mem) hi hover (fun _ _ _ _ _ => rfl) (fun s id hid' hnew => ?_)
      fun s id r hr => ?_
    · obtain ⟨hold, hne⟩ := hknown s id hid'
      obtain ⟨hlater, honly⟩ := h.extra s id hold hnew
      refine ⟨(List.mem_cons.mp hlater).resolve_left fun heq => hne (WalRecord.cancel.inj heq),
        fun s' hs' => honly s' (hknown s' id hs').1⟩
    · refine (h.quantity s id r hr).imp_right (And.imp_right fun hlater => ?_)
      simpa [WalRecord.modified] using hlater

/-- A quantity is set. -/
theorem modify (h : Overlaid r₁ u (.modify orderId newQuantity :: rest))
    (hsettled : Settled r₁ rest u (.modify orderId newQuantity)) :
    Overlaid r₁ (u.modifyOrderUnlocked orderId newQuantity).2 rest := by
  obtain hnone | ⟨symbol, mem, b, hm, u', hsome, hsame, -⟩ :=
    modifyOrderUnlocked_cases u orderId newQuantity
  · have hid := modifyOrderUnlocked_none (congrArg Prod.fst hnone)
    rw [hnone]
    refine h.keeps (.refl u) fun symbol id hknown => ⟨fun heq => (by cases heq), fun heq => ?_⟩
    rw [← Option.some.inj heq, hid symbol] at hknown
    cases hknown
  · have hid := OrderBook.hasOrder_of_modifyOrder hm
    obtain ⟨r, hr⟩ := Option.isSome_iff_exists.mp hid
    have hthis := hsettled symbol (mem_keys_of_hasOrder hid)
    simp only [hr] at hthis
    obtain ⟨hone, hpositive, hquantity⟩ := hthis
    have hext := OrderBook.modifyOrder_extends _ _ _ _ hm
    have hindexed := h.indexed symbol
    obtain ⟨hmap, hwritten⟩ := OrderBook.modifyOrder_spec hr hm
    -- only the order behind the id has changed
    have horder : ∀ r', r' ≠ r → mem.order r' = u.mem.order r' := by
      intro r' hne
      rcases hwritten with rfl | ⟨rfl, -⟩
      · exact Memory.modifyQuantity_order_of_ne _ _ _ _ hne
      · rfl
    have hknown : ∀ s id, (u'.book s).hasOrder id = (u.book s).hasOrder id := by
      intro s id
      rw [hsame.book]
      by_cases hsymbol : s = symbol
      · subst hsymbol
        rw [book_replace_self, OrderBook.hasOrder, OrderBook.hasOrder, hmap]
      · exact congrArg (OrderBook.hasOrder · id) (book_setBook_of_ne u b hsymbol)
    -- no other book knows the id, and an order of another name is another object
    have hsole : ∀ s r', (u.book s).orderMap.lookup orderId = some r' → s = symbol := by
      intro s r' hr'
      have hid' : (u.book s).hasOrder orderId = true := Option.isSome_iff_exists.mpr ⟨r', hr'⟩
      exact hone s (mem_keys_of_hasOrder hid') hid'
    have hother : ∀ s id r', (u.book s).orderMap.lookup id = some r' → r' = r → id = orderId := by
      intro s id r' hr' heq
      subst heq
      exact ((h.indexed s).named id r' hr').symm.trans ((h.indexed symbol).named orderId r' hr)
    rw [hsome]
    refine h.update hsame hext ((h.indexed symbol).modifyOrder hm) ?_ (fun s hs id r' hr' => ?_)
      (fun s id hid' hnew => ?_) fun s id r' hr' => ?_
    · refine (h.book symbol).modifyOrder (h.indexed symbol).toSane (fun r' hr' => ?_) hm
      obtain rfl := Option.some.inj (hr.symm.trans hr')
      exact hpositive
    · refine horder r' fun heq => hs (hsole s r' ?_)
      rwa [← hother s id r' hr' heq]
    · rw [hknown] at hid'
      obtain ⟨hlater, honly⟩ := h.extra s id hid' hnew
      refine ⟨(List.mem_cons.mp hlater).resolve_left (by rintro ⟨⟩), fun s' hs' => ?_⟩
      rw [hknown] at hs'
      exact honly s' hs'
    · have hu := (h.book s).lookup id r' hr'
      by_cases heq : r' = r
      · obtain rfl := hother s id r' hu heq
        subst heq
        have hs : s = symbol := hsole s r' hu
        subst hs
        have hset := hquantity (Option.isSome_iff_exists.mpr ⟨r', hr'⟩)
        rcases hwritten with rfl | ⟨rfl, hgone⟩
        · refine hset.imp_left fun hq => ?_
          rw [Memory.modifyQuantity_order, if_pos rfl]
          exact hq
        · refine (h.quantity s id r' hr').imp_right fun hlater => ?_
          obtain ⟨l, hl, hp, -⟩ := (h.indexed s).level_of_rests ((h.book s).rests hlater.1)
          exact absurd hp (hgone l hl)
      · rw [horder r' heq]
        refine (h.quantity s id r' hr').imp_right (And.imp_right fun hlater => ?_)
        rw [List.map_cons, List.mem_cons] at hlater
        refine hlater.resolve_left fun hsame => heq ?_
        obtain rfl := Option.some.inj hsame
        have hs : s = symbol := hsole s r' hu
        subst hs
        exact Option.some.inj (hu.symm.trans hr)

/-- One record. -/
theorem step (h : Overlaid r₁ u (record :: rest)) (h₁ : r₁.Books Sane)
    (hsettled : Settled r₁ rest u record) (hr : u.replayRecord fuel record = some (.ok (), u')) :
    Overlaid r₁ u' rest := by
  cases record with
  | submit o =>
    have hrecord : ∀ symbol id, (u.book symbol).hasOrder id = true →
        WalRecord.submit o ≠ .cancel id ∧ (WalRecord.submit o).modified ≠ some id :=
      fun _ _ _ => ⟨nofun, nofun⟩
    obtain ⟨e, hsame, ⟨-, rfl⟩ | ⟨-, -, rfl⟩ | ⟨htrigger, hid, result, hret, rfl⟩⟩ :=
      replayRecord_submit_cases hr
    · have hk : u.Keeps e := (Keeps.alloc u o).trans (.of_same hsame)
      exact h.keeps ⟨hk.book, hk.next, hk.order⟩ hrecord
    · exact h.keeps ((Keeps.alloc u o).trans (.of_same hsame)) hrecord
    · have hinert (hi : (u.book o.symbol).Inert u.mem o) : Overlaid r₁ (e.matched o.symbol result)
          rest := h.keeps (.of_inert (h.indexed o.symbol).toSane hsame hi hret) hrecord
      rcases hsettled with htrigger' | hold | hi | ⟨hnil, hcancel, hnew⟩
      · exact absurd htrigger' htrigger
      · rw [hid] at hold
        cases hold
      · exact hinert hi
      · by_cases htype : o.type = .limit
        · exact h.rests hsame hnil htype hcancel (unknown_iff.mpr hnew) hret
        · exact hinert (Or.inr ⟨htype, Or.inl hnil⟩)
  | cancel orderId =>
    obtain ⟨-, rfl⟩ := Prod.mk.inj (Option.some.inj hr)
    exact h.cancel h₁ (unknown_iff.mpr hsettled)
  | modify orderId newQuantity =>
    obtain ⟨-, rfl⟩ := Prod.mk.inj (Option.some.inj hr)
    exact h.modify hsettled
  | activated orderId symbol =>
    obtain ⟨w, hw, hmem, hbook, -⟩ := replayRecord_activated fuel orderId symbol u
    obtain ⟨-, rfl⟩ := Prod.mk.inj (Option.some.inj (hw.symm.trans hr))
    exact h.keeps ⟨hbook, hmem ▸ le_rfl, fun _ _ => hmem ▸ rfl⟩
      fun _ _ _ => ⟨nofun, nofun⟩
  | trade t =>
    obtain ⟨-, rfl⟩ := Prod.mk.inj (Option.some.inj hr)
    exact h.keeps (.refl u) fun _ _ _ => ⟨nofun, nofun⟩

/-- By induction on the records still to come. -/
theorem run (h : Overlaid r₁ u records) (h₁ : r₁.Books Sane)
    (hsettled : SettledFrom fuel r₁ records u) (hr : replayRecords fuel records u = some u') :
    Overlaid r₁ u' [] := by
  induction records generalizing u with
  | nil =>
    obtain rfl := Option.some.inj hr
    exact h
  | cons record rest ih =>
    simp only [replayRecords] at hr
    obtain ⟨hthis, hrest⟩ := hsettled
    split at hr
    · rename_i w hw
      rw [hw] at hrest
      exact ih (h.step h₁ hthis hw) hrest hr
    · cases hr

/-- After the last record. -/
theorem sameContents (h : Overlaid r₁ u []) (h₁ : r₁.Books Indexed) (symbol : String) :
    SameContents r₁.mem (r₁.book symbol) u.mem (u.book symbol) := by
  refine (h.book symbol).sameContents h.mem (h₁ symbol) (h.indexed symbol) (fun id hid => ?_)
    fun id r hid => ?_
  · by_contra hnone
    have hextra := h.extra symbol id hid (by simpa using hnone)
    exact absurd hextra.1 (List.not_mem_nil)
  · exact (h.quantity symbol id r hid).resolve_right fun hlater =>
      absurd hlater.2 (List.not_mem_nil)

end Overlaid

/-! ## Two replays -/

/-- What a first replay leaves. -/
theorem first_replay {mem : Memory} {hashOrder : HashOrder} {feeModel : Option FeeModel}
    {lines : List Json}
    (h₁ : (fresh mem hashOrder feeModel).replayWAL fuel (some lines) = some (true, r₁)) :
    r₁.Books Indexed ∧ r₁.PendingApart ∧ ∀ symbol, r₁.waiting symbol =
      (walRecords lines).foldl (fun os record => record.queue symbol os) [] := by
  obtain ⟨u, hu, rfl⟩ := exists_replayRecords h₁
  have hempty : ({ fresh mem hashOrder feeModel with replaying := true } :
      MatchingEngine).Books Indexed := fun symbol => .empty mem symbol
  have hnone : ({ fresh mem hashOrder feeModel with replaying := true } :
      MatchingEngine).PendingApart := fun symbol ord hord => absurd hord List.not_mem_nil
  have hboth : u.PendingApart ∧ u.Books Indexed := replayRecords_invariant
    (fun e => e.PendingApart ∧ e.Books Indexed) hu ⟨hnone, hempty⟩ fun he hr =>
      ⟨(replayRecord_waiting he.1 (fun symbol => (he.2 symbol).toSane) hr).1,
        replayRecord_indexed he.2 hr⟩
  exact ⟨hboth.2, hboth.1, replayRecords_waiting hu hnone hempty⟩

/-- If each record is settled at its turn in the second replay, the books are those of the first. -/
theorem sameContents_of_settled {mem : Memory} {hashOrder : HashOrder} {feeModel : Option FeeModel}
    {fuel' : ℕ} {lines : List Json} {r₂ : MatchingEngine}
    (h₁ : (fresh mem hashOrder feeModel).replayWAL fuel (some lines) = some (true, r₁))
    (h₂ : r₁.replayWAL fuel' (some lines) = some (true, r₂))
    (hsettled : SettledFrom fuel' r₁ (walRecords lines) { r₁ with replaying := true })
    (symbol : String) : SameContents r₁.mem (r₁.book symbol) r₂.mem (r₂.book symbol) := by
  obtain ⟨hi, -, -⟩ := first_replay h₁
  obtain ⟨w, hw, rfl⟩ := exists_replayRecords h₂
  have hsame : r₁.SameBooks { r₁ with replaying := true } :=
    ⟨rfl, fun _ => rfl, fun _ => rfl, rfl, rfl⟩
  have hrun := (Overlaid.of_same hi hsame (walRecords lines)).run
    (fun symbol => (hi symbol).toSane) hsettled hw
  exact hrun.sameContents hi symbol

end MatchingEngine

end GoQuant
