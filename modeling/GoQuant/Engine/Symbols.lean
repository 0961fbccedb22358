import GoQuant.Engine.Throughout

/-!
# Orders wait and rest under their own symbol

The orders in the book of a symbol, and those that wait for a trigger there, have that
symbol. So has every trade executed against the book.

## Main definitions

* `Labelled` — every order is where its symbol says.

## Main results

* `labelled_sections` — every critical section keeps that so.
* `Labelled.symbol_of_trade` — the trades of a book.
-/

namespace GoQuant

open MatchingAlgorithm

namespace MatchingEngine

variable {fuel : ℕ} {e e' : MatchingEngine} {symbol : String} {ord : Ref}
  {o : Order} {result : Matching}

/-- The objects of a symbol are built, and have that symbol. -/
def Labels (e : MatchingEngine) (symbol : String) (r : Ref) : Prop :=
  r < e.mem.next ∧ (e.mem.order r).symbol = symbol

/-- Every order rests and waits under its own symbol. -/
structure Labelled (e : MatchingEngine) : Prop where
  resting : ∀ symbol r, (e.book symbol).Rests r → e.Labels symbol r
  pending : ∀ symbol, ∀ ord ∈ e.pending symbol, e.Labels symbol ord

/-- The symbol of an order never changes. -/
theorem lasting_symbol : Lasting fun symbol o => o.symbol = symbol where
  modifyQuantity _ h := h
  activeOrder h := by
    unfold MatchingEngine.activeOrder
    split_ifs <;> exact h

theorem labelled_iff : e.Labelled ↔ e.Throughout fun symbol o => o.symbol = symbol :=
  ⟨fun h => ⟨h.resting, h.pending⟩, fun h => ⟨h.resting, h.pending⟩⟩

theorem Labels.of_extends {r : Ref} (h : e.Labels symbol r) (hmem : e.mem.Extends e'.mem) :
    e'.Labels symbol r := by
  have hsatisfies : e.Satisfies (fun symbol o => o.symbol = symbol) symbol r := h
  exact hsatisfies.of_extends lasting_symbol hmem

namespace Labelled

theorem waits (h : e.Labelled) : e.Waits := (labelled_iff.mp h).waits

theorem of_same (h : e.Labelled) (hs : e.SameBooks e') : e'.Labelled :=
  labelled_iff.mpr ((labelled_iff.mp h).of_same hs)

theorem activate (h : e.Labelled) (ha : e.activate fuel symbol ord = some e')
    (hord : e.Labels symbol ord) : e'.Labelled :=
  labelled_iff.mpr ((labelled_iff.mp h).activate lasting_symbol ha hord)

/-- The trades executed against the book of a symbol. -/
theorem symbol_of_trade (h : e.Labelled)
    (hr : Returns e.feeModel (e.mem.alloc o).1 (e.book symbol) e.mem.next result) {trade : Trade}
    (ht : trade ∈ result.trades) : trade.symbol = symbol := by
  have hrests : ∀ m, (e.book symbol).Rests m → m < (e.mem.alloc o).1.next := fun m hm =>
    (h.resting symbol m hm).1.trans (Nat.lt_succ_self _)
  obtain ⟨m, hm, hsymbol⟩ := returns_symbol_of_mem hr hrests ht
  obtain ⟨hlt, hlabel⟩ := h.resting symbol m hm
  rw [hsymbol, Memory.alloc_order_of_lt e.mem m o hlt, hlabel]

end Labelled

/-- Orders stay where their symbols say, whatever happens. -/
theorem labelled_sections : SectionInvariant Labelled where
  of_same h hs := h.of_same hs
  alloc o h := labelled_iff.mpr ((labelled_iff.mp h).alloc lasting_symbol o)
  acceptOrder h ha :=
    labelled_iff.mpr ((labelled_iff.mp h).acceptOrder lasting_symbol rfl ha)
  cancelOrderUnlocked orderId h :=
    labelled_iff.mpr ((labelled_iff.mp h).cancelOrderUnlocked lasting_symbol orderId)
  modifyOrderUnlocked orderId newQuantity h :=
    labelled_iff.mpr ((labelled_iff.mp h).modifyOrderUnlocked lasting_symbol orderId newQuantity)
  checkTriggers h hc :=
    labelled_iff.mpr ((labelled_iff.mp h).checkTriggers lasting_symbol hc)

theorem labelled_startWAL (mem : Memory) (hashOrder : HashOrder) (feeModel : Option FeeModel)
    (file : Option (List Json)) : ((fresh mem hashOrder feeModel).startWAL file).2.Labelled :=
  labelled_iff.mpr (.of_empty (by cases file <;> rfl) (by cases file <;> rfl))

end MatchingEngine

end GoQuant
