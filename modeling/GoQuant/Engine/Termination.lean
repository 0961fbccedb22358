import GoQuant.Book.Termination
import GoQuant.Engine.Apart
import GoQuant.Engine.Bystanders
import GoQuant.Engine.Replay

/-!
# Submitted orders return

An order is submitted in finite time if its matching ends, and its matching ends if the orders that
it meets in the book of its symbol are found by their ids. No trigger order waits in the runs here:
publishing a trade then activates nothing.

## Main results

* `untriggered_sections` — no call lets a trigger order wait, if none is submitted.
* `exists_submitOrder`, `exists_returns` — a submitted order returns if its matching does, and when
  its matching does.
-/

namespace GoQuant

open MatchingAlgorithm

namespace MatchingEngine

variable {fuel : ℕ} {e e' : MatchingEngine} {symbol orderId : String} {newQuantity price : ℚ}
  {trades : List Trade} {o : Order} {out : Except String Unit} {result : Matching} {c : Call}

/-! ## Calls while no trigger order waits -/

/-- None comes to wait while none is submitted. -/
theorem untriggered_sections : SectionInvariantOn (fun o => o.type.Matchable) Untriggered where
  of_same h hs := h.of_same hs
  alloc _ h := h
  acceptOrder {fuel e o r e'} htype h ha symbol := by
    have hself := e.alloc_order_self o
    have hreceive := (SameBooks.receive (e.alloc o).1 o).pending symbol
    rw [← hself] at htype
    obtain ⟨htrigger, -⟩ | ⟨-, result, -, -, _, _, rfl⟩ | ⟨hthrow, -⟩ := acceptOrder_cases ha
    · exact absurd htrigger (not_isTrigger_of_matchable htype)
    · rw [hself]
      exact hreceive.trans (h symbol)
    · exact absurd htype hthrow
  cancelOrderUnlocked orderId h symbol :=
    (cancelOrderUnlocked_pending _ orderId symbol).trans (h symbol)
  modifyOrderUnlocked orderId newQuantity h symbol :=
    (modifyOrderUnlocked_pending _ orderId newQuantity symbol).trans (h symbol)
  checkTriggers h hc := h.of_same (checkTriggers_idle h hc).1

theorem Untriggered.exists_checkTriggers (h : e.Untriggered) (fuel : ℕ) (symbol : String)
    (price : ℚ) : ∃ e', e.checkTriggers fuel symbol price = some e' := by
  have hpending := h symbol
  unfold checkTriggers
  unfold pending at hpending
  cases hlookup : e.triggerOrders.lookup symbol with
  | none => exact ⟨e, rfl⟩
  | some vec =>
    rw [hlookup, Option.getD_some] at hpending
    subst hpending
    exact ⟨_, rfl⟩

theorem Untriggered.exists_publishTrades (h : e.Untriggered) (fuel : ℕ) (trades : List Trade) :
    ∃ e', publishTrades fuel trades e = some e' := by
  induction trades generalizing e with
  | nil => exact ⟨e, rfl⟩
  | cons t trades ih =>
    have hannounced := h.of_same (.announce e t)
    obtain ⟨u, hu⟩ := hannounced.exists_checkTriggers fuel t.symbol t.price
    have hpublish : e.publishTrade fuel t = some u := hu
    obtain ⟨w, hw⟩ := ih (h.of_same (publishTrade_idle h hpublish).1)
    exact ⟨w, Option.bind_eq_some_iff.mpr ⟨u, hpublish, hw⟩⟩

/-- An order is submitted in finite time if its matching ends. -/
theorem exists_submitOrder (h : e.Untriggered) (htype : o.type.Matchable)
    (hr : Returns e.feeModel (e.mem.alloc o).1 (e.book o.symbol) e.mem.next result) :
    ∃ fuel p, (e.alloc o).1.submitOrder fuel true (e.alloc o).2 = some p := by
  obtain ⟨fuel, hr⟩ := hr
  have hself := e.alloc_order_self o
  have hreceive := SameBooks.receive (e.alloc o).1 o
  have hprocess : processOrder ((e.alloc o).1.receive o).feeModel fuel
      ((e.alloc o).1.receive o).mem (((e.alloc o).1.receive o).book o.symbol) (e.alloc o).2 =
        .ok (some result) := by
    rw [hreceive.feeModel, hreceive.mem, hreceive.book]
    exact hr
  obtain ⟨u, haccept, hsame⟩ : ∃ u, (e.alloc o).1.acceptOrder fuel (e.alloc o).2 =
      some (.ok (some result.trades), u) ∧
        (((e.alloc o).1.receive o).matched o.symbol result).SameBooks u := by
    simp only [acceptOrder, hself, if_neg (not_isTrigger_of_matchable htype), hprocess]
    exact ⟨_, rfl, rfl, fun _ => rfl, fun _ => rfl, rfl, rfl⟩
  have hu : u.Untriggered := fun symbol =>
    (hsame.pending symbol).trans ((hreceive.pending symbol).trans (h symbol))
  obtain ⟨w, hw⟩ := hu.exists_publishTrades fuel result.trades
  refine ⟨fuel, (.ok (), w.publishMarketDataUpdate o.symbol), ?_⟩
  simp only [submitOrder, if_true, haccept, hw, hself]
  rfl

/-- What an order does that is submitted while no trigger order waits. -/
theorem Untriggered.submitOrder (h : e.Untriggered) (htype : o.type.Matchable)
    (hs : (e.alloc o).1.submitOrder fuel true (e.alloc o).2 = some (out, e')) :
    out = .ok () ∧ ∃ result,
      Returns e.feeModel (e.mem.alloc o).1 (e.book o.symbol) e.mem.next result ∧
        (((e.alloc o).1.receive o).matched o.symbol result).SameBooks e' := by
  have hself := e.alloc_order_self o
  have hreceive := SameBooks.receive (e.alloc o).1 o
  obtain ⟨hout, result, u, w, hret, hsame, -, hpublish, rfl⟩ :=
    submitOrder_eq_some (hself.symm ▸ htype) hs
  rw [hself] at hret hsame ⊢
  have hu : u.Untriggered := fun symbol =>
    (hsame.pending symbol).trans ((hreceive.pending symbol).trans (h symbol))
  refine ⟨hout, result, hret, hsame.trans ?_⟩
  exact (publishTrades_idle hu hpublish).1.trans (publishMarketDataUpdate_idle w o.symbol).1

/-! ## Engines in which no trigger order waits -/

/-- An order is submitted in finite time if the orders that it meets are found by their ids. -/
theorem exists_returns (hs : e.Books Sane) (htype : o.type.Matchable) (hq : 0 < o.quantity)
    (hx : o.type ≠ .fok → Exhaustible e.mem (e.book o.symbol) o) :
    ∃ result, Returns e.feeModel (e.mem.alloc o).1 (e.book o.symbol) e.mem.next result := by
  have hself : (e.mem.alloc o).1.order e.mem.next = o := Memory.alloc_order_self _ _
  refine ((hs o.symbol).of_extends (.alloc e.mem o)).exists_returns e.feeModel
    ((hs o.symbol).fresh o).unmapped ?_ ?_ fun hfok => (hx ?_).alloc (hs o.symbol)
  · rwa [hself]
  · rwa [hself]
  · rwa [hself] at hfok

/-- An engine that has just started. -/
theorem idle_startWAL (mem : Memory) (hashOrder : HashOrder) (feeModel : Option FeeModel)
    (file : Option (List Json)) : ((fresh mem hashOrder feeModel).startWAL file).2.Books Sane ∧
      ((fresh mem hashOrder feeModel).startWAL file).2.Untriggered := by
  constructor
  · cases file <;> exact fun symbol => .empty mem symbol
  · cases file <;> exact fun _ => rfl

end MatchingEngine

end GoQuant
