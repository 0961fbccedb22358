import GoQuant.Listener.Requests

/-!
# Only valid orders pass the listener

An order that `submitOrder` gets has the fields of the message, and they pass the checks. The
check of the price is made for LIMIT orders only. IOC and FOK orders, which are matched against
their prices too, pass with a price of zero, and so with none.

## Main definitions

* `Valid` — an order that should pass, `OnlyValid` — no others do.
* `Unpriced` — an IOC or FOK order without a positive price.

## Main results

* `onlyValid_iff` — they do exactly if they are unpriced.
* `unpriced_sells` — a sell order without a price trades at any.
-/

namespace GoQuant

namespace WebSocketSession

open Json

variable {fuel : ℕ} {tryAcceptOrder : Bool} {self : Subscriber} {e : MatchingEngine} {j : Json}
  {o : Order} {c : Call} {parsed : Except ByteArray Json}

/-- An order that should pass. Every type but MARKET is matched against the price. -/
structure Valid (o : Order) : Prop where
  id : o.id ≠ ""
  symbol : o.symbol ≠ ""
  quantity : 0 < o.quantity
  type : o.type.Matchable
  price : o.type ≠ .market → 0 < o.price

/-- The call submits an order. -/
def isSubmit : Call → Bool
  | .submit _ _ => true
  | _ => false

/-- A message that is handled in this way submits at most one order, a valid one that has its
fields. Every other message of the type is answered with an error and changes nothing. -/
structure OnlyValid (parsed : Except ByteArray Json) (e : MatchingEngine) (handled : Handled) :
    Prop where
  once : (handled.calls.filter isSubmit).length ≤ 1
  valid : ∀ tryAcceptOrder o, .submit tryAcceptOrder o ∈ handled.calls →
    ∃ j, parsed = .ok j ∧ Describes j o ∧ Valid o
  refused : ∀ j, parsed = .ok j → j.get? "type" = some (.str "submit_order") →
    (∀ o, Describes j o → ¬ Valid o) →
      ∃ reply, handled.outcome = some ([reply], e) ∧ status? reply = some (.str "error")

/-- An IOC or FOK order without a positive price that is as it should be otherwise. -/
def Unpriced (j : Json) : Prop :=
  j.get? "type" = some (.str "submit_order") ∧ ∃ o, Describes j o ∧ o.id ≠ "" ∧ o.symbol ≠ "" ∧
    0 < o.quantity ∧ (o.type = .ioc ∨ o.type = .fok) ∧ o.price ≤ 0

/-- What passes is valid, or unpriced. -/
theorem Passes.valid (h : Passes o) (hpriced : o.type = .ioc ∨ o.type = .fok → 0 < o.price) :
    Valid o where
  id := h.id
  symbol := h.symbol
  quantity := h.quantity
  type := h.type
  price hmarket := by
    rcases h.type with htype | htype | htype | htype
    · exact absurd htype hmarket
    · exact h.price htype
    · exact hpriced (Or.inl htype)
    · exact hpriced (Or.inr htype)

/-- A message that calls nothing. -/
theorem OnlyValid.of_nil {outcome : Option (List Json × MatchingEngine)}
    (h : ∀ j, parsed = .ok j → j.get? "type" = some (.str "submit_order") →
      ∃ reply, outcome = some ([reply], e) ∧ status? reply = some (.str "error")) :
    OnlyValid parsed e ⟨[], outcome⟩ where
  once := Nat.zero_le 1
  valid _ _ ho := absurd ho List.not_mem_nil
  refused j hj htype _ := h j hj htype

/-- A message that calls the engine. -/
theorem OnlyValid.of_asks {outcome : Option (List Json × MatchingEngine)}
    (hasks : Asks tryAcceptOrder self j c)
    (hvalid : ∀ o, j.get? "type" = some (.str "submit_order") → Describes j o → Passes o →
      Valid o) : OnlyValid (.ok j) e ⟨[c], outcome⟩ where
  once := List.length_filter_le _ _
  valid tryAcceptOrder o ho := by
    obtain rfl := List.mem_singleton.mp ho
    cases hasks with
    | submit htype hdescribes hpasses =>
      exact ⟨j, rfl, hdescribes, hvalid o htype hdescribes hpasses⟩
  refused j' hj htype hnone := by
    obtain rfl := Except.ok.inj hj
    cases hasks with
    | submit _ hdescribes hpasses =>
      exact absurd (hvalid _ htype hdescribes hpasses) (hnone _ hdescribes)
    | cancel htype' | subscribeToMarketData htype' | subscribeToTrades htype' | modify htype' =>
      rw [htype] at htype'
      simp at htype'

/-- **Only valid orders pass, but for the prices of IOC and FOK orders.** A message of any kind,
in any state of the engine, submits valid orders only, and is refused otherwise, exactly if it is
not an unpriced order. -/
theorem onlyValid_iff (fuel : ℕ) (tryAcceptOrder : Bool) (self : Subscriber) (e : MatchingEngine)
    (parsed : Except ByteArray Json) :
    OnlyValid parsed e (readLoop fuel tryAcceptOrder self e parsed) ↔
      ∀ j, parsed = .ok j → ¬ Unpriced j := by
  constructor
  · rintro h j rfl ⟨htype, o, hdescribes, hid, hsymbol, hquantity, hword, hprice⟩
    have hmatchable : o.type.Matchable := Or.inr (Or.inr hword)
    have hpasses : Passes o := ⟨hid, hsymbol, hquantity, hmatchable, fun hlimit => by
      rcases hword with hword | hword <;> simp [hword] at hlimit⟩
    obtain ⟨_, -, -, hvalid⟩ := h.valid tryAcceptOrder o
      (mem_calls_readLoop.mpr (.submit htype hdescribes hpasses))
    have hmarket : o.type ≠ .market := by
      rcases hword with hword | hword <;> simp [hword]
    exact not_lt.mpr hprice (hvalid.price hmarket)
  · intro hpriced
    have hhandles := handles_readLoop fuel tryAcceptOrder self e parsed
    generalize readLoop fuel tryAcceptOrder self e parsed = handled at hhandles ⊢
    cases hhandles with
    | escaped =>
      refine .of_nil fun j hj => ?_
      cases hj
    | refused _ _ hreply => exact .of_nil fun _ _ _ => ⟨_, rfl, hreply⟩
    | ignored hword hunknown =>
      refine .of_nil fun j hj htype => ?_
      obtain rfl := Except.ok.inj hj
      rw [value_of_get? htype] at hword
      obtain rfl := Except.ok.inj hword
      exact absurd (by decide) hunknown
    | metrics hmetrics =>
      refine .of_nil fun j hj htype => ?_
      obtain rfl := Except.ok.inj hj
      rw [htype] at hmetrics
      simp at hmetrics
    | called hasks =>
      refine .of_asks hasks fun o htype hdescribes hpasses => ?_
      refine hpasses.valid fun hword => not_le.mp fun hprice => hpriced _ rfl ⟨htype, o, hdescribes,
        hpasses.id, hpasses.symbol, hpasses.quantity, hword, hprice⟩

/-- A bid at ten, and an IOC order to sell without a price. -/
def bidMessage : Json := .obj [("type", .str "submit_order"), ("id", .str "bid"),
  ("symbol", .str "S"), ("side", .str "buy"), ("order_type", .str "limit"), ("quantity", .num 5),
  ("price", .num 10)]

def unpricedMessage : Json := .obj [("type", .str "submit_order"), ("id", .str "ask"),
  ("symbol", .str "S"), ("side", .str "sell"), ("order_type", .str "ioc"), ("quantity", .num 3)]

/-- **A sell order without a price trades at any.** It is taken for an IOC order with a limit of
zero, which every bid is above. -/
theorem unpriced_sells : ∃ (replies replies' : List Json) (e e' : MatchingEngine),
    (readLoop 3 true 7 (.fresh .empty .plain none) (.ok bidMessage)).outcome = some (replies, e) ∧
    (readLoop 3 true 7 e (.ok unpricedMessage)).outcome = some (replies', e') ∧
    e'.executed.map (fun p => (p.2.price, p.2.quantity)) = [(10, 3)] ∧
    ¬ OnlyValid (.ok unpricedMessage) e (readLoop 3 true 7 e (.ok unpricedMessage)) := by
  let first := (readLoop 3 true 7 (.fresh .empty .plain none) (.ok bidMessage)).outcome
  have hseen : (first.bind fun p => (readLoop 3 true 7 p.2 (.ok unpricedMessage)).outcome.map
      fun q => q.2.executed.map fun p => (p.2.price, p.2.quantity)) = some [(10, 3)] := by
    decide +kernel
  obtain ⟨⟨replies, e⟩, hfirst, hsecond⟩ := Option.bind_eq_some_iff.mp hseen
  obtain ⟨⟨replies', e'⟩, hsecond, htrades⟩ := Option.map_eq_some_iff.mp hsecond
  refine ⟨replies, replies', e, e', hfirst, hsecond, htrades, fun h => ?_⟩
  have hasks : Asks true 7 unpricedMessage (.submit true ⟨"ask", "S", .sell, .ioc, 0, 3⟩) :=
    .submit rfl ⟨rfl, rfl, rfl, rfl, rfl, rfl⟩
      ⟨by decide, by decide, by decide, by decide, by decide⟩
  obtain ⟨_, -, -, hvalid⟩ := h.valid true _ (mem_calls_readLoop.mpr hasks)
  exact absurd (hvalid.price (by decide)) (by decide)

end WebSocketSession

end GoQuant
