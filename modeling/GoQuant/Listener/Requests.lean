import GoQuant.Listener

/-!
# Which messages reach the engine

A message asks for a call of the engine if it has the fields of one of the requests and they pass
the checks. These messages make that call, and no others make any.

## Main definitions

* `Describes` — an order has the fields of a message.
* `Asks` — a message asks for a call.
* `Handles` — what handling a message can come to.

## Main results

* `readLoop_of_asks`, `handles_readLoop` — messages that ask for a call, and all messages.
* `mem_calls_readLoop` — the calls that a message makes.
-/

/-- The word for an order type in a message. -/
def GoQuant.OrderType.word : OrderType → String
  | .market => "market"
  | .limit => "limit"
  | .ioc => "ioc"
  | .fok => "fok"
  | _ => ""

namespace GoQuant

namespace WebSocketSession

open Json

variable {fuel : ℕ} {tryAcceptOrder : Bool} {self : Subscriber} {e e' : MatchingEngine} {j : Json}
  {o : Order} {c : Call} {parsed : Except ByteArray Json} {handled : Handled}

/-- The order has the fields of the message; without a price it is zero. -/
structure Describes (j : Json) (o : Order) : Prop where
  id : j.get? "id" = some (.str o.id)
  symbol : j.get? "symbol" = some (.str o.symbol)
  side : j.get? "side" = some (.str o.side.name)
  type : j.get? "order_type" = some (.str o.type.word)
  quantity : j.get? "quantity" = some (.num o.quantity)
  price : (j.get? "price").getD (.num 0) = .num o.price

/-- The checks that are made of an order. -/
structure Passes (o : Order) : Prop where
  id : o.id ≠ ""
  symbol : o.symbol ≠ ""
  quantity : 0 < o.quantity
  type : o.type.Matchable
  price : o.type = .limit → 0 < o.price

/-- A message asks for a call of the engine. -/
inductive Asks (tryAcceptOrder : Bool) (self : Subscriber) (j : Json) : Call → Prop
  | submit {o : Order} : j.get? "type" = some (.str "submit_order") → Describes j o → Passes o →
      Asks tryAcceptOrder self j (.submit tryAcceptOrder o)
  | cancel {id : String} : j.get? "type" = some (.str "cancel_order") →
      j.get? "order_id" = some (.str id) → id ≠ "" → Asks tryAcceptOrder self j (.cancel id)
  | subscribeToMarketData {symbol : String} :
      j.get? "type" = some (.str "subscribe_market_data") →
      j.get? "symbol" = some (.str symbol) → symbol ≠ "" →
      Asks tryAcceptOrder self j (.subscribeToMarketData symbol self)
  | subscribeToTrades {symbol : String} : j.get? "type" = some (.str "subscribe_trades") →
      j.get? "symbol" = some (.str symbol) → symbol ≠ "" →
      Asks tryAcceptOrder self j (.subscribeToTrades symbol self)
  | modify {id : String} {newQty : ℚ} : j.get? "type" = some (.str "modify_order") →
      j.get? "order_id" = some (.str id) → j.get? "new_quantity" = some (.num newQty) →
      id ≠ "" → 0 ≤ newQty → Asks tryAcceptOrder self j (.modify id newQty)

/-- A call, and the replies to the message that asked for it. -/
def served (fuel : ℕ) (e : MatchingEngine) : Call → Option (List Json × MatchingEngine)
  | .submit tryAcceptOrder o =>
    let (e, order) := e.alloc o
    (e.submitOrder fuel tryAcceptOrder order).map fun (out, e) => ([submitReply o.id out], e)
  | .cancel orderId =>
    let (success, e) := e.cancelOrder orderId
    some ([cancelReply orderId success], e)
  | .subscribeToMarketData symbol self =>
    let e := e.subscribeToMarketData symbol self
    some ([.obj [("status", .str "ok"), ("message", .str "subscribed_market_data"),
      ("symbol", .str symbol)], updateMessage (e.getMarketData symbol 10)], e)
  | .subscribeToTrades symbol self =>
    some ([.obj [("status", .str "ok"), ("message", .str "subscribed_trades"),
      ("symbol", .str symbol)]], e.subscribeToTrades symbol self)
  | .modify orderId newQty =>
    let (ok, e) := e.modifyOrder orderId newQty
    some ([modifyReply orderId newQty ok], e)

/-- The calls are those that the model of the engine makes. -/
theorem call_of_served {replies : List Json} (h : served fuel e c = some (replies, e')) :
    e.call fuel c = some e' := by
  cases c with
  | submit tryAcceptOrder o =>
    obtain ⟨p, hp, heq⟩ := Option.map_eq_some_iff.mp h
    obtain ⟨-, rfl⟩ := Prod.mk.inj heq
    exact Option.map_eq_some_iff.mpr ⟨p, hp, rfl⟩
  | _ =>
    obtain ⟨-, rfl⟩ := Prod.mk.inj (Option.some.inj h)
    rfl

/-! ## Orders -/

theorem orderType?_eq_some {word : String} {t : OrderType} :
    orderType? word = some t ↔ t.Matchable ∧ word = t.word := by
  constructor
  · intro h
    unfold orderType? at h
    split at h <;> cases h
    all_goals exact ⟨by decide, rfl⟩
  · rintro ⟨rfl | rfl | rfl | rfl, rfl⟩ <;> rfl

/-- An order passes, and is made of what was read. -/
theorem checkOrder_eq_ok {id symbol side word : String} {quantity price : ℚ} :
    checkOrder id symbol side word quantity price = .ok o ↔ Passes o ∧ id = o.id ∧
      symbol = o.symbol ∧ side = o.side.name ∧ word = o.type.word ∧ quantity = o.quantity ∧
      price = o.price := by
  constructor
  · intro h
    unfold checkOrder at h
    split at h
    · cases h
    rename_i hparams
    split at h
    · cases h
    rename_i hlimit
    split at h
    · cases h
    rename_i hsides
    simp only [not_or, not_le] at hparams
    obtain ⟨hid, hsymbol, hquantity⟩ := hparams
    have hside : side = (if side = "buy" then Side.buy else Side.sell).name := by
      split_ifs with hbuy
      · exact hbuy
      · by_contra hsell
        exact hsides ⟨hbuy, hsell⟩
    cases htype : orderType? word with
    | none => simp [htype] at h
    | some t =>
      simp only [htype, Except.ok.injEq] at h
      obtain ⟨hmatchable, hword⟩ := orderType?_eq_some.mp htype
      subst h
      refine ⟨⟨hid, hsymbol, hquantity, hmatchable, fun hlim => ?_⟩, rfl, rfl, hside, hword, rfl,
        rfl⟩
      obtain rfl : t = .limit := hlim
      exact not_le.mp fun hprice => hlimit ⟨hword, hprice⟩
  · rintro ⟨⟨hid, hsymbol, hquantity, htype, hprice⟩, rfl, rfl, rfl, rfl, rfl, rfl⟩
    have hparams : ¬ (o.id = "" ∨ o.symbol = "" ∨ o.quantity ≤ 0) := by
      simp [hid, hsymbol, hquantity]
    have hlimit : ¬ (o.type.word = "limit" ∧ o.price ≤ 0) := by
      rintro ⟨hword, hle⟩
      have hlim : orderType? o.type.word = some .limit := by
        rw [hword]
        rfl
      rw [orderType?_eq_some.mpr ⟨htype, rfl⟩] at hlim
      exact not_le.mpr (hprice (Option.some.inj hlim)) hle
    have hsides : ¬ (o.side.name ≠ "buy" ∧ o.side.name ≠ "sell") := by
      cases o.side <;> decide
    have hside : (if o.side.name = "buy" then Side.buy else Side.sell) = o.side := by
      cases o.side <;> decide
    simp only [checkOrder, if_neg hparams, if_neg hlimit, if_neg hsides, hside,
      orderType?_eq_some.mpr ⟨htype, rfl⟩]

/-- A refusal has a code and a message. -/
theorem checkOrder_error {id symbol side word : String} {quantity price : ℚ} {reply : Json}
    (h : checkOrder id symbol side word quantity price = .error reply) :
    ∃ code message, reply = refusal code message := by
  unfold checkOrder at h
  split at h
  · exact ⟨_, _, (Except.error.inj h).symm⟩
  split at h
  · exact ⟨_, _, (Except.error.inj h).symm⟩
  split at h
  · exact ⟨_, _, (Except.error.inj h).symm⟩
  cases htype : orderType? word with
  | none =>
    simp only [htype, Except.error.injEq] at h
    exact ⟨_, _, h.symm⟩
  | some t => simp [htype] at h

/-- An order is read from a message that describes it, if it passes the checks. -/
theorem readOrder_eq_ok : readOrder j = .ok (.ok o) ↔ Describes j o ∧ Passes o := by
  constructor
  · intro h
    simp only [readOrder, Except.bind_eq_ok, atKey_eq_ok, getString_eq_ok, getDouble_eq_ok] at h
    obtain ⟨_, hid, id, rfl, _, hsymbol, symbol, rfl, _, hside, side, rfl, _, htype, word, rfl,
      _, hquantity, quantity, rfl, price, hprice, h⟩ := h
    rw [value_getDouble_eq_ok hid] at hprice
    obtain ⟨hpasses, rfl, rfl, rfl, rfl, rfl, rfl⟩ := checkOrder_eq_ok.mp (Except.ok.inj h)
    exact ⟨⟨hid, hsymbol, hside, htype, hquantity, hprice⟩, hpasses⟩
  · rintro ⟨⟨hid, hsymbol, hside, htype, hquantity, hprice⟩, hpasses⟩
    simp only [readOrder, Except.bind_eq_ok, atKey_eq_ok, getString_eq_ok, getDouble_eq_ok]
    refine ⟨_, hid, _, rfl, _, hsymbol, _, rfl, _, hside, _, rfl, _, htype, _, rfl, _, hquantity, _,
      rfl, o.price, (value_getDouble_eq_ok hid).mpr hprice, ?_⟩
    exact congrArg Except.ok (checkOrder_eq_ok.mpr ⟨hpasses, rfl, rfl, rfl, rfl, rfl, rfl⟩)

/-! ## Messages -/

/-- A reply carries a status. -/
def status? (reply : Json) : Option Json := reply.get? "status"

@[simp] theorem status?_refusal (code message : String) :
    status? (refusal code message) = some (.str "error") := rfl

@[simp] theorem status?_failure (what : String) :
    status? (failure what) = some (.str "error") := rfl

/-- The types of the requests. -/
def requestTypes : List String :=
  ["submit_order", "cancel_order", "subscribe_market_data", "subscribe_trades", "get_metrics",
    "modify_order"]

/-- What handling a message comes to: an exception escapes, an error is reported, nothing is done
about an unknown type, metrics are returned, or the engine is called. -/
inductive Handles (fuel : ℕ) (tryAcceptOrder : Bool) (self : Subscriber) (e : MatchingEngine) :
    Except ByteArray Json → Handled → Prop
  | escaped {what : ByteArray} : String.fromUTF8? what = none →
      Handles fuel tryAcceptOrder self e (.error what) ⟨[], none⟩
  | refused {parsed : Except ByteArray Json} {reply : Json} :
      (∀ what, parsed = .error what → String.fromUTF8? what ≠ none) →
      (∀ j, parsed = .ok j → ∀ type, j.value getString "type" "" = .ok type →
        type ∈ requestTypes) →
      status? reply = some (.str "error") →
      Handles fuel tryAcceptOrder self e parsed (answer e reply)
  | ignored {j : Json} {type : String} : j.value getString "type" "" = .ok type →
      type ∉ requestTypes → Handles fuel tryAcceptOrder self e (.ok j) ⟨[], some ([], e)⟩
  | metrics {j : Json} : j.get? "type" = some (.str "get_metrics") →
      Handles fuel tryAcceptOrder self e (.ok j) (onGetMetrics e)
  | called {j : Json} {c : Call} : Asks tryAcceptOrder self j c →
      Handles fuel tryAcceptOrder self e (.ok j) ⟨[c], served fuel e c⟩

theorem readOrder_error {reply : Json} (h : readOrder j = .ok (.error reply)) :
    status? reply = some (.str "error") := by
  simp only [readOrder, Except.bind_eq_ok] at h
  obtain ⟨_, _, id, _, _, _, symbol, _, _, _, side, _, _, _, word, _, _, _, quantity, _, price, _,
    h⟩ := h
  obtain ⟨code, message, rfl⟩ := checkOrder_error (Except.ok.inj h)
  rfl

theorem onSubmitOrder_ok (h : onSubmitOrder fuel tryAcceptOrder e j = .ok handled) :
    (∃ reply, status? reply = some (.str "error") ∧ handled = answer e reply) ∨
      ∃ o, Describes j o ∧ Passes o ∧
        handled = ⟨[.submit tryAcceptOrder o], served fuel e (.submit tryAcceptOrder o)⟩ := by
  unfold onSubmitOrder at h
  split_ifs at h
  · exact Or.inl ⟨_, status?_refusal _ _, (Except.ok.inj h).symm⟩
  · obtain ⟨checked, hread, h⟩ := Except.bind_eq_ok.mp h
    cases checked with
    | error reply =>
      exact Or.inl ⟨reply, readOrder_error hread, (Except.ok.inj h).symm⟩
    | ok o =>
      obtain ⟨hdescribes, hpasses⟩ := readOrder_eq_ok.mp hread
      exact Or.inr ⟨o, hdescribes, hpasses, (Except.ok.inj h).symm⟩

theorem onCancelOrder_ok (h : onCancelOrder e j = .ok handled) :
    (∃ reply, status? reply = some (.str "error") ∧ handled = answer e reply) ∨
      ∃ id, j.get? "order_id" = some (.str id) ∧ id ≠ "" ∧
        handled = ⟨[.cancel id], served fuel e (.cancel id)⟩ := by
  unfold onCancelOrder at h
  split_ifs at h
  · exact Or.inl ⟨_, status?_refusal _ _, (Except.ok.inj h).symm⟩
  · simp only [Except.bind_eq_ok, atKey_eq_ok, getString_eq_ok] at h
    obtain ⟨_, hid, id, rfl, h⟩ := h
    split_ifs at h with hempty
    · exact Or.inl ⟨_, status?_refusal _ _, (Except.ok.inj h).symm⟩
    · exact Or.inr ⟨id, hid, hempty, (Except.ok.inj h).symm⟩

theorem onSubscribe_ok {subscribed : String → Handled}
    (h : onSubscribe e j subscribed = .ok handled) :
    (∃ reply, status? reply = some (.str "error") ∧ handled = answer e reply) ∨
      ∃ symbol, j.get? "symbol" = some (.str symbol) ∧ symbol ≠ "" ∧
        handled = subscribed symbol := by
  unfold onSubscribe at h
  split_ifs at h
  · exact Or.inl ⟨_, status?_refusal _ _, (Except.ok.inj h).symm⟩
  · simp only [Except.bind_eq_ok, atKey_eq_ok, getString_eq_ok] at h
    obtain ⟨_, hsymbol, symbol, rfl, h⟩ := h
    split_ifs at h with hempty
    · exact Or.inl ⟨_, status?_refusal _ _, (Except.ok.inj h).symm⟩
    · exact Or.inr ⟨symbol, hsymbol, hempty, (Except.ok.inj h).symm⟩

theorem onModifyOrder_ok (h : onModifyOrder e j = .ok handled) :
    (∃ reply, status? reply = some (.str "error") ∧ handled = answer e reply) ∨
      ∃ id newQty, j.get? "order_id" = some (.str id) ∧
        j.get? "new_quantity" = some (.num newQty) ∧ id ≠ "" ∧ 0 ≤ newQty ∧
        handled = ⟨[.modify id newQty], served fuel e (.modify id newQty)⟩ := by
  unfold onModifyOrder at h
  split_ifs at h
  · exact Or.inl ⟨_, status?_refusal _ _, (Except.ok.inj h).symm⟩
  · simp only [Except.bind_eq_ok, atKey_eq_ok, getString_eq_ok, getDouble_eq_ok] at h
    obtain ⟨_, hid, id, rfl, _, hquantity, newQty, rfl, h⟩ := h
    split_ifs at h with hparams
    · exact Or.inl ⟨_, status?_refusal _ _, (Except.ok.inj h).symm⟩
    · simp only [not_or, not_lt] at hparams
      exact Or.inr ⟨id, newQty, hid, hquantity, hparams.1, hparams.2, (Except.ok.inj h).symm⟩

/-- Nothing is done about a type that is not known. -/
theorem onMessage_ignored {type : String} (htype : j.value getString "type" "" = .ok type)
    (hnot : type ∉ requestTypes) :
    onMessage fuel tryAcceptOrder self e j = .ok ⟨[], some ([], e)⟩ := by
  refine Except.bind_eq_ok.mpr ⟨type, htype, ?_⟩
  split
  all_goals first
    | exact absurd (by decide) hnot
    | rfl

theorem readLoop_of_ok (h : onMessage fuel tryAcceptOrder self e j = .ok handled) :
    readLoop fuel tryAcceptOrder self e (.ok j) = handled := by
  simp only [readLoop, h]

theorem Handles.of_reply {reply : Json} (hreply : status? reply = some (.str "error"))
    (hknown : ∀ type, j.value getString "type" "" = .ok type → type ∈ requestTypes) :
    Handles fuel tryAcceptOrder self e (.ok j) (answer e reply) := by
  refine .refused (fun what h => ?_) (fun j' h => ?_) hreply
  · cases h
  · obtain rfl := Except.ok.inj h
    exact hknown

/-- A JSON value that no exception is thrown about, by its type. -/
theorem handles_onMessage (hm : onMessage fuel tryAcceptOrder self e j = .ok handled) :
    Handles fuel tryAcceptOrder self e (.ok j) handled := by
  obtain ⟨type, htype, hm⟩ := Except.bind_eq_ok.mp hm
  have hknown (hmem : type ∈ requestTypes) (type' : String)
      (htype' : j.value getString "type" "" = .ok type') : type' ∈ requestTypes := by
    rw [htype] at htype'
    exact Except.ok.inj htype' ▸ hmem
  have hasks {word : String} (hword : word ≠ "") (heq : type = word) :
      j.get? "type" = some (.str word) := (value_getString_eq_ok hword).mp (heq ▸ htype)
  split at hm
  · obtain ⟨reply, hreply, rfl⟩ | ⟨o, hdescribes, hpasses, rfl⟩ := onSubmitOrder_ok hm
    · exact .of_reply hreply (hknown (by decide))
    · exact .called (.submit (hasks (by decide) rfl) hdescribes hpasses)
  · obtain ⟨reply, hreply, rfl⟩ | ⟨id, hid, hne, rfl⟩ := @onCancelOrder_ok fuel _ _ _ hm
    · exact .of_reply hreply (hknown (by decide))
    · exact .called (.cancel (hasks (by decide) rfl) hid hne)
  · obtain ⟨reply, hreply, rfl⟩ | ⟨symbol, hsymbol, hne, rfl⟩ := onSubscribe_ok hm
    · exact .of_reply hreply (hknown (by decide))
    · exact .called (.subscribeToMarketData (hasks (by decide) rfl) hsymbol hne)
  · obtain ⟨reply, hreply, rfl⟩ | ⟨symbol, hsymbol, hne, rfl⟩ := onSubscribe_ok hm
    · exact .of_reply hreply (hknown (by decide))
    · exact .called (.subscribeToTrades (hasks (by decide) rfl) hsymbol hne)
  · obtain rfl := Except.ok.inj hm
    exact .metrics (hasks (by decide) rfl)
  · obtain ⟨reply, hreply, rfl⟩ | ⟨id, newQty, hid, hquantity, hne, hpos, rfl⟩ :=
      @onModifyOrder_ok fuel _ _ _ hm
    · exact .of_reply hreply (hknown (by decide))
    · exact .called (.modify (hasks (by decide) rfl) hid hquantity hne hpos)
  · obtain rfl := Except.ok.inj hm
    refine .ignored htype ?_
    simp only [requestTypes, List.mem_cons, List.not_mem_nil, or_false, not_or]
    refine ⟨?_, ?_, ?_, ?_, ?_, ?_⟩ <;> assumption

/-- Every message is handled in one of these ways. -/
theorem handles_readLoop (fuel : ℕ) (tryAcceptOrder : Bool) (self : Subscriber)
    (e : MatchingEngine) (parsed : Except ByteArray Json) :
    Handles fuel tryAcceptOrder self e parsed (readLoop fuel tryAcceptOrder self e parsed) := by
  cases parsed with
  | error what =>
    cases hwhat : String.fromUTF8? what with
    | none =>
      have hread : readLoop fuel tryAcceptOrder self e (.error what) = ⟨[], none⟩ := by
        simp only [readLoop, hwhat]
      rw [hread]
      exact .escaped hwhat
    | some text =>
      have hread : readLoop fuel tryAcceptOrder self e (.error what) = answer e (failure text) := by
        simp only [readLoop, hwhat]
      rw [hread]
      refine .refused (fun what' h => ?_) (fun j h => ?_) (status?_failure text)
      · obtain rfl := Except.error.inj h
        simp [hwhat]
      · cases h
  | ok j =>
    cases hm : onMessage fuel tryAcceptOrder self e j with
    | error what =>
      have hread : readLoop fuel tryAcceptOrder self e (.ok j) = answer e (failure what) := by
        simp only [readLoop, hm]
      rw [hread]
      refine .of_reply (status?_failure what) fun type htype => ?_
      by_contra hnot
      rw [onMessage_ignored htype hnot] at hm
      cases hm
    | ok handled =>
      rw [readLoop_of_ok hm]
      exact handles_onMessage hm

theorem onSubmitOrder_of_describes (fuel : ℕ) (tryAcceptOrder : Bool) (e : MatchingEngine)
    (hdescribes : Describes j o) (hpasses : Passes o) : onSubmitOrder fuel tryAcceptOrder e j =
      .ok ⟨[.submit tryAcceptOrder o], served fuel e (.submit tryAcceptOrder o)⟩ := by
  have hthere : ¬ ["id", "symbol", "side", "order_type", "quantity"].any
      fun key => (j.get? key).isNone := by
    simp [hdescribes.id, hdescribes.symbol, hdescribes.side, hdescribes.type, hdescribes.quantity]
  rw [onSubmitOrder, if_neg hthere]
  exact Except.bind_eq_ok.mpr ⟨_, readOrder_eq_ok.mpr ⟨hdescribes, hpasses⟩, rfl⟩

theorem onCancelOrder_of_id (fuel : ℕ) (e : MatchingEngine) {id : String}
    (hid : j.get? "order_id" = some (.str id)) (hne : id ≠ "") :
    onCancelOrder e j = .ok ⟨[.cancel id], served fuel e (.cancel id)⟩ := by
  rw [onCancelOrder, if_neg (by simp [hid])]
  refine Except.bind_eq_ok.mpr ⟨_, atKey_eq_ok.mpr hid, Except.bind_eq_ok.mpr ⟨id, rfl, ?_⟩⟩
  rw [if_neg hne]
  rfl

theorem onSubscribe_of_symbol (e : MatchingEngine) (subscribed : String → Handled) {symbol : String}
    (hsymbol : j.get? "symbol" = some (.str symbol)) (hne : symbol ≠ "") :
    onSubscribe e j subscribed = .ok (subscribed symbol) := by
  rw [onSubscribe, if_neg (by simp [hsymbol])]
  refine Except.bind_eq_ok.mpr ⟨_, atKey_eq_ok.mpr hsymbol,
    Except.bind_eq_ok.mpr ⟨symbol, rfl, ?_⟩⟩
  rw [if_neg hne]
  rfl

theorem onModifyOrder_of_id (fuel : ℕ) (e : MatchingEngine) {id : String} {newQty : ℚ}
    (hid : j.get? "order_id" = some (.str id))
    (hquantity : j.get? "new_quantity" = some (.num newQty))
    (hne : id ≠ "") (hpos : 0 ≤ newQty) :
    onModifyOrder e j = .ok ⟨[.modify id newQty], served fuel e (.modify id newQty)⟩ := by
  rw [onModifyOrder, if_neg (by simp [hid, hquantity])]
  refine Except.bind_eq_ok.mpr ⟨_, atKey_eq_ok.mpr hid, Except.bind_eq_ok.mpr ⟨id, rfl,
    Except.bind_eq_ok.mpr ⟨_, atKey_eq_ok.mpr hquantity, Except.bind_eq_ok.mpr ⟨newQty, rfl, ?_⟩⟩⟩⟩
  rw [if_neg (by simp [hne, hpos])]
  rfl

/-- A message that asks for a call makes it, and no other. -/
theorem readLoop_of_asks (fuel : ℕ) (e : MatchingEngine) (h : Asks tryAcceptOrder self j c) :
    readLoop fuel tryAcceptOrder self e (.ok j) = ⟨[c], served fuel e c⟩ := by
  cases h with
  | submit htype hdescribes hpasses =>
    exact readLoop_of_ok (Except.bind_eq_ok.mpr ⟨_, value_of_get? htype _,
      onSubmitOrder_of_describes fuel tryAcceptOrder e hdescribes hpasses⟩)
  | cancel htype hid hne =>
    exact readLoop_of_ok (Except.bind_eq_ok.mpr ⟨_, value_of_get? htype _,
      onCancelOrder_of_id fuel e hid hne⟩)
  | subscribeToMarketData htype hsymbol hne =>
    exact readLoop_of_ok (Except.bind_eq_ok.mpr ⟨_, value_of_get? htype _,
      onSubscribe_of_symbol e _ hsymbol hne⟩)
  | subscribeToTrades htype hsymbol hne =>
    exact readLoop_of_ok (Except.bind_eq_ok.mpr ⟨_, value_of_get? htype _,
      onSubscribe_of_symbol e _ hsymbol hne⟩)
  | modify htype hid hquantity hne hpos =>
    exact readLoop_of_ok (Except.bind_eq_ok.mpr ⟨_, value_of_get? htype _,
      onModifyOrder_of_id fuel e hid hquantity hne hpos⟩)

/-- The calls that a message makes are those it asks for. -/
theorem mem_calls_readLoop : c ∈ (readLoop fuel tryAcceptOrder self e (.ok j)).calls ↔
    Asks tryAcceptOrder self j c := by
  constructor
  · intro hc
    have hhandles := handles_readLoop fuel tryAcceptOrder self e (.ok j)
    generalize readLoop fuel tryAcceptOrder self e (.ok j) = handled at hc hhandles
    cases hhandles with
    | called hasks =>
      obtain rfl := List.mem_singleton.mp hc
      exact hasks
    | _ => exact absurd hc List.not_mem_nil
  · intro hasks
    rw [readLoop_of_asks fuel e hasks]
    exact List.mem_singleton_self c

end WebSocketSession

end GoQuant
