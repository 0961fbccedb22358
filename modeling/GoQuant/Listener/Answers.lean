import GoQuant.Book.Resizing
import GoQuant.Engine.Enumeration
import GoQuant.Engine.Termination
import GoQuant.Listener.Requests

/-!
# Which requests are answered truthfully

A message should get one reply with a status, which is "ok" exactly if what the message asks for
took effect. It does not in these cases: nothing is sent about a type that is not known; an
exception that cannot be printed ends the process; and a cancellation or a change of quantity is
reported as done if a book knows the id, though no order rests under it, or none does any longer.
A change to zero leaves such ids behind. An order whose matching does not end is not answered.

## Main definitions

* `Truthful` — a message is answered as it should be.
* `Answerable` — the messages of which that is true.

## Main results

* `truthful_of_run` — they are, in every state reached, if orders are matched in finite time.
* `untruthful` — a cancellation of nothing, and a message that is not answered.
-/

namespace GoQuant

open MatchingAlgorithm

namespace MatchingEngine

/-- The order that an id stands for: the map of the first book that knows the id leads to it. -/
def Denotes (e : MatchingEngine) (id symbol : String) (r : Ref) : Prop :=
  e.knower id = some symbol ∧ (e.book symbol).orderMap.lookup id = some r

/-- An operation took effect. The order was matched; the order that the id stands for was resting,
and is removed or has the new quantity; the subscription is registered. -/
def TookEffect (e e' : MatchingEngine) : Call → Prop
  | .submit tryAcceptOrder o => tryAcceptOrder = true ∧ ∃ result,
      Returns e.feeModel (e.mem.alloc o).1 (e.book o.symbol) e.mem.next result ∧
        e'.mem = result.mem ∧ e'.book o.symbol = result.book
  | .cancel id => ∃ symbol r, e.Denotes id symbol r ∧ (e.book symbol).Rests r ∧
      ¬ (e'.book symbol).Rests r
  | .modify id newQuantity => ∃ symbol r, e.Denotes id symbol r ∧ (e.book symbol).Rests r ∧
      (e'.mem.order r).quantity = newQuantity ∧ (newQuantity ≠ 0 → (e'.book symbol).Rests r)
  | .subscribeToMarketData symbol callback => (e'.marketDataSubscribers.lookup symbol).getD [] =
      (e.marketDataSubscribers.lookup symbol).getD [] ++ [callback]
  | .subscribeToTrades symbol callback => (e'.tradeSubscribers.lookup symbol).getD [] =
      (e.tradeSubscribers.lookup symbol).getD [] ++ [callback]

/-- Books, pending trigger orders and subscriptions are as they were. -/
structure Unaffected (e e' : MatchingEngine) : Prop where
  book : ∀ symbol, e'.book symbol = e.book symbol
  order : ∀ r < e.mem.next, e'.mem.order r = e.mem.order r
  pending : ∀ symbol, e'.pending symbol = e.pending symbol
  marketDataSubscribers : e'.marketDataSubscribers = e.marketDataSubscribers
  tradeSubscribers : e'.tradeSubscribers = e.tradeSubscribers

/-- The order that the id of an operation stands for rests, if there is one, and its level bears
the new quantity. -/
def Sound (e : MatchingEngine) : Call → Prop
  | .cancel id => ∀ symbol r, e.Denotes id symbol r → (e.book symbol).Rests r
  | .modify id newQuantity => ∀ symbol r, e.Denotes id symbol r →
      (e.book symbol).Rests r ∧ (newQuantity ≠ 0 → (e.book symbol).Bears e.mem r newQuantity)
  | _ => True

variable {e e' : MatchingEngine} {id symbol symbol' : String} {r r' : Ref} {newQuantity : ℚ}

theorem Unaffected.refl (e : MatchingEngine) : e.Unaffected e :=
  ⟨fun _ => rfl, fun _ _ => rfl, fun _ => rfl, rfl, rfl⟩

theorem Unaffected.alloc (e : MatchingEngine) (o : Order) : e.Unaffected (e.alloc o).1 where
  book _ := rfl
  order r hr := Memory.alloc_order_of_lt e.mem r o hr
  pending _ := rfl
  marketDataSubscribers := rfl
  tradeSubscribers := rfl

theorem Denotes.unique (h : e.Denotes id symbol r) (h' : e.Denotes id symbol' r') :
    symbol' = symbol ∧ r' = r := by
  obtain rfl := Option.some.inj (h'.1.symm.trans h.1)
  exact ⟨rfl, Option.some.inj (h'.2.symm.trans h.2)⟩

theorem not_denotes (h : e.knower id = none) : ¬ e.Denotes id symbol r := by
  rintro ⟨hknower, -⟩
  cases h.symm.trans hknower

/-- A book that knows an id leads to an order. -/
theorem exists_denotes (h : e.knower id = some symbol) : ∃ r, e.Denotes id symbol r := by
  have hknown : (e.book symbol).hasOrder id = true := by simpa using List.find?_some h
  obtain ⟨r, hr⟩ := Option.isSome_iff_exists.mp hknown
  exact ⟨r, h, hr⟩

/-! ## Cancellations and changes of quantity -/

theorem cancelOrder_of_knower (e : MatchingEngine) (id : String) : e.cancelOrder id =
    match e.knower id with
    | none => (false, e)
    | some s => (true, (e.cancelledIn id s).publishMarketDataUpdate s) := by
  unfold cancelOrder
  rw [cancelOrderUnlocked_eq]
  cases e.knower id <;> rfl

theorem modifyOrder_of_knower (e : MatchingEngine) (id : String) (newQuantity : ℚ) :
    e.modifyOrder id newQuantity =
      match e.knower id with
      | none => (false, e)
      | some s => (true, (e.modifiedIn id newQuantity s).publishMarketDataUpdate s) := by
  unfold modifyOrder
  rw [modifyOrderUnlocked_eq]
  cases e.knower id <;> rfl

/-- A cancellation in the book that knows the id took effect exactly if the order rests. -/
theorem tookEffect_cancel (hs : e.Books Sane) (h : e.knower id = some symbol) :
    e.TookEffect ((e.cancelledIn id symbol).publishMarketDataUpdate symbol) (.cancel id) ↔
      e.Sound (.cancel id) := by
  obtain ⟨r, hr⟩ := exists_denotes h
  have hbook : ((e.cancelledIn id symbol).publishMarketDataUpdate symbol).book symbol =
      ((e.book symbol).cancelOrder e.mem id).2 := by
    have hwal := SameBooks.writeWAL { e.setBook symbol ((e.book symbol).cancelOrder e.mem id).2 with
      metricOrdersCancelled := e.metricOrdersCancelled + 1 } (.cancel id)
    have hpublish := (publishMarketDataUpdate_idle (e.cancelledIn id symbol) symbol).1
    exact (hpublish.book symbol).trans ((hwal.book symbol).trans (book_setBook_self e _))
  constructor
  · rintro ⟨symbol', r', hr', hrests, -⟩ symbol'' r'' hr''
    obtain ⟨rfl, rfl⟩ := hr'.unique hr''
    exact hrests
  · intro hsound
    refine ⟨symbol, r, hr, hsound symbol r hr, ?_⟩
    rw [hbook]
    exact (hs symbol).not_rests_cancelOrder hr.2

/-- The same for a change of quantity, whose level has to stay, too. -/
theorem tookEffect_modify (hs : e.Books Sane) (h : e.knower id = some symbol) :
    e.TookEffect ((e.modifiedIn id newQuantity symbol).publishMarketDataUpdate symbol)
      (.modify id newQuantity) ↔ e.Sound (.modify id newQuantity) := by
  obtain ⟨r, hr⟩ := exists_denotes h
  obtain ⟨mem, b, hm⟩ := @OrderBook.modifyOrder_ok e.mem (e.book symbol) id newQuantity
    (Option.isSome_iff_exists.mpr ⟨r, hr.2⟩)
  have hsame : { e.setBook symbol b with mem := mem }.SameBooks
      ((e.modifiedIn id newQuantity symbol).publishMarketDataUpdate symbol) := by
    have hwal := SameBooks.writeWAL { e.setBook symbol b with mem := mem } (.modify id newQuantity)
    have hmodified : e.modifiedIn id newQuantity symbol =
        { e.setBook symbol b with mem := mem }.writeWAL (.modify id newQuantity) := by
      rw [modifiedIn, hm]
    rw [hmodified]
    exact hwal.trans (publishMarketDataUpdate_idle _ symbol).1
  have hbook := (hsame.book symbol).trans (book_replace_self e b mem)
  have hrests (hrests : (e.book symbol).Rests r) := (hs symbol).modifyOrder_rests hr.2 hrests hm
  constructor
  · rintro ⟨symbol', r', hr', hold, -, hstays⟩ symbol'' r'' hr''
    obtain ⟨rfl, rfl⟩ := hr'.unique hr''
    obtain ⟨rfl, rfl⟩ := hr.unique hr'
    refine ⟨hold, fun hne => ?_⟩
    rw [hbook] at hstays
    exact (hrests hold).2.mp (hstays hne)
  · intro hsound
    obtain ⟨hold, hbears⟩ := hsound symbol r hr
    refine ⟨symbol, r, hr, hold, ?_, fun hne => ?_⟩
    · rw [hsame.mem]
      exact (hrests hold).1
    · rw [hbook]
      exact (hrests hold).2.mpr (hbears hne)

end MatchingEngine

namespace WebSocketSession

open MatchingEngine

/-- A message that a session receives, as the JSON parser has read it, and whether the rate limiter
would accept an order. -/
structure Message where
  parsed : Except ByteArray Json
  self : Subscriber
  tryAcceptOrder : Bool

namespace Message

variable (fuel : ℕ) (m : Message) (e e' : MatchingEngine)

/-- The message is handled. -/
def handled : Handled := readLoop fuel m.tryAcceptOrder m.self e m.parsed

/-- The message asks for a call of the engine. -/
def Asks (c : Call) : Prop :=
  ∃ j, m.parsed = .ok j ∧ WebSocketSession.Asks m.tryAcceptOrder m.self j c

/-- The message asks for metrics. -/
def AsksMetrics : Prop := ∃ j, m.parsed = .ok j ∧ j.get? "type" = some (.str "get_metrics")

/-- What the message asks for took effect, or is in the reply. -/
def Done (reply : Json) : Prop :=
  (∃ c, m.Asks c ∧ e.TookEffect e' c) ∨
    m.AsksMetrics ∧ reply.get? "metrics" = some e.getMetricsJSON

end Message

/-- What a session sends while it handles a message: what its callbacks send, and the replies. -/
def sent (self : Subscriber) (e e' : MatchingEngine) (replies : List Json) : List Json :=
  (e'.feed.drop e.feed.length).filterMap (dataMessage self) ++ replies

/-- The replies that carry a status. -/
def statusReplies (sent : List Json) : List Json := sent.filter fun reply => (status? reply).isSome

/-- A message is handled, and answered with one status. It is "ok" if what the message asks for is
done, and otherwise "error", and nothing has changed. -/
def Truthful (e : MatchingEngine) (m : Message) : Prop :=
  ∃ fuel replies e' reply, (m.handled fuel e).outcome = some (replies, e') ∧
    statusReplies (sent m.self e e' replies) = [reply] ∧
    (status? reply = some (.str "ok") ∧ m.Done e e' reply ∨
      status? reply = some (.str "error") ∧ ¬ m.Done e e' reply ∧ e.Unaffected e')

/-- An exception that the parser throws can be printed, the type of the message is known or no
string, and what the message asks for can be done soundly. -/
structure Answerable (e : MatchingEngine) (m : Message) : Prop where
  printable : ∀ what, m.parsed = .error what → String.fromUTF8? what ≠ none
  known : ∀ j, m.parsed = .ok j → ∀ type, j.value Json.getString "type" "" = .ok type →
    type ∈ requestTypes
  sound : ∀ c, m.Asks c → e.Sound c

/-- A message is handled. -/
def MessageStep (e : MatchingEngine) (m : Message) (e' : MatchingEngine) : Prop :=
  ∃ fuel replies, (m.handled fuel e).outcome = some (replies, e')

/-- An order that a message submits meets nothing but orders that are found by their ids. -/
def Matched (e : MatchingEngine) (m : Message) : Prop :=
  ∀ o, m.Asks (.submit true o) → o.type ≠ .fok → Exhaustible e.mem (e.book o.symbol) o

variable {fuel : ℕ} {tryAcceptOrder : Bool} {self : Subscriber} {e e' : MatchingEngine} {j : Json}
  {c c' : Call} {m : Message} {replies : List Json}

/-! ## Replies -/

theorem status?_updateMessage (update : MarketDataUpdate) :
    status? (updateMessage update) = none := by
  unfold updateMessage
  split <;> rfl

theorem status?_dataMessage {d : Delivery} (h : dataMessage self d = some j) :
    status? j = none := by
  cases d with
  | marketData subscriber update =>
    simp only [dataMessage, Option.ite_none_right_eq_some, Option.some.injEq] at h
    obtain ⟨-, rfl⟩ := h
    exact status?_updateMessage update
  | trade subscriber trade =>
    simp only [dataMessage, Option.ite_none_right_eq_some, Option.some.injEq] at h
    obtain ⟨-, rfl⟩ := h
    rfl

/-- Only replies have a status. -/
theorem statusReplies_sent (self : Subscriber) (e e' : MatchingEngine) (replies : List Json) :
    statusReplies (sent self e e' replies) = statusReplies replies := by
  have hnone : ((e'.feed.drop e.feed.length).filterMap (dataMessage self)).filter
      (fun reply => (status? reply).isSome) = [] := by
    refine List.filter_eq_nil_iff.mpr fun reply hreply => ?_
    obtain ⟨d, -, hd⟩ := List.mem_filterMap.mp hreply
    simp [status?_dataMessage hd]
  rw [statusReplies, sent, List.filter_append, hnone, List.nil_append, statusReplies]

/-- A message asks for one thing. -/
theorem Message.Asks.unique (h : m.Asks c) (h' : m.Asks c') : c' = c := by
  obtain ⟨j', hj', hasks⟩ := h
  obtain ⟨j, hj, hasks'⟩ := h'
  obtain rfl := Except.ok.inj (hj'.symm.trans hj)
  have hmem : c' ∈ (readLoop 0 m.tryAcceptOrder m.self (.fresh .empty .plain none)
      (.ok j')).calls :=
    mem_calls_readLoop.mpr hasks'
  rw [readLoop_of_asks 0 _ hasks] at hmem
  exact List.mem_singleton.mp hmem

theorem Message.Asks.not_metrics (h : m.Asks c) : ¬ m.AsksMetrics := by
  obtain ⟨j, hj, hasks⟩ := h
  rintro ⟨j', hj', hmetrics⟩
  obtain rfl := Except.ok.inj (hj'.symm.trans hj)
  cases hasks with
  | submit htype | cancel htype | subscribeToMarketData htype | subscribeToTrades htype
  | modify htype =>
    rw [hmetrics] at htype
    simp at htype

/-- A message that asks for a call is done if the call took effect. -/
theorem Message.Asks.done_iff (h : m.Asks c) (reply : Json) :
    m.Done e e' reply ↔ e.TookEffect e' c := by
  constructor
  · rintro (⟨c', hasks, hdone⟩ | ⟨hmetrics, -⟩)
    · exact h.unique hasks ▸ hdone
    · exact absurd hmetrics h.not_metrics
  · exact fun hdone => Or.inl ⟨c, h, hdone⟩

theorem Message.Asks.outcome (h : m.Asks c) (fuel : ℕ) (e : MatchingEngine) :
    (m.handled fuel e).outcome = served fuel e c := by
  obtain ⟨j, hj, hasks⟩ := h
  rw [Message.handled, hj, readLoop_of_asks fuel e hasks]

/-! ## Calls -/

/-- How a call is answered: as done, or as an error that changes nothing. -/
structure Answers (e e' : MatchingEngine) (c : Call) (reply : Json) : Prop where
  status : status? reply = some (.str "ok") ∨ status? reply = some (.str "error")
  tookEffect : status? reply = some (.str "ok") → (e.TookEffect e' c ↔ e.Sound c)
  unaffected : status? reply = some (.str "error") →
    ¬ e.TookEffect e' c ∧ e.Unaffected e' ∧ e.Sound c

theorem Answers.of_ok {reply : Json} (hreply : status? reply = some (.str "ok"))
    (h : e.TookEffect e' c ↔ e.Sound c) : Answers e e' c reply where
  status := Or.inl hreply
  tookEffect _ := h
  unaffected herror := by
    rw [hreply] at herror
    simp at herror

theorem Answers.of_error {reply : Json} (hreply : status? reply = some (.str "error"))
    (h : ¬ e.TookEffect e' c) (hsame : e.Unaffected e') (hsound : e.Sound c) :
    Answers e e' c reply where
  status := Or.inr hreply
  tookEffect hok := by
    rw [hreply] at hok
    simp at hok
  unaffected _ := ⟨h, hsame, hsound⟩

/-- One reply to a call has a status. -/
theorem exists_answers (hs : e.Books Sane) (hidle : e.Untriggered)
    (hasks : Asks tryAcceptOrder self j c) (h : served fuel e c = some (replies, e')) :
    ∃ reply, statusReplies replies = [reply] ∧ Answers e e' c reply := by
  cases hasks with
  | @submit o _ _ hpasses =>
    obtain ⟨⟨out, u⟩, hsubmit, heq⟩ := Option.map_eq_some_iff.mp h
    obtain ⟨rfl, rfl⟩ := Prod.mk.inj heq
    cases tryAcceptOrder with
    | false =>
      obtain ⟨rfl, rfl⟩ := Prod.mk.inj (Option.some.inj hsubmit)
      refine ⟨_, rfl, .of_error rfl ?_ (.alloc e o) trivial⟩
      rintro ⟨hfalse, -⟩
      cases hfalse
    | true =>
      obtain ⟨rfl, result, hr, hsame⟩ := hidle.submitOrder hpasses.type hsubmit
      refine ⟨_, rfl, .of_ok rfl (iff_of_true ⟨rfl, result, hr, hsame.mem, ?_⟩ trivial)⟩
      exact (hsame.book o.symbol).trans (book_matched_self _ _)
  | @cancel id =>
    simp only [served, cancelOrder_of_knower] at h
    cases hknower : e.knower id with
    | none =>
      simp only [hknower, Option.some.injEq, Prod.mk.injEq] at h
      obtain ⟨rfl, rfl⟩ := h
      refine ⟨_, rfl, .of_error rfl ?_ (.refl e) fun _ _ hr => absurd hr (not_denotes hknower)⟩
      rintro ⟨symbol, r, hr, -⟩
      exact not_denotes hknower hr
    | some symbol =>
      simp only [hknower, Option.some.injEq, Prod.mk.injEq] at h
      obtain ⟨rfl, rfl⟩ := h
      exact ⟨_, rfl, .of_ok rfl (tookEffect_cancel hs hknower)⟩
  | @subscribeToMarketData symbol =>
    obtain ⟨rfl, rfl⟩ := Prod.mk.inj (Option.some.inj h)
    refine ⟨.obj [("status", .str "ok"), ("message", .str "subscribed_market_data"),
      ("symbol", .str symbol)], ?_, .of_ok rfl (iff_of_true ?_ trivial)⟩
    · -- the snapshot that follows the reply has no status
      rw [statusReplies, List.filter_cons_of_pos rfl, List.filter_cons_of_neg, List.filter_nil]
      simp [status?_updateMessage]
    · simp [TookEffect, subscribeToMarketData]
  | @subscribeToTrades symbol =>
    obtain ⟨rfl, rfl⟩ := Prod.mk.inj (Option.some.inj h)
    refine ⟨_, rfl, .of_ok rfl (iff_of_true ?_ trivial)⟩
    simp [TookEffect, subscribeToTrades]
  | @modify id newQty =>
    simp only [served, modifyOrder_of_knower] at h
    cases hknower : e.knower id with
    | none =>
      simp only [hknower, Option.some.injEq, Prod.mk.injEq] at h
      obtain ⟨rfl, rfl⟩ := h
      refine ⟨_, rfl, .of_error rfl ?_ (.refl e) fun _ _ hr => absurd hr (not_denotes hknower)⟩
      rintro ⟨symbol, r, hr, -⟩
      exact not_denotes hknower hr
    | some symbol =>
      simp only [hknower, Option.some.injEq, Prod.mk.injEq] at h
      obtain ⟨rfl, rfl⟩ := h
      exact ⟨_, rfl, .of_ok rfl (tookEffect_modify hs hknower)⟩

/-- A call returns if the matching of the order ends that it submits. -/
theorem exists_served (hidle : e.Untriggered) (hasks : Asks tryAcceptOrder self j c)
    (hreturns : ∀ o, c = .submit true o → ∃ result,
      Returns e.feeModel (e.mem.alloc o).1 (e.book o.symbol) e.mem.next result) :
    ∃ fuel p, served fuel e c = some p := by
  cases hasks with
  | @submit o _ _ hpasses =>
    cases tryAcceptOrder with
    | false => exact ⟨0, _, rfl⟩
    | true =>
      obtain ⟨result, hr⟩ := hreturns o rfl
      obtain ⟨fuel, p, hp⟩ := exists_submitOrder hidle hpasses.type hr
      exact ⟨fuel, _, Option.map_eq_some_iff.mpr ⟨p, hp, rfl⟩⟩
  | _ => exact ⟨0, _, rfl⟩

/-! ## Messages -/

theorem readLoop_of_metrics (fuel : ℕ) (tryAcceptOrder : Bool) (self : Subscriber)
    (e : MatchingEngine) (h : j.get? "type" = some (.str "get_metrics")) :
    readLoop fuel tryAcceptOrder self e (.ok j) = onGetMetrics e :=
  readLoop_of_ok (Except.bind_eq_ok.mpr ⟨_, Json.value_of_get? h _, rfl⟩)

theorem Truthful.answerable (hs : e.Books Sane) (hidle : e.Untriggered) (h : Truthful e m) :
    Answerable e m := by
  obtain ⟨fuel, replies, e', reply, houtcome, hreplies, hstatus⟩ := h
  rw [statusReplies_sent] at hreplies
  constructor
  case printable =>
    intro what hwhat hnone
    rw [Message.handled, hwhat] at houtcome
    simp [readLoop, hnone] at houtcome
  case known =>
    intro j hj type htype
    by_contra hnot
    rw [Message.handled, hj, readLoop_of_ok (onMessage_ignored htype hnot)] at houtcome
    obtain ⟨rfl, rfl⟩ := Prod.mk.inj (Option.some.inj houtcome)
    cases hreplies
  case sound =>
    intro c hasks
    rw [hasks.outcome] at houtcome
    obtain ⟨j, -, hasks'⟩ := id hasks
    obtain ⟨reply', hreply', hanswers⟩ := exists_answers hs hidle hasks' houtcome
    obtain rfl := List.head_eq_of_cons_eq (hreply'.symm.trans hreplies)
    rcases hstatus with ⟨hok, hdone⟩ | ⟨herror, -⟩
    · exact (hanswers.tookEffect hok).mp ((hasks.done_iff _).mp hdone)
    · exact (hanswers.unaffected herror).2.2

/-- What asks for no call is answered at once. -/
theorem Answerable.truthful_of_not_asks (h : Answerable e m) (hnone : ∀ c, ¬ m.Asks c) :
    Truthful e m := by
  have hhandles := handles_readLoop 0 m.tryAcceptOrder m.self e m.parsed
  generalize hread : readLoop 0 m.tryAcceptOrder m.self e m.parsed = handled at hhandles
  generalize hparsed : m.parsed = parsed at hhandles
  have houtcome : (m.handled 0 e).outcome = handled.outcome := congrArg Handled.outcome hread
  cases hhandles with
  | escaped hwhat => exact absurd hwhat (h.printable _ hparsed)
  | ignored htype hnot => exact absurd (h.known _ hparsed _ htype) hnot
  | called hasks => exact absurd ⟨_, hparsed, hasks⟩ (hnone _)
  | @refused _ reply _ _ hreply =>
    have hone : statusReplies [reply] = [reply] :=
      List.filter_eq_self.mpr fun r hr => by rw [List.mem_singleton.mp hr, hreply]; rfl
    refine ⟨0, [reply], e, reply, houtcome, ?_, Or.inr ⟨hreply, ?_, .refl e⟩⟩
    · rw [statusReplies_sent, hone]
    · rintro (⟨c, hasks, -⟩ | ⟨⟨j, hj, hmetrics⟩, -⟩)
      · exact hnone c hasks
      · -- metrics are returned, and not refused
        rw [hj, readLoop_of_metrics 0 _ _ e hmetrics] at hread
        have hreplies := congrArg Handled.outcome hread
        obtain ⟨hreplies, -⟩ := Prod.mk.inj (Option.some.inj hreplies)
        rw [← List.head_eq_of_cons_eq hreplies] at hreply
        simp [status?, Json.get?] at hreply
  | metrics hmetrics =>
    refine ⟨0, _, e, .obj [("status", .str "ok"), ("metrics", e.getMetricsJSON)], houtcome, ?_,
      Or.inl ⟨rfl, Or.inr ⟨⟨_, hparsed, hmetrics⟩, rfl⟩⟩⟩
    rw [statusReplies_sent]
    rfl

theorem Answerable.truthful (hs : e.Books Sane) (hidle : e.Untriggered) (h : Answerable e m)
    (hreturns : ∀ o, m.Asks (.submit true o) → ∃ result,
      Returns e.feeModel (e.mem.alloc o).1 (e.book o.symbol) e.mem.next result) :
    Truthful e m := by
  by_cases hasks : ∃ c, m.Asks c
  · obtain ⟨c, hasks⟩ := hasks
    obtain ⟨j, -, hasks'⟩ := id hasks
    obtain ⟨fuel, ⟨replies, e'⟩, hserved⟩ := exists_served hidle hasks' fun o hc =>
      hreturns o (hc ▸ hasks)
    obtain ⟨reply, hreply, hanswers⟩ := exists_answers hs hidle hasks' hserved
    refine ⟨fuel, replies, e', reply, (hasks.outcome fuel e).trans hserved, ?_, ?_⟩
    · rw [statusReplies_sent, hreply]
    · rw [hasks.done_iff]
      rcases hanswers.status with hok | herror
      · exact Or.inl ⟨hok, (hanswers.tookEffect hok).mpr (h.sound c hasks)⟩
      · obtain ⟨hnot, hsame, -⟩ := hanswers.unaffected herror
        exact Or.inr ⟨herror, hnot, hsame⟩
  · exact h.truthful_of_not_asks (not_exists.mp hasks)

/-! ## Runs -/

/-- A step calls the engine once, or not at all. -/
theorem MessageStep.call (h : MessageStep e m e') :
    e' = e ∨ ∃ fuel c, m.Asks c ∧ e.call fuel c = some e' := by
  obtain ⟨fuel, replies, houtcome⟩ := h
  have hhandles := handles_readLoop fuel m.tryAcceptOrder m.self e m.parsed
  rw [Message.handled] at houtcome
  generalize readLoop fuel m.tryAcceptOrder m.self e m.parsed = handled at houtcome hhandles
  generalize hparsed : m.parsed = parsed at hhandles
  cases hhandles with
  | escaped => cases houtcome
  | called hasks => exact Or.inr ⟨fuel, _, ⟨_, hparsed, hasks⟩, call_of_served houtcome⟩
  | refused | ignored | metrics =>
    obtain ⟨-, rfl⟩ := Prod.mk.inj (Option.some.inj houtcome)
    exact Or.inl rfl

theorem Message.Asks.passes {o : Order} (h : m.Asks (.submit tryAcceptOrder o)) : Passes o := by
  obtain ⟨j, -, hasks⟩ := h
  cases hasks with
  | submit _ _ hpasses => exact hpasses

section Runs

variable {mem : Memory} {hashOrder : HashOrder} {feeModel : Option FeeModel}
  {file : Option (List Json)} {messages : List Message}

/-- The books are sane, and no trigger order waits. -/
theorem settled_of_run
    (h : Run MessageStep ((fresh mem hashOrder feeModel).startWAL file).2 messages e) :
    e.Books Sane ∧ e.Untriggered := by
  refine h.invariant (fun e => e.Books Sane ∧ e.Untriggered)
    (idle_startWAL mem hashOrder feeModel file) ?_
  rintro e m e' ⟨hs, hidle⟩ hstep
  obtain rfl | ⟨fuel, c, hasks, hcall⟩ := hstep.call
  · exact ⟨hs, hidle⟩
  · refine ⟨bookInvariant_sane.sections.call hcall hs, ?_⟩
    refine untriggered_sections.call (fun o ho => ?_) hcall hidle
    subst ho
    exact hasks.passes.type

/-- **Truthful answers.** In every state that messages lead to, a message is answered truthfully
exactly if it is answerable. To a message that submits an order this applies if the order meets
nothing but orders that are found by their ids. -/
theorem truthful_of_run
    (h : Run MessageStep ((fresh mem hashOrder feeModel).startWAL file).2 messages e) (m : Message)
    (hmatched : Matched e m) : Truthful e m ↔ Answerable e m := by
  obtain ⟨hs, hidle⟩ := settled_of_run h
  refine ⟨Truthful.answerable hs hidle, fun hanswerable => ?_⟩
  refine hanswerable.truthful hs hidle fun o ho => ?_
  exact exists_returns hs ho.passes.type ho.passes.quantity (hmatched o ho)

/-- An ask, what sets it to nothing, and its cancellation. -/
def askMessage : Message :=
  ⟨.ok (.obj [("type", .str "submit_order"), ("id", .str "a"), ("symbol", .str "S"),
    ("side", .str "sell"), ("order_type", .str "limit"), ("quantity", .num 5),
    ("price", .num 100)]), 7, true⟩

def emptyMessage : Message :=
  ⟨.ok (.obj [("type", .str "modify_order"), ("order_id", .str "a"), ("new_quantity", .num 0)]), 7,
    true⟩

def cancelMessage : Message :=
  ⟨.ok (.obj [("type", .str "cancel_order"), ("order_id", .str "a")]), 7, true⟩

theorem cancelMessage_asks : cancelMessage.Asks (.cancel "a") :=
  ⟨_, rfl, .cancel rfl rfl (by decide)⟩

/-- What a cancellation of the ask depends on. -/
def seen (e : MatchingEngine) : Option String × Option Ref × List Ref :=
  (e.knower "a", (e.book "S").orderMap.lookup "a", (e.book "S").resting)

/-- The ask is cancelled while it rests. -/
theorem truthful_of_run_cancel : ∃ e,
    Run MessageStep ((fresh .empty .plain none).startWAL none).2 [askMessage] e ∧
    (e.book "S").resting = [0] ∧ Truthful e cancelMessage := by
  let start := ((fresh .empty .plain none).startWAL none).2
  have hseen : (askMessage.handled 3 start).outcome.map (fun p => seen p.2) =
      some (some "S", some 0, [0]) := by decide +kernel
  obtain ⟨⟨replies, e⟩, houtcome, hseen⟩ := Option.map_eq_some_iff.mp hseen
  simp only [seen, Prod.mk.injEq] at hseen
  obtain ⟨hknower, hlookup, hresting⟩ := hseen
  have hstep : MessageStep start askMessage e := ⟨3, replies, houtcome⟩
  have hmatched : Matched e cancelMessage := by
    intro o ho
    cases cancelMessage_asks.unique ho
  refine ⟨e, .one hstep, hresting, ?_⟩
  apply (truthful_of_run (.one hstep) cancelMessage hmatched).mpr
  constructor
  case printable =>
    intro what hwhat
    cases hwhat
  case known =>
    intro j hj type htype
    obtain rfl := Except.ok.inj hj
    obtain rfl := Except.ok.inj htype
    decide
  case sound =>
    intro c hasks
    obtain rfl := cancelMessage_asks.unique hasks
    intro symbol r hr
    obtain ⟨rfl, rfl⟩ := Denotes.unique ⟨hknower, hlookup⟩ hr
    exact OrderBook.mem_resting.mp (by simp [hresting])

/-- **Nothing is cancelled, and the answer is "ok".** The ask is set to zero, which takes it out of
its level but leaves its id. A message of an unknown type is not answered at all. -/
theorem untruthful : ∃ e,
    Run MessageStep ((fresh .empty .plain none).startWAL none).2 [askMessage, emptyMessage] e ∧
    (e.book "S").resting = [] ∧
    (∃ e' reply, (cancelMessage.handled 0 e).outcome = some ([reply], e') ∧
      status? reply = some (.str "ok")) ∧ ¬ Truthful e cancelMessage ∧
    (∀ fuel, (Message.handled fuel ⟨.ok (.obj [("type", .str "ping")]), 7, true⟩ e).outcome =
      some ([], e)) ∧ ¬ Truthful e ⟨.ok (.obj [("type", .str "ping")]), 7, true⟩ := by
  let start := ((fresh .empty .plain none).startWAL none).2
  let first := (askMessage.handled 3 start).outcome
  have hseen : (first.bind fun p => (emptyMessage.handled 0 p.2).outcome.map fun q => seen q.2) =
      some (some "S", some 0, []) := by decide +kernel
  obtain ⟨⟨replies, e⟩, hfirst, hsecond⟩ := Option.bind_eq_some_iff.mp hseen
  obtain ⟨⟨replies', e'⟩, hsecond, hseen⟩ := Option.map_eq_some_iff.mp hsecond
  simp only [seen, Prod.mk.injEq] at hseen
  obtain ⟨hknower, hlookup, hresting⟩ := hseen
  have hrun : Run MessageStep start [askMessage, emptyMessage] e' :=
    (Run.one ⟨3, replies, hfirst⟩).snoc ⟨0, replies', hsecond⟩
  obtain ⟨hs, hidle⟩ := settled_of_run hrun
  refine ⟨e', hrun, hresting, ?_, fun h => ?_, fun _ => rfl, fun h => ?_⟩
  · rw [cancelMessage_asks.outcome, served, cancelOrder_of_knower, hknower]
    exact ⟨_, _, rfl, rfl⟩
  · have hrests := (h.answerable hs hidle).sound _ cancelMessage_asks "S" 0 ⟨hknower, hlookup⟩
    rw [← OrderBook.mem_resting, hresting] at hrests
    exact List.not_mem_nil hrests
  · exact absurd ((h.answerable hs hidle).known _ rfl "ping" rfl) (by decide)

end Runs

end WebSocketSession

end GoQuant
