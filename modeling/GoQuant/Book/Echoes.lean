import GoQuant.Book.Names
import GoQuant.Book.Renaming
import GoQuant.Book.Runs

/-!
# Corresponding books trade alike

Two books that hold the same orders answer every call with the same trades, on the same fuel:
nothing but the trade ids, which number the trades of the whole process, tells the answers
apart.

## Main definitions

* `Trade.anonymous` — a trade without its id.
* `BookState.answer` — a call with what it returns or throws.
* `Alike` — two books that hold the same orders, each in its process.

## Main results

* `processOrder_echoes` — matching corresponding orders.
* `Alike.answer`, `Alike.exec` — one call, and a sequence of calls.
-/

namespace GoQuant

open MatchingAlgorithm

/-- A trade without its id. -/
def Trade.anonymous (t : Trade) : Trade := { t with tradeId := "" }

/-- The trade of two orders, without its id. -/
def Trade.between (feeModel : Option FeeModel) (maker taker : Order) (price quantity : ℚ) :
    Trade where
  tradeId := ""
  symbol := maker.symbol
  price := price
  quantity := quantity
  makerFee := (fees feeModel maker.symbol price quantity).1
  takerFee := (fees feeModel maker.symbol price quantity).2
  makerOrderId := maker.id
  takerOrderId := taker.id
  aggressorSide := taker.side
  seqNum := 0

/-- An id and all the rest make up a trade. -/
theorem trades_eq {trades trades' : List Trade}
    (hrest : trades'.map Trade.anonymous = trades.map Trade.anonymous)
    (hids : trades'.map Trade.tradeId = trades.map Trade.tradeId) : trades' = trades := by
  induction trades generalizing trades' with
  | nil => simpa using hids
  | cons t trades ih =>
    cases trades' with
    | nil => simp at hids
    | cons t' trades' =>
      simp only [List.map_cons, List.cons.injEq] at hrest hids
      obtain rfl := ih hrest.2 hids.2
      have heq : t' = t := by
        cases t
        cases t'
        simp_all [Trade.anonymous]
      rw [heq]

/-- Corresponding states of a matching loop, with the same trades so far. -/
structure Matching.Echoes (f : Ref → Ref) (known : Set Ref) (s s' : Matching) : Prop
    extends Matching.Renames f known s s' where
  trades : s'.trades.map Trade.anonymous = s.trades.map Trade.anonymous

variable {f : Ref → Ref} {known : Set Ref} {mem mem' : Memory} {b b' : OrderBook}
  {feeModel : Option FeeModel} {order m : Ref} {s s' : Matching}

/-- The trade of one fill, without its id. -/
theorem fillOne_anonymous (feeModel : Option FeeModel) (order m : Ref) (s : Matching) :
    (fillOne feeModel order m s).trades.map Trade.anonymous =
      s.trades.map Trade.anonymous ++ [Trade.between feeModel
        ((fillOne feeModel order m s).mem.order m) ((fillOne feeModel order m s).mem.order order)
        (s.mem.order m).price (min s.remainingQty (s.mem.order m).quantity)] :=
  List.map_append

namespace Matching.Echoes

theorem start (hm : Memory.Renames f known mem mem') (hb : OrderBook.Renames f known b b')
    (ho : order ∈ known) : (start mem b order).Echoes f known (start mem' b' (f order)) :=
  ⟨.start hm hb ho, rfl⟩

theorem fillOne (h : s.Echoes f known s') (hm : m ∈ known) (ho : order ∈ known) :
    (fillOne feeModel order m s).Echoes f known (fillOne feeModel (f order) (f m) s') := by
  have hr : (MatchingAlgorithm.fillOne feeModel order m s).Renames f known
      (MatchingAlgorithm.fillOne feeModel (f order) (f m) s') := h.toRenames.fillOne hm ho
  refine ⟨hr, ?_⟩
  rw [fillOne_anonymous, fillOne_anonymous, h.trades, hr.mem.order m hm, hr.mem.order order ho,
    h.mem.order m hm, h.remaining]

/-- The `for` loop over corresponding orders. -/
theorem fillFrom {ms : List Ref} (h : s.Echoes f known s') (ho : order ∈ known)
    (hms : ∀ m ∈ ms, m ∈ known) :
    (fillFrom feeModel order ms s).Echoes f known
      (fillFrom feeModel (f order) (ms.map f) s') := by
  induction ms generalizing s s' with
  | nil => exact h
  | cons m ms ih =>
    simp only [List.map_cons, MatchingAlgorithm.fillFrom, h.remaining]
    split_ifs
    · exact h
    · exact ih (h.fillOne (hms m List.mem_cons_self) ho)
        fun m' hm' => hms m' (List.mem_cons_of_mem m hm')

/-- Both sides make a pass, or neither does. -/
theorem pass (h : s.Echoes f known s') (ho : order ∈ known) :
    Option.Rel (Matching.Echoes f known) (pass feeModel order s)
      (pass feeModel (f order) s') := by
  have hget := h.book.getMatchingOrders h.mem (s.mem.order order)
  have hknown : ∀ m ∈ s.book.getMatchingOrders s.mem (s.mem.order order), m ∈ known :=
    fun m hm => h.book.rests m (OrderBook.rests_of_mem_getMatchingOrders hm)
  unfold MatchingAlgorithm.pass
  rw [h.mem.order order ho, hget]
  generalize s.book.getMatchingOrders s.mem (s.mem.order order) = ms at hknown
  cases ms with
  | nil => exact .none
  | cons m ms => exact .some (h.fillFrom ho hknown)

theorem marketStep (h : s.Echoes f known s') (ho : order ∈ known) :
    Option.Rel (Matching.Echoes f known) (marketStep feeModel order s)
      (marketStep feeModel (f order) s') := by
  unfold MatchingAlgorithm.marketStep
  rw [h.remaining]
  split_ifs
  · exact h.pass ho
  · exact .none

theorem limitStep (h : s.Echoes f known s') (ho : order ∈ known) :
    Option.Rel (Matching.Echoes f known) (limitStep feeModel order s)
      (limitStep feeModel (f order) s') := by
  unfold MatchingAlgorithm.limitStep
  rw [h.remaining, h.mem.order order ho, h.book.hasMatchingOrders]
  split_ifs
  · exact h.pass ho
  · exact .none

theorem restRemainder (h : s.Echoes f known s') (ho : order ∈ known) :
    (restRemainder order s).Echoes f known (restRemainder (f order) s') := by
  refine ⟨h.toRenames.restRemainder ho, ?_⟩
  have hkept : ∀ order (s : Matching), (MatchingAlgorithm.restRemainder order s).trades =
      s.trades := by
    intro order s
    unfold MatchingAlgorithm.restRemainder
    split_ifs <;> rfl
  rw [hkept, hkept, h.trades]

end Matching.Echoes

theorem processFOKOrder_echoes (hm : Memory.Renames f known mem mem')
    (hb : OrderBook.Renames f known b b') (ho : order ∈ known) :
    (processFOKOrder feeModel mem b order).Echoes f known
      (processFOKOrder feeModel mem' b' (f order)) := by
  have hknown : ∀ m ∈ b.getMatchingOrders mem (mem.order order), m ∈ known :=
    fun m hin => hb.rests m (OrderBook.rests_of_mem_getMatchingOrders hin)
  unfold processFOKOrder
  simp only [hm.order order ho, hb.getMatchingOrders hm, availableQty_renames hm hknown]
  split_ifs
  · exact .start hm hb ho
  · exact (Matching.Echoes.start hm hb ho).fillFrom ho hknown

/-- Corresponding orders, matched in corresponding books on the same fuel: the same exception, or
the same trades, or neither side is done. -/
theorem processOrder_echoes (feeModel : Option FeeModel) (fuel : ℕ)
    (hm : Memory.Renames f known mem mem')
    (hb : OrderBook.Renames f known b b') (ho : order ∈ known) :
    (∃ message, processOrder feeModel fuel mem b order = .error message ∧
      processOrder feeModel fuel mem' b' (f order) = .error message) ∨
    ∃ result result', processOrder feeModel fuel mem b order = .ok result ∧
      processOrder feeModel fuel mem' b' (f order) = .ok result' ∧
      Option.Rel (Matching.Echoes f known) result result' := by
  have hstart := Matching.Echoes.start hm hb ho
  have hmarket := Loop.run_rel (Matching.Echoes f known)
    (fun s s' h => @Matching.Echoes.marketStep f known feeModel order s s' h ho) fuel hstart
  have hlimit := Loop.run_rel (Matching.Echoes f known)
    (fun s s' h => @Matching.Echoes.limitStep f known feeModel order s s' h ho) fuel hstart
  unfold processOrder
  rw [hm.order order ho]
  cases (mem.order order).type with
  | market => exact .inr ⟨_, _, rfl, rfl, hmarket⟩
  | limit =>
    refine .inr ⟨_, _, rfl, rfl, ?_⟩
    unfold processLimitOrder
    generalize Loop.run (limitStep feeModel order) fuel (MatchingAlgorithm.start mem b order) = t,
      Loop.run (limitStep feeModel (f order)) fuel
        (MatchingAlgorithm.start mem' b' (f order)) = t' at hlimit
    cases hlimit with
    | some h => exact .some (h.restRemainder ho)
    | none => exact .none
  | ioc => exact .inr ⟨_, _, rfl, rfl, hlimit⟩
  | fok => exact .inr ⟨_, _, rfl, rfl, .some (processFOKOrder_echoes hm hb ho)⟩
  | stopLoss => exact .inl ⟨_, rfl, rfl⟩
  | stopLimit => exact .inl ⟨_, rfl, rfl⟩
  | takeProfit => exact .inl ⟨_, rfl, rfl⟩
  | other => exact .inl ⟨_, rfl, rfl⟩

/-! ## Calls -/

/-- What a call on a book returns or throws. -/
inductive Answer where
  | trades (ts : List Trade)
  | cancelled (found : Bool)
  | modified
  | thrown (message : String)
  deriving DecidableEq

/-- An answer without the ids of its trades. -/
def Answer.anonymous : Answer → Answer
  | .trades ts => .trades (ts.map Trade.anonymous)
  | answer => answer

/-- A call on a book, executed on fuel. The object of a submitted order is built for the call,
and an exception leaves the book as it is. -/
def BookState.answer (feeModel : Option FeeModel) (fuel : ℕ) (s : BookState) :
    Request → Option (Answer × BookState)
  | .submit o =>
    match processOrder feeModel fuel (s.mem.alloc o).1 s.book s.mem.next with
    | .ok none => none
    | .ok (some result) => some (.trades result.trades, ⟨result.mem, result.book⟩)
    | .error message => some (.thrown message, ⟨(s.mem.alloc o).1, s.book⟩)
  | .cancel orderId =>
    let (found, book) := s.book.cancelOrder s.mem orderId
    some (.cancelled found, ⟨s.mem, book⟩)
  | .modify orderId newQuantity =>
    match s.book.modifyOrder s.mem orderId newQuantity with
    | .ok (mem, book) => some (.modified, ⟨mem, book⟩)
    | .error message => some (.thrown message, s)

/-- Two books that hold the same orders, each in its process. Where `sameCounter` holds, the next
trade has the same id in both. -/
def Alike (sameCounter : Prop) (s s' : BookState) : Prop :=
  (∃ f known, Memory.Renames f known s.mem s'.mem ∧
    OrderBook.Renames f known s.book s'.book) ∧
  (sameCounter → s'.mem.tradeCounter = s.mem.tradeCounter)

variable {sameCounter : Prop} {t t' : BookState}

theorem Alike.sameContents (h : Alike sameCounter t t') :
    SameContents t.mem t.book t'.mem t'.book := by
  obtain ⟨⟨f, known, hm, hb⟩, -⟩ := h
  exact hb.sameContents hm

/-- Answers that differ in trade ids at most. -/
def Answer.Echoes (sameCounter : Prop) (a a' : Answer) : Prop :=
  a'.anonymous = a.anonymous ∧ (sameCounter → a' = a)

/-- A change of quantity only fails for an id that is not known. -/
theorem OrderBook.modifyOrder_error {id message : String} {q : ℚ} :
    b.modifyOrder mem id q = .error message ↔
      b.hasOrder id = false ∧ message = "Order not found" := by
  unfold OrderBook.modifyOrder OrderBook.hasOrder
  cases b.orderMap.lookup id with
  | none => simp [eq_comm]
  | some r =>
    dsimp only
    split <;> simp

/-- Where the trades are numbered from the same counter on, they are the same. -/
theorem sameTrades_of_minted {result result' : Matching} (h : result.Echoes f known result')
    (hids : ∃ n, result.trades.map Trade.tradeId = mem.tradeIds n ∧
      result.mem.tradeCounter = mem.tradeCounter + n)
    (hids' : ∃ n, result'.trades.map Trade.tradeId = mem'.tradeIds n ∧
      result'.mem.tradeCounter = mem'.tradeCounter + n)
    (hcounter : mem'.tradeCounter = mem.tradeCounter) :
    result'.trades = result.trades ∧ result'.mem.tradeCounter = result.mem.tradeCounter := by
  obtain ⟨n, hids, hnext⟩ := hids
  obtain ⟨n', hids', hnext'⟩ := hids'
  have hlength := congrArg List.length h.trades
  have hn := congrArg List.length hids
  have hn' := congrArg List.length hids'
  simp only [List.length_map, Memory.tradeIds, List.length_range'] at hlength hn hn'
  obtain rfl : n' = n := by omega
  refine ⟨trades_eq h.trades ?_, by omega⟩
  rw [hids', hids, Memory.tradeIds, Memory.tradeIds, hcounter]

/-- One call on both books. -/
theorem Alike.answer (h : Alike sameCounter t t') (feeModel : Option FeeModel) (fuel : ℕ)
    (req : Request) :
    Option.Rel (fun p q => Answer.Echoes sameCounter p.1 q.1 ∧ Alike sameCounter p.2 q.2)
      (t.answer feeModel fuel req) (t'.answer feeModel fuel req) := by
  obtain ⟨⟨f, known, hm, hb⟩, hcounter⟩ := h
  cases req with
  | submit o =>
    have hm₁ := hm.alloc o
    have hb₁ := hb.mono (fun r hr => Function.update_of_ne (hm.allocated r hr).1.ne t'.mem.next f)
      (Set.subset_insert t.mem.next known)
    have ho : t.mem.next ∈ insert t.mem.next known := Set.mem_insert _ _
    have hp := processOrder_echoes feeModel fuel hm₁ hb₁ ho
    rw [Function.update_self] at hp
    rcases hp with ⟨message, hp, hp'⟩ | ⟨result, result', hp, hp', hrel⟩
    · simp only [BookState.answer, hp, hp']
      exact .some ⟨⟨rfl, fun _ => rfl⟩, ⟨_, _, hm₁, hb₁⟩, hcounter⟩
    · simp only [BookState.answer, hp, hp']
      cases hrel with
      | none => exact .none
      | @some result result' hrel =>
        have hids : sameCounter → result'.trades = result.trades ∧
            result'.mem.tradeCounter = result.mem.tradeCounter := fun hsame =>
          sameTrades_of_minted hrel (returns_minted ⟨fuel, hp⟩) (returns_minted ⟨fuel, hp'⟩)
            (hcounter hsame)
        exact .some ⟨⟨congrArg Answer.trades hrel.trades,
          fun hsame => congrArg Answer.trades (hids hsame).1⟩, ⟨_, _, hrel.mem, hrel.book⟩,
          fun hsame => (hids hsame).2⟩
  | cancel orderId =>
    have hfound : (t'.book.cancelOrder t'.mem orderId).1 =
        (t.book.cancelOrder t.mem orderId).1 := by
      rw [OrderBook.cancelOrder_fst, OrderBook.cancelOrder_fst, hb.hasOrder]
    exact .some ⟨⟨congrArg Answer.cancelled hfound, fun _ => congrArg Answer.cancelled hfound⟩,
      ⟨f, known, hm, hb.cancelOrder hm orderId⟩, hcounter⟩
  | modify orderId newQuantity =>
    cases hmod : t.book.modifyOrder t.mem orderId newQuantity with
    | ok p =>
      obtain ⟨mem₁, b₁, hmod', hb₁, hm₁⟩ := hb.modifyOrder hm hmod
      simp only [BookState.answer, hmod, hmod']
      refine .some ⟨⟨rfl, fun _ => rfl⟩, ⟨f, known, hm₁, hb₁⟩, fun hsame => ?_⟩
      rw [OrderBook.modifyOrder_tradeCounter hmod', OrderBook.modifyOrder_tradeCounter hmod]
      exact hcounter hsame
    | error message =>
      have hmod' : t'.book.modifyOrder t'.mem orderId newQuantity = .error message := by
        rw [OrderBook.modifyOrder_error] at hmod ⊢
        exact ⟨(hb.hasOrder orderId).trans hmod.1, hmod.2⟩
      simp only [BookState.answer, hmod, hmod']
      exact .some ⟨⟨rfl, fun _ => rfl⟩, ⟨f, known, hm, hb⟩, hcounter⟩

/-- A sequence of calls on both books. -/
theorem Alike.exec (h : Alike sameCounter t t') (feeModel : Option FeeModel) (fuel : ℕ)
    (reqs : List Request) :
    Option.Rel (fun p q => List.Forall₂ (Answer.Echoes sameCounter) p.1 q.1 ∧
        Alike sameCounter p.2 q.2)
      (Run.exec (BookState.answer feeModel fuel) t reqs)
      (Run.exec (BookState.answer feeModel fuel) t' reqs) :=
  Run.exec_rel (Alike sameCounter) (Answer.Echoes sameCounter)
    (fun _ _ req h => h.answer feeModel fuel req) reqs h

end GoQuant
