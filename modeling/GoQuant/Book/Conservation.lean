import GoQuant.Book.Refinement
import GoQuant.Book.Runs

/-!
# Conservation of quantity

A ledger records, call by call, the orders submitted to a book, the trades reported, the
changes that `modifyOrder` made and the quantities that were discarded. Over any run in
which ids are not reused, every order's quantity is accounted for: what was submitted and
changed is what was traded as taker and as maker, still rests, or was discarded.

## Main definitions

* `Ledger`, `Ledger.post` — the record and how a call is entered.
* `Balanced` — the invariant of a book and its ledger.

## Main results

* `Balanced.step` — every call keeps the books balanced.
* `conservation` — the balance of every order, and the terms of every trade, after any run.
-/

namespace GoQuant

open MatchingAlgorithm

/-- The record of a run. -/
structure Ledger where
  orders : List Order
  trades : List Trade
  changes : List (String × ℚ)
  discards : List (String × ℚ)

namespace Ledger

def empty : Ledger := ⟨[], [], [], []⟩

/-- What a processed order discards: a FOK order all of it when it is rejected, a MARKET or
IOC order its remainder, a LIMIT order nothing. -/
def discarded (o : Order) (out : Outcome) : List (String × ℚ) :=
  match o.type with
  | .limit => []
  | .fok => if out.trades = [] then [(o.id, o.quantity)] else []
  | _ => [(o.id, out.remainingQty)]

/-- Enter a call made in a state of the book. -/
def post (L : Ledger) (s : BookState) : Request × Outcome → Ledger
  | (.submit o, out) =>
    { L with
      orders := L.orders ++ [o]
      trades := L.trades ++ out.trades
      discards := L.discards ++ discarded o out }
  | (.cancel orderId, _) =>
    match s.book.orderMap.lookup orderId with
    | none => L
    | some r => { L with discards := L.discards ++ [(orderId, (s.mem.order r).quantity)] }
  | (.modify orderId newQuantity, _) =>
    match s.book.orderMap.lookup orderId with
    | none => L
    | some r =>
      { L with changes := L.changes ++ [(orderId, newQuantity - (s.mem.order r).quantity)] }

def submitted (L : Ledger) (id : String) : ℚ :=
  Fill.given (L.orders.map fun o => (o.id, o.quantity)) id

def changed (L : Ledger) (id : String) : ℚ := Fill.given L.changes id

def taken (L : Ledger) (id : String) : ℚ :=
  Fill.given (L.trades.map fun t => (t.takerOrderId, t.quantity)) id

def made (L : Ledger) (id : String) : ℚ :=
  Fill.given (L.trades.map fun t => (t.makerOrderId, t.quantity)) id

def dropped (L : Ledger) (id : String) : ℚ := Fill.given L.discards id

end Ledger

/-- The quantity resting under an id. -/
def OrderBook.restingQty (mem : Memory) (b : OrderBook) (id : String) : ℚ :=
  match b.orderMap.lookup id with
  | none => 0
  | some r => (mem.order r).quantity

/-- A book with the ledger of its run. -/
structure Account where
  state : BookState
  ledger : Ledger

/-- The calls of a run in which ids are not reused. -/
def Account.Admits (a : Account) : Request → Prop
  | .submit o => o.type.Matchable ∧ 0 < o.quantity ∧ o.id ∉ a.ledger.orders.map Order.id
  | .cancel _ => True
  | .modify _ newQuantity => 0 < newQuantity

/-- One call, entered in the ledger. -/
def Account.Step (feeModel : Option FeeModel) (a : Account) (e : Request × Outcome)
    (a' : Account) : Prop :=
  a.Admits e.1 ∧ BookState.Step feeModel a.state e a'.state ∧
    a'.ledger = a.ledger.post a.state e

instance (a : Account) (req : Request) : Decidable (a.Admits req) :=
  match req with
  | .submit _ => by dsimp only [Account.Admits]; infer_instance
  | .cancel _ => isTrue trivial
  | .modify _ newQuantity => inferInstanceAs (Decidable (0 < newQuantity))

/-- The same call, executed on fuel. -/
def Account.call (feeModel : Option FeeModel) (fuel : ℕ) (a : Account) (req : Request) :
    Option ((Request × Outcome) × Account) :=
  if a.Admits req then (a.state.call feeModel fuel req).map fun p =>
    ((req, p.1), ⟨p.2, a.ledger.post a.state (req, p.1)⟩)
  else none

theorem Account.step_of_call {feeModel : Option FeeModel} {fuel : ℕ} (a : Account)
    (req : Request) (e : Request × Outcome) (a' : Account)
    (h : a.call feeModel fuel req = some (e, a')) : a.Step feeModel e a' := by
  unfold call at h
  split_ifs at h with hadmits
  simp only [Option.map_eq_some_iff, Prod.mk.injEq] at h
  obtain ⟨⟨out, s⟩, hcall, rfl, rfl⟩ := h
  exact ⟨hadmits, BookState.step_of_call hcall, rfl⟩

/-- The terms of a trade: a positive quantity at the maker's price, which the taker's limit
accepts. -/
def Ledger.Fair (L : Ledger) (t : Trade) : Prop :=
  0 < t.quantity ∧ ∃ maker ∈ L.orders, ∃ taker ∈ L.orders,
    maker.id = t.makerOrderId ∧ taker.id = t.takerOrderId ∧ maker.type = .limit ∧
      t.price = maker.price ∧ Greedy.accepts taker t.price = true

/-- A book and its ledger agree. -/
structure Balanced (a : Account) : Prop where
  wellFormed : WellFormed a.state.mem a.state.book
  known : ∀ r, a.state.book.Rests r → ∃ o ∈ a.ledger.orders, o.type = .limit ∧
    o.id = (a.state.mem.order r).id ∧ o.price = (a.state.mem.order r).price
  distinct : (a.ledger.orders.map Order.id).Nodup
  balance : ∀ id, a.ledger.submitted id + a.ledger.changed id =
    a.ledger.taken id + a.ledger.made id + a.state.book.restingQty a.state.mem id +
      a.ledger.dropped id
  fair : ∀ t ∈ a.ledger.trades, a.ledger.Fair t

/-! ## What rests after a call -/

section Resting

variable {feeModel : Option FeeModel} {mem : Memory} {b : OrderBook} {order r : Ref}
  {s t : Matching} {id : String}

theorem restingQty_of_none (h : b.orderMap.lookup id = none) : b.restingQty mem id = 0 := by
  simp [OrderBook.restingQty, h]

theorem restingQty_of_some (h : b.orderMap.lookup id = some r) :
    b.restingQty mem id = (mem.order r).quantity := by
  simp [OrderBook.restingQty, h]

/-- Fills take from what rests under an id exactly what was given under it. -/
theorem restingQty_fills {fs : List (Ref × ℚ)} (hs : WellFormed s.mem s.book)
    (ht : WellFormed t.mem t.book) (hfills : s.Fills feeModel order fs t)
    (hfs : ∀ p ∈ fs, s.book.Rests p.1) (hnd : (fs.map Prod.fst).Nodup) (id : String) :
    t.book.restingQty t.mem id = s.book.restingQty s.mem id -
      Fill.given (fs.map fun p => ((s.mem.order p.1).id, p.2)) id := by
  -- who rests under an id afterwards rested under it before
  have hback : ∀ r, t.book.orderMap.lookup id = some r →
      s.book.orderMap.lookup id = some r ∧ (r, (s.mem.order r).quantity) ∉ fs := by
    intro r hr
    obtain ⟨hrests, hid⟩ := ht.lookup_iff.mp hr
    obtain ⟨hrests, hgone⟩ := hfills.rests_iff.mp hrests
    rw [hfills.makers r hrests hgone] at hid
    exact ⟨hs.lookup_iff.mpr ⟨hrests, hid⟩, hgone⟩
  cases hlook : s.book.orderMap.lookup id with
  | none =>
    have hnone : t.book.orderMap.lookup id = none := by
      rw [Option.eq_none_iff_forall_ne_some]
      intro r hr
      rw [(hback r hr).1] at hlook
      cases hlook
    have hzero : Fill.given (fs.map fun p => ((s.mem.order p.1).id, p.2)) id = 0 := by
      refine Fill.given_eq_zero fun hin => ?_
      obtain ⟨p', hp', hid⟩ := List.mem_map.mp hin
      obtain ⟨p, hp, rfl⟩ := List.mem_map.mp hp'
      have hfound := hs.found p.1 (hfs p hp)
      rw [show (s.mem.order p.1).id = id from hid, hlook] at hfound
      cases hfound
    rw [restingQty_of_none hnone, restingQty_of_none hlook, hzero, sub_zero]
  | some r =>
    obtain ⟨hr, rfl⟩ := hs.lookup_iff.mp hlook
    have hgiven : Fill.given (fs.map fun p => ((s.mem.order p.1).id, p.2)) (s.mem.order r).id =
        Fill.given fs r :=
      Fill.given_map (fun r => (s.mem.order r).id) fun p hp heq =>
        hs.eq_of_id (hfs p hp) hlook heq
    rw [restingQty_of_some hlook, hgiven]
    by_cases hgone : (r, (s.mem.order r).quantity) ∈ fs
    · have hnone : t.book.orderMap.lookup (s.mem.order r).id = none := by
        rw [Option.eq_none_iff_forall_ne_some]
        intro r' hr'
        obtain ⟨hlook', hgone'⟩ := hback r' hr'
        obtain rfl := Option.some.inj (hlook'.symm.trans hlook)
        exact hgone' hgone
      rw [restingQty_of_none hnone, Fill.given_eq_of_mem hnd hgone, sub_self]
    · have horder := hfills.makers r hr hgone
      have hlook' : t.book.orderMap.lookup (s.mem.order r).id = some r :=
        ht.lookup_iff.mpr ⟨hfills.rests_iff.mpr ⟨hr, hgone⟩, by rw [horder]⟩
      rw [restingQty_of_some hlook', horder]

/-- A remainder put to rest is found under the order's id. -/
theorem restingQty_restRemainder (hf : Fresh t.mem t.book order) (hrem : 0 < t.remainingQty)
    (id : String) :
    (restRemainder order t).book.restingQty (restRemainder order t).mem id =
      if id = (t.mem.order order).id then t.remainingQty else t.book.restingQty t.mem id := by
  have hmem : (restRemainder order t).mem = t.mem.modifyQuantity order t.remainingQty := by
    simp [restRemainder, hrem]
  have hmap : (restRemainder order t).book.orderMap =
      t.book.orderMap.insert (t.mem.order order).id order := by
    simp [restRemainder, hrem]
  split_ifs with heq
  · have hlook : (restRemainder order t).book.orderMap.lookup id = some order := by
      rw [hmap, heq]
      exact AList.lookup_insert _
    rw [restingQty_of_some hlook, hmem]
    simp
  · have hlook : (restRemainder order t).book.orderMap.lookup id =
        t.book.orderMap.lookup id := by
      rw [hmap, AList.lookup_insert_ne heq]
    cases hid : t.book.orderMap.lookup id with
    | none => rw [restingQty_of_none (hlook.trans hid), restingQty_of_none hid]
    | some r =>
      have hne : r ≠ order := fun heq => hf.unmapped id (heq ▸ hid)
      rw [restingQty_of_some (hlook.trans hid), restingQty_of_some hid, hmem,
        Memory.modifyQuantity_order_of_ne _ _ _ _ hne]

/-- A LIMIT remainder rests under the order's id. -/
theorem restingQty_finish (hf : Fresh t.mem t.book order) (id : String) :
    (finish order t).book.restingQty (finish order t).mem id =
      if id = (t.mem.order order).id ∧ (t.mem.order order).type = .limit ∧ 0 < t.remainingQty
      then t.remainingQty else t.book.restingQty t.mem id := by
  unfold finish
  by_cases htype : (t.mem.order order).type = .limit
  · by_cases hrem : 0 < t.remainingQty
    · simp [restingQty_restRemainder hf hrem, htype, hrem]
    · simp [restRemainder, hrem]
  · simp [htype]

theorem snd_pos_of_mem_takes (h : WellFormed mem b) {p : Ref × ℚ}
    (hp : p ∈ takes mem b order) : 0 < p.2 := by
  have hpos := h.positive p.1 (OrderBook.rests_of_mem_reachRefs (mem_reachRefs_of_mem_takes hp))
  unfold takes at hp
  dsimp only at hp
  split_ifs at hp
  · simp at hp
  · exact Fill.snd_pos_of_mem_fills hp hpos

end Resting

/-! ## One call keeps the books balanced -/

namespace Balanced

variable {feeModel : Option FeeModel} {a a' : Account} {e : Request × Outcome} {o : Order}
  {out : Outcome}

theorem initial (mem : Memory) (symbol : String) : Balanced ⟨.initial mem symbol, .empty⟩ where
  wellFormed := .empty mem symbol
  known r hr := absurd hr (OrderBook.not_rests_empty symbol r)
  distinct := List.nodup_nil
  balance id := by
    simp [Ledger.submitted, Ledger.changed, Ledger.taken, Ledger.made, Ledger.dropped,
      Ledger.empty, Fill.given, OrderBook.restingQty, BookState.initial, OrderBook.empty]
  fair t ht := by simp [Ledger.empty] at ht

/-- The book holds no id that was not submitted. -/
theorem lookup_eq_none (h : Balanced a) {id : String}
    (hid : id ∉ a.ledger.orders.map Order.id) : a.state.book.orderMap.lookup id = none := by
  rw [Option.eq_none_iff_forall_ne_some]
  intro r hr
  obtain ⟨hrests, rfl⟩ := h.wellFormed.lookup_iff.mp hr
  obtain ⟨o, ho, -, heq, -⟩ := h.known r hrests
  exact hid (List.mem_map.mpr ⟨o, ho, heq⟩)

/-- A FOK, MARKET or IOC order discards what it did not trade. -/
theorem given_discarded {out : Outcome} {traded : ℚ} (hlimit : o.type ≠ .limit)
    (hfok : o.type = .fok → out.trades = [] ∧ traded = 0 ∨ out.trades ≠ [] ∧ traded = o.quantity)
    (hrem : out.remainingQty = o.quantity - traded) :
    Fill.given (Ledger.discarded o out) o.id = o.quantity - traded := by
  unfold Ledger.discarded
  split
  · rename_i htype
    exact absurd htype hlimit
  · rename_i htype
    rcases hfok htype with ⟨hnil, rfl⟩ | ⟨hne, rfl⟩
    · simp [hnil]
    · simp [hne, Fill.given]
  · rw [Fill.given_singleton, hrem]

theorem given_discarded_of_ne {id : String} (hne : id ≠ o.id) :
    Fill.given (Ledger.discarded o out) id = 0 := by
  refine Fill.given_eq_zero fun hin => ?_
  unfold Ledger.discarded at hin
  split at hin
  · simp at hin
  · split_ifs at hin <;> simp [hne] at hin
  · simp [hne] at hin

/-- What one processed order adds to the two sides of the balance of each id. -/
theorem submit_balance {mem : Memory} {b : OrderBook} {order : Ref} {t : Matching}
    (h : WellFormed mem b) (hprep : Prepared t.mem t.book order)
    (ht : WellFormed t.mem t.book) (hq : 0 < (mem.order order).quantity)
    (hid : b.orderMap.lookup (mem.order order).id = none)
    (hfills : (start mem b order).Fills feeModel order (takes mem b order) t) (id : String) :
    Fill.given [((mem.order order).id, (mem.order order).quantity)] id +
        b.restingQty mem id =
      Fill.given (t.trades.map fun t => (t.takerOrderId, t.quantity)) id +
        Fill.given (t.trades.map fun t => (t.makerOrderId, t.quantity)) id +
        (finish order t).book.restingQty (finish order t).mem id +
        Fill.given (Ledger.discarded (mem.order order) ⟨t.trades, t.remainingQty⟩) id := by
  have hrests : ∀ p ∈ takes mem b order, b.Rests p.1 :=
    fun p hp => OrderBook.rests_of_mem_reachRefs (mem_reachRefs_of_mem_takes hp)
  have htrades := hfills.trades
  rw [start_trades, List.nil_append] at htrades
  have htakers : (t.trades.map fun t => (t.takerOrderId, t.quantity)) =
      ((takes mem b order).map Prod.snd).map fun q => ((mem.order order).id, q) := by
    rw [htrades, map_tradesOf _ (fun p => ((mem.order order).id, p.2)) (fun _ _ => rfl)]
    simp [Function.comp_def]
  have hmakers : (t.trades.map fun t => (t.makerOrderId, t.quantity)) =
      (takes mem b order).map fun p => ((mem.order p.1).id, p.2) := by
    rw [htrades, map_tradesOf _ (fun p => (p.1.id, p.2)) (fun _ _ => rfl)]
    simp [Function.comp_def]
  have htaker : t.mem.order order = mem.order order := hfills.taker
  have hresting := restingQty_fills (s := start mem b order) h ht hfills hrests
    (takes_nodup h.toSane) id
  have hrem : t.remainingQty =
      (mem.order order).quantity - ((takes mem b order).map Prod.snd).sum := hfills.remaining
  have hnil : t.trades = [] ↔ takes mem b order = [] := by
    rw [← List.map_eq_nil_iff (f := fun t : Trade => (t.makerOrderId, t.quantity)), hmakers,
      List.map_eq_nil_iff]
  rw [start_mem, start_book, ← hmakers] at hresting
  rw [restingQty_finish hprep.fresh, htaker, htakers]
  by_cases heq : id = (mem.order order).id
  · subst heq
    have hmade : Fill.given (t.trades.map fun t => (t.makerOrderId, t.quantity))
        (mem.order order).id = 0 := by
      rw [hmakers]
      refine Fill.given_eq_zero fun hin => ?_
      obtain ⟨p', hp', heq⟩ := List.mem_map.mp hin
      obtain ⟨p, hp, rfl⟩ := List.mem_map.mp hp'
      have hfound := h.found p.1 (hrests p hp)
      rw [show (mem.order p.1).id = _ from heq, hid] at hfound
      cases hfound
    have hnonneg := sub_sum_takes_nonneg (b := b) hq
    rw [hmade, restingQty_of_none hid] at hresting ⊢
    rw [Fill.given_singleton, Fill.given_const, hresting]
    by_cases hlimit : (mem.order order).type = .limit
    · have hdisc : Ledger.discarded (mem.order order) ⟨t.trades, t.remainingQty⟩ = [] := by
        simp [Ledger.discarded, hlimit]
      rw [hdisc]
      split_ifs with hc
      · simp [Fill.given, hrem]
      · have hzero : ¬ 0 < t.remainingQty := fun hpos => hc ⟨rfl, hlimit, hpos⟩
        simp only [Fill.given, List.filter_nil, List.map_nil, List.sum_nil]
        linarith
    · rw [if_neg fun hc => hlimit hc.2.1, given_discarded hlimit ?_ hrem]
      · linarith
      · intro htype
        by_cases htakes : takes mem b order = []
        · exact Or.inl ⟨hnil.mpr htakes, by simp [htakes]⟩
        · exact Or.inr ⟨fun hn => htakes (hnil.mp hn), sum_takes_of_fok htype hq htakes⟩
  · have htaken : Fill.given (((takes mem b order).map Prod.snd).map
        fun q => ((mem.order order).id, q)) id = 0 := by
      refine Fill.given_eq_zero fun hin => ?_
      obtain ⟨p', hp', hid'⟩ := List.mem_map.mp hin
      obtain ⟨q, -, rfl⟩ := List.mem_map.mp hp'
      exact heq hid'.symm
    rw [Fill.given_singleton_of_ne heq, htaken, given_discarded_of_ne heq,
      if_neg fun hc => heq hc.1, hresting]
    linarith

theorem submit (h : Balanced a) {result : Matching} (htype : o.type.Matchable)
    (hq : 0 < o.quantity) (hnew : o.id ∉ a.ledger.orders.map Order.id)
    (hr : Returns feeModel (a.state.mem.alloc o).1 a.state.book a.state.mem.next result) :
    Balanced ⟨⟨result.mem, result.book⟩,
      a.ledger.post a.state (.submit o, ⟨result.trades, result.remainingQty⟩)⟩ := by
  let mem := (a.state.mem.alloc o).1
  let b := a.state.book
  have ho : mem.order a.state.mem.next = o := Memory.alloc_order_self _ _
  have hwf : WellFormed mem b := h.wellFormed.of_alloc o
  have hf : Fresh mem b a.state.mem.next := h.wellFormed.fresh o
  have hid : b.orderMap.lookup (mem.order a.state.mem.next).id = none := by
    rw [ho]
    exact h.lookup_eq_none hnew
  have hqo : 0 < (mem.order a.state.mem.next).quantity := by rwa [ho]
  have hold : ∀ r, b.Rests r → mem.order r = a.state.mem.order r :=
    fun r hr => Memory.alloc_order_of_lt _ _ _ (h.wellFormed.restsAllocated r hr)
  obtain ⟨t, hprep, -, htrading, hfills, rfl⟩ :=
    hr.fills (hwf.ready hf hid).acceptable hqo (by rwa [ho])
  have htwf : WellFormed t.mem t.book := hwf.trading htrading
  have hremaining : (finish a.state.mem.next t).remainingQty = t.remainingQty := by
    unfold finish restRemainder
    split_ifs <;> rfl
  rw [finish_trades, hremaining]
  refine ⟨hwf.processOrder hf hid hr, fun r hrests => ?_, ?_, fun id => ?_, fun tr htr => ?_⟩
  · have hext := returns_extends hr
    rcases rests_finish hrests with hrests | ⟨rfl, hlimit⟩
    · have hb : b.Rests r := htrading.consumes.book.rests hrests
      obtain ⟨o', ho', hlimit, hid', hprice⟩ := h.known r hb
      refine ⟨o', List.mem_append_left _ ho', hlimit, ?_, ?_⟩
      · rw [hext.id_eq (hwf.restsAllocated r hb), hold r hb, hid']
      · rw [hext.price_eq (hwf.restsAllocated r hb), hold r hb, hprice]
    · rw [hfills.taker] at hlimit
      refine ⟨o, List.mem_append_right _ List.mem_cons_self, ?_, ?_, ?_⟩
      · rwa [start_mem, ho] at hlimit
      · rw [hext.id_eq hf.allocated, ho]
      · rw [hext.price_eq hf.allocated, ho]
  · simp only [Ledger.post, List.map_append, List.map_cons, List.map_nil]
    refine h.distinct.append (List.nodup_singleton _) ?_
    rw [List.disjoint_singleton]
    exact hnew
  · have hbal := h.balance id
    have hadd := submit_balance hwf hprep htwf hqo hid hfills id
    have hbefore : b.restingQty mem id = b.restingQty a.state.mem id := by
      cases hlook : b.orderMap.lookup id with
      | none => rw [restingQty_of_none hlook, restingQty_of_none hlook]
      | some r =>
        rw [restingQty_of_some hlook, restingQty_of_some hlook,
          hold r (h.wellFormed.resting id r hlook)]
    rw [hbefore, ho] at hadd
    simp only [Ledger.submitted, Ledger.changed, Ledger.taken, Ledger.made, Ledger.dropped,
      Ledger.post, List.map_append, Fill.given_append, List.map_cons, List.map_nil] at hbal ⊢
    linarith
  · rcases List.mem_append.mp htr with htr | htr
    · obtain ⟨hpos, maker, hm, taker, ht, hterms⟩ := h.fair tr htr
      exact ⟨hpos, maker, List.mem_append_left _ hm, taker, List.mem_append_left _ ht, hterms⟩
    · rw [hfills.trades, start_trades, List.nil_append] at htr
      obtain ⟨n, p', hp', rfl⟩ := mem_tradesOf htr
      obtain ⟨p, hp, rfl⟩ := List.mem_map.mp hp'
      have hreach := mem_reachRefs_of_mem_takes hp
      have hb : b.Rests p.1 := OrderBook.rests_of_mem_reachRefs hreach
      obtain ⟨l, hl, hw, hpl⟩ := (OrderBook.mem_reachRefs hwf.toSane).mp hreach
      obtain ⟨maker, hm, hlimit, hmid, hprice⟩ := h.known p.1 hb
      rw [← hold p.1 hb] at hmid hprice
      refine ⟨snd_pos_of_mem_takes hwf hp, maker, List.mem_append_left _ hm, o,
        List.mem_append_right _ List.mem_cons_self, hmid, ?_, hlimit, hprice.symm, ?_⟩
      · rw [start_mem, ho]
        rfl
      · have hwo : OrderBook.within o (mem.order p.1).price = true := by
          rw [(hwf.placed _ l hl p.1 hpl).2]
          rwa [ho] at hw
        rw [← within_eq_accepts]
        exact hwo

theorem cancel (h : Balanced a) (orderId : String) :
    Balanced ⟨⟨a.state.mem, (a.state.book.cancelOrder a.state.mem orderId).2⟩,
      a.ledger.post a.state (.cancel orderId, .quiet)⟩ := by
  cases hlook : a.state.book.orderMap.lookup orderId with
  | none =>
    simpa [OrderBook.cancelOrder, Ledger.post, hlook] using h
  | some r =>
    have hmap : (a.state.book.cancelOrder a.state.mem orderId).2.orderMap = _ :=
      Indexed.cancelOrder_orderMap hlook
    simp only [Ledger.post, hlook]
    refine ⟨h.wellFormed.cancelOrder orderId,
      fun r' hr' => h.known r' ((OrderBook.cancelOrder_shrinks ..).rests hr'), h.distinct,
      fun id => ?_, h.fair⟩
    have hbal := h.balance id
    simp only [Ledger.submitted, Ledger.changed, Ledger.taken, Ledger.made, Ledger.dropped,
      Fill.given_append] at hbal ⊢
    by_cases heq : id = orderId
    · subst heq
      rw [restingQty_of_some hlook] at hbal
      rw [restingQty_of_none (by rw [hmap, AList.lookup_erase]), Fill.given_singleton]
      linarith
    · have hsame : (a.state.book.cancelOrder a.state.mem orderId).2.restingQty a.state.mem id =
          a.state.book.restingQty a.state.mem id := by
        unfold OrderBook.restingQty
        rw [hmap, AList.lookup_erase_ne heq]
      rw [hsame, Fill.given_singleton_of_ne heq]
      linarith

theorem modify (h : Balanced a) {orderId : String} {newQuantity : ℚ} (hq : 0 < newQuantity)
    {mem : Memory} {book : OrderBook}
    (hm : a.state.book.modifyOrder a.state.mem orderId newQuantity = .ok (mem, book)) :
    Balanced ⟨⟨mem, book⟩, a.ledger.post a.state (.modify orderId newQuantity, .quiet)⟩ := by
  cases hlook : a.state.book.orderMap.lookup orderId with
  | none => simp [OrderBook.modifyOrder, hlook] at hm
  | some r =>
    have hext := OrderBook.modifyOrder_extends _ _ _ _ hm
    have hsh := OrderBook.modifyOrder_shrinks _ _ _ _ hm
    have hwf : WellFormed mem book := h.wellFormed.modifyOrder hq hm
    rw [h.wellFormed.modifyOrder_eq hlook, Except.ok.injEq, Prod.mk.injEq] at hm
    simp only [Ledger.post, hlook]
    refine ⟨hwf, fun r' hr' => ?_, h.distinct, fun id => ?_, h.fair⟩
    · have hb := hsh.rests hr'
      obtain ⟨o, ho, hlimit, hid, hprice⟩ := h.known r' hb
      refine ⟨o, ho, hlimit, ?_, ?_⟩
      · rw [hext.id_eq (h.wellFormed.restsAllocated r' hb), hid]
      · rw [hext.price_eq (h.wellFormed.restsAllocated r' hb), hprice]
    · have hbal := h.balance id
      have hmap : book.orderMap = a.state.book.orderMap := by simp [← hm.2]
      simp only [Ledger.submitted, Ledger.changed, Ledger.taken, Ledger.made, Ledger.dropped,
        Fill.given_append] at hbal ⊢
      by_cases heq : id = orderId
      · subst heq
        rw [restingQty_of_some hlook] at hbal
        rw [restingQty_of_some (by rw [hmap, hlook]), Fill.given_singleton, ← hm.1]
        simp only [Memory.modifyQuantity_order, if_true]
        linarith
      · have hsame : book.restingQty mem id = a.state.book.restingQty a.state.mem id := by
          cases hid : a.state.book.orderMap.lookup id with
          | none => rw [restingQty_of_none (by rw [hmap, hid]), restingQty_of_none hid]
          | some r' =>
            have hne : r' ≠ r := by
              rintro rfl
              exact heq ((h.wellFormed.named _ _ hid).symm.trans (h.wellFormed.named _ _ hlook))
            rw [restingQty_of_some (by rw [hmap, hid]), restingQty_of_some hid, ← hm.1,
              Memory.modifyQuantity_order_of_ne _ _ _ _ hne]
        rw [hsame, Fill.given_singleton_of_ne heq]
        linarith

/-- Every call keeps the books balanced. -/
theorem step (h : Balanced a) (hstep : a.Step feeModel e a') : Balanced a' := by
  obtain ⟨hadmits, hstep, hpost⟩ := hstep
  obtain ⟨s, L⟩ := a
  obtain ⟨s', L'⟩ := a'
  dsimp only at hstep hpost
  subst hpost
  cases hstep with
  | submit hr => exact h.submit hadmits.1 hadmits.2.1 hadmits.2.2 hr
  | cancel orderId => exact h.cancel orderId
  | modify hm => exact h.modify hadmits hm
  | modifyUnknown hm =>
    rename_i orderId error q
    cases hlook : s.book.orderMap.lookup orderId with
    | none => simpa [Ledger.post, hlook] using h
    | some r => simp [h.wellFormed.modifyOrder_eq hlook] at hm

end Balanced

/-- **Conservation of quantity.** After any run from an empty book in which ids are not
reused, every submitted order's quantity, with the changes made to it, is what it traded as
taker and as maker, what rests of it, and what was discarded; and every trade has a positive
quantity, the maker's limit price, and a price the taker's limit accepts. -/
theorem conservation {mem : Memory} {symbol : String} {events : List (Request × Outcome)}
    {feeModel : Option FeeModel} {a : Account}
    (h : Run (Account.Step feeModel) ⟨.initial mem symbol, .empty⟩ events a) :
    (∀ o ∈ a.ledger.orders, o.quantity + a.ledger.changed o.id =
      a.ledger.taken o.id + a.ledger.made o.id +
        a.state.book.restingQty a.state.mem o.id + a.ledger.dropped o.id) ∧
    ∀ t ∈ a.ledger.trades, a.ledger.Fair t := by
  have ha : Balanced a :=
    h.invariant Balanced (.initial mem symbol) fun _ _ _ hb hstep => hb.step hstep
  refine ⟨fun o ho => ?_, ha.fair⟩
  have hnd : ((a.ledger.orders.map fun o => (o.id, o.quantity)).map Prod.fst).Nodup := by
    rw [List.map_map]
    exact ha.distinct
  have hsubmitted : a.ledger.submitted o.id = o.quantity :=
    Fill.given_eq_of_mem hnd (List.mem_map.mpr ⟨o, ho, rfl⟩)
  rw [← hsubmitted]
  exact ha.balance o.id

/-- A bid is resized and partly traded as maker, a second order crosses it as taker and
rests, and both are cancelled. -/
theorem conservation_five_calls : ∃ events a,
    Run (Account.Step none) ⟨.initial Memory.empty "S", .empty⟩ events a ∧
      events.length = 5 ∧ a.ledger.trades.length = 1 ∧
      ∀ o ∈ a.ledger.orders, o.quantity + a.ledger.changed o.id =
        a.ledger.taken o.id + a.ledger.made o.id +
          a.state.book.restingQty a.state.mem o.id + a.ledger.dropped o.id := by
  let reqs : List Request := [.submit ⟨"a", "S", .buy, .limit, 100, 5⟩, .modify "a" 4,
    .submit ⟨"b", "S", .sell, .limit, 100, 6⟩, .cancel "b", .cancel "a"]
  let final := Run.exec (Account.call none 3) ⟨.initial Memory.empty "S", .empty⟩ reqs
  have hsome : (final.map fun p => (p.1.length, p.2.ledger.trades.length)) = some (5, 1) := by
    decide +kernel
  obtain ⟨⟨events, a⟩, hfinal, hlen⟩ := Option.map_eq_some_iff.mp hsome
  have hrun := Run.of_exec Account.step_of_call hfinal
  exact ⟨events, a, hrun, (Prod.mk.inj hlen).1, (Prod.mk.inj hlen).2, (conservation hrun).1⟩

end GoQuant
