import GoQuant.Engine.Books

/-!
# Pending trigger orders

A trade activates those of its symbol's pending orders whose condition its price meets, in
the order in which they came. Each leaves a record, and the others stay. A pending order is
an object of its own: whatever is matched meanwhile, its type, side and price are the ones it
was submitted with.

## Main definitions

* `waiting` — the pending orders of a symbol, read from memory.
* `Order.Due` — a price meets the condition of a trigger order.
* `Waits` — the pending orders of an engine are order objects of its process.

## Main results

* `activateAll_spec`, `checkTriggers_spec` — who is activated, and what is logged.
-/

namespace GoQuant

open MatchingAlgorithm

/-- A trigger order waits for the price to fall to its own, or to rise to it: a stop order for
the price to move against it, a take-profit order for the price to move in its favour. -/
def Order.WaitsForFall (o : Order) : Prop := o.side = .sell ↔ o.type ≠ .takeProfit

instance (o : Order) : Decidable o.WaitsForFall := by
  unfold Order.WaitsForFall; infer_instance

/-- A price meets the condition of a trigger order. -/
def Order.Due (o : Order) (price : ℚ) : Prop :=
  o.type.isTrigger = true ∧ if o.WaitsForFall then price ≤ o.price else o.price ≤ price

instance (o : Order) (price : ℚ) : Decidable (o.Due price) := by
  unfold Order.Due; infer_instance

namespace MatchingEngine

variable {fuel : ℕ} {e e' : MatchingEngine} {symbol : String} {price : ℚ} {ord : Ref}
  {vec remaining : List Ref} {o : Order}

/-- The pending trigger orders of a symbol, as they are now. -/
def waiting (e : MatchingEngine) (symbol : String) : List Order :=
  (e.pending symbol).map e.mem.order

/-! ## Activation -/

/-- The six comparisons of `checkTriggers`. -/
theorem triggered_eq_due (o : Order) (price : ℚ) : triggered o price = decide (o.Due price) := by
  obtain ⟨_, _, side, type, trigger, _⟩ := o
  cases type <;> cases side <;>
    simp [triggered, Order.Due, Order.WaitsForFall, OrderType.isTrigger]

theorem triggered_congr {mem mem' : Memory} (h : mem.Extends mem') (hord : ord < mem.next)
    (price : ℚ) : triggered (mem'.order ord) price = triggered (mem.order ord) price := by
  obtain ⟨q, hq⟩ := h.2 ord hord
  rw [hq]
  rfl

/-- What the loop of `checkTriggers` does, apart from the books. -/
structure Activates (symbol : String) (price : ℚ) (vec : List Ref) (e : MatchingEngine)
    (remaining : List Ref) (e' : MatchingEngine) : Prop where
  mem : e.mem.Extends e'.mem
  pending : ∀ s, e'.pending s = e.pending s
  remaining : remaining = vec.filter fun ord => !triggered (e.mem.order ord) price
  logs : Logs ((vec.filter fun ord => triggered (e.mem.order ord) price).map fun ord =>
    .activated (e.mem.order ord).id symbol) e e'

theorem activate_spec (h : e.activate fuel symbol ord = some e') (hord : ord < e.mem.next) :
    e.mem.Extends e'.mem ∧ (∀ s, e'.pending s = e.pending s) ∧
      Logs [.activated (e.mem.order ord).id symbol] e e' := by
  obtain ⟨result, hr, rfl⟩ := activate_eq_some h
  have hsame := SameBooks.getOrCreateOrderBook (e.alloc (activeOrder (e.mem.order ord))).1 symbol
  have hid : (((e.alloc (activeOrder (e.mem.order ord))).1.getOrCreateOrderBook symbol).mem.order
      ord).id = (e.mem.order ord).id := by
    rw [hsame.mem]
    exact congrArg Order.id (Memory.alloc_order_of_lt e.mem ord _ hord)
  rw [hid]
  generalize WalRecord.activated (e.mem.order ord).id symbol = record
  refine ⟨?_, fun s => ?_, ?_⟩
  · rw [(SameBooks.writeWAL _ _).mem]
    exact (Memory.Extends.alloc e.mem _).trans (returns_extends hr)
  · exact ((SameBooks.writeWAL _ _).pending s).trans (hsame.pending s)
  · have halloc : Logs [] e (e.alloc (activeOrder (e.mem.order ord))).1 := .idle rfl rfl rfl
    have hmatched (u : MatchingEngine) : Logs [] u (u.matched symbol result) :=
      .idle rfl rfl rfl
    exact halloc.trans ((Logs.getOrCreateOrderBook _ symbol).trans
      ((hmatched _).trans (.writeWAL _ record)))

/-- By induction on the orders still to look at. -/
theorem activateAll_spec (h : activateAll fuel symbol price vec e = some (remaining, e'))
    (hvec : ∀ ord ∈ vec, ord < e.mem.next) : Activates symbol price vec e remaining e' := by
  induction vec generalizing e remaining with
  | nil =>
    obtain ⟨rfl, rfl⟩ := Prod.mk.inj (Option.some.inj h)
    exact ⟨.refl _, fun _ => rfl, rfl, .refl _⟩
  | cons ord vec ih =>
    have hord := hvec ord List.mem_cons_self
    have hrest : ∀ ord ∈ vec, ord < e.mem.next := fun ord hm => hvec ord (List.mem_cons_of_mem _ hm)
    simp only [activateAll] at h
    split_ifs at h with ht
    · obtain ⟨u, hu, hall⟩ := Option.bind_eq_some_iff.mp h
      obtain ⟨hext, hpending, hlogs⟩ := activate_spec hu hord
      have hu' := ih hall fun ord hm => (hrest ord hm).trans_le hext.1
      -- the memory has changed in quantities only
      have htriggered : ∀ ord ∈ vec,
          triggered (u.mem.order ord) price = triggered (e.mem.order ord) price :=
        fun ord hm => triggered_congr hext (hrest ord hm) price
      have hactivated : (vec.filter fun ord => triggered (u.mem.order ord) price) =
          vec.filter fun ord => triggered (e.mem.order ord) price :=
        List.filter_congr htriggered
      have hids : ∀ ord ∈ vec.filter fun ord => triggered (e.mem.order ord) price,
          WalRecord.activated (u.mem.order ord).id symbol =
            .activated (e.mem.order ord).id symbol := by
        intro ord hm
        rw [hext.id_eq (hrest ord (List.mem_of_mem_filter hm))]
      refine ⟨hext.trans hu'.mem, fun s => (hu'.pending s).trans (hpending s), ?_, ?_⟩
      · rw [hu'.remaining, List.filter_cons_of_neg (by simpa using ht)]
        exact List.filter_congr fun ord hm => congrArg _ (htriggered ord hm)
      · rw [List.filter_cons_of_pos (by simpa using ht)]
        have hlogs' := hu'.logs
        rw [hactivated, List.map_congr_left hids] at hlogs'
        exact hlogs.trans hlogs'
    · obtain ⟨⟨remaining', u⟩, hu, heq⟩ := Option.map_eq_some_iff.mp h
      obtain ⟨rfl, rfl⟩ := Prod.mk.inj heq
      have hu' := ih hu hrest
      refine ⟨hu'.mem, hu'.pending, ?_, ?_⟩
      · rw [hu'.remaining, List.filter_cons_of_pos (by simpa using ht)]
      · rw [List.filter_cons_of_neg (by simpa using ht)]
        exact hu'.logs

/-! ## The pending list -/

/-- The pending trigger orders have been built. -/
def Waits (e : MatchingEngine) : Prop := ∀ symbol, ∀ ord ∈ e.pending symbol, ord < e.mem.next

/-- What `checkTriggers` does, apart from the books. -/
structure Checks (symbol : String) (price : ℚ) (e e' : MatchingEngine) : Prop where
  mem : e.mem.Extends e'.mem
  pending : e'.pending symbol =
    (e.pending symbol).filter fun ord => !triggered (e.mem.order ord) price
  others : ∀ s, s ≠ symbol → e'.pending s = e.pending s
  logs : Logs (((e.pending symbol).filter fun ord => triggered (e.mem.order ord) price).map
    fun ord => .activated (e.mem.order ord).id symbol) e e'

/-- `checkTriggers` is its loop over the pending orders of the symbol. -/
theorem exists_activateAll (h : e.checkTriggers fuel symbol price = some e') :
    ∃ remaining u, activateAll fuel symbol price (e.pending symbol) e = some (remaining, u) ∧
      u.book = e'.book ∧ u.mem = e'.mem ∧ e'.pending symbol = remaining ∧
      (∀ s, s ≠ symbol → e'.pending s = u.pending s) ∧ Logs [] u e' := by
  unfold checkTriggers at h
  cases hvec : e.triggerOrders.lookup symbol with
  | none =>
    simp only [hvec] at h
    obtain rfl := Option.some.inj h
    have hnil : e.pending symbol = [] := by rw [pending, hvec]; rfl
    exact ⟨[], e, by rw [hnil]; rfl, rfl, rfl, hnil, fun _ _ => rfl, .refl e⟩
  | some vec =>
    simp only [hvec] at h
    obtain ⟨⟨remaining, u⟩, hu, rfl⟩ := Option.map_eq_some_iff.mp h
    have hpending : e.pending symbol = vec := by rw [pending, hvec]; rfl
    exact ⟨remaining, u, hpending ▸ hu, rfl, rfl, pending_setPending_self u remaining,
      fun s hs => pending_setPending_of_ne u remaining hs, .idle rfl rfl rfl⟩

theorem checkTriggers_spec (h : e.checkTriggers fuel symbol price = some e') (hw : e.Waits) :
    Checks symbol price e e' := by
  obtain ⟨remaining, u, hu, -, hmem, hself, hothers, hlogs⟩ := exists_activateAll h
  have hall := activateAll_spec hu (hw symbol)
  exact ⟨hmem ▸ hall.mem, hself.trans hall.remaining,
    fun s hs => (hothers s hs).trans (hall.pending s), by simpa using hall.logs.trans hlogs⟩

end MatchingEngine

end GoQuant
