import GoQuant.Engine.Sections
import GoQuant.Book.Names
import GoQuant.Book.Renaming

/-!
# Engines whose books hold the same

Two engines that see the same operations hold the same orders, whatever else differs between
the two processes: the handles of the order objects, the hash orders, the trade ids, the
fees. This needs each id to be known to one book only, because a cancellation asks the books
in hash order.

## Main definitions

* `Twin` — two engines whose books correspond.

## Main results

* `Twin.matched`, `Twin.cancelOrderUnlocked`, `Twin.modifyOrderUnlocked` — the operations keep
  them so.
-/

namespace GoQuant

open MatchingAlgorithm

namespace MatchingEngine

variable {fuel : ℕ} {e e' e'' r r' : MatchingEngine} {symbol orderId : String}
  {symbols : List String} {newQuantity : ℚ} {o : Order}

theorem mem_keys_of_hasOrder (h : (e.book symbol).hasOrder orderId = true) :
    symbol ∈ e.orderBooks.keys := by
  rw [← AList.mem_keys, ← AList.lookup_isSome]
  unfold book at h
  cases hs : e.orderBooks.lookup symbol with
  | none => simp [hs, OrderBook.hasOrder, OrderBook.empty] at h
  | some b => rfl

theorem unknown_iff : (∀ symbol, (e.book symbol).hasOrder orderId = false) ↔
    ∀ symbol ∈ e.orderBooks.keys, (e.book symbol).hasOrder orderId = false := by
  constructor
  · intro h symbol _
    exact h symbol
  · intro h symbol
    cases hid : (e.book symbol).hasOrder orderId with
    | false => rfl
    | true => exact hid.symm.trans (h symbol (mem_keys_of_hasOrder hid))

/-- The first book that knows the id cancels it. -/
theorem cancelIn_eq_find (e : MatchingEngine) (orderId : String) (symbols : List String) :
    e.cancelIn orderId symbols = (symbols.find? fun s => (e.book s).hasOrder orderId).map
      fun s => (s, ((e.book s).cancelOrder e.mem orderId).2) := by
  induction symbols with
  | nil => rfl
  | cons s symbols ih =>
    have hfst := (e.book s).cancelOrder_fst e.mem orderId
    simp only [cancelIn, List.find?_cons]
    rw [← hfst]
    cases hcancel : (e.book s).cancelOrder e.mem orderId with
    | mk found b => cases found <;> simp [hcancel, ih]

/-- The first book that knows the id changes the quantity. -/
theorem modifyIn_eq_find (e : MatchingEngine) (orderId : String) (newQuantity : ℚ)
    (symbols : List String) :
    e.modifyIn orderId newQuantity symbols =
      (symbols.find? fun s => (e.book s).hasOrder orderId).bind fun s =>
        ((e.book s).modifyOrder e.mem orderId newQuantity).toOption.map fun p => (s, p.1, p.2) := by
  induction symbols with
  | nil => rfl
  | cons s symbols ih =>
    simp only [modifyIn, List.find?_cons]
    cases hid : (e.book s).hasOrder orderId with
    | true =>
      obtain ⟨mem, b, hm⟩ := @OrderBook.modifyOrder_ok e.mem (e.book s) orderId newQuantity hid
      simp [hm, Except.toOption]
    | false =>
      cases hm : (e.book s).modifyOrder e.mem orderId newQuantity with
      | ok p =>
        rw [OrderBook.hasOrder_of_modifyOrder hm] at hid
        cases hid
      | error message => simpa [hm] using ih

theorem find_known_eq_none {symbols : List String} (hkeys : symbols.Perm e.orderBooks.keys) :
    symbols.find? (fun s => (e.book s).hasOrder orderId) = none ↔
      ∀ symbol, (e.book symbol).hasOrder orderId = false := by
  rw [List.find?_eq_none, unknown_iff]
  simp [hkeys.mem_iff]

theorem cancelOrderUnlocked_none (h : (e.cancelOrderUnlocked orderId).1 = none) :
    ∀ symbol, (e.book symbol).hasOrder orderId = false := by
  refine (find_known_eq_none (e.hashOrder.symbols_perm _)).mp ?_
  unfold cancelOrderUnlocked at h
  rw [cancelIn_eq_find] at h
  split at h
  · rename_i hnone
    exact Option.map_eq_none_iff.mp hnone
  · cases h

theorem modifyOrderUnlocked_none (h : (e.modifyOrderUnlocked orderId newQuantity).1 = none) :
    ∀ symbol, (e.book symbol).hasOrder orderId = false := by
  refine (find_known_eq_none (e.hashOrder.symbols_perm _)).mp ?_
  unfold modifyOrderUnlocked at h
  rw [modifyIn_eq_find] at h
  split at h
  · rename_i hnone
    cases hfind : (e.hashOrder.symbols e.orderBooks.keys).find?
        fun s => (e.book s).hasOrder orderId with
    | none => rfl
    | some s =>
      obtain ⟨mem, b, hm⟩ := @OrderBook.modifyOrder_ok e.mem (e.book s) orderId newQuantity
        (by simpa using List.find?_some hfind)
      simp [hfind, hm, Except.toOption] at hnone
  · cases h

/-- Each id is known to at most one book. -/
def Distinct (e : MatchingEngine) : Prop :=
  ∀ id symbol symbol', (e.book symbol).hasOrder id = true →
    (e.book symbol').hasOrder id = true → symbol = symbol'

/-- If one book alone knows an id, that book cancels it, in whatever order they are asked. -/
theorem cancelIn_eq (h : e.Distinct) (hid : (e.book symbol).hasOrder orderId = true)
    (hmem : symbol ∈ symbols) : e.cancelIn orderId symbols =
      some (symbol, ((e.book symbol).cancelOrder e.mem orderId).2) := by
  have hfst (s : String) := (e.book s).cancelOrder_fst e.mem orderId
  induction symbols with
  | nil => simp at hmem
  | cons s symbols ih =>
    simp only [cancelIn]
    split
    · rename_i hcancel
      have hs : (e.book s).hasOrder orderId = true := by rw [← hfst, hcancel]
      obtain rfl := h orderId s symbol hs hid
      rw [hcancel]
    · rename_i hcancel
      have hs : s ≠ symbol := by
        rintro rfl
        rw [← hfst, hcancel] at hid
        exact absurd hid Bool.false_ne_true
      exact ih ((List.mem_cons.mp hmem).resolve_left (Ne.symm hs))

/-- The same for a change of quantity. -/
theorem modifyIn_eq (h : e.Distinct) {mem : Memory} {b : OrderBook}
    (hmod : (e.book symbol).modifyOrder e.mem orderId newQuantity = .ok (mem, b))
    (hmem : symbol ∈ symbols) :
    e.modifyIn orderId newQuantity symbols = some (symbol, mem, b) := by
  induction symbols with
  | nil => simp at hmem
  | cons s symbols ih =>
    simp only [modifyIn]
    split
    · rename_i hs
      obtain rfl := h orderId s symbol (OrderBook.hasOrder_of_modifyOrder hs)
        (OrderBook.hasOrder_of_modifyOrder hmod)
      rw [hmod] at hs
      obtain ⟨rfl, rfl⟩ := Prod.mk.inj (Except.ok.inj hs)
      rfl
    · rename_i hs
      have hne : s ≠ symbol := by
        rintro rfl
        rw [hmod] at hs
        cases hs
      exact ih ((List.mem_cons.mp hmem).resolve_left (Ne.symm hne))

/-! ## Twins -/

/-- The books of two engines correspond under a renaming of the order objects. -/
def Twin (e r : MatchingEngine) : Prop :=
  ∃ f known, Memory.Renames f known e.mem r.mem ∧
    ∀ symbol, (e.book symbol).Renames f known (r.book symbol)

namespace Twin

theorem of_same (h : Twin e r) (he : e.SameBooks e') (hr : r.SameBooks r') : Twin e' r' := by
  obtain ⟨f, known, hm, hb⟩ := h
  refine ⟨f, known, ?_, fun symbol => ?_⟩
  · rw [he.mem, hr.mem]
    exact hm
  · rw [he.book, hr.book]
    exact hb symbol

theorem hasOrder (h : Twin e r) (symbol id : String) :
    (r.book symbol).hasOrder id = (e.book symbol).hasOrder id := by
  obtain ⟨f, known, -, hb⟩ := h
  exact (hb symbol).hasOrder id

theorem distinct (h : Twin e r) (hd : e.Distinct) : r.Distinct := by
  intro id symbol symbol' hid hid'
  rw [h.hasOrder] at hid hid'
  exact hd id symbol symbol' hid hid'

theorem sameContents (h : Twin e r) (symbol : String) :
    SameContents e.mem (e.book symbol) r.mem (r.book symbol) := by
  obtain ⟨f, known, hm, hb⟩ := h
  exact (hb symbol).sameContents hm

theorem symm (h : Twin e r) : Twin r e := by
  obtain ⟨f, known, hm, hb⟩ := h
  exact ⟨_, _, hm.symm, fun symbol => (hb symbol).symm hm.injective⟩

theorem trans (h : Twin e r) (h' : Twin r r') : Twin e r' := by
  obtain ⟨f, known, hm, hb⟩ := h
  obtain ⟨g, known', hm', hb'⟩ := h'
  exact ⟨_, _, hm.trans hm', fun symbol => (hb symbol).trans (hb' symbol)⟩

/-- An order object the other engine never hears of. -/
theorem alloc_left (h : Twin e r) (o : Order) : Twin (e.alloc o).1 r := by
  obtain ⟨f, known, hm, hb⟩ := h
  exact ⟨f, known, hm.alloc_left o, hb⟩

/-- One book on each side changes. -/
theorem setBook {f : Ref → Ref} {known : Set Ref} {mem mem' : Memory} {b b' : OrderBook}
    (hm : Memory.Renames f known mem mem') (hb : b.Renames f known b')
    (hbooks : ∀ symbol, (e.book symbol).Renames f known (r.book symbol)) (symbol : String) :
    Twin { e.setBook symbol b with mem := mem } { r.setBook symbol b' with mem := mem' } := by
  refine ⟨f, known, hm, fun symbol' => ?_⟩
  by_cases hs : symbol' = symbol
  · subst hs
    rw [book_replace_self, book_replace_self]
    exact hb
  · rw [book_replace_of_ne _ _ _ hs, book_replace_of_ne _ _ _ hs]
    exact hbooks symbol'

/-- The same order is matched on both sides. -/
theorem matched (h : Twin e r) (he : (e.alloc o).1.SameBooks e')
    (hr : (r.alloc o).1.SameBooks r') {result : Matching}
    (hret : Returns e.feeModel (e.mem.alloc o).1 (e.book symbol) e.mem.next result) :
    ∃ result', Returns r.feeModel (r.mem.alloc o).1 (r.book symbol) r.mem.next result' ∧
      Twin (e'.matched symbol result) (r'.matched symbol result') := by
  obtain ⟨f, known, hm, hb⟩ := h
  have hm' := hm.alloc o
  have hf : ∀ r₀ ∈ known, Function.update f e.mem.next r.mem.next r₀ = f r₀ := fun r₀ hr₀ =>
    Function.update_of_ne (hm.allocated r₀ hr₀).1.ne _ _
  have hb' : ∀ symbol, (e.book symbol).Renames (Function.update f e.mem.next r.mem.next)
      (insert e.mem.next known) (r.book symbol) :=
    fun symbol => (hb symbol).mono hf (Set.subset_insert _ _)
  obtain ⟨result', hret', hres⟩ := hret.renames r.feeModel hm' (hb' symbol)
    (Set.mem_insert _ _)
  rw [Function.update_self] at hret'
  have hbooks : ∀ symbol, (e'.book symbol).Renames (Function.update f e.mem.next r.mem.next)
      (insert e.mem.next known) (r'.book symbol) := by
    intro symbol
    rw [he.book, hr.book]
    exact hb' symbol
  exact ⟨result', hret', setBook hres.mem hres.book hbooks symbol⟩

/-- The same order is cancelled on both sides, if each id is known to one book only. -/
theorem cancelOrderUnlocked (h : Twin e r) (hd : e.Distinct)
    (hc : e.cancelOrderUnlocked orderId = (some symbol, e')) :
    Twin e' (r.cancelOrderUnlocked orderId).2 := by
  obtain hnone | ⟨symbol, b, hcancel, e', hsome, hsame, -⟩ := cancelOrderUnlocked_cases e orderId
  · rw [hc] at hnone
    cases hnone
  obtain ⟨-, rfl⟩ := Prod.mk.inj (hsome.symm.trans hc)
  have hid : (r.book symbol).hasOrder orderId = true := by
    rw [h.hasOrder, ← OrderBook.cancelOrder_fst _ e.mem, hcancel]
  have hcancel' := cancelIn_eq (h.distinct hd) hid ((r.hashOrder.symbols_perm _).mem_iff.mpr
    (mem_keys_of_hasOrder hid))
  obtain ⟨f, known, hm, hb⟩ := h
  have hb' := (hb symbol).cancelOrder hm orderId
  rw [hcancel] at hb'
  unfold MatchingEngine.cancelOrderUnlocked
  rw [hcancel']
  have hcount (u : MatchingEngine) (n : ℕ) : u.SameBooks { u with metricOrdersCancelled := n } :=
    ⟨rfl, fun _ => rfl, fun _ => rfl, rfl, rfl⟩
  exact (setBook hm hb' hb symbol).of_same hsame ((hcount _ _).trans (.writeWAL _ _))

theorem modifyOrderUnlocked (h : Twin e r) (hd : e.Distinct)
    (hc : e.modifyOrderUnlocked orderId newQuantity = (some symbol, e')) :
    Twin e' (r.modifyOrderUnlocked orderId newQuantity).2 := by
  obtain hnone | ⟨symbol, mem, b, hmodify, e', hsome, hsame, -⟩ :=
    modifyOrderUnlocked_cases e orderId newQuantity
  · rw [hc] at hnone
    cases hnone
  obtain ⟨-, rfl⟩ := Prod.mk.inj (hsome.symm.trans hc)
  have hdistinct := h.distinct hd
  obtain ⟨f, known, hm, hb⟩ := h
  obtain ⟨mem', b', hr, hb', hm'⟩ := (hb symbol).modifyOrder hm hmodify
  have hmodify' := modifyIn_eq hdistinct hr ((r.hashOrder.symbols_perm _).mem_iff.mpr
    (mem_keys_of_hasOrder (OrderBook.hasOrder_of_modifyOrder hr)))
  unfold MatchingEngine.modifyOrderUnlocked
  rw [hmodify']
  exact (setBook hm' hb' hb symbol).of_same hsame (.writeWAL _ _)

end Twin

end MatchingEngine

end GoQuant
