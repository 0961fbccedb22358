import GoQuant.Book.Echoes
import GoQuant.Snapshot

/-!
# What a snapshot restores

Reading a snapshot rebuilds the levels, the queues and the id map of the book it was written
from, with new order objects. The book that is rebuilt does not depend on what was there before.

## Main definitions

* `Consistent` — the levels and the id map tell the same story.
* `Copies` — a part of a book, and what has been read of it so far.

## Main results

* `Copies.loadOrders`, `Copies.loadLevels` — the loops of `fromJson`.
* `OrderBook.fromJson_toJson` — the round trip, and what it means for later calls.
-/

namespace GoQuant

/-- The levels are those of a map without empty queues, each order is at its level's price and
side, and the id map holds exactly the resting orders, which carry the book's symbol. Totals and
quantities may be anything. -/
structure Consistent (mem : Memory) (b : OrderBook) : Prop extends Indexed mem b where
  resting : ∀ id r, b.orderMap.lookup id = some r → b.Rests r
  symbol : ∀ r, b.Rests r → (mem.order r).symbol = b.symbol

/-- A part `p` of a book, and a copy of it with new objects; the orders of `done` are copied. -/
structure Copies (f : Ref → Ref) (done : List Ref) (mem : Memory) (p : OrderBook)
    (mem' : Memory) (p' : OrderBook) : Prop where
  memory : Memory.Renames f {r | r ∈ done} mem mem'
  book : OrderBook.Renames f {r | r ∈ done} p p'
  lookup : ∀ id r, p.orderMap.lookup id = some r ↔ r ∈ done ∧ (mem.order r).id = id
  symbol : p'.symbol = p.symbol

namespace OrderBook

variable {f : Ref → Ref} {known : Set Ref} {b b' : OrderBook} {r : Ref}

/-- Only the levels and the ids of a book matter. -/
theorem Renames.congr {p : OrderBook} (h : OrderBook.Renames f known p b')
    (hlevels : ∀ s, b.levels s = p.levels s)
    (hlookup : ∀ id, b.orderMap.lookup id = p.orderMap.lookup id) :
    OrderBook.Renames f known b b' where
  levels s := by rw [h.levels, hlevels]
  lookup id := by rw [h.lookup, hlookup]
  rests r := by
    rintro ⟨s, l, hl, hr⟩
    exact h.rests r ⟨s, l, hlevels s ▸ hl, hr⟩
  mapped id r hr := h.mapped id r (hlookup id ▸ hr)

/-- An entry of the id map on both sides. -/
theorem Renames.insert (h : OrderBook.Renames f known b b') (hr : r ∈ known) (id : String) :
    OrderBook.Renames f known (b.setOrderMap (b.orderMap.insert id r))
      (b'.setOrderMap (b'.orderMap.insert id (f r))) := by
  refine ⟨fun s => ?_, fun id' => ?_, fun r' hr' => h.rests r' (by simpa using hr'),
    fun id' r' hr' => ?_⟩
  · rw [levels_setOrderMap, levels_setOrderMap, h.levels]
  · rw [orderMap_setOrderMap, orderMap_setOrderMap]
    by_cases hid : id' = id
    · subst hid
      simp
    · rw [AList.lookup_insert_ne hid, AList.lookup_insert_ne hid, h.lookup]
  · rw [orderMap_setOrderMap] at hr'
    by_cases hid : id' = id
    · subst hid
      rw [AList.lookup_insert] at hr'
      exact Option.some.inj hr' ▸ hr
    · rw [AList.lookup_insert_ne hid] at hr'
      exact h.mapped id' r' hr'

/-- A level of known orders on both sides. -/
theorem Renames.emplace (h : OrderBook.Renames f known b b') (s : Side) {l : PriceLevel}
    (hl : ∀ r ∈ l.orders, r ∈ known) :
    OrderBook.Renames f known
      (b.setLevels s (Keyed.emplace PriceLevel.price s.ahead l (b.levels s)))
      (b'.setLevels s (Keyed.emplace PriceLevel.price s.ahead (l.rename f) (b'.levels s))) := by
  refine ⟨fun t => ?_, fun id => ?_, fun r hr => ?_, fun id r hr => h.mapped id r ?_⟩
  · by_cases ht : t = s
    · subst ht
      rw [levels_setLevels_self, levels_setLevels_self, h.levels]
      exact (Keyed.map_emplace (PriceLevel.rename f) (fun _ => rfl) l (b.levels t)).symm
    · rw [levels_setLevels_of_ne _ _ ht, levels_setLevels_of_ne _ _ ht, h.levels]
  · rw [orderMap_setLevels, orderMap_setLevels, h.lookup]
  · obtain ⟨t, l', hl', hr⟩ := hr
    by_cases ht : t = s
    · subst ht
      rw [levels_setLevels_self] at hl'
      rcases Keyed.mem_emplace hl' with rfl | hl'
      · exact hl r hr
      · exact h.rests r ⟨t, l', hl', hr⟩
    · rw [levels_setLevels_of_ne _ _ ht] at hl'
      exact h.rests r ⟨t, l', hl', hr⟩
  · rwa [orderMap_setLevels] at hr

end OrderBook

variable {f : Ref → Ref} {done : List Ref} {mem mem' : Memory} {p p' b : OrderBook} {s : Side}
  {r : Ref}

/-- Reading what was written about an order. -/
theorem OrderBook.readOrder_orderJson (symbol : String) (s : Side) (price : ℚ) (o : Order) :
    (readOrder symbol s price (orderJson o)).run = some (.ok { o with symbol }) := by
  have hside : (if o.side.name = "buy" then Side.buy else Side.sell) = o.side := by
    cases o.side <;> decide
  have hindex : (orderJson o).constIndex "id" = some (.ok (.str o.id)) := rfl
  have hsideJson : (orderJson o).value Json.getString "side" s.name = .ok o.side.name := by
    simp [orderJson, Json.value_cons_of_ne]
  have htype : (orderJson o).value Json.getInt "type" OrderType.limit.toInt = .ok o.type.toInt := by
    simp [orderJson, Json.value_cons_of_ne]
  have hprice : (orderJson o).value Json.getDouble "price" price = .ok o.price := by
    simp [orderJson, Json.value_cons_of_ne]
  have hquantity : (orderJson o).value Json.getDouble "quantity" 0 = .ok o.quantity := by
    simp [orderJson, Json.value_cons_of_ne]
  unfold readOrder
  rw [hindex, hsideJson, htype, hprice, hquantity]
  change some (Except.ok _) = _
  rw [hside, OrderType.ofInt_toInt]

/-- Reading what was written about a level. -/
theorem OrderBook.readLevel_levelJson (mem : Memory) (l : PriceLevel) :
    (readLevel (levelJson mem l)).run =
      some (.ok (l.price, l.totalQuantity, l.orders.map fun r => orderJson (mem.order r))) := by
  have hprice : (levelJson mem l).constIndex "price" = some (.ok (.num l.price)) := rfl
  have htotal : (levelJson mem l).value Json.getDouble "totalQuantity" 0 =
      .ok l.totalQuantity := by
    simp [levelJson, Json.value_cons_of_ne]
  have horders : (levelJson mem l).constIndex "orders" =
      some (.ok (.arr (l.orders.map fun r => orderJson (mem.order r)))) := rfl
  unfold readLevel
  rw [hprice, htotal, horders]
  rfl

theorem OrderBook.get?_toJson (mem : Memory) (b : OrderBook) (s : Side) :
    (b.toJson mem).get? (snapshotKey s) = some (.arr ((b.levels s).map (levelJson mem))) := by
  cases s <;> rfl

/-- One order is copied. -/
theorem Copies.insert (h : Copies f done mem p mem' p') (hlt : r < mem.next)
    (hid : ∀ r' ∈ done, (mem.order r').id ≠ (mem.order r).id) :
    Copies (Function.update f r mem'.next) (done ++ [r]) mem
      (p.setOrderMap (p.orderMap.insert (mem.order r).id r)) (mem'.alloc (mem.order r)).1
      (p'.setOrderMap (p'.orderMap.insert (mem.order r).id mem'.next)) := by
  have hnew : r ∉ {r | r ∈ done} := fun hr => hid r hr rfl
  have hknown : {r' | r' ∈ done ++ [r]} = Set.insert r {r | r ∈ done} := by
    ext r'
    simp [Set.insert, or_comm]
  refine ⟨?_, ?_, fun id r' => ?_, by simpa using h.symbol⟩
  · rw [hknown]
    exact h.memory.alloc_right hnew hlt
  · have hmono := h.book.mono (fun r' hr' => Function.update_of_ne
      (ne_of_mem_of_not_mem hr' hnew) mem'.next f) (Set.subset_insert r _)
    have hinsert := hmono.insert (Set.mem_insert r _) (mem.order r).id
    rw [hknown]
    rwa [Function.update_self] at hinsert
  · rw [OrderBook.orderMap_setOrderMap, List.mem_append, List.mem_singleton]
    by_cases hidr : id = (mem.order r).id
    · subst hidr
      rw [AList.lookup_insert, Option.some.injEq]
      constructor
      · rintro rfl
        exact ⟨.inr rfl, rfl⟩
      · rintro ⟨hr' | rfl, heq⟩
        · exact absurd heq (hid r' hr')
        · rfl
    · rw [AList.lookup_insert_ne hidr, h.lookup]
      constructor
      · rintro ⟨hr', heq⟩
        exact ⟨.inl hr', heq⟩
      · rintro ⟨hr' | rfl, heq⟩
        · exact ⟨hr', heq⟩
        · exact absurd heq.symm hidr

/-- A level is put in its place. -/
theorem Copies.emplace (h : Copies f done mem p mem' p') (s : Side) {l : PriceLevel}
    (hl : ∀ r ∈ l.orders, r ∈ done) :
    Copies f done mem (p.setLevels s (Keyed.emplace PriceLevel.price s.ahead l (p.levels s)))
      mem' (p'.setLevels s
        (Keyed.emplace PriceLevel.price s.ahead (l.rename f) (p'.levels s))) := by
  refine ⟨h.memory, h.book.emplace s hl, fun id r => ?_, by simpa using h.symbol⟩
  rw [OrderBook.orderMap_setLevels]
  exact h.lookup id r

/-- The inner loop of `fromJson` copies a queue, by induction on what is left to read. -/
theorem Copies.loadOrders {rs acc : List Ref} (h : Copies f done mem p mem' p')
    (hacc : ∀ r ∈ acc, r ∈ done) (price : ℚ)
    (hids : ((done ++ rs).map fun r => (mem.order r).id).Nodup)
    (hrs : ∀ r ∈ rs, r < mem.next ∧ (mem.order r).symbol = p.symbol) :
    ∃ g mem₂ p₂ p₂', OrderBook.loadOrders s price
        (rs.map fun r => OrderBook.orderJson (mem.order r)) mem' p' (acc.map f) =
          some (.ok ((acc ++ rs).map g), mem₂, p₂') ∧
      Copies g (done ++ rs) mem p₂ mem₂ p₂' ∧ (∀ s, p₂.levels s = p.levels s) ∧
      p₂.symbol = p.symbol ∧ mem₂.tradeCounter = mem'.tradeCounter := by
  induction rs generalizing f done mem' p p' acc with
  | nil =>
    refine ⟨f, mem', p, p', ?_, by simpa using h, fun _ => rfl, rfl, rfl⟩
    rw [List.append_nil]
    rfl
  | cons r rs ih =>
    have hreassoc : done ++ r :: rs = done ++ [r] ++ rs := by simp
    obtain ⟨hlt, hsymbol⟩ := hrs r List.mem_cons_self
    have hid : ∀ r' ∈ done, (mem.order r').id ≠ (mem.order r).id := by
      intro r' hr' heq
      rw [List.map_append] at hids
      exact List.disjoint_of_nodup_append hids (List.mem_map_of_mem hr') (by simp [heq])
    have hread : (OrderBook.readOrder p'.symbol s price (OrderBook.orderJson (mem.order r))).run =
        some (.ok (mem.order r)) := by
      rw [OrderBook.readOrder_orderJson, h.symbol, ← hsymbol]
    have hfirst : ∀ r' ∈ acc, Function.update f r mem'.next r' = f r' := fun r' hr' =>
      Function.update_of_ne (fun heq : r' = r => hid r (heq ▸ hacc r' hr') rfl) _ _
    have hacc' : (acc ++ [r]).map (Function.update f r mem'.next) = acc.map f ++ [mem'.next] := by
      rw [List.map_append, List.map_congr_left hfirst, List.map_singleton, Function.update_self]
    obtain ⟨g, mem₂, p₂, p₂', hload, hcopies, hlevels, hsym, hcounter⟩ :=
      @ih _ _ _ _ _ (acc ++ [r]) (h.insert hlt hid) (fun r' hr' => by
          rcases List.mem_append.mp hr' with hr' | hr'
          · exact List.mem_append_left _ (hacc r' hr')
          · exact List.mem_append_right _ hr')
        (hreassoc ▸ hids) (fun r' hr' => by simpa using hrs r' (List.mem_cons_of_mem r hr'))
    refine ⟨g, mem₂, p₂, p₂', ?_, hreassoc ▸ hcopies, fun s => by simpa using hlevels s,
      by simpa using hsym, hcounter⟩
    rw [hacc', List.append_assoc] at hload
    simp only [List.map_cons, OrderBook.loadOrders, hread]
    exact hload

/-- The outer loop of `fromJson` copies the levels of a side, by induction on what is left to
read. -/
theorem Copies.loadLevels (h : Copies f done mem p mem' p') (s : Side) (ls : List PriceLevel)
    (hids : ((done ++ ls.flatMap PriceLevel.orders).map fun r => (mem.order r).id).Nodup)
    (hls : ∀ l ∈ ls, ∀ r ∈ l.orders, r < mem.next ∧ (mem.order r).symbol = p.symbol) :
    ∃ g mem₂ p₂ p₂', OrderBook.loadLevels s (ls.map (OrderBook.levelJson mem)) mem' p' =
        some (.ok (), mem₂, p₂') ∧
      Copies g (done ++ ls.flatMap PriceLevel.orders) mem p₂ mem₂ p₂' ∧
      p₂.levels s =
        ls.foldl (fun ls l => Keyed.emplace PriceLevel.price s.ahead l ls) (p.levels s) ∧
      (∀ t, t ≠ s → p₂.levels t = p.levels t) ∧
      p₂.symbol = p.symbol ∧ mem₂.tradeCounter = mem'.tradeCounter := by
  induction ls generalizing f done mem' p p' with
  | nil => exact ⟨f, mem', p, p', rfl, by simpa using h, rfl, fun _ _ => rfl, rfl, rfl⟩
  | cons l ls ih =>
    have hreassoc : done ++ (l :: ls).flatMap PriceLevel.orders =
        done ++ l.orders ++ ls.flatMap PriceLevel.orders := by simp
    rw [hreassoc] at hids ⊢
    have hfirst : ((done ++ l.orders).map fun r => (mem.order r).id).Nodup :=
      hids.sublist ((List.sublist_append_left _ _).map _)
    obtain ⟨g, mem₁, p₁, p₁', hload, hcopies, hlevels, hsym, hcounter⟩ :=
      h.loadOrders (s := s) (by simp : ∀ r ∈ [], r ∈ done) l.price hfirst
        (hls l List.mem_cons_self)
    have hcopies' := hcopies.emplace s fun r hr => List.mem_append_right done hr
    obtain ⟨g₂, mem₂, p₂, p₂', hload₂, hcopies₂, hside, hother, hsym₂, hcounter₂⟩ :=
      ih hcopies' hids fun l' hl' r hr => by
        simpa [hsym] using hls l' (List.mem_cons_of_mem l hl') r hr
    refine ⟨g₂, mem₂, p₂, p₂', ?_, hcopies₂, ?_, fun t ht => ?_, ?_, hcounter₂.trans hcounter⟩
    · rw [List.map_nil, List.nil_append] at hload
      simp only [List.map_cons, OrderBook.loadLevels, OrderBook.readLevel_levelJson, hload]
      exact hload₂
    · rw [hside, OrderBook.levels_setLevels_self, hlevels]
      rfl
    · rw [hother t ht, OrderBook.levels_setLevels_of_ne _ _ ht, hlevels]
    · simpa [hsym] using hsym₂

namespace Consistent

/-- An empty part of a book, and a cleared book. -/
theorem copies_empty (mem mem' : Memory) (symbol : String) :
    Copies id [] mem (.empty symbol) mem' (.empty symbol) where
  memory := ⟨by simp, by simp [Set.InjOn], by simp⟩
  book := .empty _ _ symbol symbol
  lookup id r := by simp [OrderBook.empty]
  symbol := rfl

/-- Reading back a snapshot copies the book it was written from, whatever was there before. -/
theorem fromJson_copies (h : Consistent mem b) {b₀ : OrderBook} (hsymbol : b₀.symbol = b.symbol)
    (mem₀ : Memory) :
    ∃ g mem₂ b₂, b₀.fromJson mem₀ (some (b.toJson mem)) = some (.ok (), mem₂, b₂) ∧
      Memory.Renames g {r | r ∈ b.resting} mem mem₂ ∧
      OrderBook.Renames g {r | r ∈ b.resting} b b₂ ∧ b₂.symbol = b.symbol ∧
      mem₂.tradeCounter = mem₀.tradeCounter := by
  have hresting : b.resting =
      [] ++ b.buyLevels.flatMap PriceLevel.orders ++ b.sellLevels.flatMap PriceLevel.orders := by
    rw [OrderBook.resting, OrderBook.items_queues, OrderBook.items_queues]
    rfl
  have hids := h.nodup_ids
  rw [hresting] at hids ⊢
  have hls : ∀ s, ∀ l ∈ b.levels s, ∀ r ∈ l.orders,
      r < mem.next ∧ (mem.order r).symbol = b.symbol := fun s l hl r hr =>
    ⟨h.restsAllocated r ⟨s, l, hl, hr⟩, h.symbol r ⟨s, l, hl, hr⟩⟩
  obtain ⟨f, mem₁, p₁, p₁', hbuy, hcopies, hbids, hasks, hsym, hcounter⟩ :=
    (copies_empty mem mem₀ b.symbol).loadLevels .buy b.buyLevels
      (hids.sublist ((List.sublist_append_left _ _).map _)) (hls .buy)
  obtain ⟨g, mem₂, p₂, p₂', hsell, hcopies₂, hasks₂, hbids₂, hsym₂, hcounter₂⟩ :=
    hcopies.loadLevels .sell b.sellLevels hids fun l hl r hr => by
      rw [hsym]
      exact hls .sell l hl r hr
  have hlevels : ∀ s, b.levels s = p₂.levels s := by
    intro s
    have hrebuilt : (b.levels s).foldl
        (fun ls l => Keyed.emplace PriceLevel.price s.ahead l ls) [] = b.levels s :=
      Keyed.foldl_emplace (h.sorted s)
    cases s with
    | buy => rw [hbids₂ .buy (by decide), hbids, ← hrebuilt]; rfl
    | sell => rw [hasks₂, hasks .sell (by decide), ← hrebuilt]; rfl
  have hlookup : ∀ id, b.orderMap.lookup id = p₂.orderMap.lookup id := by
    intro id
    refine Option.ext fun r => ?_
    rw [hcopies₂.lookup, ← hresting, OrderBook.mem_resting]
    constructor
    · intro hr
      exact ⟨h.resting id r hr, h.named id r hr⟩
    · rintro ⟨hr, rfl⟩
      exact h.found r hr
  refine ⟨g, mem₂, p₂', ?_, hcopies₂.memory, hcopies₂.book.congr hlevels hlookup, ?_,
    hcounter₂.trans hcounter⟩
  · rw [OrderBook.fromJson, hsymbol]
    simp only [OrderBook.loadSide, OrderBook.get?_toJson, Json.elements]
    rw [show b.levels .buy = b.buyLevels from rfl, hbuy]
    exact hsell
  · rw [hcopies₂.symbol, hsym₂, hsym]
    rfl

/-- The counterpart of a consistent book is consistent. -/
theorem of_renames {known : Set Ref} {b' : OrderBook} (h : Consistent mem b)
    (hm : Memory.Renames f known mem mem') (hb : OrderBook.Renames f known b b')
    (hsymbol : b'.symbol = b.symbol) : Consistent mem' b' := by
  have hlevel : ∀ s, ∀ l' ∈ b'.levels s, ∃ l ∈ b.levels s, l.rename f = l' := fun s l' hl' => by
    rwa [hb.levels, List.mem_map] at hl'
  have hrests : ∀ r', b'.Rests r' → ∃ r, b.Rests r ∧ f r = r' := by
    rintro r' ⟨s, l', hl', hr'⟩
    obtain ⟨l, hl, rfl⟩ := hlevel s l' hl'
    obtain ⟨r, hr, rfl⟩ := List.mem_map.mp hr'
    exact ⟨r, ⟨s, l, hl, hr⟩, rfl⟩
  have hlookup : ∀ id r', b'.orderMap.lookup id = some r' →
      ∃ r, b.orderMap.lookup id = some r ∧ f r = r' := fun id r' hr' => by
    rwa [hb.lookup, Option.map_eq_some_iff] at hr'
  refine ⟨⟨⟨fun s => ?_, fun s l' hl' => ?_, fun s l' hl' r' hr' => ?_, fun s l' hl' => ?_,
    fun id r' hr' => ?_, fun r' hr' => ?_, fun id r' hr' => ?_⟩, fun r' hr' => ?_⟩,
    fun id r' hr' => ?_, fun r' hr' => ?_⟩
  · rw [hb.levels, Keyed.Sorted, List.pairwise_map]
    exact h.sorted s
  · obtain ⟨l, hl, rfl⟩ := hlevel s l' hl'
    simpa [PriceLevel.rename] using h.nonempty s l hl
  · obtain ⟨l, hl, rfl⟩ := hlevel s l' hl'
    obtain ⟨r, hr, rfl⟩ := List.mem_map.mp hr'
    rw [hm.order r (hb.known_of_mem hl r hr)]
    exact h.placed s l hl r hr
  · obtain ⟨l, hl, rfl⟩ := hlevel s l' hl'
    exact (h.nodup s l hl).map_on fun r hr r' hr' heq =>
      hm.injective (hb.known_of_mem hl r hr) (hb.known_of_mem hl r' hr') heq
  · obtain ⟨r, hr, rfl⟩ := hlookup id r' hr'
    rw [hm.order r (hb.mapped id r hr)]
    exact h.named id r hr
  · obtain ⟨r, hr, rfl⟩ := hrests r' hr'
    exact (hm.allocated r (hb.rests r hr)).2
  · obtain ⟨r, hr, rfl⟩ := hlookup id r' hr'
    exact (hm.allocated r (hb.mapped id r hr)).2
  · obtain ⟨r, hr, rfl⟩ := hrests r' hr'
    rw [hm.order r (hb.rests r hr), hb.lookup, h.found r hr]
    rfl
  · obtain ⟨r, hr, rfl⟩ := hlookup id r' hr'
    obtain ⟨s, l, hl, hrl⟩ := h.resting id r hr
    exact ⟨s, l.rename f, hb.levels s ▸ List.mem_map_of_mem hl, List.mem_map_of_mem hrl⟩
  · obtain ⟨r, hr, rfl⟩ := hrests r' hr'
    rw [hm.order r (hb.rests r hr), hsymbol]
    exact h.symbol r hr

end Consistent

/-- **Round trip.** Reading the snapshot of a consistent book into any book object of its symbol
gives the same levels, queues, totals and ids. From then on both books answer every sequence of
calls alike: the same values and exceptions, and the same trades, up to their ids if the two
processes have not numbered as many, and after it they hold the same orders again. -/
theorem OrderBook.fromJson_toJson (h : Consistent mem b) (mem₀ : Memory) (b₀ : OrderBook)
    (hsymbol : b₀.symbol = b.symbol) :
    ∃ mem₂ b₂, b₀.fromJson mem₀ (some (b.toJson mem)) = some (.ok (), mem₂, b₂) ∧
      SameContents mem b mem₂ b₂ ∧ Consistent mem₂ b₂ ∧ b₂.symbol = b.symbol ∧
      ∀ feeModel fuel reqs,
        Option.Rel (fun p q =>
            List.Forall₂ (Answer.Echoes (mem₀.tradeCounter = mem.tradeCounter)) p.1 q.1 ∧
              SameContents p.2.mem p.2.book q.2.mem q.2.book)
          (Run.exec (BookState.answer feeModel fuel) ⟨mem, b⟩ reqs)
          (Run.exec (BookState.answer feeModel fuel) ⟨mem₂, b₂⟩ reqs) := by
  obtain ⟨g, mem₂, b₂, hload, hm, hb, hsym, hcounter⟩ := h.fromJson_copies hsymbol mem₀
  refine ⟨mem₂, b₂, hload, hb.sameContents hm, h.of_renames hm hb hsym, hsym,
    fun feeModel fuel reqs => ?_⟩
  have halike : Alike (mem₀.tradeCounter = mem.tradeCounter) ⟨mem, b⟩ ⟨mem₂, b₂⟩ :=
    ⟨⟨g, _, hm, hb⟩, fun hsame => hcounter.trans hsame⟩
  have hanswers := halike.exec feeModel fuel reqs
  generalize Run.exec (BookState.answer feeModel fuel) ⟨mem, b⟩ reqs = x,
    Run.exec (BookState.answer feeModel fuel) ⟨mem₂, b₂⟩ reqs = y at hanswers
  cases hanswers with
  | some hend => exact .some ⟨hend.1, hend.2.sameContents⟩
  | none => exact .none

theorem consistent_twoAsks : Consistent twoAsks.1 twoAsks.2 where
  toIndexed := wellFormed_twoAsks.toIndexed
  resting := wellFormed_twoAsks.resting
  symbol r hr := by
    have hresting : twoAsks.2.resting = [0, 1] := by decide +kernel
    have hmem := OrderBook.mem_resting.mpr hr
    rw [hresting] at hmem
    rcases List.mem_pair.mp hmem with rfl | rfl <;> decide +kernel

/-- Two asks are restored into a book that held a bid, and are bought there as from the
original. -/
theorem OrderBook.fromJson_toJson_two_asks :
    let mem₀ := (Memory.empty.alloc ⟨"z", "S", .buy, .limit, 50, 1⟩).1
    let b₀ := (OrderBook.empty "S").addOrder mem₀ 0
    let reqs := [.submit ⟨"c", "S", .buy, .limit, 100, 7⟩, .cancel "b", .modify "z" 2]
    ∃ mem₂ b₂, b₀.fromJson mem₀ (some (twoAsks.2.toJson twoAsks.1)) = some (.ok (), mem₂, b₂) ∧
      SameContents twoAsks.1 twoAsks.2 mem₂ b₂ ∧
      ∃ p q, Run.exec (BookState.answer none 3) ⟨twoAsks.1, twoAsks.2⟩ reqs = some p ∧
        Run.exec (BookState.answer none 3) ⟨mem₂, b₂⟩ reqs = some q ∧
        List.Forall₂ (Answer.Echoes True) p.1 q.1 := by
  intro mem₀ b₀ reqs
  obtain ⟨mem₂, b₂, hload, hsame, -, -, hanswers⟩ :=
    OrderBook.fromJson_toJson consistent_twoAsks mem₀ b₀ rfl
  refine ⟨mem₂, b₂, hload, hsame, ?_⟩
  have hreturns : (Run.exec (BookState.answer none 3) ⟨twoAsks.1, twoAsks.2⟩ reqs).isSome := by
    decide +kernel
  obtain ⟨p, hp⟩ := Option.isSome_iff_exists.mp hreturns
  have hrel := hanswers none 3 reqs
  rw [hp] at hrel
  generalize hq : Run.exec (BookState.answer none 3) ⟨mem₂, b₂⟩ reqs = q at hrel
  cases hrel with
  | some hend => exact ⟨p, _, hp, rfl, hend.1.imp fun _ _ h => ⟨h.1, fun _ => h.2 rfl⟩⟩

end GoQuant
