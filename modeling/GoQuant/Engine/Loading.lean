import GoQuant.Engine.Sections
import GoQuant.Snapshot

/-!
# Loading a directory of snapshots

A load reads the files of a directory one after another and stops at the first that cannot be
read. What it has loaded before stays, and what comes after is not looked at.

## Main definitions

* `Memory.Grows` — new order objects, and no change to the old ones.
* `DirEntry.IsSnapshot`, `DirEntry.symbol` — the files a load reads, and the book each is for.

## Main results

* `OrderBook.fromJson_spec` — reading a snapshot builds new orders only.
* `loadEntries_spec`, `loadEntries_failed` — what the loop does to the books, and where it stops.
* `MatchingEngine.loadState_failed` — a load that fails.
-/

namespace GoQuant

/-- New order objects, and no change to the old ones. -/
def Memory.Grows (mem mem' : Memory) : Prop :=
  mem.next ≤ mem'.next ∧ ∀ r < mem.next, mem'.order r = mem.order r

namespace Memory.Grows

variable {mem mem' mem'' : Memory}

theorem refl (mem : Memory) : mem.Grows mem := ⟨le_rfl, fun _ _ => rfl⟩

theorem trans (h : mem.Grows mem') (h' : mem'.Grows mem'') : mem.Grows mem'' :=
  ⟨h.1.trans h'.1, fun r hr => (h'.2 r (hr.trans_le h.1)).trans (h.2 r hr)⟩

theorem alloc (mem : Memory) (o : Order) : mem.Grows (mem.alloc o).1 :=
  ⟨Nat.le_succ _, fun r hr => alloc_order_of_lt mem r o hr⟩

theorem toExtends (h : mem.Grows mem') : mem.Extends mem' :=
  ⟨h.1, fun r hr => ⟨(mem.order r).quantity, h.2 r hr⟩⟩

end Memory.Grows

/-! ## Orders read from a snapshot -/

namespace OrderBook

variable {s : Side} {price : ℚ} {ojs lvls : List Json} {mem mem' : Memory} {b b' : OrderBook}
  {orders : List Ref}

/-- The orders of a level are built for it, and the levels stay. By induction on what is left to
read. -/
theorem loadOrders_spec {r : Except String (List Ref)}
    (h : loadOrders s price ojs mem b orders = some (r, mem', b'))
    (horders : ∀ o ∈ orders, o < mem.next) : mem.Grows mem' ∧
      (∀ t, b'.levels t = b.levels t) ∧ ∀ os, r = .ok os → ∀ o ∈ os, o < mem'.next := by
  induction ojs generalizing mem b orders with
  | nil =>
    obtain ⟨rfl, hp⟩ := Prod.mk.inj (Option.some.inj h)
    obtain ⟨rfl, rfl⟩ := Prod.mk.inj hp
    refine ⟨.refl mem, fun _ => rfl, fun os hos => ?_⟩
    obtain rfl := Except.ok.inj hos
    exact horders
  | cons oj ojs ih =>
    simp only [loadOrders] at h
    split at h
    · cases h
    · obtain ⟨rfl, hp⟩ := Prod.mk.inj (Option.some.inj h)
      obtain ⟨rfl, rfl⟩ := Prod.mk.inj hp
      exact ⟨.refl mem, fun _ => rfl, nofun⟩
    · rename_i o _
      have hnew : ∀ r ∈ orders ++ [mem.next], r < (mem.alloc o).1.next := by
        intro r hr
        rw [List.mem_append, List.mem_singleton] at hr
        rcases hr with hold | rfl
        · exact (horders r hold).trans (Nat.lt_succ_self _)
        · exact Nat.lt_succ_self _
      obtain ⟨hext, hlevels, hbuilt⟩ := ih h hnew
      exact ⟨(Memory.Grows.alloc mem o).trans hext, fun t => (hlevels t).trans
        (levels_setOrderMap b t _), hbuilt⟩

/-- Whatever rests when levels have been read is built. By induction on the levels. -/
theorem loadLevels_spec {r : Except String Unit}
    (h : loadLevels s lvls mem b = some (r, mem', b')) :
    mem.Grows mem' ∧ ((∀ r, b.Rests r → r < mem.next) → ∀ r, b'.Rests r → r < mem'.next) := by
  induction lvls generalizing mem b with
  | nil =>
    obtain ⟨-, hp⟩ := Prod.mk.inj (Option.some.inj h)
    obtain ⟨rfl, rfl⟩ := Prod.mk.inj hp
    exact ⟨.refl mem, id⟩
  | cons lvl lvls ih =>
    simp only [loadLevels] at h
    split at h
    · cases h
    · obtain ⟨-, hp⟩ := Prod.mk.inj (Option.some.inj h)
      obtain ⟨rfl, rfl⟩ := Prod.mk.inj hp
      exact ⟨.refl mem, id⟩
    · split at h
      · cases h
      · rename_i hload
        obtain ⟨-, hp⟩ := Prod.mk.inj (Option.some.inj h)
        obtain ⟨rfl, rfl⟩ := Prod.mk.inj hp
        obtain ⟨hgrows, hlevels, -⟩ := loadOrders_spec hload nofun
        refine ⟨hgrows, fun hb r hr => ?_⟩
        obtain ⟨t, l, hl, hr⟩ := hr
        exact (hb r ⟨t, l, hlevels t ▸ hl, hr⟩).trans_le hgrows.1
      · rename_i orders u c hload
        obtain ⟨hgrows, hlevels, hbuilt⟩ := loadOrders_spec hload nofun
        obtain ⟨hgrows', hb'⟩ := ih h
        refine ⟨hgrows.trans hgrows', fun hb => hb' fun r hr => ?_⟩
        obtain ⟨t, l, hl, hr⟩ := hr
        have hold : ∀ l ∈ c.levels t, r ∈ l.orders → r < u.next := fun l hl hr =>
          (hb r ⟨t, l, hlevels t ▸ hl, hr⟩).trans_le hgrows.1
        by_cases hts : t = s
        · subst hts
          rw [levels_setLevels_self] at hl
          rcases Keyed.mem_emplace hl with rfl | hl
          · exact hbuilt orders rfl r hr
          · exact hold l hl hr
        · rw [levels_setLevels_of_ne _ _ hts] at hl
          exact hold l hl hr

theorem loadSide_spec {j : Json} {r : Except String Unit}
    (h : loadSide s j mem b = some (r, mem', b')) :
    mem.Grows mem' ∧ ((∀ r, b.Rests r → r < mem.next) → ∀ r, b'.Rests r → r < mem'.next) := by
  unfold loadSide at h
  split at h
  · obtain ⟨-, hp⟩ := Prod.mk.inj (Option.some.inj h)
    obtain ⟨rfl, rfl⟩ := Prod.mk.inj hp
    exact ⟨.refl mem, id⟩
  · exact loadLevels_spec h

/-- Also when an exception has ended it. -/
theorem fromJson_spec {jsonStr : Option Json} {r : Except String Unit}
    (h : b.fromJson mem jsonStr = some (r, mem', b')) :
    mem.Grows mem' ∧ ((∀ r, b.Rests r → r < mem.next) → ∀ r, b'.Rests r → r < mem'.next) := by
  have hempty : ∀ r, (OrderBook.empty b.symbol).Rests r → r < mem.next := fun r hr =>
    absurd hr (not_rests_empty _ r)
  unfold fromJson at h
  split at h
  · obtain ⟨-, hp⟩ := Prod.mk.inj (Option.some.inj h)
    obtain ⟨rfl, rfl⟩ := Prod.mk.inj hp
    exact ⟨.refl mem, id⟩
  · split at h
    · cases h
    · rename_i hbids
      obtain ⟨-, hp⟩ := Prod.mk.inj (Option.some.inj h)
      obtain ⟨rfl, rfl⟩ := Prod.mk.inj hp
      obtain ⟨hgrows, hbuilt⟩ := loadSide_spec hbids
      exact ⟨hgrows, fun _ => hbuilt hempty⟩
    · rename_i hbids
      obtain ⟨hgrows, hbuilt⟩ := loadSide_spec hbids
      obtain ⟨hgrows', hbuilt'⟩ := loadSide_spec h
      exact ⟨hgrows.trans hgrows', fun _ => hbuilt' (hbuilt hempty)⟩

end OrderBook

/-! ## The files of a directory -/

/-- The entries that a load reads. -/
def DirEntry.IsSnapshot (entry : DirEntry) : Prop :=
  entry.isRegularFile ∧ (splitExtension entry.filename).2 = ".json"

/-- The symbol whose book an entry is read into. -/
def DirEntry.symbol (entry : DirEntry) : String := (splitExtension entry.filename).1

instance (entry : DirEntry) : Decidable entry.IsSnapshot := by
  unfold DirEntry.IsSnapshot; infer_instance

namespace MatchingEngine

variable {e e' e'' : MatchingEngine} {entry : DirEntry} {before entries : List DirEntry}
  {symbol : String} {ok : Bool}

/-- Nothing changes but books, and no order object does. -/
structure Loads (e e' : MatchingEngine) : Prop where
  memory : e.mem.Grows e'.mem
  rest : e' = { e with mem := e'.mem, orderBooks := e'.orderBooks }

theorem Loads.refl (e : MatchingEngine) : e.Loads e := ⟨.refl e.mem, rfl⟩

theorem Loads.trans (h : e.Loads e') (h' : e'.Loads e'') : e.Loads e'' := by
  refine ⟨h.memory.trans h'.memory, ?_⟩
  rw [h'.rest, h.rest]

/-- The books of other symbols stay. -/
theorem loads_read (e : MatchingEngine) (symbol : String) {mem : Memory} (b : OrderBook)
    (hgrows : e.mem.Grows mem) :
    e.Loads { (e.getOrCreateOrderBook symbol).setBook symbol b with mem := mem } ∧
      ∀ symbol', symbol' ≠ symbol →
        ({ (e.getOrCreateOrderBook symbol).setBook symbol b with mem := mem } :
          MatchingEngine).book symbol' = e.book symbol' := by
  refine ⟨⟨hgrows, ?_⟩, fun symbol' hne => ?_⟩
  · unfold getOrCreateOrderBook
    cases e.orderBooks.lookup symbol <;> rfl
  · rw [book_replace_of_ne _ _ _ hne]
    exact (SameBooks.getOrCreateOrderBook e symbol).book symbol'

/-! ## The loop over the entries -/

theorem loadEntries_cons_skip (hsnapshot : ¬ entry.IsSnapshot) :
    loadEntries (entry :: entries) e = loadEntries entries e := by
  unfold DirEntry.IsSnapshot at hsnapshot
  simp only [loadEntries]
  rw [if_neg hsnapshot]

theorem loadEntries_cons_ok {mem : Memory} {b : OrderBook} (hsnapshot : entry.IsSnapshot)
    (hread : ((e.getOrCreateOrderBook entry.symbol).book entry.symbol).fromJson
      (e.getOrCreateOrderBook entry.symbol).mem entry.content = some (.ok (), mem, b)) :
    loadEntries (entry :: entries) e = loadEntries entries
      { (e.getOrCreateOrderBook entry.symbol).setBook entry.symbol b with mem := mem } := by
  unfold DirEntry.IsSnapshot at hsnapshot
  unfold DirEntry.symbol at hread ⊢
  simp only [loadEntries]
  rw [if_pos hsnapshot, hread]

/-- An entry that cannot be read ends the loop. -/
theorem loadEntries_cons_error {message : String} {mem : Memory} {b : OrderBook}
    (hsnapshot : entry.IsSnapshot)
    (hread : ((e.getOrCreateOrderBook entry.symbol).book entry.symbol).fromJson
      (e.getOrCreateOrderBook entry.symbol).mem entry.content = some (.error message, mem, b)) :
    loadEntries (entry :: entries) e = some (false,
      { (e.getOrCreateOrderBook entry.symbol).setBook entry.symbol b with mem := mem }) := by
  unfold DirEntry.IsSnapshot at hsnapshot
  unfold DirEntry.symbol at hread ⊢
  simp only [loadEntries]
  rw [if_pos hsnapshot, hread]

/-- What the loop does with its first entry. -/
theorem loadEntries_cons_cases (h : loadEntries (entry :: entries) e = some (ok, e')) :
    (¬ entry.IsSnapshot ∧ loadEntries entries e = some (ok, e')) ∨
    entry.IsSnapshot ∧ ∃ mem b,
      (((e.getOrCreateOrderBook entry.symbol).book entry.symbol).fromJson
          (e.getOrCreateOrderBook entry.symbol).mem entry.content = some (.ok (), mem, b) ∧
        loadEntries entries { (e.getOrCreateOrderBook entry.symbol).setBook entry.symbol b with
          mem := mem } = some (ok, e')) ∨
      (∃ message, ((e.getOrCreateOrderBook entry.symbol).book entry.symbol).fromJson
          (e.getOrCreateOrderBook entry.symbol).mem entry.content =
            some (.error message, mem, b)) ∧ ok = false ∧
        e' = { (e.getOrCreateOrderBook entry.symbol).setBook entry.symbol b with mem := mem } := by
  by_cases hsnapshot : entry.IsSnapshot
  · refine .inr ⟨hsnapshot, ?_⟩
    cases hread : ((e.getOrCreateOrderBook entry.symbol).book entry.symbol).fromJson
        (e.getOrCreateOrderBook entry.symbol).mem entry.content with
    | none =>
      unfold DirEntry.IsSnapshot at hsnapshot
      unfold DirEntry.symbol at hread
      simp only [loadEntries] at h
      rw [if_pos hsnapshot, hread] at h
      cases h
    | some p =>
      obtain ⟨r, mem, b⟩ := p
      refine ⟨mem, b, ?_⟩
      cases r with
      | error message =>
        rw [loadEntries_cons_error hsnapshot hread] at h
        obtain ⟨rfl, rfl⟩ := Prod.mk.inj (Option.some.inj h)
        exact .inr ⟨⟨message, rfl⟩, rfl, rfl⟩
      | ok u =>
        rw [loadEntries_cons_ok hsnapshot hread] at h
        exact .inl ⟨rfl, h⟩
  · rw [loadEntries_cons_skip hsnapshot] at h
    exact .inl ⟨hsnapshot, h⟩

/-- The loop touches the books of the files it comes to. By induction on the entries. -/
theorem loadEntries_spec (h : loadEntries entries e = some (ok, e')) : e.Loads e' ∧
    ∀ symbol, (∀ f ∈ entries, f.IsSnapshot → f.symbol ≠ symbol) →
      e'.book symbol = e.book symbol := by
  induction entries generalizing e with
  | nil =>
    obtain ⟨-, rfl⟩ := Prod.mk.inj (Option.some.inj h)
    exact ⟨.refl e, fun _ _ => rfl⟩
  | cons entry entries ih =>
    have hmem := (SameBooks.getOrCreateOrderBook e entry.symbol).mem
    rcases loadEntries_cons_cases h with ⟨-, h⟩ | ⟨hsnapshot, mem, b, ⟨hread, h⟩ |
      ⟨⟨message, hread⟩, -, rfl⟩⟩
    · obtain ⟨hloads, hrest⟩ := ih h
      exact ⟨hloads, fun symbol hne =>
        hrest symbol fun f hf => hne f (List.mem_cons_of_mem entry hf)⟩
    · obtain ⟨hloads, hother⟩ :=
        loads_read e entry.symbol b (hmem ▸ (OrderBook.fromJson_spec hread).1)
      obtain ⟨hloads', hrest⟩ := ih h
      exact ⟨hloads.trans hloads', fun symbol hne => (hrest symbol fun f hf =>
        hne f (List.mem_cons_of_mem entry hf)).trans
          (hother symbol (hne entry List.mem_cons_self hsnapshot).symm)⟩
    · obtain ⟨hloads, hother⟩ :=
        loads_read e entry.symbol b (hmem ▸ (OrderBook.fromJson_spec hread).1)
      exact ⟨hloads, fun symbol hne =>
        hother symbol (hne entry List.mem_cons_self hsnapshot).symm⟩

/-- The loop goes on where it has got to. -/
theorem loadEntries_append (h : loadEntries before e = some (true, e')) :
    loadEntries (before ++ entries) e = loadEntries entries e' := by
  induction before generalizing e with
  | nil =>
    obtain ⟨-, rfl⟩ := Prod.mk.inj (Option.some.inj h)
    rfl
  | cons entry before ih =>
    rw [List.cons_append]
    rcases loadEntries_cons_cases h with ⟨hsnapshot, h⟩ | ⟨hsnapshot, mem, b, ⟨hread, h⟩ |
      ⟨-, hfalse, -⟩⟩
    · rw [loadEntries_cons_skip hsnapshot]
      exact ih h
    · rw [loadEntries_cons_ok hsnapshot hread]
      exact ih h
    · cases hfalse

/-- The entry that ends the loop, by induction on those before it. -/
theorem loadEntries_failed (h : loadEntries entries e = some (false, e')) :
    ∃ before entry after e₁, entries = before ++ entry :: after ∧ entry.IsSnapshot ∧
      loadEntries before e = some (true, e₁) ∧
      ∃ message mem b, ((e₁.getOrCreateOrderBook entry.symbol).book entry.symbol).fromJson
          (e₁.getOrCreateOrderBook entry.symbol).mem entry.content =
        some (.error message, mem, b) := by
  induction entries generalizing e with
  | nil => cases h
  | cons entry entries ih =>
    rcases loadEntries_cons_cases h with ⟨hsnapshot, h⟩ | ⟨hsnapshot, mem, b, ⟨hread, h⟩ |
      ⟨⟨message, hread⟩, -, -⟩⟩
    · obtain ⟨before, f, after, e₁, rfl, hf, hbefore, hend⟩ := ih h
      exact ⟨entry :: before, f, after, e₁, rfl, hf,
        (loadEntries_cons_skip hsnapshot).trans hbefore, hend⟩
    · obtain ⟨before, f, after, e₁, rfl, hf, hbefore, hend⟩ := ih h
      exact ⟨entry :: before, f, after, e₁, rfl, hf,
        (loadEntries_cons_ok hsnapshot hread).trans hbefore, hend⟩
    · exact ⟨[], entry, entries, e, rfl, hsnapshot, rfl, message, mem, b, hread⟩

/-- **A load that fails** stops at the first snapshot it cannot read. The files before it are
loaded as a load of them alone would, and those after it are not looked at. A text that is no JSON
leaves its book, and what any other text makes of a book does not depend on what was there. -/
theorem loadState_failed :
    (∀ (mem : Memory) (b : OrderBook), ∃ message,
      b.fromJson mem none = some (.error message, mem, b)) ∧
    (∀ (mem : Memory) (b b₀ : OrderBook) (j : Json), b₀.symbol = b.symbol →
      b₀.fromJson mem (some j) = b.fromJson mem (some j)) ∧
    ∀ (e e' : MatchingEngine) (path : Option (List DirEntry)),
      e.loadState path = some (false, e') →
      (path = none ∧ e' = e) ∨
      ∃ before entry after e₁, path = some (before ++ entry :: after) ∧ entry.IsSnapshot ∧
        e.loadState (some before) = some (true, e₁) ∧
        (∀ after', e.loadState (some (before ++ entry :: after')) = some (false, e')) ∧
        (∀ symbol, symbol ≠ entry.symbol → e'.book symbol = e₁.book symbol) ∧
        (entry.content = none → e'.book entry.symbol = e₁.book entry.symbol) ∧
        (∀ symbol, (∀ f ∈ before, f.IsSnapshot → f.symbol ≠ symbol) →
          e₁.book symbol = e.book symbol) ∧
        e.Loads e₁ ∧ e₁.Loads e' := by
  refine ⟨fun mem b => ⟨_, rfl⟩, fun mem b b₀ j hsymbol => ?_, fun e e' path h => ?_⟩
  · simp only [OrderBook.fromJson, hsymbol]
  · cases path with
    | none =>
      obtain ⟨-, rfl⟩ := Prod.mk.inj (Option.some.inj h)
      exact .inl ⟨rfl, rfl⟩
    | some entries =>
      obtain ⟨before, entry, after, e₁, rfl, hsnapshot, hbefore, message, mem, b, hread⟩ :=
        loadEntries_failed h
      have hstops : ∀ after', loadEntries (before ++ entry :: after') e = _ := fun after' =>
        (loadEntries_append hbefore).trans (loadEntries_cons_error hsnapshot hread)
      obtain rfl := (Prod.mk.inj (Option.some.inj (h.symm.trans (hstops after)))).2
      obtain ⟨hloads, hother⟩ := loadEntries_spec hbefore
      have hsame := SameBooks.getOrCreateOrderBook e₁ entry.symbol
      obtain ⟨hloads', hother'⟩ :=
        loads_read e₁ entry.symbol b (hsame.mem ▸ (OrderBook.fromJson_spec hread).1)
      refine .inr ⟨before, entry, after, e₁, rfl, hsnapshot, hbefore, hstops, hother',
        fun hcontent => ?_, hother, hloads, hloads'⟩
      rw [hcontent] at hread
      obtain ⟨-, hp⟩ := Prod.mk.inj (Option.some.inj hread)
      obtain ⟨-, rfl⟩ := Prod.mk.inj hp
      rw [book_replace_self]
      exact hsame.book entry.symbol

/-- Of three files the second is no JSON: the first is loaded, and the third is not. -/
theorem loadState_failed_second :
    let bid : Order := ⟨"bid", "S", .buy, .limit, 10, 5⟩
    let text := OrderBook.toJson (Memory.empty.alloc bid).1
      ((OrderBook.empty "S").addOrder (Memory.empty.alloc bid).1 0)
    let entries : List DirEntry :=
      [⟨"S.json", true, some text⟩, ⟨"T.json", true, none⟩, ⟨"U.json", true, some text⟩]
    ∃ e' before entry after e₁,
      (fresh .empty .plain none).loadState (some entries) = some (false, e') ∧
      entries = before ++ entry :: after ∧
      (fresh .empty .plain none).loadState (some before) = some (true, e₁) ∧
      ∀ symbol, symbol ≠ entry.symbol → e'.book symbol = e₁.book symbol := by
  intro bid text entries
  have hfails : ((fresh .empty .plain none).loadState (some entries)).map Prod.fst =
      some false := by decide +kernel
  obtain ⟨⟨ok, e'⟩, hload, rfl⟩ := Option.map_eq_some_iff.mp hfails
  rcases loadState_failed.2.2 _ _ _ hload with
    ⟨hnone, -⟩ | ⟨before, entry, after, e₁, hentries, -, hbefore, -, hother, -⟩
  · cases hnone
  · exact ⟨e', before, entry, after, e₁, hload, Option.some.inj hentries, hbefore, hother⟩

/-- **A failed load changes books.** An engine holds a bid. A load that stops at the second of two
files has emptied the book of the first, and a load of one file with a price of the wrong type has
emptied its book as well. -/
theorem loadState_false_clears :
    let bid : Order := ⟨"bid", "S", .buy, .limit, 10, 5⟩
    ∃ e, ((fresh .empty .plain none).alloc bid).1.submitOrder 3 true 0 = some (.ok (), e) ∧
      (e.book "S").hasOrder "bid" = true ∧
      (∃ e', e.loadState (some [⟨"S.json", true, some (.obj [])⟩, ⟨"T.json", true, none⟩]) =
          some (false, e') ∧ (e'.book "S").hasOrder "bid" = false) ∧
      ∃ e', e.loadState (some [⟨"S.json", true,
            some (.obj [("bids", .arr [.obj [("price", .str "10")]])])⟩]) = some (false, e') ∧
          (e'.book "S").hasOrder "bid" = false := by
  intro bid
  let loaded (entries : List DirEntry) (e : MatchingEngine) :=
    (e.loadState (some entries)).map fun p => (p.1, (p.2.book "S").hasOrder "bid")
  have hseen : (((fresh .empty .plain none).alloc bid).1.submitOrder 3 true 0).map (fun p =>
      (p.1.toOption, (p.2.book "S").hasOrder "bid",
        loaded [⟨"S.json", true, some (.obj [])⟩, ⟨"T.json", true, none⟩] p.2,
        loaded [⟨"S.json", true, some (.obj [("bids", .arr [.obj [("price", .str "10")]])])⟩]
          p.2)) = some (some (), true, some (false, false), some (false, false)) := by
    decide +kernel
  obtain ⟨⟨r, e⟩, hsubmit, hseen⟩ := Option.map_eq_some_iff.mp hseen
  simp only [Prod.mk.injEq] at hseen
  obtain ⟨hr, hbid, hfirst, hsecond⟩ := hseen
  obtain ⟨⟨_, e₁⟩, hload₁, h₁⟩ := Option.map_eq_some_iff.mp hfirst
  obtain ⟨⟨_, e₂⟩, hload₂, h₂⟩ := Option.map_eq_some_iff.mp hsecond
  obtain ⟨rfl, h₁⟩ := Prod.mk.inj h₁
  obtain ⟨rfl, h₂⟩ := Prod.mk.inj h₂
  cases r with
  | error message => cases hr
  | ok u => exact ⟨e, hsubmit, hbid, ⟨e₁, hload₁, h₁⟩, e₂, hload₂, h₂⟩

end MatchingEngine

end GoQuant
