import GoQuant.DoubleBook
import GoQuant.Engine.Loading
import GoQuant.Book.RoundTrip

/-!
# Saving and loading the books

`saveState` writes the book of each symbol to a file named after it, and `loadState` takes the
symbol from the name of the file. This works for a symbol that is a file name. Other symbols are
paths: their books are written elsewhere, or not at all, and the save succeeds all the same. So it
does if the total of a level has become infinite, but what it writes then cannot be read.

## Main definitions

* `RestoredFrom` — a load of a directory restores each book from its own snapshot.

## Main results

* `fromJson_toJson_ok`, `finite_of_fromJson` — a snapshot can be read exactly if its totals are
  finite.
* `saveState_restores_iff` — the books that survive.
* `saveState_loses_book`, `saveState_unreadable` — a symbol with a slash, and two orders that add up
  to an infinite total.
-/

namespace GoQuant

/-! ## Snapshots can be read -/

namespace OrderBook

/-- What was written about orders is read, whatever they are. -/
theorem loadOrders_orderJson (mem : Memory) (s : Side) (price : ℚ) (rs acc : List Ref)
    (mem' : Memory) (b : OrderBook) :
    ∃ os mem₂ b₂, loadOrders s price (rs.map fun r => orderJson (mem.order r)) mem' b acc =
      some (.ok os, mem₂, b₂) := by
  induction rs generalizing mem' b acc with
  | nil => exact ⟨_, _, _, rfl⟩
  | cons r rs ih =>
    simp only [List.map_cons, loadOrders, readOrder_orderJson]
    exact ih _ _ _

theorem loadLevels_levelJson (mem : Memory) (s : Side) (ls : List PriceLevel) (mem' : Memory)
    (b : OrderBook) :
    ∃ mem₂ b₂, loadLevels s (ls.map (levelJson mem)) mem' b = some (.ok (), mem₂, b₂) := by
  induction ls generalizing mem' b with
  | nil => exact ⟨_, _, rfl⟩
  | cons l ls ih =>
    obtain ⟨os, mem₁, b₁, hload⟩ :=
      loadOrders_orderJson mem s l.price l.orders [] mem' b
    simp only [List.map_cons, loadLevels, readLevel_levelJson, hload]
    exact ih _ _

end OrderBook

namespace DoubleBook

variable {mem : Memory} {b : DoubleBook}

/-- A snapshot with finite totals can be read. -/
theorem fromJson_toJson_ok (mem : Memory) (h : b.Finite) (mem₀ : Memory) (b₀ : OrderBook) :
    ∃ mem₂ b₂, b₀.fromJson mem₀ (some (b.toJson mem)) = some (.ok (), mem₂, b₂) := by
  obtain ⟨mem₁, b₁, hbuy⟩ :=
    OrderBook.loadLevels_levelJson mem .buy (b.exact.levels .buy) mem₀ (.empty b₀.symbol)
  rw [toJson_exact h]
  simp only [OrderBook.fromJson, OrderBook.loadSide, OrderBook.get?_toJson, Json.elements, hbuy]
  exact OrderBook.loadLevels_levelJson mem .sell _ _ _

/-- Reading null for a total fails. -/
theorem readLevel_error {l : DoubleLevel} (h : l.totalQuantity.toRat?.isSome = false) :
    (OrderBook.readLevel (levelJson mem l)).run =
      some (.error "type_error.302: type must be number") := by
  have hnull : numberJson l.totalQuantity = .null := by
    cases htotal : l.totalQuantity with
    | finite q hq => simp [htotal, Double.toRat?] at h
    | _ => rfl
  have hprice : (levelJson mem l).constIndex "price" = some (.ok (.num l.price)) := rfl
  have htotal : (levelJson mem l).value Json.getDouble "totalQuantity" 0 =
      .error "type_error.302: type must be number" := by
    simp [levelJson, Json.value_cons_of_ne, hnull, Json.getDouble]
  unfold OrderBook.readLevel
  rw [hprice, htotal]
  rfl

/-- Levels that are read have finite totals, by induction on the levels. -/
theorem finite_of_loadLevels {s : Side} {ls : List DoubleLevel} {mem₁ mem₂ : Memory}
    {b₁ b₂ : OrderBook}
    (h : OrderBook.loadLevels s (ls.map (levelJson mem)) mem₁ b₁ = some (.ok (), mem₂, b₂)) :
    ∀ l ∈ ls, l.totalQuantity.toRat?.isSome = true := by
  induction ls generalizing mem₁ b₁ with
  | nil => exact fun _ hl => absurd hl List.not_mem_nil
  | cons l ls ih =>
    cases hfinite : l.totalQuantity.toRat?.isSome with
    | false =>
      simp only [List.map_cons, OrderBook.loadLevels, readLevel_error hfinite] at h
      cases h
    | true =>
      obtain ⟨os, mem₃, b₃, hload⟩ :=
        OrderBook.loadOrders_orderJson mem s l.price l.orders [] mem₁ b₁
      rw [List.map_cons, levelJson_exact hfinite] at h
      simp only [OrderBook.loadLevels, OrderBook.readLevel_levelJson, DoubleLevel.exact, hload] at h
      exact List.forall_mem_cons.mpr ⟨hfinite, ih h⟩

theorem get?_toJson (mem : Memory) (b : DoubleBook) (s : Side) :
    (b.toJson mem).get? (OrderBook.snapshotKey s) =
      some (.arr ((b.levels s).map (levelJson mem))) := by
  cases s <;> rfl

/-- A snapshot that can be read has finite totals. -/
theorem finite_of_fromJson {mem₀ mem₂ : Memory} {b₀ b₂ : OrderBook}
    (h : b₀.fromJson mem₀ (some (b.toJson mem)) = some (.ok (), mem₂, b₂)) : b.Finite := by
  simp only [OrderBook.fromJson, OrderBook.loadSide, get?_toJson, Json.elements] at h
  rcases hbuy : OrderBook.loadLevels .buy ((b.levels .buy).map (levelJson mem)) mem₀
    (.empty b₀.symbol) with _ | ⟨_ | ⟨⟩, mem₁, b₁⟩
  · rw [hbuy] at h
    cases h
  · rw [hbuy] at h
    cases h
  · rw [hbuy] at h
    intro s
    cases s with
    | buy => exact finite_of_loadLevels hbuy
    | sell => exact finite_of_loadLevels h

end DoubleBook

/-! ## File names -/

/-- The name of a snapshot gives its symbol back. -/
theorem splitExtension_json {symbol : String} (h : symbol ≠ "") :
    splitExtension (symbol ++ ".json") = (symbol, ".json") := by
  obtain ⟨c, stem, hstem⟩ : ∃ c stem, symbol.toList.reverse = c :: stem := by
    cases hrev : symbol.toList.reverse with
    | nil => exact absurd (by simpa using hrev) h
    | cons c stem => exact ⟨c, stem, rfl⟩
  have hspan : (symbol ++ ".json").toList.reverse.span (· ≠ '.') =
      (['n', 'o', 's', 'j'], '.' :: c :: stem) := by
    rw [String.toList_append, List.reverse_append, hstem]
    rfl
  have hne : symbol ++ ".json" ≠ ".." := by
    intro heq
    have hlast := congrArg (fun s : String => s.toList.getLast?) heq
    simp at hlast
  unfold splitExtension
  rw [hspan]
  dsimp only
  rw [if_neg hne, ← hstem, List.reverse_reverse, String.ofList_toList]
  rfl

/-- A stem is a part of its file name. -/
theorem mem_of_mem_stem {filename : String} {c : Char}
    (h : c ∈ (splitExtension filename).1.toList) : c ∈ filename.toList := by
  unfold splitExtension at h
  rw [List.span_eq_takeWhile_dropWhile] at h
  dsimp only at h
  split at h
  · rename_i d e stem hrest
    split_ifs at h
    · exact h
    · have hsub : c ∈ filename.toList.reverse.dropWhile (· ≠ '.') := by
        rw [hrest]
        simp only [String.toList_ofList, List.mem_reverse] at h
        exact List.mem_cons_of_mem d h
      exact List.mem_reverse.mp ((List.dropWhile_sublist _).mem hsub)
  · exact h

theorem plain_json {symbol : String} (h : PlainName symbol) : PlainName (symbol ++ ".json") := by
  constructor
  · simp [h.1]
  · simp [h.2]

/-- The snapshot of a symbol's book, as a file. -/
def DoubleEngine.snapshotFile (e : DoubleEngine) (symbol : String) :
    String × Option Json :=
  (symbol ++ ".json", some ((e.book symbol).toJson e.mem))

namespace DoubleEngine

open MatchingEngine

variable {e : DoubleEngine} {e₀ e' : MatchingEngine} {path : List String}
  {t t' : FileTree (Option Json)} {symbols : List String} {l : List (String × Option Json)}

/-! ## Saving -/

theorem snapshotFile_ne {symbol symbol' : String} (h : symbol' ≠ symbol) :
    (e.snapshotFile symbol').1 ≠ (e.snapshotFile symbol).1 := fun heq =>
  h ((String.append_left_inj ".json").mp heq)

/-- Symbols that are file names are saved to files of the directory, by induction on the
symbols. -/
theorem saveBooks_holds (h : t.Holds path l) (hplain : ∀ s ∈ symbols, PlainName s)
    (hnodup : symbols.Nodup) (hnew : ∀ p ∈ l, ∀ s ∈ symbols, p.1 ≠ (e.snapshotFile s).1) :
    (e.saveBooks path symbols t).Holds path (l ++ symbols.map e.snapshotFile) := by
  induction symbols generalizing t l with
  | nil => simpa [saveBooks] using h
  | cons symbol symbols ih =>
    rw [List.nodup_cons] at hnodup
    have hlong : ∀ name : String, name.toList.getLast? ≠ some 'n' →
        (e.snapshotFile symbol).1 ≠ name := by
      intro name hname heq
      subst heq
      simp [snapshotFile] at hname
    have hwrite := h.write (plain_json (hplain symbol List.mem_cons_self)) (hlong "" (by simp))
      (hlong "." (by simp)) (hlong ".." (by simp)) (fun p hp => hnew p hp symbol List.mem_cons_self)
      (some ((e.book symbol).toJson e.mem))
    have hrest := ih hwrite (fun s hs => hplain s (List.mem_cons_of_mem symbol hs)) hnodup.2
      fun p hp s hs => by
        rcases List.mem_append.mp hp with hp | hp
        · exact hnew p hp s (List.mem_cons_of_mem symbol hs)
        · rw [List.mem_singleton.mp hp]
          exact snapshotFile_ne (e := e) (ne_of_mem_of_not_mem hs hnodup.1).symm
    rw [List.append_assoc] at hrest
    exact hrest

/-- Whatever the symbols are, the names in the directory are plain. -/
theorem saveBooks_plain (h : t.Plain path) : (e.saveBooks path symbols t).Plain path := by
  induction symbols generalizing t with
  | nil => exact h
  | cons symbol symbols ih => exact ih h.write

/-- A save into a fresh directory writes to an empty one. -/
theorem saveState_eq_true (hfresh : t.Fresh path) (h : e.saveState t path = (true, t')) :
    ∃ t₀, t₀.Holds path [] ∧
      t' = e.saveBooks path e.symbols t₀ := by
  have hfile : t.isFile path = false := by
    rw [FileTree.isFile, List.any_eq_false]
    intro f hf heq
    exact hfresh.files f hf (by simp at heq; simp [heq])
  unfold saveState at h
  rw [hfile, Bool.or_false] at h
  by_cases hdir : t.isDir path = true
  · rw [if_pos hdir] at h
    exact ⟨t, hfresh.holds hdir, (Prod.mk.inj h).2.symm⟩
  · rw [if_neg hdir] at h
    cases hcreate : t.createDirectories path with
    | none =>
      rw [hcreate] at h
      cases (Prod.mk.inj h).1
    | some t₀ =>
      rw [hcreate] at h
      exact ⟨t₀, hfresh.createDirectories hcreate, (Prod.mk.inj h).2.symm⟩

/-! ## Loading -/

/-- The book of a symbol is what a new book becomes by reading the snapshot that the engine has
written for that symbol. -/
def Restored (e : DoubleEngine) (e' : MatchingEngine) (symbol : String) : Prop :=
  ∃ mem₁ mem₂, (OrderBook.empty symbol).fromJson mem₁ (some ((e.book symbol).toJson e.mem)) =
    some (.ok (), mem₂, e'.book symbol) ∧ mem₂.Grows e'.mem

/-- Every new engine that loads the files succeeds, has books for the symbols of the engine that
has saved them and for no others, and each is restored from the snapshot of its own symbol. -/
def RestoredFrom (e : DoubleEngine) (listing : List DirEntry) : Prop :=
  ∀ mem hashOrder feeModel, ∃ e',
    (fresh mem hashOrder feeModel).loadState (some listing) = some (true, e') ∧
    (∀ symbol, symbol ∈ e'.orderBooks ↔ symbol ∈ e.symbols) ∧
    ∀ symbol ∈ e.symbols, e.Restored e' symbol

/-- What is restored was readable. -/
theorem RestoredFrom.finite {listing : List DirEntry} {symbol : String}
    (h : e.RestoredFrom listing) (hsymbol : symbol ∈ e.symbols) : (e.book symbol).Finite := by
  obtain ⟨e', -, -, hbooks⟩ := h .empty .plain none
  obtain ⟨mem₁, mem₂, hread, -⟩ := hbooks symbol hsymbol
  exact DoubleBook.finite_of_fromJson hread

/-- The directory entry of a snapshot. -/
def snapshotEntry (e : DoubleEngine) (symbol : String) : DirEntry :=
  ⟨symbol ++ ".json", true, some ((e.book symbol).toJson e.mem)⟩

theorem symbol_snapshotEntry {symbol : String} (h : symbol ≠ "") :
    (e.snapshotEntry symbol).symbol = symbol := by
  rw [DirEntry.symbol, snapshotEntry, splitExtension_json h]

theorem isSnapshot_snapshotEntry {symbol : String} (h : symbol ≠ "") :
    (e.snapshotEntry symbol).IsSnapshot := by
  rw [DirEntry.IsSnapshot, snapshotEntry, splitExtension_json h]
  exact ⟨rfl, rfl⟩

theorem mem_orderBooks_read {symbol s : String} {mem : Memory} {b : OrderBook} :
    s ∈ ({ (e₀.getOrCreateOrderBook symbol).setBook symbol b with mem := mem } :
      MatchingEngine).orderBooks ↔ s = symbol ∨ s ∈ e₀.orderBooks := by
  change s ∈ (e₀.getOrCreateOrderBook symbol).orderBooks.insert symbol b ↔ _
  rw [AList.mem_insert]
  unfold getOrCreateOrderBook
  split
  · change s = symbol ∨ s ∈ e₀.orderBooks.insert symbol _ ↔ _
    rw [AList.mem_insert]
    tauto
  · rfl

/-- The books come from the files. -/
theorem mem_orderBooks_of_loadEntries {entries : List DirEntry} {ok : Bool} {s : String}
    (h : loadEntries entries e₀ = some (ok, e')) (hs : s ∈ e'.orderBooks) :
    s ∈ e₀.orderBooks ∨ ∃ f ∈ entries, f.symbol = s := by
  induction entries generalizing e₀ with
  | nil =>
    obtain ⟨-, rfl⟩ := Prod.mk.inj (Option.some.inj h)
    exact .inl hs
  | cons entry entries ih =>
    rcases loadEntries_cons_cases h with ⟨-, h⟩ | ⟨-, mem, b, ⟨-, h⟩ | ⟨-, -, rfl⟩⟩
    · rcases ih h with hs | ⟨f, hf, hs⟩
      · exact .inl hs
      · exact .inr ⟨f, List.mem_cons_of_mem entry hf, hs⟩
    · rcases ih h with hs | ⟨f, hf, hs⟩
      · rcases mem_orderBooks_read.mp hs with rfl | hs
        · exact .inr ⟨entry, List.mem_cons_self, rfl⟩
        · exact .inl hs
      · exact .inr ⟨f, List.mem_cons_of_mem entry hf, hs⟩
    · rcases mem_orderBooks_read.mp hs with rfl | hs
      · exact .inr ⟨entry, List.mem_cons_self, rfl⟩
      · exact .inl hs

/-- Snapshots of different symbols are loaded into the books of their symbols, by induction on the
files. -/
theorem loadEntries_restores (hne : ∀ s ∈ symbols, s ≠ "") (hnodup : symbols.Nodup)
    (hfinite : ∀ s ∈ symbols, (e.book s).Finite) (hnew : ∀ s ∈ symbols, e₀.book s = .empty s) :
    ∃ e', loadEntries (symbols.map e.snapshotEntry) e₀ = some (true, e') ∧
      (∀ s, s ∈ e'.orderBooks ↔ s ∈ e₀.orderBooks ∨ s ∈ symbols) ∧
      ∀ s ∈ symbols, e.Restored e' s := by
  induction symbols generalizing e₀ with
  | nil => exact ⟨e₀, rfl, by simp, by simp⟩
  | cons symbol symbols ih =>
    rw [List.nodup_cons] at hnodup
    have hsymbol : symbol ≠ "" := hne symbol List.mem_cons_self
    have hbook : (e₀.getOrCreateOrderBook symbol).book symbol = .empty symbol :=
      ((SameBooks.getOrCreateOrderBook e₀ symbol).book symbol).trans
        (hnew symbol List.mem_cons_self)
    obtain ⟨mem₂, b₂, hread⟩ := DoubleBook.fromJson_toJson_ok e.mem
      (hfinite symbol List.mem_cons_self) (e₀.getOrCreateOrderBook symbol).mem (.empty symbol)
    have hgrows : e₀.mem.Grows mem₂ :=
      (SameBooks.getOrCreateOrderBook e₀ symbol).mem ▸ (OrderBook.fromJson_spec hread).1
    obtain ⟨-, hother⟩ := loads_read e₀ symbol b₂ hgrows
    obtain ⟨e', hload, hkeys, hrestored⟩ := @ih _
      (fun s hs => hne s (List.mem_cons_of_mem symbol hs)) hnodup.2
      (fun s hs => hfinite s (List.mem_cons_of_mem symbol hs)) fun s hs =>
        (hother s (ne_of_mem_of_not_mem hs hnodup.1)).trans
          (hnew s (List.mem_cons_of_mem symbol hs))
    have hfirst : loadEntries ((symbol :: symbols).map e.snapshotEntry) e₀ = some (true, e') := by
      rw [List.map_cons, loadEntries_cons_ok (isSnapshot_snapshotEntry hsymbol) (by
        rw [symbol_snapshotEntry hsymbol, hbook]
        exact hread), symbol_snapshotEntry hsymbol]
      exact hload
    refine ⟨e', hfirst, fun s => ?_, fun s hs => ?_⟩
    · rw [hkeys, mem_orderBooks_read, List.mem_cons]
      tauto
    · rcases List.mem_cons.mp hs with rfl | hs
      · obtain ⟨hloads, hrest⟩ := loadEntries_spec hload
        have hkept : e'.book s = b₂ := by
          rw [hrest s fun f hf _ heq => ?_, book_replace_self]
          obtain ⟨s', hs', rfl⟩ := List.mem_map.mp hf
          rw [symbol_snapshotEntry (hne s' (List.mem_cons_of_mem s hs'))] at heq
          exact hnodup.1 (heq ▸ hs')
        exact ⟨_, mem₂, hkept ▸ hread, hloads.memory⟩
      · exact hrestored s hs

/-! ## Round trip -/

/-- A listing of snapshots in any order is a list of snapshots. -/
theorem exists_symbols_of_perm {listing : List DirEntry} (hne : ∀ s ∈ symbols, s ≠ "")
    (h : listing.Perm (symbols.map e.snapshotEntry)) :
    ∃ symbols' : List String, symbols'.Perm symbols ∧
      listing = symbols'.map e.snapshotEntry := by
  have hsymbols : (symbols.map e.snapshotEntry).map DirEntry.symbol = symbols := by
    rw [List.map_map]
    exact (List.map_congr_left fun s hs => symbol_snapshotEntry (hne s hs)).trans (List.map_id _)
  have hlisting : (listing.map DirEntry.symbol).map e.snapshotEntry = listing := by
    rw [List.map_map]
    refine (List.map_congr_left fun f hf => ?_).trans (List.map_id _)
    obtain ⟨s, hs, rfl⟩ := List.mem_map.mp (h.mem_iff.mp hf)
    exact congrArg e.snapshotEntry (symbol_snapshotEntry (hne s hs))
  exact ⟨listing.map DirEntry.symbol, hsymbols ▸ h.map DirEntry.symbol, hlisting.symm⟩

/-- **The books that survive.** A save into a fresh directory that succeeds can be loaded back,
in whatever order the directory is listed, exactly if no symbol contains a slash or a null
character and the totals of all levels are finite. -/
theorem saveState_restores_iff (hfresh : t.Fresh path) (hsave : e.saveState t path = (true, t'))
    (hne : ∀ symbol ∈ e.symbols, symbol ≠ "") :
    (∀ listing, listing.Perm ((t'.entries path).map DirEntry.ofEntry) →
      e.RestoredFrom listing) ↔
      ∀ symbol ∈ e.symbols, PlainName symbol ∧ (e.book symbol).Finite := by
  obtain ⟨t₀, hholds, rfl⟩ := saveState_eq_true hfresh hsave
  constructor
  · intro hrestored symbol hsymbol
    have hrestored := hrestored _ (.refl _)
    refine ⟨?_, hrestored.finite hsymbol⟩
    obtain ⟨e', hload, hsame, -⟩ := hrestored .empty .plain none
    rcases mem_orderBooks_of_loadEntries hload ((hsame symbol).mpr hsymbol) with
      hnone | ⟨f, hf, rfl⟩
    · cases hnone
    · obtain ⟨p, hp, rfl⟩ := List.mem_map.mp hf
      have hplain := saveBooks_plain (e := e) hholds.plain p hp
      exact ⟨fun hc => hplain.1 (mem_of_mem_stem hc), fun hc => hplain.2 (mem_of_mem_stem hc)⟩
  · intro hsound listing hlisting mem hashOrder feeModel
    have hsaved := saveBooks_holds (e := e) hholds (fun s hs => (hsound s hs).1) e.nodup nofun
    rw [List.nil_append] at hsaved
    have hentries : ((e.saveBooks path e.symbols t₀).entries path).map DirEntry.ofEntry =
        e.symbols.map e.snapshotEntry := by
      rw [hsaved.entries, List.map_map, List.map_map]
      rfl
    rw [hentries] at hlisting
    obtain ⟨symbols, hperm, rfl⟩ := exists_symbols_of_perm hne hlisting
    obtain ⟨e', hload, hbooks, hrestored⟩ :=
      @loadEntries_restores e (fresh mem hashOrder feeModel) symbols
        (fun s hs => hne s (hperm.mem_iff.mp hs)) (hperm.nodup_iff.mpr e.nodup)
        (fun s hs => (hsound s (hperm.mem_iff.mp hs)).2) fun _ _ => rfl
    refine ⟨e', hload, fun s => ?_, fun s hs => hrestored s (hperm.mem_iff.mpr hs)⟩
    rw [hbooks, hperm.mem_iff]
    exact or_iff_right (AList.notMem_empty s)

/-- An order for a symbol that is a file name. -/
theorem saveState_restores_iff_hyphen : ∃ e t',
    ((fresh .empty .plain none).alloc ⟨"bid", "BTC-USDT", .buy, .limit, 10, 5⟩).1.submitOrder
      3 true 0 = some (.ok (), e) ∧
    e.inDoubles.saveState .empty ["snapshots"] = (true, t') ∧
    ∀ listing, listing.Perm ((t'.entries ["snapshots"]).map DirEntry.ofEntry) →
      e.inDoubles.RestoredFrom listing := by
  have hseen : (((fresh .empty .plain none).alloc
      ⟨"bid", "BTC-USDT", .buy, .limit, 10, 5⟩).1.submitOrder 3 true 0).map (fun p =>
        (p.1.toOption, p.2.inDoubles.symbols, (p.2.inDoubles.saveState .empty ["snapshots"]).1,
          [Side.buy, .sell].all fun s => ((p.2.inDoubles.book "BTC-USDT").levels s).all
            fun l => l.totalQuantity.toRat?.isSome)) =
      some (some (), ["BTC-USDT"], true, true) := by
    decide +kernel
  obtain ⟨⟨r, e⟩, hsubmit, hseen⟩ := Option.map_eq_some_iff.mp hseen
  simp only [Prod.mk.injEq] at hseen
  obtain ⟨hr, hkeys, hsave, htotals⟩ := hseen
  have hsymbols : ∀ symbol ∈ e.inDoubles.symbols, symbol = "BTC-USDT" := fun symbol hsymbol => by
    rwa [hkeys, List.mem_singleton] at hsymbol
  have hfinite : (e.inDoubles.book "BTC-USDT").Finite := fun s l hl => by
    rw [List.all_eq_true] at htotals
    exact List.all_eq_true.mp (htotals s (by cases s <;> simp)) l hl
  cases r with
  | error message => cases hr
  | ok u =>
    refine ⟨e, _, hsubmit, Prod.ext hsave rfl, ?_⟩
    refine (saveState_restores_iff (FileTree.fresh_empty _) (Prod.ext hsave rfl)
      fun symbol hs => ?_).mpr fun symbol hs => ?_
    · rw [hsymbols symbol hs]
      decide +kernel
    · rw [hsymbols symbol hs]
      exact ⟨by decide +kernel, hfinite⟩

/-- **A symbol is a path.** The book of `BTC/USD` would be written to a directory that is not
there. The save succeeds, the directory is empty, and a load brings nothing back. -/
theorem saveState_loses_book : ∃ e t',
    ((fresh .empty .plain none).alloc ⟨"bid", "BTC/USD", .buy, .limit, 10, 5⟩).1.submitOrder
      3 true 0 = some (.ok (), e) ∧
    (FileTree.empty : FileTree (Option Json)).Fresh ["snapshots"] ∧
    e.inDoubles.saveState .empty ["snapshots"] = (true, t') ∧ t'.entries ["snapshots"] = [] ∧
    ¬ e.inDoubles.RestoredFrom ((t'.entries ["snapshots"]).map DirEntry.ofEntry) := by
  have hseen : (((fresh .empty .plain none).alloc
      ⟨"bid", "BTC/USD", .buy, .limit, 10, 5⟩).1.submitOrder 3 true 0).map (fun p =>
        (p.1.toOption, p.2.inDoubles.symbols, (p.2.inDoubles.saveState .empty ["snapshots"]).1,
          ((p.2.inDoubles.saveState .empty ["snapshots"]).2.entries ["snapshots"]).isEmpty)) =
      some (some (), ["BTC/USD"], true, true) := by
    decide +kernel
  obtain ⟨⟨r, e⟩, hsubmit, hseen⟩ := Option.map_eq_some_iff.mp hseen
  simp only [Prod.mk.injEq] at hseen
  obtain ⟨hr, hkeys, hsave, hentries⟩ := hseen
  rw [List.isEmpty_iff] at hentries
  cases r with
  | error message => cases hr
  | ok u =>
    refine ⟨e, (e.inDoubles.saveState .empty ["snapshots"]).2, hsubmit, FileTree.fresh_empty _,
      Prod.ext hsave rfl, hentries, fun hrestored => ?_⟩
    rw [hentries] at hrestored
    obtain ⟨e', hload, hsame, -⟩ := hrestored .empty .plain none
    obtain rfl := (Prod.mk.inj (Option.some.inj hload)).2
    have hmem : "BTC/USD" ∈ e.inDoubles.symbols := by
      rw [hkeys]
      exact List.mem_singleton_self _
    exact AList.notMem_empty _ ((hsame "BTC/USD").mpr hmem)

/-- The two orders of `saveState_unreadable`. -/
def largeBids : Memory :=
  ((Memory.empty.alloc ⟨"a", "S", .buy, .limit, 10, 10 ^ 308⟩).1.alloc
    ⟨"b", "S", .buy, .limit, 10, 10 ^ 308⟩).1

/-- **A total is infinite.** Two orders are added at one price, each of a finite quantity. The save
succeeds, to a file of its own, and no load restores it. -/
theorem saveState_unreadable : ∃ e : DoubleEngine, ∃ t',
    e.symbols = ["S"] ∧ e.mem = largeBids ∧
    e.book "S" = ((DoubleBook.empty "S").addOrder largeBids 0).addOrder largeBids 1 ∧
    e.saveState .empty ["snapshots"] = (true, t') ∧
    (t'.entries ["snapshots"]).map Prod.fst = ["S.json"] ∧
    ∀ listing, ¬ e.RestoredFrom listing := by
  refine ⟨⟨["S"], List.nodup_singleton _, fun _ =>
    ((DoubleBook.empty "S").addOrder largeBids 0).addOrder largeBids 1, largeBids⟩, _, rfl, rfl,
    rfl, rfl, rfl, fun listing hrestored => ?_⟩
  have hfinite := hrestored.finite List.mem_cons_self .buy
  have hinfinite : ((((DoubleBook.empty "S").addOrder largeBids 0).addOrder largeBids 1).levels
      .buy).all (fun l => l.totalQuantity.toRat?.isSome) = false := by
    decide +kernel
  rw [List.all_eq_true.mpr hfinite] at hinfinite
  cases hinfinite

end DoubleEngine

end GoQuant
