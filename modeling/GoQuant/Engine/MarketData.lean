import GoQuant.Engine.Books
import GoQuant.Engine.Feeds
import GoQuant.Lib.Patch

/-!
# What a market-data subscriber holds

A subscriber keeps the visible levels of a book. A SNAPSHOT replaces what he holds, an INCREMENT
changes it level by level. The engine remembers what it published last, and publishes how the
visible levels differ from that: so whoever holds what was published last will hold what is
published next.

## Main definitions

* `Depth`, `held` — what a subscriber makes of his messages.
* `lastPublished`, `visible` — the levels published last, and those there are.
* `Follows` — a subscriber who holds what was published last.

## Main results

* `patch_computeChanges` — the changes, in whatever order a hash map lists them, lead from the
  old levels to the new ones.
* `Follows.publishUpdate` — who follows before a publication follows after it.
* `SameMarket` — the functions that publish no market data.
-/

namespace GoQuant

/-- The visible levels of both sides, best price first. -/
abbrev Depth := Side → List (ℚ × ℚ)

/-- The change of a level, as the client applies it. -/
def LevelChange.toChange (c : LevelChange) : Keyed.Change ℚ (ℚ × ℚ) :=
  match c.op with
  | .add | .update => .put (c.price, c.quantity)
  | .remove => .drop c.price

namespace MarketDataUpdate

/-- The levels of a SNAPSHOT. -/
def levels (u : MarketDataUpdate) : Depth
  | .buy => u.bids
  | .sell => u.asks

/-- The changes of an INCREMENT. -/
def changes (u : MarketDataUpdate) : Side → List LevelChange
  | .buy => u.bidsChanges
  | .sell => u.asksChanges

/-- What a subscriber makes of a message. -/
def applyTo (u : MarketDataUpdate) (depth : Depth) : Depth :=
  match u.type with
  | .snapshot => u.levels
  | .increment => fun s =>
    Keyed.patch Prod.fst s.ahead ((u.changes s).map LevelChange.toChange) (depth s)

/-- The best price of a side and its quantity, as the message has them. -/
def best (u : MarketDataUpdate) : Side → ℚ × ℚ
  | .buy => (u.bestBidPrice, u.bestBidQuantity)
  | .sell => (u.bestAskPrice, u.bestAskQuantity)

/-- The best levels on the message are the heads of a depth, and zero for an empty side. -/
def ShowsBest (u : MarketDataUpdate) (depth : Depth) : Prop :=
  ∀ s, u.best s = (depth s).head?.getD (0, 0)

end MarketDataUpdate

/-- What a subscriber holds after his messages, one after another. -/
def held (messages : List MarketDataUpdate) : Depth :=
  messages.foldl (fun depth u => u.applyTo depth) fun _ => []

theorem held_append (messages messages' : List MarketDataUpdate) : held (messages ++ messages') =
    messages'.foldl (fun depth u => u.applyTo depth) (held messages) :=
  List.foldl_append

/-- Levels in the order of their side, each price once. -/
def Depth.Sorted (depth : Depth) : Prop := ∀ s, Keyed.Sorted Prod.fst s.ahead (depth s)

/-- The message a callback was called with. -/
def Delivery.update? : Delivery → Option (Subscriber × MarketDataUpdate)
  | .marketData subscriber update => some (subscriber, update)
  | .trade _ _ => none

namespace MatchingEngine

variable {e e' e'' : MatchingEngine} {symbol : String} {s : Side} {old new : List (ℚ × ℚ)}
  {w : ℚ × ℚ} {p q : ℚ} {hashOrder : HashOrder}

/-! ## The changes between two lists of levels -/

theorem lookup_foldl_insert {v : List (ℚ × ℚ)} (hv : (v.map Prod.fst).Nodup)
    (m : AList fun _ : ℚ => ℚ) : (v.foldl (fun m lv => m.insert lv.1 lv.2) m).lookup p = some q ↔
      (p, q) ∈ v ∨ m.lookup p = some q ∧ ∀ w ∈ v, w.1 ≠ p := by
  induction v generalizing m with
  | nil => simp
  | cons u v ih =>
    obtain ⟨hu, hv⟩ := List.nodup_cons.mp hv
    rw [List.foldl_cons, ih hv]
    by_cases hp : u.1 = p
    · subst hp
      have hnone : ∀ w ∈ v, w.1 ≠ u.1 := fun w hw heq => hu (heq ▸ List.mem_map_of_mem hw)
      have hmem : (u.1, q) ∉ v := fun hmem => hnone _ hmem rfl
      simp only [AList.lookup_insert, Option.some.injEq, List.mem_cons, hmem, or_false, false_or]
      constructor
      · rintro ⟨rfl, -⟩
        exact Or.inl rfl
      · rintro (heq | ⟨-, hne⟩)
        · exact ⟨(congrArg Prod.snd heq).symm, hnone⟩
        · exact absurd rfl (hne u (Or.inl rfl))
    · rw [AList.lookup_insert_ne (Ne.symm hp)]
      have hne : (p, q) ≠ u := fun heq => hp (congrArg Prod.fst heq).symm
      simp [hne, hp]

/-- The map that `computeChanges` builds from levels has these levels. -/
theorem lookup_levelMap (h : Keyed.Sorted Prod.fst s.ahead new) :
    (levelMap new).lookup p = some q ↔ (p, q) ∈ new := by
  have hnodup : (new.map Prod.fst).Nodup := by
    refine List.pairwise_map.mpr (h.imp fun hlt heq => ?_)
    exact irrefl_of s.ahead _ (heq ▸ hlt)
  rw [levelMap, lookup_foldl_insert hnodup]
  simp

theorem lookup_levelMap_none (h : Keyed.Sorted Prod.fst s.ahead new) :
    (levelMap new).lookup p = none ↔ ∀ w ∈ new, w.1 ≠ p := by
  rw [Option.eq_none_iff_forall_ne_some]
  refine ⟨fun hnone w hw heq => hnone w.2 ((lookup_levelMap h).mpr (heq ▸ hw)),
    fun hnone q hq => ?_⟩
  exact hnone _ ((lookup_levelMap h).mp hq) rfl

theorem mem_prices_keys {m : AList fun _ : ℚ => ℚ} :
    p ∈ hashOrder.prices m.keys ↔ ∃ q, m.lookup p = some q := by
  rw [(hashOrder.prices_perm _).mem_iff, ← AList.mem_keys, ← AList.lookup_isSome,
    Option.isSome_iff_exists]

/-- A change puts one of the new levels, or drops a price that none of them has. -/
theorem leadsTo_of_mem_computeChanges (hnew : Keyed.Sorted Prod.fst s.ahead new) {c : LevelChange}
    (hc : c ∈ computeChanges hashOrder old new) : c.toChange.LeadsTo Prod.fst new := by
  rcases List.mem_append.mp hc with hc | hc
  · obtain ⟨price, hprice, hc⟩ := List.mem_filterMap.mp hc
    obtain ⟨quantity, hquantity⟩ := mem_prices_keys.mp hprice
    have hmem := (lookup_levelMap hnew).mp hquantity
    rw [hquantity] at hc
    dsimp only [Option.getD_some] at hc
    split at hc
    · obtain rfl := Option.some.inj hc
      exact hmem
    · split_ifs at hc
      obtain rfl := Option.some.inj hc
      exact hmem
  · obtain ⟨price, -, hc⟩ := List.mem_filterMap.mp hc
    split at hc
    · rename_i hnone
      obtain rfl := Option.some.inj hc
      exact (lookup_levelMap_none hnew).mp hnone
    · cases hc

/-- Where no change is listed, the levels are the same. -/
theorem mem_iff_of_computeChanges (hold : Keyed.Sorted Prod.fst s.ahead old)
    (hnew : Keyed.Sorted Prod.fst s.ahead new)
    (hw : ∀ c ∈ computeChanges hashOrder old new, c.price ≠ w.1) : w ∈ old ↔ w ∈ new := by
  have hchanges : ∀ c ∈ computeChanges hashOrder old new, c.price ≠ w.1 := hw
  simp only [computeChanges, List.mem_append, List.mem_filterMap] at hchanges
  constructor
  · intro hmem
    have hlookup := (lookup_levelMap hold).mpr hmem
    cases hquantity : (levelMap new).lookup w.1 with
    | none =>
      refine absurd rfl (hchanges ⟨.remove, w.1, 0⟩
        (Or.inr ⟨w.1, mem_prices_keys.mpr ⟨_, hlookup⟩, ?_⟩))
      rw [hquantity]
    | some quantity =>
      have hsame : w.2 = quantity := by
        by_contra hne
        refine hchanges ⟨.update, w.1, quantity⟩
          (Or.inl ⟨w.1, mem_prices_keys.mpr ⟨_, hquantity⟩, ?_⟩) rfl
        rw [hquantity, hlookup]
        exact if_pos hne
      exact (lookup_levelMap hnew).mp (hsame ▸ hquantity)
  · intro hmem
    have hlookup := (lookup_levelMap hnew).mpr hmem
    cases hquantity : (levelMap old).lookup w.1 with
    | none =>
      refine absurd rfl (hchanges ⟨.add, w.1, w.2⟩
        (Or.inl ⟨w.1, mem_prices_keys.mpr ⟨_, hlookup⟩, ?_⟩))
      rw [hquantity, hlookup]
      rfl
    | some quantity =>
      have hsame : quantity = w.2 := by
        by_contra hne
        refine hchanges ⟨.update, w.1, w.2⟩
          (Or.inl ⟨w.1, mem_prices_keys.mpr ⟨_, hlookup⟩, ?_⟩) rfl
        rw [hquantity, hlookup]
        exact if_pos hne
      exact (lookup_levelMap hold).mp (hsame ▸ hquantity)

theorem at_toChange (c : LevelChange) : c.toChange.at Prod.fst = c.price := by
  obtain ⟨op, price, quantity⟩ := c
  cases op <;> rfl

/-- **The changes lead from the old levels to the new ones**, and leave the new ones alone. -/
theorem patch_computeChanges (hold : Keyed.Sorted Prod.fst s.ahead old)
    (hnew : Keyed.Sorted Prod.fst s.ahead new) {copy : List (ℚ × ℚ)}
    (hcopy : copy = old ∨ copy = new) :
    Keyed.patch Prod.fst s.ahead ((computeChanges hashOrder old new).map LevelChange.toChange)
      copy = new := by
  have hleads : ∀ c ∈ (computeChanges hashOrder old new).map LevelChange.toChange,
      c.LeadsTo Prod.fst new := by
    intro c hc
    obtain ⟨change, hchange, rfl⟩ := List.mem_map.mp hc
    exact leadsTo_of_mem_computeChanges hnew hchange
  rcases hcopy with rfl | rfl
  · refine Keyed.patch_eq hold hnew hleads fun w hw => ?_
    refine @mem_iff_of_computeChanges s _ new w hashOrder hold hnew fun c hc heq => ?_
    exact hw _ (List.mem_map_of_mem hc) (heq.symm.trans (at_toChange c).symm)
  · exact Keyed.patch_eq hnew hnew hleads fun w _ => Iff.rfl

/-- Nothing is listed only if nothing has changed. -/
theorem eq_of_computeChanges_nil (hold : Keyed.Sorted Prod.fst s.ahead old)
    (hnew : Keyed.Sorted Prod.fst s.ahead new) (hnil : computeChanges hashOrder old new = []) :
    old = new := by
  have hpatch := @patch_computeChanges s old new hashOrder hold hnew old (Or.inl rfl)
  rw [hnil] at hpatch
  exact hpatch

/-! ## The feed -/

/-- The market-data messages so far. -/
def updates (e : MatchingEngine) : List (Subscriber × MarketDataUpdate) :=
  e.feed.filterMap Delivery.update?

/-- The messages about a symbol that a callback was called with. -/
def received (e : MatchingEngine) (cb : Subscriber) (symbol : String) : List MarketDataUpdate :=
  (e.updates.filter fun p => p.1 = cb ∧ p.2.symbol = symbol).map Prod.snd

/-- The levels that were published last. -/
def lastPublished (e : MatchingEngine) (symbol : String) : Depth :=
  match e.lastMarketSnapshot.lookup symbol with
  | some prev => prev.levels
  | none => fun _ => []

/-- The visible levels of a book. -/
def visible (e : MatchingEngine) (symbol : String) : Depth := fun s => (e.book symbol).getTop s 10

theorem getMarketData_eq (e : MatchingEngine) (symbol : String) : e.getMarketData symbol 10 =
    { symbol := symbol
      bids := e.visible symbol .buy
      asks := e.visible symbol .sell
      type := .snapshot
      seqNum := 0
      bestBidPrice := (e.book symbol).getBestPrice .buy
      bestBidQuantity := (e.book symbol).getBestQuantity .buy
      bestAskPrice := (e.book symbol).getBestPrice .sell
      bestAskQuantity := (e.book symbol).getBestQuantity .sell } := by
  unfold getMarketData visible book
  cases e.orderBooks.lookup symbol <;> rfl

theorem levels_getMarketData (e : MatchingEngine) (symbol : String) :
    (e.getMarketData symbol 10).levels = e.visible symbol := by
  rw [getMarketData_eq]
  funext s
  cases s <;> rfl

theorem showsBest_getMarketData (e : MatchingEngine) (symbol : String) :
    (e.getMarketData symbol 10).ShowsBest (e.visible symbol) := by
  intro s
  have hbest (s : Side) : ((e.book symbol).getBestPrice s, (e.book symbol).getBestQuantity s) =
      ((e.visible symbol s).head?).getD (0, 0) := by
    unfold OrderBook.getBestPrice OrderBook.getBestQuantity visible OrderBook.getTop
    cases (e.book symbol).levels s <;> rfl
  rw [getMarketData_eq]
  cases s
  · exact hbest .buy
  · exact hbest .sell

theorem Books.sorted_visible (h : e.Books Sane) (symbol : String) : (e.visible symbol).Sorted :=
  fun s => List.pairwise_map.mpr (((h symbol).sorted s).sublist (List.take_sublist 10 _))

/-- Nothing happens to the market-data feed. -/
structure SameMarket (e e' : MatchingEngine) : Prop where
  updates : e'.updates = e.updates
  subscribers : e'.marketDataSubscribers = e.marketDataSubscribers
  last : e'.lastMarketSnapshot = e.lastMarketSnapshot
  seqs : e'.marketDataSeqs = e.marketDataSeqs

theorem SameFeeds.market (h : e.SameFeeds e') : e.SameMarket e' where
  updates := congrArg (List.filterMap Delivery.update?) h.feed
  subscribers := h.marketDataSubscribers
  last := h.lastMarketSnapshot
  seqs := h.marketDataSeqs

namespace SameMarket

theorem refl (e : MatchingEngine) : e.SameMarket e := ⟨rfl, rfl, rfl, rfl⟩

theorem trans (h : e.SameMarket e') (h' : e'.SameMarket e'') : e.SameMarket e'' where
  updates := h'.updates.trans h.updates
  subscribers := h'.subscribers.trans h.subscribers
  last := h'.last.trans h.last
  seqs := h'.seqs.trans h.seqs

theorem recordTrade (e : MatchingEngine) (t : Trade) : e.SameMarket (e.recordTrade t).2.2 := by
  unfold MatchingEngine.recordTrade
  have hwrite (u : MatchingEngine) (record : WalRecord) := (SameFeeds.writeWAL u record).market
  exact ⟨(hwrite _ _).updates, (hwrite _ _).subscribers, (hwrite _ _).last, (hwrite _ _).seqs⟩

theorem deliverTrade (e : MatchingEngine) (cb : Subscriber) (t : Trade) :
    e.SameMarket (e.deliverTrade cb t) :=
  ⟨by simp [MatchingEngine.updates, MatchingEngine.deliverTrade, Delivery.update?], rfl, rfl, rfl⟩

end SameMarket

/-! ## Publication -/

/-- A message for every callback of a symbol. -/
theorem received_deliverMarketData (e : MatchingEngine) (symbol symbol' : String)
    (u : MarketDataUpdate) (cb : Subscriber) :
    (e.deliverMarketData symbol u).received cb symbol' = e.received cb symbol' ++
      List.replicate (if u.symbol = symbol' then
        ((e.marketDataSubscribers.lookup symbol).getD []).count cb else 0) u := by
  have hupdates : (e.deliverMarketData symbol u).updates = e.updates ++
      ((e.marketDataSubscribers.lookup symbol).getD []).map fun s => (s, u) := by
    simp [updates, deliverMarketData, List.filterMap_append, List.filterMap_map, Function.comp_def,
      Delivery.update?]
  rw [received, hupdates, List.filter_append, List.map_append, List.filter_map, List.map_map]
  refine congrArg _ ?_
  have hconst : (Prod.snd ∘ fun s : Subscriber => (s, u)) = fun _ => u := rfl
  rw [hconst, List.map_const']
  refine congrArg (List.replicate · u) ?_
  split_ifs with hsymbol
  · rw [← List.countP_eq_length_filter, List.count]
    exact List.countP_congr fun s _ => by simp [hsymbol]
  · simp [hsymbol]

/-- What a publication sends to the callbacks, unless nothing has changed. -/
def publication (e : MatchingEngine) (symbol : String) (update : MarketDataUpdate) :
    Option MarketDataUpdate :=
  let seq := (e.marketDataSeqs.lookup symbol).getD 0 + 1
  match e.lastMarketSnapshot.lookup symbol with
  | none => some { update with seqNum := seq, type := .snapshot }
  | some prev =>
    let bidsChanges := computeChanges e.hashOrder prev.bids update.bids
    let asksChanges := computeChanges e.hashOrder prev.asks update.asks
    if bidsChanges = [] ∧ asksChanges = [] then none
    else some
      { symbol := symbol
        seqNum := seq
        prevSeqNum := prev.seqNum
        gap := prev.seqNum + 1 ≠ seq
        type := .increment
        bestBidPrice := update.bestBidPrice
        bestBidQuantity := update.bestBidQuantity
        bestAskPrice := update.bestAskPrice
        bestAskQuantity := update.bestAskQuantity
        bidsChanges := bidsChanges
        asksChanges := asksChanges }

/-- The locked part of `publishMarketDataUpdate`, seen from the callbacks. -/
structure Publishes (symbol : String) (update : MarketDataUpdate) (e e' : MatchingEngine) :
    Prop where
  subscribers : e'.marketDataSubscribers = e.marketDataSubscribers
  seqs : e'.marketDataSeqs =
    e.marketDataSeqs.insert symbol ((e.marketDataSeqs.lookup symbol).getD 0 + 1)
  last : ∀ u ∈ e.publication symbol update, ∃ snapshot, snapshot.levels = update.levels ∧
    snapshot.seqNum = u.seqNum ∧
    e'.lastMarketSnapshot = e.lastMarketSnapshot.insert symbol snapshot
  received : ∀ u ∈ e.publication symbol update, ∀ cb s, e'.received cb s = e.received cb s ++
    List.replicate (if u.symbol = s then
      ((e.marketDataSubscribers.lookup symbol).getD []).count cb else 0) u
  idle : e.publication symbol update = none →
    e'.lastMarketSnapshot = e.lastMarketSnapshot ∧ ∀ cb s, e'.received cb s = e.received cb s

theorem publishUpdate_publishes (e : MatchingEngine) (symbol : String) (update : MarketDataUpdate) :
    Publishes symbol update e (e.publishUpdate symbol update) := by
  unfold publishUpdate
  dsimp only
  cases hprev : e.lastMarketSnapshot.lookup symbol with
  | none =>
    dsimp only
    refine ⟨rfl, rfl, fun u hu => ?_, fun u hu cb s => ?_, fun hnone => ?_⟩
    all_goals simp only [publication, hprev, Option.mem_some_iff, reduceCtorEq] at *
    · subst hu
      exact ⟨{ update with seqNum := _, type := .snapshot }, funext fun s => by cases s <;> rfl,
        rfl, rfl⟩
    · subst hu
      exact received_deliverMarketData _ _ _ _ _
  | some prev =>
    dsimp only
    split_ifs with hnil
    all_goals refine ⟨rfl, rfl, fun u hu => ?_, fun u hu cb s => ?_, fun hnone => ?_⟩
    all_goals simp only [publication, hprev] at *
    · rw [if_pos hnil] at hu
      cases hu
    · rw [if_pos hnil] at hu
      cases hu
    · exact ⟨trivial, fun _ _ => rfl⟩
    · rw [if_neg hnil] at hu
      obtain rfl := Option.some.inj hu
      exact ⟨{ update with seqNum := _ }, funext fun s => by cases s <;> rfl, rfl, rfl⟩
    · rw [if_neg hnil] at hu
      obtain rfl := Option.some.inj hu
      exact received_deliverMarketData _ _ _ _ _
    · rw [if_neg hnil] at hnone
      cases hnone

section Publication

variable {update u : MarketDataUpdate} {depth : Depth}

/-- A SNAPSHOT the first time, and an INCREMENT afterwards. -/
theorem publication_cases (hu : u ∈ e.publication symbol update) :
    (e.lastMarketSnapshot.lookup symbol = none ∧ u = { update with
      seqNum := (e.marketDataSeqs.lookup symbol).getD 0 + 1, type := .snapshot }) ∨
    ∃ prev, e.lastMarketSnapshot.lookup symbol = some prev ∧ u =
      { symbol := symbol
        seqNum := (e.marketDataSeqs.lookup symbol).getD 0 + 1
        prevSeqNum := prev.seqNum
        gap := prev.seqNum + 1 ≠ (e.marketDataSeqs.lookup symbol).getD 0 + 1
        type := .increment
        bestBidPrice := update.bestBidPrice
        bestBidQuantity := update.bestBidQuantity
        bestAskPrice := update.bestAskPrice
        bestAskQuantity := update.bestAskQuantity
        bidsChanges := computeChanges e.hashOrder prev.bids update.bids
        asksChanges := computeChanges e.hashOrder prev.asks update.asks } := by
  unfold publication at hu
  dsimp only at hu
  split at hu
  · rename_i hprev
    exact Or.inl ⟨hprev, (Option.some.inj hu).symm⟩
  · rename_i prev hprev
    split_ifs at hu
    · cases hu
    · exact Or.inr ⟨prev, hprev, (Option.some.inj hu).symm⟩

theorem seqNum_publication (hu : u ∈ e.publication symbol update) :
    u.seqNum = (e.marketDataSeqs.lookup symbol).getD 0 + 1 := by
  obtain ⟨-, rfl⟩ | ⟨prev, -, rfl⟩ := publication_cases hu <;> rfl

theorem symbol_publication (hsymbol : update.symbol = symbol)
    (hu : u ∈ e.publication symbol update) : u.symbol = symbol := by
  obtain ⟨-, rfl⟩ | ⟨prev, -, rfl⟩ := publication_cases hu
  · exact hsymbol
  · rfl

theorem showsBest_publication (hbest : update.ShowsBest depth)
    (hu : u ∈ e.publication symbol update) : u.ShowsBest depth := by
  have hsame : u.best = update.best := by
    obtain ⟨-, rfl⟩ | ⟨prev, -, rfl⟩ := publication_cases hu <;>
      exact funext fun s => by cases s <;> rfl
  intro s
  rw [hsame]
  exact hbest s

/-- Whoever holds what was published last holds the new levels after the message. -/
theorem applyTo_publication (hlast : (e.lastPublished symbol).Sorted)
    (hupdate : update.levels.Sorted) (hu : u ∈ e.publication symbol update)
    (hdepth : depth = e.lastPublished symbol ∨ depth = update.levels) :
    u.applyTo depth = update.levels := by
  unfold lastPublished at hlast hdepth
  obtain ⟨-, rfl⟩ | ⟨prev, hprev, rfl⟩ := publication_cases hu
  · exact funext fun s => by cases s <;> rfl
  · rw [hprev] at hlast hdepth
    have hcopy (s : Side) : depth s = prev.levels s ∨ depth s = update.levels s :=
      hdepth.imp (congrFun · s) (congrFun · s)
    funext s
    cases s
    · exact patch_computeChanges (hlast .buy) (hupdate .buy) (hcopy .buy)
    · exact patch_computeChanges (hlast .sell) (hupdate .sell) (hcopy .sell)

/-- Without a message the levels are those published last. -/
theorem lastPublished_of_publication_none (hlast : (e.lastPublished symbol).Sorted)
    (hupdate : update.levels.Sorted) (hnone : e.publication symbol update = none) :
    e.lastPublished symbol = update.levels := by
  unfold publication at hnone
  unfold lastPublished at hlast ⊢
  dsimp only at hnone
  split at hnone
  · cases hnone
  · rename_i prev hprev
    rw [hprev] at hlast ⊢
    split_ifs at hnone with hnil
    funext s
    cases s
    · exact eq_of_computeChanges_nil (hlast .buy) (hupdate .buy) hnil.1
    · exact eq_of_computeChanges_nil (hlast .sell) (hupdate .sell) hnil.2

/-- Afterwards the new levels are those published last. -/
theorem Publishes.lastPublished_self (h : Publishes symbol update e e')
    (hlast : (e.lastPublished symbol).Sorted) (hupdate : update.levels.Sorted) :
    e'.lastPublished symbol = update.levels := by
  cases hu : e.publication symbol update with
  | none =>
    rw [lastPublished, (h.idle hu).1]
    exact lastPublished_of_publication_none hlast hupdate hu
  | some u =>
    obtain ⟨snapshot, hlevels, -, heq⟩ := h.last u hu
    rw [lastPublished, heq, AList.lookup_insert]
    exact hlevels

theorem Publishes.lastPublished_of_ne (h : Publishes symbol update e e') {symbol' : String}
    (hne : symbol' ≠ symbol) : e'.lastPublished symbol' = e.lastPublished symbol' := by
  unfold lastPublished
  cases hu : e.publication symbol update with
  | none => rw [(h.idle hu).1]
  | some u =>
    obtain ⟨snapshot, -, -, heq⟩ := h.last u hu
    rw [heq, AList.lookup_insert_ne hne]

end Publication

/-! ## Subscribers -/

/-- A subscriber who holds what was published last, after messages in the order of their
numbers. -/
structure Follows (cb : Subscriber) (symbol : String) (messages : List MarketDataUpdate)
    (e : MatchingEngine) : Prop where
  subscribed : cb ∈ (e.marketDataSubscribers.lookup symbol).getD []
  held : held messages = e.lastPublished symbol
  best : ∀ u ∈ messages.getLast?, u.ShowsBest (e.lastPublished symbol)
  ordered : messages.Pairwise fun u v => u.seqNum ≤ v.seqNum
  bounded : ∀ u ∈ messages, u.seqNum ≤ (e.marketDataSeqs.lookup symbol).getD 0

namespace Follows

variable {cb : Subscriber} {messages : List MarketDataUpdate} {update u : MarketDataUpdate}

theorem of_same (h : Follows cb symbol messages e) (hs : e.SameMarket e') :
    Follows cb symbol messages e' := by
  obtain ⟨-, hsubscribers, hlast, hseqs⟩ := hs
  have hpublished : e'.lastPublished symbol = e.lastPublished symbol := by
    rw [lastPublished, hlast]
    rfl
  refine ⟨?_, h.held.trans hpublished.symm, ?_, h.ordered, ?_⟩
  · rw [hsubscribers]
    exact h.subscribed
  · rw [hpublished]
    exact h.best
  · rw [hseqs]
    exact h.bounded

/-- The same message any number of times, but at least once. -/
theorem deliver (h : Follows cb symbol messages e) {n : ℕ} (hn : 0 < n)
    (hsubscribers : e'.marketDataSubscribers = e.marketDataSubscribers)
    (happly : u.applyTo (e.lastPublished symbol) = e'.lastPublished symbol)
    (hagain : u.applyTo (e'.lastPublished symbol) = e'.lastPublished symbol)
    (hbest : u.ShowsBest (e'.lastPublished symbol))
    (hseq : u.seqNum = (e'.marketDataSeqs.lookup symbol).getD 0)
    (hseqs : (e.marketDataSeqs.lookup symbol).getD 0 ≤ (e'.marketDataSeqs.lookup symbol).getD 0) :
    Follows cb symbol (messages ++ List.replicate n u) e' := by
  have hrepeat (n : ℕ) : (List.replicate n u).foldl (fun depth u => u.applyTo depth)
      (e'.lastPublished symbol) = e'.lastPublished symbol := by
    induction n with
    | zero => rfl
    | succ n ih => rw [List.replicate_succ, List.foldl_cons, hagain, ih]
  obtain ⟨n, rfl⟩ := Nat.exists_eq_succ_of_ne_zero hn.ne'
  refine ⟨hsubscribers ▸ h.subscribed, ?_, fun v hv => ?_, ?_, fun v hv => ?_⟩
  · rw [held_append, h.held, List.replicate_succ, List.foldl_cons, happly]
    exact hrepeat n
  · rw [List.getLast?_append, List.getLast?_replicate] at hv
    simp only [Nat.succ_ne_zero, if_false, Option.mem_some_iff, Option.some_or] at hv
    exact hv ▸ hbest
  · refine List.pairwise_append.mpr ⟨h.ordered, List.pairwise_replicate.mpr (Or.inr le_rfl),
      fun v hv w hw => ?_⟩
    rw [List.eq_of_mem_replicate hw, hseq]
    exact (h.bounded v hv).trans hseqs
  · rcases List.mem_append.mp hv with hv | hv
    · exact (h.bounded v hv).trans hseqs
    · rw [List.eq_of_mem_replicate hv, hseq]

/-- **Who follows before a publication follows after it.** -/
theorem publishUpdate (h : Follows cb symbol messages e) (hsymbol : update.symbol = symbol)
    (hlast : (e.lastPublished symbol).Sorted) (hupdate : update.levels.Sorted)
    (hbest : update.ShowsBest update.levels) :
    ∃ messages', (e.publishUpdate symbol update).received cb symbol =
        e.received cb symbol ++ messages' ∧
      Follows cb symbol (messages ++ messages') (e.publishUpdate symbol update) := by
  have hpublishes := publishUpdate_publishes e symbol update
  generalize e.publishUpdate symbol update = e' at hpublishes
  have hnew := hpublishes.lastPublished_self hlast hupdate
  have hseq : (e'.marketDataSeqs.lookup symbol).getD 0 =
      (e.marketDataSeqs.lookup symbol).getD 0 + 1 := by
    rw [hpublishes.seqs, AList.lookup_insert, Option.getD_some]
  cases hu : e.publication symbol update with
  | none =>
    have hsame : e'.lastPublished symbol = e.lastPublished symbol :=
      hnew.trans (lastPublished_of_publication_none hlast hupdate hu).symm
    refine ⟨[], by rw [List.append_nil]; exact (hpublishes.idle hu).2 cb symbol, ?_⟩
    rw [List.append_nil]
    refine ⟨hpublishes.subscribers ▸ h.subscribed, h.held.trans hsame.symm, ?_, h.ordered,
      fun v hv => (h.bounded v hv).trans (by omega)⟩
    rw [hsame]
    exact h.best
  | some u =>
    have hcount := List.count_pos_iff.mpr h.subscribed
    refine ⟨_, hpublishes.received u hu cb symbol, ?_⟩
    rw [if_pos (symbol_publication hsymbol hu)]
    refine h.deliver hcount hpublishes.subscribers ?_ ?_ ?_ ?_ (by omega)
    · rw [hnew]
      exact applyTo_publication hlast hupdate hu (Or.inl rfl)
    · rw [hnew]
      exact applyTo_publication hlast hupdate hu (Or.inr rfl)
    · rw [hnew]
      exact showsBest_publication hbest hu
    · rw [hseq]
      exact seqNum_publication hu

/-- A publication for another symbol. -/
theorem publishUpdate_of_ne (h : Follows cb symbol messages e) {symbol' : String}
    (hne : symbol ≠ symbol') (hsymbol : update.symbol = symbol') :
    (e.publishUpdate symbol' update).received cb symbol = e.received cb symbol ∧
      Follows cb symbol messages (e.publishUpdate symbol' update) := by
  have hpublishes := publishUpdate_publishes e symbol' update
  generalize e.publishUpdate symbol' update = e' at hpublishes
  have hsame := hpublishes.lastPublished_of_ne hne
  refine ⟨?_, hpublishes.subscribers ▸ h.subscribed, h.held.trans hsame.symm, ?_, h.ordered, ?_⟩
  · cases hu : e.publication symbol' update with
    | none => exact (hpublishes.idle hu).2 cb symbol
    | some u =>
      have hother : ¬ u.symbol = symbol := fun heq =>
        hne (heq.symm.trans (symbol_publication hsymbol hu))
      rw [hpublishes.received u hu cb symbol, if_neg hother, List.replicate_zero, List.append_nil]
  · rw [hsame]
    exact h.best
  · rw [hpublishes.seqs, AList.lookup_insert_ne hne]
    exact h.bounded

/-- Somebody subscribes. -/
theorem subscribeToMarketData (h : Follows cb symbol messages e) (symbol' : String)
    (cb' : Subscriber) : Follows cb symbol messages (e.subscribeToMarketData symbol' cb') := by
  refine ⟨?_, h.held, h.best, h.ordered, h.bounded⟩
  by_cases hsymbol : symbol = symbol'
  · subst hsymbol
    simpa [MatchingEngine.subscribeToMarketData] using Or.inl h.subscribed
  · have hlookup : (e.subscribeToMarketData symbol' cb').marketDataSubscribers.lookup symbol =
        e.marketDataSubscribers.lookup symbol := AList.lookup_insert_ne hsymbol
    rw [hlookup]
    exact h.subscribed

end Follows

end MatchingEngine

end GoQuant
