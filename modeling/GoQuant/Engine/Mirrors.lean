import GoQuant.Engine.Bystanders
import GoQuant.Book.Echoes

/-!
# Two engines with the same market

What an engine does for a symbol depends on the market of that symbol alone: two engines that
keep the same for it do the same for it, with objects of their own and other trade ids, on the
same fuel.

## Main definitions

* `Feed.anonymous` — what the feeds show, without the ids of trades.
* `Mirrors` — the market of a symbol in two engines, under a renaming of the order objects.
* `Mirror` — the same, for some renaming.

## Main results

* `Mirrors.checkTriggers`, `Mirror.publishTrades`, … — one lemma for each function of the engine.
* `Mirror.submit`, `Mirror.cancelOrder`, `Mirror.modifyOrder` — a call on both.
* `Mirrors.bypass` — a call on one of them, about another symbol.
-/

namespace GoQuant

open MatchingAlgorithm

/-- A message without the id of its trade. -/
def Delivery.anonymous : Delivery → Delivery
  | .marketData cb update => .marketData cb update
  | .trade cb t => .trade cb t.anonymous

namespace Feed

/-- The feeds without the ids of trades. -/
def anonymous (feed : Feed) : Feed :=
  { feed with
    tradeHistory := feed.tradeHistory.map Trade.anonymous
    messages := feed.messages.map Delivery.anonymous }

theorem publishTrade_anonymous (feed : Feed) (trade : Trade) :
    (feed.publishTrade trade).anonymous = feed.anonymous.publishTrade trade.anonymous := by
  simp only [publishTrade, anonymous, List.length_append, List.length_map, List.length_singleton]
  refine congrArg₂ (fun history messages => { feed with
    tradeHistory := history, tradeSeq := feed.tradeSeq + 1, messages := messages }) ?_ ?_
  · split_ifs <;> simp [Trade.anonymous, List.map_tail]
  · simp [Delivery.anonymous, Trade.anonymous]

theorem publishUpdate_anonymous (hashOrder : HashOrder) (feed : Feed)
    (update : MarketDataUpdate) : (feed.publishUpdate hashOrder update).anonymous =
      feed.anonymous.publishUpdate hashOrder update := by
  unfold publishUpdate
  cases h : feed.lastMarketSnapshot with
  | none => simp [anonymous, h, Delivery.anonymous]
  | some prev =>
    simp only [anonymous, h]
    split_ifs <;> simp [Delivery.anonymous]

end Feed

/-- What two engines keep for a symbol, each with objects and trade ids of its own. -/
structure Market.Renames (f : Ref → Ref) (known : Set Ref) (m m' : Market) : Prop where
  orderBook : Option.Rel (OrderBook.Renames f known) m.orderBook m'.orderBook
  triggerOrders : m'.triggerOrders = m.triggerOrders.map (List.map f)
  waits : ∀ vec ∈ m.triggerOrders, ∀ ord ∈ vec, ord ∈ known
  feed : m'.feed.anonymous = m.feed.anonymous

/-- More may be known. -/
theorem Market.Renames.mono {f g : Ref → Ref} {known known' : Set Ref} {m m' : Market}
    (h : m.Renames f known m') (hg : ∀ r ∈ known, g r = f r) (hsub : known ⊆ known') :
    m.Renames g known' m' where
  orderBook := h.orderBook.mono fun _ _ hb => hb.mono hg hsub
  triggerOrders := by
    rw [h.triggerOrders]
    refine Option.map_congr fun vec hvec => ?_
    exact List.map_congr_left fun ord hord => (hg ord (h.waits vec hvec ord hord)).symm
  waits vec hvec ord hord := hsub (h.waits vec hvec ord hord)
  feed := h.feed

namespace MatchingEngine

variable {fuel : ℕ} {e e' r r' : MatchingEngine} {s orderId : String} {price : ℚ}
  {f : Ref → Ref} {known : Set Ref} {ord : Ref} {vec : List Ref} {o : Order}
  {result result' : Matching} {trade trade' : Trade} {trades trades' : List Trade}
  {mem mem' : Memory} {b b' : OrderBook}

/-- The market of a symbol in two engines. The known objects are those that the symbol has seen;
the books of other symbols know others. -/
structure Mirrors (s : String) (f : Ref → Ref) (known : Set Ref) (e r : MatchingEngine) :
    Prop where
  mem : Memory.Renames f known e.mem r.mem
  market : (e.market s).Renames f known (r.market s)
  elsewhere : ∀ ref, e.Elsewhere s ref → ref < e.mem.next ∧ ref ∉ known
  feeModel : r.feeModel = e.feeModel
  hashOrder : r.hashOrder = e.hashOrder

/-- Two engines with the same market. -/
def Mirror (s : String) (e r : MatchingEngine) : Prop := ∃ f known, Mirrors s f known e r

namespace Mirrors

theorem mirror (h : Mirrors s f known e r) : Mirror s e r := ⟨f, known, h⟩

theorem book (h : Mirrors s f known e r) : OrderBook.Renames f known (e.book s) (r.book s) := by
  rw [book_eq, book_eq]
  have hbook := h.market.orderBook
  generalize (e.market s).orderBook = x, (r.market s).orderBook = y at hbook
  cases hbook with
  | none => exact .empty f known s s
  | some hb => exact hb

theorem pending (h : Mirrors s f known e r) : r.pending s = (e.pending s).map f := by
  rw [pending_eq, pending_eq, h.market.triggerOrders]
  cases (e.market s).triggerOrders <;> rfl

theorem mem_known (h : Mirrors s f known e r) (hord : ord ∈ e.pending s) : ord ∈ known := by
  rw [pending_eq] at hord
  cases hvec : (e.market s).triggerOrders with
  | none => simp [hvec] at hord
  | some vec =>
    rw [hvec] at hord
    exact h.market.waits vec hvec ord hord

/-- Something happens in one of the engines that does not concern the symbol. -/
theorem bypass (h : Mirrors s f known e r) (hb : e.Bypasses s e') : Mirrors s f known e' r where
  mem :=
    { order := fun ref href => by
        have helse : ¬ e.Elsewhere s ref := fun hr => (h.elsewhere ref hr).2 href
        rw [hb.order ref (h.mem.allocated ref href).1 helse, h.mem.order ref href]
      injective := h.mem.injective
      allocated := fun ref href =>
        ⟨(h.mem.allocated ref href).1.trans_le hb.next, (h.mem.allocated ref href).2⟩ }
  market := hb.market ▸ h.market
  elsewhere ref href := by
    rcases hb.elsewhere ref href with hold | hnew
    · exact ⟨(h.elsewhere ref hold).1.trans_le hb.next, (h.elsewhere ref hold).2⟩
    · exact ⟨hnew.2, fun hknown => absurd hnew.1 (h.mem.allocated ref hknown).1.not_ge⟩
  feeModel := h.feeModel.trans hb.feeModel.symm
  hashOrder := h.hashOrder.trans hb.hashOrder.symm

/-- Nothing happens to books and their objects on either side. -/
theorem of_books (h : Mirrors s f known e r) (he : e.SameBooks e') (hr : r.SameBooks r')
    (hm : (e'.market s).Renames f known (r'.market s)) : Mirrors s f known e' r' where
  mem := by
    rw [he.mem, hr.mem]
    exact h.mem
  market := hm
  elsewhere ref href := by
    obtain ⟨symbol, hne, hmapped⟩ := href
    rw [he.book] at hmapped
    rw [he.mem]
    exact h.elsewhere ref ⟨symbol, hne, hmapped⟩
  feeModel := by rw [he.feeModel, hr.feeModel, h.feeModel]
  hashOrder := by rw [he.hashOrder, hr.hashOrder, h.hashOrder]

theorem of_same (h : Mirrors s f known e r) (he : e.SameMarkets e') (hr : r.SameMarkets r') :
    Mirrors s f known e' r' := by
  refine h.of_books ⟨he.mem, he.book, he.pending, he.feeModel, he.hashOrder⟩
    ⟨hr.mem, hr.book, hr.pending, hr.feeModel, hr.hashOrder⟩ ?_
  rw [he.market, hr.market]
  exact h.market

/-- Both engines build the same order. -/
theorem alloc (h : Mirrors s f known e r) (o : Order) :
    Mirrors s (Function.update f e.mem.next r.mem.next) (insert e.mem.next known)
      (e.alloc o).1 (r.alloc o).1 where
  mem := h.mem.alloc o
  market := h.market.mono (fun ref href =>
    Function.update_of_ne (h.mem.allocated ref href).1.ne r.mem.next f) (Set.subset_insert _ _)
  elsewhere ref href := by
    obtain ⟨hlt, hknown⟩ := h.elsewhere ref href
    refine ⟨hlt.trans (Nat.lt_succ_self _), ?_⟩
    rintro (rfl | hin)
    · exact hlt.false
    · exact hknown hin
  feeModel := h.feeModel
  hashOrder := h.hashOrder

/-- The book changes on both sides. -/
theorem setBook (h : Mirrors s f known e r) (hm : Memory.Renames f known mem mem')
    (hb : OrderBook.Renames f known b b') (hnext : e.mem.next ≤ mem.next) :
    Mirrors s f known { e.setBook s b with mem := mem } { r.setBook s b' with mem := mem' } where
  mem := hm
  market := by
    have hbook (u : MatchingEngine) (b : OrderBook) (mem : Memory) :
        ({ u.setBook s b with mem := mem } : MatchingEngine).market s =
          { u.market s with orderBook := some b } := market_setBook_self u s b
    rw [hbook, hbook]
    exact { h.market with orderBook := .some hb }
  elsewhere ref href := by
    obtain ⟨symbol, hne, hmapped⟩ := href
    rw [book_replace_of_ne _ _ _ hne] at hmapped
    obtain ⟨hlt, hknown⟩ := h.elsewhere ref ⟨symbol, hne, hmapped⟩
    exact ⟨hlt.trans_le hnext, hknown⟩
  feeModel := h.feeModel
  hashOrder := h.hashOrder

/-- The list of pending orders changes on both sides. -/
theorem setPending (h : Mirrors s f known e r) (hvec : ∀ ord ∈ vec, ord ∈ known) :
    Mirrors s f known (e.setPending s vec) (r.setPending s (vec.map f)) where
  mem := h.mem
  market := by
    rw [market_setPending_self, market_setPending_self]
    refine { h.market with triggerOrders := rfl, waits := fun vec' hvec' => ?_ }
    obtain rfl := Option.some.inj hvec'
    exact hvec
  elsewhere := h.elsewhere
  feeModel := h.feeModel
  hashOrder := h.hashOrder

theorem getOrCreateOrderBook (h : Mirrors s f known e r) :
    Mirrors s f known (e.getOrCreateOrderBook s) (r.getOrCreateOrderBook s) := by
  refine h.of_books (.getOrCreateOrderBook e s) (.getOrCreateOrderBook r s) ?_
  rw [market_getOrCreateOrderBook_self, market_getOrCreateOrderBook_self]
  exact { h.market with orderBook := .some h.book }

theorem receive (h : Mirrors o.symbol f known e r) :
    Mirrors o.symbol f known (e.receive o) (r.receive o) := by
  have hcount (u : MatchingEngine) :
      u.SameMarkets { u with metricOrdersReceived := u.metricOrdersReceived + 1 } :=
    ⟨fun _ => rfl, rfl, rfl, rfl⟩
  exact ((h.of_same (hcount e) (hcount r)).getOrCreateOrderBook).of_same (.writeWAL _ _)
    (.writeWAL _ _)

/-- The same order is matched on both sides. -/
theorem matched (h : Mirrors s f known e r) (hres : result.Echoes f known result')
    (hnext : e.mem.next ≤ result.mem.next) :
    Mirrors s f known (e.matched s result) (r.matched s result') := by
  refine (h.setBook hres.mem hres.book hnext).of_same ?_ ?_
  · exact ⟨fun _ => rfl, rfl, rfl, rfl⟩
  · exact ⟨fun _ => rfl, rfl, rfl, rfl⟩

/-! ## Trigger orders -/

/-- The same pending order is activated on both sides. The renaming gets to know its object. -/
theorem activate (h : Mirrors s f known e r) (hord : ord ∈ known) :
    Option.Rel (fun e' r' => ∃ g known', Set.EqOn g f known ∧ known ⊆ known' ∧
      Mirrors s g known' e' r') (e.activate fuel s ord) (r.activate fuel s (f ord)) := by
  unfold MatchingEngine.activate
  dsimp only
  rw [h.mem.order ord hord]
  generalize hact : activeOrder (e.mem.order ord) = act
  have hbuilt := (h.alloc act).getOrCreateOrderBook
  have hagree : Set.EqOn (Function.update f e.mem.next r.mem.next) f known := fun ref href =>
    Function.update_of_ne (h.mem.allocated ref href).1.ne r.mem.next f
  have hnew : (e.alloc act).2 ∈ insert e.mem.next known := Set.mem_insert _ _
  have hrename : Function.update f e.mem.next r.mem.next (e.alloc act).2 = (r.alloc act).2 :=
    Function.update_self ..
  have hp := processOrder_echoes ((e.alloc act).1.getOrCreateOrderBook s).feeModel fuel
    hbuilt.mem hbuilt.book hnew
  rw [hrename] at hp
  rw [hbuilt.feeModel]
  rcases hp with ⟨message, hp, hp'⟩ | ⟨_, _, hp, hp', hres | _⟩
  · rw [hp, hp']
    exact .none
  · rw [hp, hp']
    have hnext := (returns_extends ⟨fuel, hp⟩).1
    exact .some ⟨_, _, hagree, Set.subset_insert _ _,
      (hbuilt.matched hres hnext).of_same (.writeWAL _ _) (.writeWAL _ _)⟩
  · rw [hp, hp']
    exact .none

/-- By induction on the orders still to look at. -/
theorem activateAll (h : Mirrors s f known e r) (hvec : ∀ ord ∈ vec, ord ∈ known) :
    Option.Rel (fun p q => ∃ g known', Set.EqOn g f known ∧ known ⊆ known' ∧
        Mirrors s g known' p.2 q.2 ∧ q.1 = p.1.map g ∧ ∀ ord ∈ p.1, ord ∈ known')
      (activateAll fuel s price vec e) (activateAll fuel s price (vec.map f) r) := by
  induction vec generalizing e r f known with
  | nil =>
    exact .some ⟨f, known, Set.eqOn_refl f known, subset_rfl, h, rfl, hvec⟩
  | cons ord vec ih =>
    have hord : ord ∈ known := hvec ord List.mem_cons_self
    have hrest : ∀ ord ∈ vec, ord ∈ known := fun ord hm => hvec ord (List.mem_cons_of_mem _ hm)
    simp only [List.map_cons, MatchingEngine.activateAll, h.mem.order ord hord]
    split_ifs
    · refine (h.activate hord).bind ?_
      rintro e' r' - ⟨g, known', hagree, hsub, h'⟩
      have hvec' : vec.map f = vec.map g :=
        List.map_congr_left fun ord hm => (hagree (hrest ord hm)).symm
      rw [hvec']
      refine (ih h' fun ord hm => hsub (hrest ord hm)).mono ?_
      rintro ⟨remaining, u⟩ ⟨remaining', w⟩ ⟨g', known'', hagree', hsub', hu, heq, hin⟩
      exact ⟨g', known'', (hagree'.mono hsub).trans hagree, hsub.trans hsub', hu, heq, hin⟩
    · refine (ih h hrest).map ?_
      rintro ⟨remaining, e'⟩ ⟨remaining', r'⟩ ⟨g, known', hagree, hsub, h', heq, hin⟩
      refine ⟨g, known', hagree, hsub, h', ?_, ?_⟩
      · rw [List.map_cons, hagree hord, ← heq]
      · exact List.forall_mem_cons.mpr ⟨hsub hord, hin⟩

end Mirrors

namespace Mirror

theorem bypass (h : Mirror s e r) (hb : e.Bypasses s e') : Mirror s e' r := by
  obtain ⟨f, known, h⟩ := h
  exact (h.bypass hb).mirror

theorem checkTriggers (h : Mirror s e r) :
    Option.Rel (Mirror s) (e.checkTriggers fuel s price) (r.checkTriggers fuel s price) := by
  obtain ⟨f, known, h⟩ := h
  have hqueue : r.triggerOrders.lookup s = (e.triggerOrders.lookup s).map (List.map f) :=
    h.market.triggerOrders
  unfold MatchingEngine.checkTriggers
  rw [hqueue]
  cases hvec : e.triggerOrders.lookup s with
  | none => exact .some h.mirror
  | some vec =>
    refine (h.activateAll (h.market.waits vec hvec)).map ?_
    rintro ⟨remaining, e'⟩ ⟨_, r'⟩ ⟨g, known', -, -, h', rfl, hin⟩
    exact (h'.setPending hin).mirror

/-! ## Publications -/

/-- The same trade is published on both sides. -/
theorem publishTrade (h : Mirror s e r) (hs : trade.symbol = s)
    (htrade : trade'.anonymous = trade.anonymous) :
    Option.Rel (Mirror s) (e.publishTrade fuel trade) (r.publishTrade fuel trade') := by
  obtain ⟨f, known, h⟩ := h
  subst hs
  have hsymbol : trade'.symbol = trade.symbol := (congrArg Trade.symbol htrade :)
  have hprice : trade'.price = trade.price := (congrArg Trade.price htrade :)
  rw [publishTrade_eq, publishTrade_eq, hsymbol, hprice]
  refine checkTriggers ⟨f, known, h.of_books (.announce e trade) (.announce r trade') ?_⟩
  have hr := market_announce_self r trade'
  rw [hsymbol] at hr
  rw [market_announce_self, hr]
  refine { h.market with feed := ?_ }
  rw [Feed.publishTrade_anonymous, Feed.publishTrade_anonymous, htrade]
  exact congrArg (Feed.publishTrade · _) h.market.feed

/-- By induction on the trades. -/
theorem publishTrades (h : Mirror s e r) (hs : ∀ t ∈ trades, t.symbol = s)
    (htrades : trades'.map Trade.anonymous = trades.map Trade.anonymous) :
    Option.Rel (Mirror s) (publishTrades fuel trades e) (publishTrades fuel trades' r) := by
  induction trades generalizing e r trades' with
  | nil =>
    obtain rfl := List.map_eq_nil_iff.mp htrades
    exact .some h
  | cons t trades ih =>
    obtain ⟨t', trades'', rfl, ht, hrest⟩ := List.map_eq_cons_iff.mp htrades
    refine (h.publishTrade (hs t List.mem_cons_self) ht).bind fun e' r' _ h' => ?_
    exact ih h' (fun t ht => hs t (List.mem_cons_of_mem _ ht)) hrest

/-- Both sides read the same levels. -/
theorem getMarketData (h : Mirror s e r) (depth : ℕ) :
    r.getMarketData s depth = e.getMarketData s depth := by
  obtain ⟨f, known, h⟩ := h
  have hbook : Option.Rel (OrderBook.Renames f known) (e.orderBooks.lookup s)
    (r.orderBooks.lookup s) := h.market.orderBook
  unfold MatchingEngine.getMarketData
  generalize e.orderBooks.lookup s = x, r.orderBooks.lookup s = y at hbook
  cases hbook with
  | none => rfl
  | @some b b' hb =>
    have htop (side : Side) : b'.getTop side depth = b.getTop side depth := by
      simp only [OrderBook.getTop, hb.levels, List.map_take, List.map_map]
      rfl
    have hbest (side : Side) : b'.getBestPrice side = b.getBestPrice side ∧
        b'.getBestQuantity side = b.getBestQuantity side := by
      unfold OrderBook.getBestPrice OrderBook.getBestQuantity
      rw [hb.levels]
      cases b.levels side <;> exact ⟨rfl, rfl⟩
    simp only [htop, hbest]

theorem publishMarketDataUpdate (h : Mirror s e r) :
    Mirror s (e.publishMarketDataUpdate s) (r.publishMarketDataUpdate s) := by
  have hread := h.getMarketData 10
  have hsymbol := symbol_getMarketData e s 10
  obtain ⟨f, known, h⟩ := h
  unfold MatchingEngine.publishMarketDataUpdate
  rw [hread]
  generalize e.getMarketData s 10 = update at hsymbol
  subst hsymbol
  refine ⟨f, known, h.of_books (.publishUpdate e _ update) (.publishUpdate r _ update) ?_⟩
  rw [market_publishUpdate_self, market_publishUpdate_self, h.hashOrder]
  refine { h.market with feed := ?_ }
  rw [Feed.publishUpdate_anonymous, Feed.publishUpdate_anonymous]
  exact congrArg (Feed.publishUpdate _ · _) h.market.feed

/-! ## Calls -/

/-- What `acceptOrder` answers, without the ids of trades. -/
def anonymousAnswer :
    Except String (Option (List Trade)) → Except String (Option (List Trade))
  | .ok (some trades) => .ok (some (trades.map Trade.anonymous))
  | answer => answer

/-- The same order is looked at on both sides. -/
theorem acceptOrder (h : Mirror o.symbol e r) :
    Option.Rel (fun p q => anonymousAnswer q.1 = anonymousAnswer p.1 ∧ Mirror o.symbol p.2 q.2)
      ((e.alloc o).1.acceptOrder fuel (e.alloc o).2)
      ((r.alloc o).1.acceptOrder fuel (r.alloc o).2) := by
  obtain ⟨f, known, h⟩ := h
  have hself (u : MatchingEngine) : (u.alloc o).1.mem.order (u.alloc o).2 = o :=
    u.alloc_order_self o
  have hbuilt := (h.alloc o).receive
  have hnew : (e.alloc o).2 ∈ insert e.mem.next known := Set.mem_insert _ _
  have hrename : Function.update f e.mem.next r.mem.next (e.alloc o).2 = (r.alloc o).2 :=
    Function.update_self ..
  unfold MatchingEngine.acceptOrder
  simp only [hself]
  split_ifs
  · have hvec : ∀ ord ∈ ((e.alloc o).1.receive o).pending o.symbol ++ [(e.alloc o).2],
        ord ∈ insert e.mem.next known := fun ord hord =>
      (List.mem_append.mp hord).elim hbuilt.mem_known fun hone => List.mem_singleton.mp hone ▸ hnew
    have hadd := hbuilt.setPending hvec
    rw [List.map_append, List.map_singleton, hrename, ← hbuilt.pending] at hadd
    exact .some ⟨rfl, hadd.mirror⟩
  · have hp := processOrder_echoes ((e.alloc o).1.receive o).feeModel fuel hbuilt.mem
      hbuilt.book hnew
    rw [hrename] at hp
    rw [hbuilt.feeModel]
    rcases hp with ⟨message, hp, hp'⟩ | ⟨_, _, hp, hp', hres | _⟩
    · rw [hp, hp']
      exact .some ⟨rfl, hbuilt.mirror⟩
    · rw [hp, hp']
      have hnext := (returns_extends ⟨fuel, hp⟩).1
      refine .some ⟨?_, ((hbuilt.matched hres hnext).of_same ?_ ?_).mirror⟩
      · exact congrArg (fun ts => Except.ok (some ts)) hres.trades
      · exact ⟨fun _ => rfl, rfl, rfl, rfl⟩
      · exact ⟨fun _ => rfl, rfl, rfl, rfl⟩
    · rw [hp, hp']
      exact .none

/-- The trades are published on both sides. -/
theorem publishResult (h : Mirror s e r) {answer answer' : Except String (Option (List Trade))}
    (hanswer : anonymousAnswer answer' = anonymousAnswer answer)
    (hs : ∀ trades, answer = .ok (some trades) → ∀ t ∈ trades, t.symbol = s) :
    Option.Rel (Mirror s) (publishResult fuel s (answer, e))
      (publishResult fuel s (answer', r)) := by
  rcases answer with message | _ | trades <;> rcases answer' with message' | _ | trades' <;>
    simp only [anonymousAnswer, reduceCtorEq, Except.ok.injEq, Option.some.injEq] at hanswer
  · exact .some h
  · exact .some h
  · exact (h.publishTrades (hs trades rfl) hanswer).map fun _ _ h' => h'.publishMarketDataUpdate

/-- The same order is submitted on both sides. -/
theorem submit (h : Mirror o.symbol e r) (hl : e.Labelled) :
    Option.Rel (Mirror o.symbol) (e.call fuel (.submit true o))
      (r.call fuel (.submit true o)) := by
  rw [call_submit, call_submit]
  refine h.acceptOrder.bind ?_
  rintro ⟨answer, e'⟩ ⟨answer', r'⟩ ha ⟨hanswer, h'⟩
  obtain ⟨ts, -, hts, htrades, -⟩ := acceptOrder_executes hl ha
  exact h'.publishResult hanswer fun trades htaken => htrades trades htaken ▸ hts

/-- An id that only the book of the symbol can know is cancelled on both sides. -/
theorem cancelOrder (h : Mirror s e r)
    (he : ∀ symbol, (e.book symbol).hasOrder orderId = true → symbol = s)
    (hr : ∀ symbol, (r.book symbol).hasOrder orderId = true → symbol = s) :
    Mirror s (e.cancelOrder orderId).2 (r.cancelOrder orderId).2 := by
  obtain ⟨f, known, h⟩ := h
  have hknown : (r.book s).hasOrder orderId = (e.book s).hasOrder orderId := h.book.hasOrder orderId
  unfold MatchingEngine.cancelOrder
  obtain ⟨hnone, hid⟩ | ⟨symbol, hid, u, hsome, hsame⟩ := cancelOrderUnlocked_markets e orderId <;>
    obtain ⟨hnone', hid'⟩ | ⟨symbol', hid', u', hsome', hsame'⟩ :=
      cancelOrderUnlocked_markets r orderId
  · rw [hnone, hnone']
    exact h.mirror
  · obtain rfl := hr symbol' hid'
    rw [hknown, hid] at hid'
    cases hid'
  · obtain rfl := he symbol hid
    rw [← hknown, hid'] at hid
    cases hid
  · obtain rfl := he symbol hid
    obtain rfl := hr symbol' hid'
    rw [hsome, hsome']
    have hbook := h.setBook h.mem (h.book.cancelOrder h.mem orderId) le_rfl
    exact (hbook.of_same hsame hsame').mirror.publishMarketDataUpdate

/-- The same for a change of quantity. -/
theorem modifyOrder {newQuantity : ℚ} (h : Mirror s e r)
    (he : ∀ symbol, (e.book symbol).hasOrder orderId = true → symbol = s)
    (hr : ∀ symbol, (r.book symbol).hasOrder orderId = true → symbol = s) :
    Mirror s (e.modifyOrder orderId newQuantity).2 (r.modifyOrder orderId newQuantity).2 := by
  obtain ⟨f, known, h⟩ := h
  have hknown : (r.book s).hasOrder orderId = (e.book s).hasOrder orderId := h.book.hasOrder orderId
  unfold MatchingEngine.modifyOrder
  obtain ⟨hnone, hid⟩ | ⟨symbol, mem, b, hmod, u, hsome, hsame⟩ :=
      modifyOrderUnlocked_markets e orderId newQuantity <;>
    obtain ⟨hnone', hid'⟩ | ⟨symbol', mem', b', hmod', u', hsome', hsame'⟩ :=
      modifyOrderUnlocked_markets r orderId newQuantity
  · rw [hnone, hnone']
    exact h.mirror
  · have hid' := OrderBook.hasOrder_of_modifyOrder hmod'
    obtain rfl := hr symbol' hid'
    rw [hknown, hid] at hid'
    cases hid'
  · have hid := OrderBook.hasOrder_of_modifyOrder hmod
    obtain rfl := he symbol hid
    rw [← hknown, hid'] at hid
    cases hid
  · obtain rfl := he symbol (OrderBook.hasOrder_of_modifyOrder hmod)
    obtain rfl := hr symbol' (OrderBook.hasOrder_of_modifyOrder hmod')
    rw [hsome, hsome']
    obtain ⟨_, _, heq, hb, hm⟩ := h.book.modifyOrder h.mem hmod
    obtain ⟨rfl, rfl⟩ := Prod.mk.inj (Except.ok.inj (heq.symm.trans hmod'))
    have hnext := (OrderBook.modifyOrder_extends e.mem _ orderId newQuantity hmod).1
    exact ((h.setBook hm hb hnext).of_same hsame hsame').mirror.publishMarketDataUpdate

end Mirror

end MatchingEngine

end GoQuant
