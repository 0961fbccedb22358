import GoQuant.Engine.Durability
import GoQuant.Engine.Venues

/-!
# A recovered engine goes on like the lost one

A process that has replayed the log of one that crashed holds the same orders under other handles.
That cannot be seen from outside: if both are asked the same from then on, also with trigger orders
and with calls that overlap, they answer the same and execute the same trades. Only the numbers of
the trades go on from another count.

## Main definitions

* `Venue.Alike` — two exchanges in which the same is held, and has been traded since some moment.

## Main results

* `Twin.orderly` — what makes an engine an exchange does not depend on the handles.
* `Venue.Alike.agree` — exchanges that are alike stay alike, whatever is asked of them.
* `resumes_of_crashes` — the engine that recovers from any number of crashes.
-/

namespace GoQuant

open MatchingAlgorithm

/-! ## Renamed books -/

namespace OrderBook.Renames

variable {f : Ref → Ref} {known : Set Ref} {mem mem' : Memory} {b b' : OrderBook} {s : Side}

theorem mem_levels (h : OrderBook.Renames f known b b') {l : PriceLevel} (hl : l ∈ b'.levels s) :
    ∃ l' ∈ b.levels s, l = l'.rename f := by
  rw [h.levels] at hl
  obtain ⟨l', hl', heq⟩ := List.mem_map.mp hl
  exact ⟨l', hl', heq.symm⟩

theorem mem_lookup (h : OrderBook.Renames f known b b') {id : String} {r : Ref}
    (hr : b'.orderMap.lookup id = some r) : ∃ r', b.orderMap.lookup id = some r' ∧ r = f r' := by
  rw [h.lookup] at hr
  obtain ⟨r', hr', heq⟩ := Option.map_eq_some_iff.mp hr
  exact ⟨r', hr', heq.symm⟩

/-- A book is well formed whatever its handles are called. -/
theorem wellFormed (h : OrderBook.Renames f known b b') (hm : Memory.Renames f known mem mem')
    (hb : WellFormed mem b) : WellFormed mem' b' where
  sorted s := by
    rw [h.levels]
    exact List.pairwise_map.mpr (hb.sorted s)
  nonempty s l hl := by
    obtain ⟨l', hl', rfl⟩ := h.mem_levels hl
    exact fun hnil => hb.nonempty s l' hl' (List.map_eq_nil_iff.mp hnil)
  placed s l hl r hr := by
    obtain ⟨l', hl', rfl⟩ := h.mem_levels hl
    obtain ⟨r', hr', rfl⟩ := List.mem_map.mp hr
    rw [hm.order r' (h.known_of_mem hl' r' hr')]
    exact hb.placed s l' hl' r' hr'
  nodup s l hl := by
    obtain ⟨l', hl', rfl⟩ := h.mem_levels hl
    have hknown := h.known_of_mem hl'
    exact (hb.nodup s l' hl').map_on fun r hr r' hr' heq =>
      hm.injective (hknown r hr) (hknown r' hr') heq
  named id r hr := by
    obtain ⟨r', hr', rfl⟩ := h.mem_lookup hr
    rw [hm.order r' (h.mapped id r' hr')]
    exact hb.named id r' hr'
  restsAllocated r hr := by
    obtain ⟨r', hr', rfl⟩ := h.rests_rename.mp hr
    exact (hm.allocated r' (h.rests r' hr')).2
  mapAllocated id r hr := by
    obtain ⟨r', hr', rfl⟩ := h.mem_lookup hr
    exact (hm.allocated r' (h.mapped id r' hr')).2
  found r hr := by
    obtain ⟨r', hr', rfl⟩ := h.rests_rename.mp hr
    rw [hm.order r' (h.rests r' hr'), h.lookup, hb.found r' hr', Option.map_some]
  positive r hr := by
    obtain ⟨r', hr', rfl⟩ := h.rests_rename.mp hr
    rw [hm.order r' (h.rests r' hr')]
    exact hb.positive r' hr'
  resting id r hr := by
    obtain ⟨r', hr', rfl⟩ := h.mem_lookup hr
    exact h.rests_rename.mpr ⟨r', hb.resting id r' hr', rfl⟩
  total s l hl := by
    obtain ⟨l', hl', rfl⟩ := h.mem_levels hl
    calc (l'.rename f).totalQuantity = mem.total l'.orders := hb.total s l' hl'
      _ = ((l'.orders.map mem.order).map Order.quantity).sum := by rw [List.map_map]; rfl
      _ = mem'.total (l'.orders.map f) := by
        rw [← hm.map_order (h.known_of_mem hl'), List.map_map]; rfl

theorem ladder (h : OrderBook.Renames f known b b') (hm : Memory.Renames f known mem mem')
    (s : Side) : b'.ladder mem' s = b.ladder mem s := by
  simp only [OrderBook.ladder, OrderBook.queues, h.levels, List.map_map]
  refine List.map_congr_left fun l hl => ?_
  have horders := hm.map_order (h.known_of_mem hl)
  exact congrArg (Tier.mk l.price) horders

end OrderBook.Renames

namespace MatchingEngine

variable {e r : MatchingEngine}

/-- Where nothing waits, the ids in use are those that the books know. -/
theorem Tidy.hasOrder_of_carries (h : e.Tidy) (hidle : e.Untriggered) {symbol id : String}
    (hid : e.Carries symbol id) : (e.book symbol).hasOrder id = true := by
  obtain (hknown | ⟨r, hr, rfl⟩) | ⟨o, ho, -⟩ := hid
  · exact hknown
  · exact (h.wellFormed symbol).hasOrder_iff.mpr ⟨r, hr, rfl⟩
  · rw [waiting, hidle symbol] at ho
    cases ho

/-- Ids that are in use once, in books: nothing waits. -/
theorem Tidy.orderly (h : e.Tidy) (hlabel : ∀ symbol r, (e.book symbol).Rests r →
    (e.mem.order r).symbol = symbol) (hdistinct : e.Distinct) (hidle : e.Untriggered) :
    e.Orderly := by
  have hnone (symbol : String) : e.waiting symbol = [] := by
    rw [waiting, hidle symbol, List.map_nil]
  exact {
    toTidy := h
    labelled := ⟨fun symbol r hr => ⟨(h.wellFormed symbol).restsAllocated r hr,
      hlabel symbol r hr⟩, fun symbol ord hord => absurd (hidle symbol ▸ hord) List.not_mem_nil⟩
    apart := fun symbol ord hord => absurd (hidle symbol ▸ hord) List.not_mem_nil
    positive := fun symbol o ho => absurd (hnone symbol ▸ ho) List.not_mem_nil
    single := fun symbol => by rw [hnone]; exact List.nodup_nil
    unnamed := fun symbol o ho => absurd (hnone symbol ▸ ho) List.not_mem_nil
    exclusive := fun id symbol symbol' hid hid' => hdistinct id symbol symbol'
      (h.hasOrder_of_carries hidle hid) (h.hasOrder_of_carries hidle hid') }

/-- The twin of an orderly engine is orderly, if nothing waits in it. -/
theorem Twin.orderly (h : Twin e r) (he : e.Orderly) (hdistinct : e.Distinct)
    (hr : r.Untriggered) : r.Orderly := by
  have hdistinct' := h.distinct hdistinct
  obtain ⟨f, known, hm, hb⟩ := h
  refine Tidy.orderly ⟨fun symbol => (hb symbol).wellFormed hm (he.wellFormed symbol), ?_⟩ ?_
    hdistinct' hr
  · intro symbol x hx s hne id hid
    obtain ⟨y, hy, rfl⟩ := (hb symbol).rests_rename.mp hx
    obtain ⟨z, hz, heq⟩ := (hb s).mem_lookup hid
    obtain rfl := hm.injective ((hb symbol).rests y hy) ((hb s).mapped id z hz) heq
    exact he.separate symbol y hy s hne id hz
  · intro symbol x hx
    obtain ⟨y, hy, rfl⟩ := (hb symbol).rests_rename.mp hx
    rw [hm.order y ((hb symbol).rests y hy)]
    exact (he.labelled.resting symbol y hy).2

theorem Twin.ladder (h : Twin e r) (symbol : String) (s : Side) :
    (r.book symbol).ladder r.mem s = (e.book symbol).ladder e.mem s := by
  obtain ⟨f, known, hm, hb⟩ := h
  exact (hb symbol).ladder hm s

end MatchingEngine

/-! ## Exchanges that are alike -/

/-- A trade without its number. -/
def Trade.unnumbered (t : Trade) : Trade := { t with tradeId := "" }

theorem unnumbered_tradesOf (feeModel : Option FeeModel) (taker : Order) (n m : ℕ)
    (fs : List (Order × ℚ)) : (tradesOf feeModel taker n fs).map Trade.unnumbered =
      (tradesOf feeModel taker m fs).map Trade.unnumbered := by
  induction fs generalizing n m with
  | nil => rfl
  | cons p fs ih =>
    simp only [tradesOf, List.map_cons]
    rw [ih (n + 1) (m + 1)]
    rfl

namespace Venue

/-- What is asked of an exchange: a call, or to look at a price. -/
def Event.asked : Event → Call ⊕ (String × ℚ)
  | .call c _ => .inl c
  | .check symbol price => .inr (symbol, price)

/-- The trades after the first `n`, up to their numbers. -/
def tradesFrom (v : Venue) (n : ℕ) : List (String × Trade) :=
  (v.executed.drop n).map (Prod.map id Trade.unnumbered)

/-- The same orders stand on the ladders and wait. From the `n`th trade of the one and the `n'`th of
the other on, the trades are the same as well. -/
structure Alike (n n' : ℕ) (v v' : Venue) : Prop where
  feeModel : v'.feeModel = v.feeModel
  ladders : v'.ladders = v.ladders
  waiting : v'.waiting = v.waiting
  length : n ≤ v.executed.length
  length' : n' ≤ v'.executed.length
  trades : v'.tradesFrom n' = v.tradesFrom n

variable {n n' : ℕ} {v v' u u' : Venue} {o : Order} {symbol orderId : String} {price : ℚ}
  {l l' : Event}

theorem tradesFrom_append {ts : List (String × Trade)} (h : n ≤ v.executed.length)
    (hu : u.executed = v.executed ++ ts) :
    u.tradesFrom n = v.tradesFrom n ++ ts.map (Prod.map id Trade.unnumbered) := by
  rw [tradesFrom, tradesFrom, hu, List.drop_append_of_le_length h, List.map_append]

namespace Alike

theorem holds (h : Alike n n' v v') : v'.Holds orderId ↔ v.Holds orderId := by
  rw [Holds, Holds, h.ladders]

theorem carries (h : Alike n n' v v') : v'.Carries symbol orderId ↔ v.Carries symbol orderId := by
  rw [Carries, Carries, h.waiting]
  simp only [line, h.ladders]

theorem submit (h : Alike n n' v v') (o : Order) : Alike n n' (v.submit o) (v'.submit o) where
  feeModel := h.feeModel
  ladders := by simp only [Venue.submit, h.ladders]
  waiting := h.waiting
  length := h.length.trans (by simp [Venue.submit])
  length' := h.length'.trans (by simp [Venue.submit])
  trades := by
    have htrades : (v'.trades o).map Trade.unnumbered = (v.trades o).map Trade.unnumbered := by
      rw [Venue.trades, Venue.trades, h.feeModel, h.ladders]
      exact unnumbered_tradesOf _ _ _ _ _
    have hpaired (ts : List Trade) : (ts.map (o.symbol, ·)).map (Prod.map id Trade.unnumbered) =
        (ts.map Trade.unnumbered).map (o.symbol, ·) := by
      rw [List.map_map, List.map_map]
      rfl
    rw [tradesFrom_append h.length' rfl, tradesFrom_append h.length rfl, h.trades, hpaired,
      hpaired, htrades]

/-- One order after another, by induction on the orders. -/
theorem foldl_submit (h : Alike n n' v v') (os : List Order) :
    Alike n n' (os.foldl Venue.submit v) (os.foldl Venue.submit v') := by
  induction os generalizing v v' with
  | nil => exact h
  | cons o os ih => exact ih (h.submit o)

/-- What becomes of the prices that are due does not matter. -/
theorem of_due (h : Alike n n' v v') (due due' : Multiset (String × ℚ)) :
    Alike n n' { v with due := due } { v' with due := due' } :=
  ⟨h.feeModel, h.ladders, h.waiting, h.length, h.length', h.trades⟩

/-- A call is answered alike. -/
theorem serve (h : Alike n n' v v') (c : Call) :
    (v'.serve c).1 = (v.serve c).1 ∧ Alike n n' (v.serve c).2 (v'.serve c).2 := by
  cases c with
  | submit tryAcceptOrder o =>
    simp only [Venue.serve]
    split_ifs
    · refine ⟨rfl, h.feeModel, h.ladders, ?_, h.length, h.length', h.trades⟩
      simp only [Venue.await, h.waiting]
    · exact ⟨rfl, (h.submit o).of_due _ _⟩
    · exact ⟨rfl, h⟩
  | cancel orderId =>
    refine ⟨?_, h.feeModel, ?_, h.waiting, h.length, h.length', h.trades⟩
    · exact congrArg Except.ok (decide_eq_decide.mpr h.holds)
    · simp only [Venue.serve, Venue.all, h.ladders]
  | modify orderId newQuantity =>
    refine ⟨?_, h.feeModel, ?_, h.waiting, h.length, h.length', h.trades⟩
    · exact congrArg Except.ok (decide_eq_decide.mpr h.holds)
    · simp only [Venue.serve, Venue.all, h.ladders]
  | subscribeToMarketData symbol callback => exact ⟨rfl, h⟩
  | subscribeToTrades symbol callback => exact ⟨rfl, h⟩

theorem check (h : Alike n n' v v') (symbol : String) (price : ℚ) :
    Alike n n' (v.check symbol price) (v'.check symbol price) := by
  have hfold := h.foldl_submit (((v.waiting symbol).filter fun o => o.Due price).map
    MatchingEngine.activeOrder)
  simp only [Venue.check, h.waiting]
  exact ⟨hfold.feeModel, hfold.ladders, rfl, hfold.length, hfold.length', hfold.trades⟩

/-- Asked the same, exchanges that are alike do the same. -/
theorem step (h : Alike n n' v v') (hask : l'.asked = l.asked) (hstep : Step v l u)
    (hstep' : Step v' l' u') : l' = l ∧ Alike n n' u u' := by
  cases hstep with
  | @call _ c a hserve =>
    cases hstep' with
    | @call _ c' a' hserve' =>
      obtain rfl : c' = c := Sum.inl.inj hask
      obtain ⟨hanswer, halike⟩ := h.serve c'
      rw [hserve, hserve'] at hanswer halike
      obtain rfl : a' = a := hanswer
      exact ⟨rfl, halike⟩
    | check hdue => cases hask
  | @check symbol price hdue =>
    cases hstep' with
    | call hserve => cases hask
    | @check symbol' price' hdue' =>
      obtain ⟨rfl, rfl⟩ := Prod.mk.inj (Sum.inr.inj hask)
      exact ⟨rfl, h.check symbol' price'⟩

/-- And so they do in the long run. -/
theorem agree {ls ls' : List Event} (h : Alike n n' v v') (hrun : Run Step v ls u)
    (hrun' : Run Step v' ls' u') (hask : ls'.map Event.asked = ls.map Event.asked) :
    ls' = ls ∧ Alike n n' u u' :=
  hrun.agree Event.asked (Alike n n') (fun _ _ _ _ _ _ hR hl hs hs' => hR.step hl hs hs')
    hrun' h hask

end Alike

end Venue

namespace MatchingEngine

variable {fuel : ℕ} {e r : MatchingEngine} {c : Call}

/-- Nobody can tell two engines apart. Asked the same, by calls that overlap in whatever way, they
give the same answers, hold the same, execute the same trades, and can be asked the same again. -/
def Indistinct (e r : MatchingEngine) : Prop :=
  ∀ ls ls' s s', Run System.CleanStep ⟨e, []⟩ ls s → Run System.CleanStep ⟨r, []⟩ ls' s' →
    (ls'.flatMap Prod.snd).map Venue.Event.asked = (ls.flatMap Prod.snd).map Venue.Event.asked →
    ls'.flatMap Prod.snd = ls.flatMap Prod.snd ∧
    (∀ symbol, SameContents s.engine.mem (s.engine.book symbol)
        s'.engine.mem (s'.engine.book symbol) ∧
      s'.engine.waiting symbol = s.engine.waiting symbol) ∧
    (s'.engine.venue s'.due).tradesFrom r.executed.length =
      (s.engine.venue s.due).tradesFrom e.executed.length ∧
    ∀ c, s'.engine.Clean c ↔ s.engine.Clean c

/-- What is a clean call can be seen on the exchange. -/
theorem Orderly.clean_iff (he : e.Orderly) (hr : r.Orderly) {n n' : ℕ}
    {due due' : Multiset (String × ℚ)} (h : Venue.Alike n n' (e.venue due) (r.venue due')) :
    r.Clean c ↔ e.Clean c := by
  have hcarries (symbol id : String) : r.Carries symbol id ↔ e.Carries symbol id :=
    (hr.carries_iff due').symm.trans (h.carries.trans (he.carries_iff due))
  unfold Clean
  split
  · simp only [hcarries]
  · rfl
  · rfl

/-- Engines that are alike as exchanges. -/
theorem Orderly.indistinct (he : e.Orderly) (hr : r.Orderly)
    (h : Venue.Alike e.executed.length r.executed.length (e.venue 0) (r.venue 0)) :
    Indistinct e r := by
  intro ls ls' s s' hrun hrun' hask
  obtain ⟨heq, halike⟩ := h.agree (System.venue_of_run hrun he) (System.venue_of_run hrun' hr) hask
  have hs := hrun.invariant (fun s => s.engine.Orderly) he fun s l t hs hstep => hstep.orderly hs
  have hs' := hrun'.invariant (fun s => s.engine.Orderly) hr fun s l t hs hstep => hstep.orderly hs
  have hladder (symbol : String) (side : Side) :=
    congrFun (congrFun halike.ladders symbol) side
  exact ⟨heq, fun symbol => ⟨(hs.wellFormed symbol).sameContents_of_ladder (hs'.wellFormed symbol)
    (hladder symbol), congrFun halike.waiting symbol⟩, halike.trades,
    fun c => hs.clean_iff hs' halike⟩

/-- A twin in which nothing waits, that takes the same fees. -/
theorem Twin.indistinct (h : Twin e r) (he : e.Orderly) (hdistinct : e.Distinct)
    (hidle : e.Untriggered) (hidle' : r.Untriggered) (hfees : r.feeModel = e.feeModel) :
    Indistinct e r := by
  refine he.indistinct (h.orderly he hdistinct hidle') ⟨hfees, ?_, ?_, le_rfl, le_rfl, ?_⟩
  · exact funext fun symbol => funext fun side => h.ladder symbol side
  · funext symbol
    simp only [venue, waiting, hidle symbol, hidle' symbol, List.map_nil]
  · simp [Venue.tradesFrom, venue]

/-! ## Recovery -/

/-- Replay does not change the fees. -/
theorem feeModel_sections (feeModel : Option FeeModel) :
    SectionInvariantOn (fun o => o.type.Matchable) fun e =>
      e.feeModel = feeModel ∧ e.Untriggered where
  of_same h hs := ⟨hs.feeModel.trans h.1, h.2.of_same hs⟩
  alloc o h := ⟨h.1, untriggered_sections.alloc o h.2⟩
  acceptOrder htype h ha := by
    refine ⟨?_, untriggered_sections.acceptOrder htype h.2 ha⟩
    obtain ⟨-, -, rfl⟩ | ⟨-, result, -, -, _, _, rfl⟩ | ⟨-, _, -, rfl⟩ := acceptOrder_cases ha
    all_goals exact (SameBooks.receive _ _).feeModel.trans h.1
  cancelOrderUnlocked {e} orderId h := by
    refine ⟨?_, untriggered_sections.cancelOrderUnlocked orderId h.2⟩
    obtain hnone | ⟨symbol, b, -, e', heq, hsame, -⟩ := cancelOrderUnlocked_cases e orderId
    · exact hnone ▸ h.1
    · exact heq ▸ hsame.feeModel.trans h.1
  modifyOrderUnlocked {e} orderId newQuantity h := by
    refine ⟨?_, untriggered_sections.modifyOrderUnlocked orderId newQuantity h.2⟩
    obtain hnone | ⟨symbol, mem, b, -, e', heq, hsame, -⟩ :=
      modifyOrderUnlocked_cases e orderId newQuantity
    · exact hnone ▸ h.1
    · exact heq ▸ hsame.feeModel.trans h.1
  checkTriggers h hc :=
    ⟨(checkTriggers_idle h.2 hc).1.feeModel.trans h.1, untriggered_sections.checkTriggers h.2 hc⟩

end MatchingEngine

/-- A call that asks for a positive quantity. -/
def Call.Positive : Call → Prop
  | .submit _ o => 0 < o.quantity
  | .modify _ newQuantity => 0 < newQuantity
  | _ => True

instance (c : Call) : Decidable c.Positive := by
  unfold Call.Positive
  cases c <;> infer_instance

open MatchingEngine

namespace System

variable {s t : System} {event : Event} {events : List Event} {e : MatchingEngine}

/-- A step the log can be trusted with is a step of an exchange. -/
theorem LoggedEvent.clean (h : s.LoggedEvent event t) (hs : s.engine.Orderly)
    (hidle : s.engine.Untriggered) (hpositive : ∀ c ∈ event.begun, c.Positive) :
    ∃ shown, s.CleanStep (event, shown) t := by
  have hclean : ∀ c ∈ event.begun, s.engine.Clean c := by
    intro c hc
    have hlogged := h.logged c hc
    have hquantity := hpositive c hc
    unfold Clean
    split
    · refine ⟨Or.inl hlogged.1, hquantity, fun symbol hid => ?_⟩
      exact Bool.false_ne_true ((hlogged.2 symbol).symm.trans
        (hs.toTidy.hasOrder_of_carries hidle hid))
    · exact hquantity
    · trivial
  cases event with
  | begin c =>
    cases h.step with
    | begin hstart =>
      obtain ⟨a, ha⟩ := exists_answer hstart
      exact ⟨_, h.step, hclean, _, a, ha, rfl⟩
  | proceed i =>
    exact ⟨(s.checks (.proceed i)).toList.map fun p => .check p.1 p.2, h.step, hclean, rfl⟩

/-- By induction on the run. -/
theorem orderly_of_run (h : Run LoggedEvent ⟨e, []⟩ events s) (he : e.Orderly)
    (hidle : e.Untriggered) (hpositive : ∀ event ∈ events, ∀ c ∈ event.begun, c.Positive) :
    s.engine.Orderly ∧ s.engine.Untriggered := by
  refine h.history (fun events s => (∀ event ∈ events, ∀ c ∈ event.begun, c.Positive) →
    s.engine.Orderly ∧ s.engine.Untriggered) (fun _ => ⟨he, hidle⟩) ?_ hpositive
  intro events s event t ih hstep hpositive
  obtain ⟨hs, hs'⟩ := ih fun event hevent => hpositive event (List.mem_append_left _ hevent)
  obtain ⟨shown, hclean⟩ := hstep.clean hs hs'
    (hpositive event (List.mem_append_right _ List.mem_cons_self))
  exact ⟨hclean.orderly hs, hstep.untriggered hs'⟩

end System

/-- A process that is asked for positive quantities only. -/
def Lifetime.Positive (life : Lifetime) : Prop :=
  ∀ event ∈ life.events, ∀ c ∈ event.begun, c.Positive

instance (life : Lifetime) : Decidable life.Positive :=
  inferInstanceAs (Decidable (∀ event ∈ life.events, ∀ c ∈ event.begun, c.Positive))

namespace Lifetime

variable {file file' : List Json} {life : Lifetime} {lives : List Lifetime} {t : System}

/-- A moment of a process that started from the log of an orderly engine. -/
theorem Passes.orderly {e₀ : MatchingEngine} (h : life.Passes file t) (hr : Restores file e₀)
    (hdistinct : e₀.Distinct) (he : e₀.Orderly) (hpositive : life.Positive) :
    t.engine.Orderly := by
  obtain ⟨fuel, e, events₁, events₂, hreplay, hevents, hrun, -⟩ := h
  have hidle := hr.untriggered hreplay
  have hstart := (hr.twin hreplay).2.orderly he hdistinct hidle
  refine (System.orderly_of_run hrun hstart hidle fun event hevent => ?_).1
  exact hpositive event (hevents ▸ List.mem_append_left _ hevent)

/-- However many processes have crashed before, each started on whole records: the last one passed
through a moment at which it had written what is left of its log, and the engine that replays it
cannot be told by clean calls from one that goes on from that moment. -/
theorem resumes_of_crashes (h : Run Lifetime.Crashes [] lives file)
    (hlife : life.Crashes file file') (hpositive : ∀ life' ∈ life :: lives, life'.Positive) :
    ∃ t, life.Passes file t ∧ t.engine.walStream = file' ∧ ∀ mem hashOrder, ∃ fuel r,
      (fresh mem hashOrder t.engine.feeModel).replayWAL fuel (some file') = some (true, r) ∧
      Indistinct t.engine (r.startWAL (some file')).2 := by
  obtain ⟨hlast, hearlier⟩ := List.forall_mem_cons.mp hpositive
  obtain ⟨e₀, hr, hdistinct, he⟩ : ∃ e₀, Restores file e₀ ∧ e₀.Distinct ∧ e₀.Orderly := by
    refine h.history (fun lives file => (∀ life ∈ lives, life.Positive) →
      ∃ e₀, Restores file e₀ ∧ e₀.Distinct ∧ e₀.Orderly) (fun _ => ?_) ?_ hearlier
    · have hdurable := start_durable .empty .plain none
      exact ⟨_, hdurable.restores, hdurable.live.distinct, orderly_startWAL _ _ _ _⟩
    · intro lives file life file' ih hcrash hpositive
      obtain ⟨e₀, hr, hdistinct, he⟩ :=
        ih fun life hlife => hpositive life (List.mem_append_left _ hlife)
      obtain ⟨t, hpasses, rfl, hdurable⟩ := hcrash.exists_passes hr hdistinct
      exact ⟨t.engine, hdurable.restores, hdurable.live.distinct, hpasses.orderly hr hdistinct he
        (hpositive life (List.mem_append_right _ List.mem_cons_self))⟩
  obtain ⟨t, hpasses, rfl, hdurable⟩ := hlife.exists_passes hr hdistinct
  have hidle := hdurable.live.untriggered
  refine ⟨t, hpasses, rfl, fun mem hashOrder => ?_⟩
  obtain ⟨fuel, u, hu, -⟩ := hdurable.restores.rebuilds mem hashOrder t.engine.feeModel
  have hreplay : (fresh mem hashOrder t.engine.feeModel).replayWAL fuel
      (some t.engine.walStream) = some (true, { u with replaying := false }) :=
    congrArg (Option.map _) hu
  have hstart : (fresh mem hashOrder t.engine.feeModel).feeModel = t.engine.feeModel ∧
      (fresh mem hashOrder t.engine.feeModel).Untriggered := ⟨rfl, fun _ => rfl⟩
  have hfees : u.feeModel = t.engine.feeModel := by
    refine ((feeModel_sections t.engine.feeModel).replayWAL
      (fun he hvec => ⟨he.1, he.2.setPending hvec⟩) hstart ?_ hreplay).1
    rintro lines ⟨⟩
    exact hdurable.restores.plain
  exact ⟨fuel, _, hreplay, (hdurable.restores.twin hreplay).2.indistinct
    (hpasses.orderly hr hdistinct he hlast) hdurable.live.distinct hidle
    (fun symbol => hdurable.restores.untriggered hreplay symbol) hfees⟩

/-- The first process is killed before it has published its trade, the second one before its last
record has reached the file. -/
theorem resumes_of_crashes_twice : ∃ (file file' : List Json) (t : System), file.length = 2 ∧
    file'.length = 3 ∧ t.engine.walStream = file' ∧ ∃ fuel r,
      (fresh .empty .plain t.engine.feeModel).replayWAL fuel (some file') = some (true, r) ∧
      Indistinct t.engine (r.startWAL (some file')).2 := by
  let events : List System.Event := [.begin (.submit true ⟨"ask", "S", .sell, .limit, 10, 5⟩),
    .begin (.submit true ⟨"bid", "S", .buy, .limit, 11, 3⟩)]
  let events' : List System.Event := [.begin (.modify "ask" 1), .proceed 0, .begin (.cancel "ask")]
  let final := Run.exec (crash 5) [] [(events, 2)]
  let final' := final.bind fun q => crash 5 q.2 (events', 3)
  have hfinal : final.map (fun q => (q.2.length, decide (∀ life ∈ q.1, life.Positive))) =
      some (2, true) := by
    decide +kernel
  have hfinal' : final'.map (fun q => (q.2.length, decide q.1.Positive)) = some (3, true) := by
    decide +kernel
  obtain ⟨⟨lives, file⟩, hlives, hfile⟩ := Option.map_eq_some_iff.mp hfinal
  obtain ⟨⟨life, file'⟩, hlife, hfile'⟩ := Option.map_eq_some_iff.mp hfinal'
  obtain ⟨hlength, hearlier⟩ := Prod.mk.inj hfile
  obtain ⟨hlength', hlast⟩ := Prod.mk.inj hfile'
  have hcrash : crash 5 file (events', 3) = some (life, file') := by
    simpa only [final', hlives, Option.bind_some] using hlife
  have hpositive : ∀ life' ∈ life :: lives, life'.Positive :=
    List.forall_mem_cons.mpr ⟨of_decide_eq_true hlast, of_decide_eq_true hearlier⟩
  obtain ⟨t, -, ht, hresumes⟩ := resumes_of_crashes
    (Run.of_exec (fun _ _ _ _ => crashes_of_crash) hlives) (crashes_of_crash hcrash) hpositive
  exact ⟨file, file', t, hlength, hlength', ht, hresumes .empty .plain⟩

end Lifetime

end GoQuant
