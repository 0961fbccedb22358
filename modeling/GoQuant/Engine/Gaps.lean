import GoQuant.Engine.Depth
import Mathlib.Data.List.Chain

/-!
# Gaps in the market-data feed

Every publication takes a number, also one that finds the visible levels as they were and sends
nothing. The next INCREMENT names the last number that was sent, and reports a gap. So the feed
of a subscriber who has missed nothing has no gap exactly if no publication that finds the levels
as they were is followed by one that finds them changed.

## Main definitions

* `Unbroken` — consecutive numbers, each message naming the one before it, and no gap.
* `Settles` — once a list repeats an element it stays with it.
* `System.ReadStep` — a step, with the levels that it publishes.

## Main results

* `System.unbroken_iff` — a feed is unbroken exactly if the levels published settle.
* `System.gap_of_ineffective` — an order that matches nothing, and then one that rests.
-/

namespace GoQuant

/-- Nothing is missing between two messages. -/
def MarketDataUpdate.Next (u v : MarketDataUpdate) : Prop :=
  v.seqNum = u.seqNum + 1 ∧ (v.type = .increment → v.prevSeqNum = u.seqNum)

instance (u v : MarketDataUpdate) : Decidable (u.Next v) := by
  unfold MarketDataUpdate.Next; infer_instance

/-- A feed with consecutive numbers, in which no INCREMENT reports a gap. -/
def Unbroken (messages : List MarketDataUpdate) : Prop :=
  messages.IsChain MarketDataUpdate.Next ∧ ∀ u ∈ messages, u.type = .increment → u.gap = false

instance (messages : List MarketDataUpdate) : Decidable (Unbroken messages) := by
  unfold Unbroken; infer_instance

theorem unbroken_append {messages : List MarketDataUpdate} {u v : MarketDataUpdate}
    (hlast : messages.getLast? = some u) : Unbroken (messages ++ [v]) ↔
      Unbroken messages ∧ u.Next v ∧ (v.type = .increment → v.gap = false) := by
  have hchain : (messages ++ [v]).IsChain MarketDataUpdate.Next ↔
      messages.IsChain MarketDataUpdate.Next ∧ u.Next v := by
    rw [List.isChain_append]
    simp [hlast]
  unfold Unbroken
  rw [hchain]
  simp only [List.mem_append, List.mem_singleton, or_imp, forall_and, forall_eq]
  tauto

/-- An element that comes twice in a row comes a third time, unless the list ends there. -/
def Settles {α : Type*} (l : List α) : Prop := ∀ a c, [a, a, c] <:+: l → a = c

theorem settles_append {α : Type*} {l : List α} {c : α} :
    Settles (l ++ [c]) ↔ Settles l ∧ ∀ a, [a, a] <:+ l → a = c := by
  have hlast : ∀ a c', [a, a, c'] <:+ l ++ [c] ↔ c' = c ∧ [a, a] <:+ l := by
    intro a c'
    constructor
    · intro h
      obtain hnil | ⟨front, heq, hsuffix⟩ := List.suffix_concat_iff.mp h
      · cases hnil
      · have hsnoc : [a, a] ++ [c'] = front ++ [c] := heq
        obtain ⟨hfront, hc⟩ := List.append_inj' hsnoc rfl
        exact ⟨List.head_eq_of_cons_eq hc, hfront ▸ hsuffix⟩
    · rintro ⟨rfl, hsuffix⟩
      exact List.suffix_concat_iff.mpr (Or.inr ⟨[a, a], rfl, hsuffix⟩)
  constructor
  · intro h
    refine ⟨fun a c' hinfix => h a c' ?_, fun a hsuffix => h a c ?_⟩
    · exact List.infix_concat_iff.mpr (Or.inr hinfix)
    · exact ((hlast a c).mpr ⟨rfl, hsuffix⟩).isInfix
  · rintro ⟨h, hend⟩ a c' hinfix
    rcases List.infix_concat_iff.mp hinfix with hsuffix | hinfix
    · obtain ⟨rfl, htwice⟩ := (hlast a c').mp hsuffix
      exact hend a htwice
    · exact h a c' hinfix

namespace MatchingEngine

variable {e e' : MatchingEngine} {symbol : String} {update u : MarketDataUpdate}

/-- The number that the last publication for a symbol took. -/
def lastSeq (e : MatchingEngine) (symbol : String) : ℕ := (e.marketDataSeqs.lookup symbol).getD 0

/-- How often a callback is subscribed to a symbol. -/
def subscriptions (e : MatchingEngine) (cb : Subscriber) (symbol : String) : ℕ :=
  ((e.marketDataSubscribers.lookup symbol).getD []).count cb

/-- Between a list of levels and itself there are no changes. -/
theorem computeChanges_self {hashOrder : HashOrder} {v : List (ℚ × ℚ)} :
    computeChanges hashOrder v v = [] := by
  unfold computeChanges
  dsimp only
  rw [List.append_eq_nil_iff, List.filterMap_eq_nil_iff, List.filterMap_eq_nil_iff]
  constructor
  · intro price hprice
    obtain ⟨quantity, hquantity⟩ := mem_prices_keys.mp hprice
    simp [hquantity]
  · intro price hprice
    obtain ⟨quantity, hquantity⟩ := mem_prices_keys.mp hprice
    simp [hquantity]

/-- An INCREMENT is sent only if the levels have changed. -/
theorem changed_of_publication {prev : MarketDataUpdate}
    (hprev : e.lastMarketSnapshot.lookup symbol = some prev)
    (hu : u ∈ e.publication symbol update) : update.levels ≠ e.lastPublished symbol := by
  intro heq
  have hbids : update.bids = prev.bids := by
    rw [lastPublished, hprev] at heq
    exact congrFun heq .buy
  have hasks : update.asks = prev.asks := by
    rw [lastPublished, hprev] at heq
    exact congrFun heq .sell
  unfold publication at hu
  simp only [hprev, hbids, hasks, computeChanges_self, and_self, if_true] at hu
  cases hu

/-- Nothing is published for a symbol. -/
structure Quiet (symbol : String) (e e' : MatchingEngine) : Prop where
  last : e'.lastMarketSnapshot.lookup symbol = e.lastMarketSnapshot.lookup symbol
  seq : e'.lastSeq symbol = e.lastSeq symbol
  received : ∀ cb, e'.received cb symbol = e.received cb symbol
  subscriptions : ∀ cb, e.subscriptions cb symbol ≤ e'.subscriptions cb symbol

theorem SameMarket.quiet (h : e.SameMarket e') (symbol : String) : Quiet symbol e e' where
  last := by rw [h.last]
  seq := by rw [lastSeq, h.seqs]; rfl
  received cb := by rw [MatchingEngine.received, h.updates]; rfl
  subscriptions cb := by
    rw [MatchingEngine.subscriptions, MatchingEngine.subscriptions, h.subscribers]

theorem quiet_subscribeToMarketData (e : MatchingEngine) (symbol symbol' : String)
    (cb : Subscriber) : Quiet symbol e (e.subscribeToMarketData symbol' cb) where
  last := rfl
  seq := rfl
  received _ := rfl
  subscriptions cb' := by
    unfold subscriptions
    by_cases hsymbol : symbol = symbol'
    · subst hsymbol
      simp [subscribeToMarketData, List.count_append]
    · have hlookup : (e.subscribeToMarketData symbol' cb).marketDataSubscribers.lookup symbol =
          e.marketDataSubscribers.lookup symbol := AList.lookup_insert_ne hsymbol
      rw [hlookup]

/-- A publication for another symbol. -/
theorem Publishes.quiet {symbol' : String} (h : Publishes symbol' update e e')
    (hsymbol : update.symbol = symbol') (hne : symbol ≠ symbol') : Quiet symbol e e' := by
  have hsubscriptions (cb : Subscriber) :
      e.subscriptions cb symbol ≤ e'.subscriptions cb symbol := by
    rw [subscriptions, subscriptions, h.subscribers]
  have hseq : e'.lastSeq symbol = e.lastSeq symbol := by
    rw [lastSeq, h.seqs, AList.lookup_insert_ne hne]
    rfl
  cases hu : e.publication symbol' update with
  | none =>
    obtain ⟨hlast, hreceived⟩ := h.idle hu
    exact ⟨by rw [hlast], hseq, fun cb => hreceived cb symbol, hsubscriptions⟩
  | some u =>
    obtain ⟨snapshot, -, -, hlast⟩ := h.last u hu
    have hother : ¬ u.symbol = symbol := fun heq =>
      hne (heq.symm.trans (symbol_publication hsymbol hu))
    refine ⟨by rw [hlast, AList.lookup_insert_ne hne], hseq, fun cb => ?_, hsubscriptions⟩
    rw [h.received u hu cb symbol, if_neg hother, List.replicate_zero, List.append_nil]

end MatchingEngine

namespace System

open MatchingEngine

variable {s t u : System} {event : Event} {events events' : List Event} {symbol : String}
  {cb : Subscriber}

/-- What a step publishes for a symbol, as the call has read it. -/
def publishes (s : System) (symbol : String) : Event → Option MarketDataUpdate
  | .begin _ => none
  | .proceed i =>
    match s.head? i with
    | some (.update symbol' u) => if symbol' = symbol then some u else none
    | _ => none

theorem quiet_step (hp : s.Prepared) (hstep : s.Step event t)
    (h : s.publishes symbol event = none) : Quiet symbol s.engine t.engine := by
  cases hstep with
  | begin hstart =>
    rcases start_market hstart with hs | ⟨symbol', cb, -, rfl⟩
    · exact hs.quiet symbol
    · exact quiet_subscribeToMarketData _ symbol symbol' cb
  | proceed hcall hperform =>
    rcases perform_market hperform with hs | ⟨symbol', u, rfl, rfl⟩
    · exact hs.quiet symbol
    · have hne : symbol ≠ symbol' := by
        rintro rfl
        simp [publishes, head?_of_calls hcall] at h
      obtain ⟨hsymbol, -⟩ := hp.updates symbol' u
        (List.mem_flatten.mpr ⟨_, List.mem_of_getElem? hcall, List.mem_cons_self⟩)
      exact (publishUpdate_publishes s.engine symbol' u).quiet hsymbol hne

theorem publishes_step {update : MarketDataUpdate} (hp : s.Prepared) (hstep : s.Step event t)
    (h : update ∈ s.publishes symbol event) : update.symbol = symbol ∧ update.levels.Sorted ∧
      Publishes symbol update s.engine t.engine := by
  cases hstep with
  | begin hstart => cases h
  | @proceed fuel i task rest tasks e hcall hperform =>
    simp only [publishes, head?_of_calls hcall] at h
    cases task with
    | update symbol' u =>
      dsimp only at h
      split_ifs at h with hsymbol
      · subst hsymbol
        obtain rfl := Option.some.inj h
        obtain ⟨-, rfl⟩ := Prod.mk.inj (Option.some.inj hperform)
        obtain ⟨hsymbol, hsorted, -⟩ := hp.updates symbol' u
          (List.mem_flatten.mpr ⟨_, List.mem_of_getElem? hcall, List.mem_cons_self⟩)
        exact ⟨hsymbol, hsorted, publishUpdate_publishes s.engine symbol' u⟩
      · cases h
    | _ => cases h

/-- If a step finds the levels of a symbol changed, then the last publication was sent. -/
def SentAt (s : System) (symbol : String) (event : Event) : Prop :=
  ∀ update ∈ s.publishes symbol event, update.levels ≠ s.engine.lastPublished symbol →
    ∀ prev ∈ s.engine.lastMarketSnapshot.lookup symbol, prev.seqNum = s.engine.lastSeq symbol

/-- A subscriber who has received all messages of a symbol. -/
structure Hears (cb : Subscriber) (symbol : String) (e : MatchingEngine) : Prop where
  first : e.lastMarketSnapshot.lookup symbol = none → e.received cb symbol = []
  last : ∀ prev ∈ e.lastMarketSnapshot.lookup symbol,
    ∃ u, (e.received cb symbol).getLast? = some u ∧ u.seqNum = prev.seqNum

/-- A step that sends him nothing. -/
theorem Hears.silent {e e' : MatchingEngine} (hh : Hears cb symbol e)
    (hlast : e'.lastMarketSnapshot.lookup symbol = e.lastMarketSnapshot.lookup symbol)
    (hreceived : e'.received cb symbol = e.received cb symbol) : Hears cb symbol e' where
  first := by
    rw [hlast, hreceived]
    exact hh.first
  last := by
    rw [hlast, hreceived]
    exact hh.last

/-- What a step adds to an unbroken feed. -/
theorem unbroken_step (hp : s.Prepared) (hh : Hears cb symbol s.engine)
    (hone : s.engine.subscriptions cb symbol = 1) (hstep : s.Step event t) :
    Hears cb symbol t.engine ∧ (Unbroken (t.engine.received cb symbol) ↔
      Unbroken (s.engine.received cb symbol) ∧ s.SentAt symbol event) := by
  cases hpublishes : s.publishes symbol event with
  | none =>
    obtain ⟨hlast, -, hreceived, -⟩ := quiet_step hp hstep hpublishes
    have hsent : s.SentAt symbol event := fun update hupdate => by
      rw [hpublishes] at hupdate
      cases hupdate
    refine ⟨hh.silent hlast (hreceived ..), ?_⟩
    rw [hreceived]
    exact (and_iff_left hsent).symm
  | some update =>
    obtain ⟨hsymbol, hsorted, hpub⟩ := publishes_step hp hstep hpublishes
    cases hu : s.engine.publication symbol update with
    | none =>
      obtain ⟨hlast, hreceived⟩ := hpub.idle hu
      have hsent : s.SentAt symbol event := fun update' hupdate hchanged => by
        rw [hpublishes] at hupdate
        obtain rfl := Option.some.inj hupdate
        exact absurd (lastPublished_of_publication_none (hp.sorted symbol) hsorted hu).symm hchanged
      refine ⟨hh.silent (congrArg _ hlast) (hreceived ..), ?_⟩
      rw [hreceived]
      exact (and_iff_left hsent).symm
    | some m =>
      obtain ⟨snapshot, -, hsnapshot, hlast⟩ := hpub.last m hu
      have hreceived : t.engine.received cb symbol = s.engine.received cb symbol ++ [m] := by
        have hcount : ((s.engine.marketDataSubscribers.lookup symbol).getD []).count cb = 1 := hone
        rw [hpub.received m hu cb symbol, if_pos (symbol_publication hsymbol hu), hcount]
        rfl
      refine ⟨⟨fun hnone => ?_, fun prev hprev => ?_⟩, ?_⟩
      · rw [hlast, AList.lookup_insert] at hnone
        cases hnone
      · rw [hlast, AList.lookup_insert] at hprev
        obtain rfl := Option.some.inj hprev
        exact ⟨m, by rw [hreceived]; simp, hsnapshot.symm⟩
      · rw [hreceived]
        obtain ⟨hprev, rfl⟩ | ⟨prev, hprev, rfl⟩ := publication_cases hu
        · rw [hh.first hprev, List.nil_append]
          refine iff_of_true ⟨List.isChain_singleton _, fun u hu htype => ?_⟩
            ⟨⟨List.isChain_nil, by simp⟩, fun update' _ _ prev hsome => ?_⟩
          · rw [List.mem_singleton.mp hu] at htype
            cases htype
          · rw [hprev] at hsome
            cases hsome
        · obtain ⟨u, hgetLast, hseq⟩ := hh.last prev hprev
          rw [unbroken_append hgetLast]
          refine and_congr_right fun _ => ?_
          have hchanged := changed_of_publication hprev hu
          have hsent : s.SentAt symbol event ↔ prev.seqNum = s.engine.lastSeq symbol := by
            constructor
            · intro hsent
              exact hsent update hpublishes hchanged prev hprev
            · intro heq update' _ _ prev' hprev'
              rw [hprev] at hprev'
              obtain rfl := Option.some.inj hprev'
              exact heq
          rw [hsent]
          simp only [MarketDataUpdate.Next, hseq, lastSeq, forall_const, and_true,
            decide_eq_false_iff_not, not_not]
          omega

/-- A step, with the levels that it publishes for a symbol. -/
def ReadStep (symbol : String) (s : System) (l : Event × Option Depth) (t : System) : Prop :=
  s.Step l.1 t ∧ l.2 = (s.publishes symbol l.1).map MarketDataUpdate.levels

/-- The levels published for a symbol, one publication after another. -/
def readings (ls : List (Event × Option Depth)) : List Depth := ls.filterMap Prod.snd

/-- What an engine has kept of the levels published so far: the last ones, under their number if
they were sent, and under an older one if the levels before them were the same. -/
structure Keeps (symbol : String) (rs : List Depth) (e : MatchingEngine) : Prop where
  first : rs = [] → e.lastMarketSnapshot.lookup symbol = none
  last : ∀ a, rs.getLast? = some a → e.lastPublished symbol = a ∧
    ∃ prev, e.lastMarketSnapshot.lookup symbol = some prev ∧ prev.seqNum ≤ e.lastSeq symbol ∧
      (prev.seqNum = e.lastSeq symbol ↔ ¬ [a, a] <:+ rs)

theorem subscriptions_step (hp : s.Prepared) (hstep : s.Step event t) :
    s.engine.subscriptions cb symbol ≤ t.engine.subscriptions cb symbol := by
  cases hpublishes : s.publishes symbol event with
  | none => exact (quiet_step hp hstep hpublishes).subscriptions cb
  | some update =>
    obtain ⟨-, -, hpub⟩ := publishes_step hp hstep hpublishes
    rw [subscriptions, subscriptions, hpub.subscribers]

/-- Before the first publication for a symbol nobody has received anything. -/
theorem received_eq_nil_of_run (hrun : Run Step s events t) (hp : s.Prepared)
    (h : s.engine.received cb symbol = [])
    (hfirst : t.engine.lastMarketSnapshot.lookup symbol = none) :
    t.engine.received cb symbol = [] := by
  suffices hboth : t.Prepared ∧ (t.engine.lastMarketSnapshot.lookup symbol = none →
      t.engine.received cb symbol = []) from hboth.2 hfirst
  refine hrun.invariant (fun t => t.Prepared ∧ (t.engine.lastMarketSnapshot.lookup symbol = none →
    t.engine.received cb symbol = [])) ⟨hp, fun _ => h⟩ ?_
  rintro t event u ⟨hp, h⟩ hstep
  refine ⟨hp.step hstep, fun hnone => ?_⟩
  cases hpublishes : t.publishes symbol event with
  | none =>
    obtain ⟨hlast, -, hreceived, -⟩ := quiet_step hp hstep hpublishes
    rw [hreceived]
    exact h (hlast ▸ hnone)
  | some update =>
    obtain ⟨-, -, hpub⟩ := publishes_step hp hstep hpublishes
    cases hu : t.engine.publication symbol update with
    | none =>
      obtain ⟨hlast, hreceived⟩ := hpub.idle hu
      rw [hreceived]
      exact h (hlast ▸ hnone)
    | some m =>
      obtain ⟨snapshot, -, -, hlast⟩ := hpub.last m hu
      rw [hlast, AList.lookup_insert] at hnone
      cases hnone

namespace Keeps

variable {l : Event × Option Depth} {rs : List Depth}

/-- Each publication finds the levels changed only after one that was sent, exactly if the levels
published settle. -/
theorem settles_iff (h : Keeps symbol rs s.engine) (hstep : s.ReadStep symbol l t) :
    Settles (rs ++ l.2.toList) ↔ Settles rs ∧ s.SentAt symbol l.1 := by
  obtain ⟨-, hl⟩ := hstep
  cases hpublishes : s.publishes symbol l.1 with
  | none =>
    have hsent : s.SentAt symbol l.1 := fun update hupdate => by
      rw [hpublishes] at hupdate
      cases hupdate
    rw [hl, hpublishes, Option.map_none, Option.toList_none, List.append_nil]
    exact (and_iff_left hsent).symm
  | some update =>
    rw [hl, hpublishes, Option.map_some, Option.toList_some, settles_append]
    refine and_congr_right fun _ => ?_
    simp only [SentAt, hpublishes, Option.mem_some_iff, forall_eq']
    cases hrs : rs.getLast? with
    | none =>
      have hnil : rs = [] := List.getLast?_eq_none_iff.mp hrs
      rw [h.first hnil, hnil]
      exact iff_of_true (fun a ha => absurd (List.suffix_nil.mp ha) (List.cons_ne_nil _ _))
        fun _ _ hprev => by cases hprev
    | some a =>
      obtain ⟨hlast, prev, hprev, -, hiff⟩ := h.last a hrs
      rw [hlast, hprev]
      constructor
      · intro hsettled hchanged prev' hprev'
        obtain rfl := Option.some.inj hprev'
        exact hiff.mpr fun htwice => hchanged (hsettled a htwice).symm
      · intro hsent a' htwice
        obtain rfl : a' = a := by
          obtain ⟨front, rfl⟩ := htwice
          simpa using hrs
        by_contra hchanged
        exact hiff.mp (hsent (Ne.symm hchanged) prev rfl) htwice

/-- A publication is sent or found the same levels as the one before. -/
theorem step (h : Keeps symbol rs s.engine) (hp : s.Prepared) (hstep : s.ReadStep symbol l t) :
    Keeps symbol (rs ++ l.2.toList) t.engine := by
  obtain ⟨hstep, hl⟩ := hstep
  cases hpublishes : s.publishes symbol l.1 with
  | none =>
    obtain ⟨hlast, hseq, -, -⟩ := quiet_step hp hstep hpublishes
    rw [hl, hpublishes, Option.map_none, Option.toList_none, List.append_nil]
    constructor
    · rw [hlast]
      exact h.first
    · rw [hlast, hseq, lastPublished, hlast]
      exact h.last
  | some update =>
    obtain ⟨hsymbol, hsorted, hpub⟩ := publishes_step hp hstep hpublishes
    have hseq : t.engine.lastSeq symbol = s.engine.lastSeq symbol + 1 := by
      rw [lastSeq, hpub.seqs, AList.lookup_insert]
      rfl
    rw [hl, hpublishes, Option.map_some, Option.toList_some]
    refine ⟨fun hnil => absurd hnil (by simp), fun a ha => ?_⟩
    obtain rfl : update.levels = a := by simpa using ha
    cases hu : s.engine.publication symbol update with
    | none =>
      have hsame := lastPublished_of_publication_none (hp.sorted symbol) hsorted hu
      obtain ⟨prev, hprev⟩ : ∃ prev, s.engine.lastMarketSnapshot.lookup symbol = some prev := by
        refine Option.ne_none_iff_exists'.mp fun hnone => ?_
        rw [publication, hnone] at hu
        cases hu
      have hne : rs ≠ [] := by
        rintro rfl
        rw [h.first rfl] at hprev
        cases hprev
      obtain ⟨front, a, rfl⟩ := (List.eq_nil_or_concat' rs).resolve_left hne
      obtain ⟨hlast, prev', hprev', hle, -⟩ := h.last a (by simp)
      obtain rfl : a = update.levels := hlast.symm.trans hsame
      have hkept := (hpub.idle hu).1
      refine ⟨?_, prev', by rw [hkept, hprev'], by omega, iff_of_false (by omega) ?_⟩
      · rw [lastPublished, hkept]
        exact hsame
      · exact fun hnot => hnot ⟨front, by simp⟩
    | some m =>
      obtain ⟨snapshot, hlevels, hnum, hlast⟩ := hpub.last m hu
      have hm : m.seqNum = t.engine.lastSeq symbol := by
        rw [hseq]
        obtain ⟨-, rfl⟩ | ⟨prev, -, rfl⟩ := publication_cases hu <;> rfl
      refine ⟨?_, snapshot, by rw [hlast, AList.lookup_insert], by omega,
        iff_of_true (by omega) fun htwice => ?_⟩
      · rw [lastPublished, hlast, AList.lookup_insert]
        exact hlevels
      · -- a repetition would not have been sent
        obtain hnil | ⟨one, heq, hsuffix⟩ := List.suffix_concat_iff.mp htwice
        · cases hnil
        · have hsnoc : [update.levels] ++ [update.levels] = one ++ [update.levels] := heq
          obtain ⟨rfl, -⟩ := List.append_inj' hsnoc rfl
          have hrs : rs.getLast? = some update.levels := by
            obtain ⟨front, rfl⟩ := hsuffix
            simp
          obtain ⟨hpublished, prev, hprev, -⟩ := h.last _ hrs
          exact changed_of_publication hprev hu hpublished.symm

end Keeps

/-- The feed and the levels published go together, by induction on the run. -/
theorem unbroken_iff_settles {ls : List (Event × Option Depth)}
    (hrun : Run (ReadStep symbol) s ls t)
    (hp : s.Prepared) (hsubscribed : 0 < s.engine.subscriptions cb symbol)
    (hh : Hears cb symbol s.engine) (hkeeps : Keeps symbol [] s.engine)
    (hempty : s.engine.received cb symbol = [])
    (hone : t.engine.subscriptions cb symbol = 1) :
    Unbroken (t.engine.received cb symbol) ↔ Settles (readings ls) := by
  suffices h : (t.Prepared ∧ 0 < t.engine.subscriptions cb symbol ∧
      Keeps symbol (readings ls) t.engine) ∧ (t.engine.subscriptions cb symbol = 1 →
        Hears cb symbol t.engine ∧
          (Unbroken (t.engine.received cb symbol) ↔ Settles (readings ls))) from (h.2 hone).2
  have hkeeps' : Keeps symbol (readings []) s.engine := hkeeps
  refine hrun.history (fun ls t => (t.Prepared ∧ 0 < t.engine.subscriptions cb symbol ∧
    Keeps symbol (readings ls) t.engine) ∧ (t.engine.subscriptions cb symbol = 1 →
      Hears cb symbol t.engine ∧ (Unbroken (t.engine.received cb symbol) ↔
        Settles (readings ls)))) ⟨⟨hp, hsubscribed, hkeeps'⟩, fun _ => ⟨hh, ?_⟩⟩ ?_
  · rw [hempty]
    exact iff_of_true ⟨List.isChain_nil, by simp⟩
      fun a c hinfix => absurd (List.infix_nil.mp hinfix) (List.cons_ne_nil _ _)
  · rintro ls t l u ⟨⟨hp, hsubscribed, hkeeps⟩, ih⟩ hstep
    have hgrows : t.engine.subscriptions cb symbol ≤ u.engine.subscriptions cb symbol :=
      subscriptions_step hp hstep.1
    have hsnoc : readings (ls ++ [l]) = readings ls ++ l.2.toList := by
      cases hl : l.2 <;> simp [readings, hl]
    rw [hsnoc]
    refine ⟨⟨hp.step hstep.1, by omega, hkeeps.step hp hstep⟩, fun hone => ?_⟩
    have hbefore : t.engine.subscriptions cb symbol = 1 := by omega
    obtain ⟨hh, hiff⟩ := ih hbefore
    obtain ⟨hh', hiff'⟩ := unbroken_step hp hh hbefore hstep.1
    refine ⟨hh', ?_⟩
    rw [hiff', hiff, hkeeps.settles_iff hstep]

/-- **A subscriber who joins before the first publication has an unbroken feed exactly if no
publication that finds the levels as the one before is followed by one that finds them changed.**
Uninterrupted calls are one such run. -/
theorem unbroken_iff {mem : Memory} {hashOrder : HashOrder} {feeModel : Option FeeModel}
    {file : Option (List Json)} {ls : List (Event × Option Depth)}
    (hrun : Run Step ⟨((fresh mem hashOrder feeModel).startWAL file).2, []⟩ events s)
    (hfirst : s.engine.lastMarketSnapshot.lookup symbol = none)
    (hjoin : s.Step (.begin (.subscribeToMarketData symbol cb)) t)
    (hrun' : Run (ReadStep symbol) t ls u)
    (hone : u.engine.subscriptions cb symbol = 1) :
    Unbroken (u.engine.received cb symbol) ↔ Settles (readings ls) := by
  have hp₀ := prepared_fresh mem hashOrder feeModel file
  have hp := hrun.invariant Prepared hp₀ fun _ _ _ hp hstep => hp.step hstep
  have hnone : s.engine.received cb symbol = [] :=
    received_eq_nil_of_run hrun hp₀ (by cases file <;> rfl) hfirst
  have hp' := hp.step hjoin
  cases hjoin with
  | begin hstart =>
    obtain ⟨rfl, rfl⟩ := Prod.mk.inj (Option.some.inj hstart)
    have hsubscribed : 0 < (s.engine.subscribeToMarketData symbol cb).subscriptions cb symbol := by
      simp [subscriptions, MatchingEngine.subscribeToMarketData]
    have hh : Hears cb symbol (s.engine.subscribeToMarketData symbol cb) :=
      ⟨fun _ => hnone,
        fun prev hprev => absurd (hprev.symm.trans hfirst) (Option.some_ne_none prev)⟩
    have hkeeps : Keeps symbol [] (s.engine.subscribeToMarketData symbol cb) :=
      ⟨fun _ => hfirst, fun a ha => by cases ha⟩
    exact unbroken_iff_settles hrun' hp' hsubscribed hh hkeeps hnone hone

/-- A run is followed with the levels that it publishes. -/
def advanceRead (symbol : String) (fuel : ℕ) (s : System) (event : Event) :
    Option ((Event × Option Depth) × System) :=
  (s.advance fuel event).map fun t =>
    ((event, (s.publishes symbol event).map MarketDataUpdate.levels), t)

theorem readStep_of_advance {fuel : ℕ} {l : Event × Option Depth}
    (h : advanceRead symbol fuel s event = some (l, t)) : s.ReadStep symbol l t := by
  obtain ⟨u, hu, heq⟩ := Option.map_eq_some_iff.mp h
  obtain ⟨rfl, rfl⟩ := Prod.mk.inj heq
  exact ⟨step_of_advance hu, rfl⟩

/-- Two sell orders that rest one after another. -/
theorem unbroken_iff_resting : ∃ u : System, (u.engine.received 7 "S").length = 2 ∧
    Unbroken (u.engine.received 7 "S") := by
  let first : System := ⟨fresh .empty .plain none, []⟩
  let joined := first.advance 3 (.begin (.subscribeToMarketData "S" 7))
  let final (t : System) := Run.exec (advanceRead "S" 3) t [
    .begin (.submit true ⟨"a", "S", .sell, .limit, 101, 1⟩), .proceed 1, .proceed 1,
    .begin (.submit true ⟨"b", "S", .sell, .limit, 102, 1⟩), .proceed 2, .proceed 2]
  have hsome : (joined.bind fun t => (final t).map fun p =>
      decide (p.2.engine.subscriptions 7 "S" = 1 ∧ (p.2.engine.received 7 "S").length = 2 ∧
        (readings p.1).length = 2)) = some true := by
    decide +kernel
  obtain ⟨t, ht, hrest⟩ := Option.bind_eq_some_iff.mp hsome
  obtain ⟨⟨ls, u⟩, hfinal, hseen⟩ := Option.map_eq_some_iff.mp hrest
  obtain ⟨hone, hlength, hreadings⟩ := of_decide_eq_true hseen
  have hrun : Run (ReadStep "S") t ls u :=
    Run.of_exec (fun _ _ _ _ => readStep_of_advance) hfinal
  refine ⟨u, hlength, ?_⟩
  apply (@unbroken_iff first t u [] "S" 7 .empty .plain none none ls .nil rfl
    (step_of_advance ht) hrun hone).mpr
  -- two readings are too few to settle and change again
  intro a c hinfix
  have hle := hinfix.length_le
  rw [hreadings] at hle
  simp at hle

/-- An order that matches nothing takes a number; the next message reports a gap. -/
theorem gap_of_ineffective : ∃ (u : MatchingEngine) (calls : List Call),
    Run CallStep ((fresh .empty .plain none).subscribeToMarketData "S" 7) calls u ∧
      u.subscriptions 7 "S" = 1 ∧ ¬ Unbroken (u.received 7 "S") := by
  let final := Run.exec (fun (e : MatchingEngine) c => (e.call 3 c).map (c, ·))
    ((fresh .empty .plain none).subscribeToMarketData "S" 7) [
      .submit true ⟨"a", "S", .sell, .limit, 101, 1⟩,
      .submit true ⟨"b", "S", .buy, .ioc, 100, 1⟩,
      .submit true ⟨"c", "S", .sell, .limit, 102, 1⟩]
  have hsome : (final.map fun p => decide (p.2.subscriptions 7 "S" = 1 ∧
      ¬ Unbroken (p.2.received 7 "S"))) = some true := by
    decide +kernel
  obtain ⟨⟨calls, u⟩, hfinal, hseen⟩ := Option.map_eq_some_iff.mp hsome
  obtain ⟨hone, hbroken⟩ := of_decide_eq_true hseen
  exact ⟨u, calls, calls_of_exec hfinal, hone, hbroken⟩

end System

end GoQuant
