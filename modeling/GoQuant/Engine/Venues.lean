import GoQuant.Book.Proper
import GoQuant.Engine.Exchange

/-!
# Ids on an exchange

On an exchange every id is in use once: by an order on a ladder, or by one that waits. Every step
keeps it so, as long as an order is submitted under an id that is not in use. What a step does is
said once here: it matches some orders one after another, or has one request look at all ladders.

## Main definitions

* `Venue.Sound` — proper ladders, and ids in use once.
* `Venue.orders` — the orders that a step matches.

## Main results

* `Venue.Sound.induct`, `Venue.Sound.keeps` — a step, cut into matches.
* `System.soundRun` — the steps of an engine are such steps.
-/

namespace GoQuant

open MatchingAlgorithm

namespace Venue

/-- The request of an event that is about an id. -/
def Event.request? : Event → Option Request
  | .call (.cancel orderId) _ => some (.cancel orderId)
  | .call (.modify orderId newQuantity) _ => some (.modify orderId newQuantity)
  | _ => none

/-- The order that an event brings to an exchange. -/
def Event.submitted? : Event → Option Order
  | .call (.submit true o) _ => some o
  | _ => none

/-- The orders that an event has matched. -/
def orders (v : Venue) : Event → List Order
  | .call (.submit true o) _ => if o.type.isTrigger then [] else [o]
  | .check symbol price =>
    ((v.waiting symbol).filter fun o => o.Due price).map MatchingEngine.activeOrder
  | _ => []

/-- The exchange while these orders are in hand: they have stopped waiting, and are not matched
yet. -/
def prepare (v : Venue) : Event → Venue
  | .call (.submit true o) _ => if o.type.isTrigger then v.await o else v
  | .check symbol price =>
    { v with
      waiting := Function.update v.waiting symbol
        ((v.waiting symbol).filter fun o => ¬ o.Due price) }
  | _ => v

/-- The ids on a ladder, best price first and by arrival. -/
def line (v : Venue) (symbol : String) (side : Side) : List String :=
  Greedy.line (v.ladders symbol) side

/-- An id is in use for a symbol. -/
def Carries (v : Venue) (symbol id : String) : Prop :=
  (∃ side, id ∈ v.line symbol side) ∨ ∃ o ∈ v.waiting symbol, o.id = id

/-- Proper ladders, on which and beside which every id is in use once. -/
structure Sound (v : Venue) : Prop where
  proper : ∀ symbol, Greedy.Proper (v.ladders symbol)
  waits : ∀ symbol, ∀ o ∈ v.waiting symbol, o.symbol = symbol ∧ 0 < o.quantity
  single : ∀ symbol, ((v.waiting symbol).map Order.id).Nodup
  unnamed : ∀ symbol, ∀ o ∈ v.waiting symbol, ∀ side, o.id ∉ v.line symbol side
  apart : ∀ symbol side id, id ∈ v.line symbol side → id ∉ v.line symbol side.opposite
  exclusive : ∀ id symbol symbol', v.Carries symbol id → v.Carries symbol' id → symbol = symbol'

/-- Orders in hand: their ids are not in use, and no two of them have the same. -/
structure Hand (v : Venue) (os : List Order) : Prop where
  positive : ∀ o ∈ os, 0 < o.quantity
  distinct : (os.map Order.id).Nodup
  unused : ∀ o ∈ os, ∀ symbol, ¬ v.Carries symbol o.id

/-- The events for which that is kept. -/
def Admits (v : Venue) (l : Event) : Prop :=
  (∀ o, l.submitted? = some o → (o.type.Matchable ∨ o.type.isTrigger) ∧ 0 < o.quantity ∧
    ∀ symbol, ¬ v.Carries symbol o.id) ∧
  ∀ orderId newQuantity, l.request? = some (.modify orderId newQuantity) → 0 < newQuantity

/-- A step for which that is kept. -/
def SoundStep (v : Venue) (l : Event) (u : Venue) : Prop := v.Admits l ∧ Step v l u

variable {v w u : Venue} {o : Order} {os : List Order} {symbol id : String} {side : Side}
  {l : Event} {req : Request} {price : ℚ} {waiting : String → List Order}
  {due : Multiset (String × ℚ)}

theorem Hand.apart (h : v.Hand (o :: os)) : ∀ x ∈ os, x.id ≠ o.id :=
  fun _ hx heq => (List.nodup_cons.mp h.distinct).1 (heq ▸ List.mem_map_of_mem hx)

theorem Hand.one (hq : 0 < o.quantity) (hid : ∀ symbol, ¬ v.Carries symbol o.id) : v.Hand [o] where
  positive := by simpa using hq
  distinct := List.nodup_singleton _
  unused := by simpa using hid

/-! ## One order -/

theorem ladders_submit_self : (v.submit o).ladders o.symbol =
    Greedy.after o (v.ladders o.symbol) :=
  Function.update_self ..

theorem ladders_submit_of_ne (hs : symbol ≠ o.symbol) :
    (v.submit o).ladders symbol = v.ladders symbol :=
  Function.update_of_ne hs ..

theorem waiting_await_self : (v.await o).waiting o.symbol = v.waiting o.symbol ++ [o] :=
  Function.update_self ..

theorem waiting_await_of_ne (hs : symbol ≠ o.symbol) :
    (v.await o).waiting symbol = v.waiting symbol :=
  Function.update_of_ne hs ..

theorem mem_line_submit (h : v.Sound) (hid : id ∈ (v.submit o).line symbol side) :
    id ∈ v.line symbol side ∨ symbol = o.symbol ∧ side = o.side ∧ id = o.id := by
  by_cases hs : symbol = o.symbol
  · subst hs
    rw [line, ladders_submit_self] at hid
    exact (Greedy.mem_line_after (h.proper _) hid).imp_right fun hnew => ⟨rfl, hnew⟩
  · rw [line, ladders_submit_of_ne hs] at hid
    exact Or.inl hid

theorem carries_submit (h : v.Sound) (hid : (v.submit o).Carries symbol id) :
    v.Carries symbol id ∨ symbol = o.symbol ∧ id = o.id := by
  rcases hid with ⟨side, hside⟩ | hwaits
  · exact (mem_line_submit h hside).imp (fun hold => Or.inl ⟨side, hold⟩) fun hnew =>
      ⟨hnew.1, hnew.2.2⟩
  · exact Or.inl (Or.inr hwaits)

namespace Sound

/-- An order is matched whose id is not in use. -/
theorem submit (h : v.Sound) (hid : ∀ symbol, ¬ v.Carries symbol o.id) : (v.submit o).Sound where
  proper symbol := by
    by_cases hs : symbol = o.symbol
    · subst hs
      rw [ladders_submit_self]
      exact Greedy.proper_after (h.proper _) fun hin => hid o.symbol (Or.inl ⟨o.side, hin⟩)
    · rw [ladders_submit_of_ne hs]
      exact h.proper symbol
  waits := h.waits
  single := h.single
  unnamed symbol o' ho' side hin := by
    rcases mem_line_submit h hin with hold | ⟨rfl, -, heq⟩
    · exact h.unnamed symbol o' ho' side hold
    · exact hid o.symbol (Or.inr ⟨o', ho', heq⟩)
  apart symbol side id hin hin' := by
    rcases mem_line_submit h hin with hold | ⟨rfl, rfl, rfl⟩
    · rcases mem_line_submit h hin' with hold' | ⟨-, -, rfl⟩
      · exact h.apart symbol side id hold hold'
      · exact hid symbol (Or.inl ⟨side, hold⟩)
    · rcases mem_line_submit h hin' with hold' | ⟨-, hside, -⟩
      · exact hid o.symbol (Or.inl ⟨_, hold'⟩)
      · exact Side.opposite_ne _ hside
  exclusive id symbol symbol' hin hin' := by
    rcases carries_submit h hin with hold | ⟨rfl, rfl⟩
    · rcases carries_submit h hin' with hold' | ⟨-, rfl⟩
      · exact h.exclusive id symbol symbol' hold hold'
      · exact absurd hold (hid symbol)
    · rcases carries_submit h hin' with hold' | ⟨rfl, -⟩
      · exact absurd hold' (hid symbol')
      · rfl

/-- An order is matched, and the others stay in hand. -/
theorem hand (h : v.Sound) (hand : v.Hand (o :: os)) :
    (v.submit o).Sound ∧ (v.submit o).Hand os := by
  obtain ⟨ho, hos⟩ := List.forall_mem_cons.mp hand.unused
  refine ⟨h.submit ho, ⟨fun x hx => hand.positive x (List.mem_cons_of_mem o hx),
    (List.nodup_cons.mp hand.distinct).2, fun x hx symbol hin => ?_⟩⟩
  rcases carries_submit h hin with hold | ⟨-, heq⟩
  · exact hos x hx symbol hold
  · exact hand.apart x hx heq

/-- Orders are matched one after another, by induction on the orders that are still in hand. -/
theorem foldl_submit {P : List Order → Venue → Prop} (h : v.Sound) (hand : v.Hand os)
    (hP : ∀ (w : Venue) (o : Order) (rest : List Order), (o :: rest) <:+ os → w.Sound →
      w.Hand (o :: rest) → P (o :: rest) w → P rest (w.submit o))
    (hv : P os v) : (os.foldl Venue.submit v).Sound ∧ P [] (os.foldl Venue.submit v) := by
  induction os generalizing v with
  | nil => exact ⟨h, hv⟩
  | cons o os ih =>
    obtain ⟨hnext, hrest⟩ := h.hand hand
    exact ih hnext hrest
      (fun w x rest hsuffix => hP w x rest (hsuffix.trans (List.suffix_cons o os)))
      (hP v o os (List.suffix_refl _) h hand hv)

/-! ## One step -/

/-- A trigger order joins those that wait. -/
theorem await (h : v.Sound) (hq : 0 < o.quantity)
    (hid : ∀ symbol, ¬ v.Carries symbol o.id) : (v.await o).Sound := by
  have hwaiting {symbol : String} {o' : Order} (ho' : o' ∈ (v.await o).waiting symbol) :
      o' ∈ v.waiting symbol ∨ symbol = o.symbol ∧ o' = o := by
    by_cases hs : symbol = o.symbol
    · subst hs
      rw [waiting_await_self, List.mem_append, List.mem_singleton] at ho'
      exact ho'.imp_right fun heq => ⟨rfl, heq⟩
    · rw [waiting_await_of_ne hs] at ho'
      exact Or.inl ho'
  have hcarries {symbol id : String} (hin : (v.await o).Carries symbol id) :
      v.Carries symbol id ∨ symbol = o.symbol ∧ id = o.id := by
    rcases hin with hline | ⟨o', ho', rfl⟩
    · exact Or.inl (Or.inl hline)
    · rcases hwaiting ho' with hold | ⟨rfl, rfl⟩
      · exact Or.inl (Or.inr ⟨o', hold, rfl⟩)
      · exact Or.inr ⟨rfl, rfl⟩
  exact {
    proper := h.proper
    waits := fun symbol o' ho' => by
      rcases hwaiting ho' with hold | ⟨rfl, rfl⟩
      · exact h.waits symbol o' hold
      · exact ⟨rfl, hq⟩
    single := fun symbol => by
      by_cases hs : symbol = o.symbol
      · subst hs
        rw [waiting_await_self, List.map_append, List.map_singleton, List.nodup_append]
        refine ⟨h.single _, List.nodup_singleton _, fun id hin id' hin' => ?_⟩
        obtain ⟨o', ho', rfl⟩ := List.mem_map.mp hin
        obtain rfl := List.mem_singleton.mp hin'
        exact fun heq => hid o.symbol (Or.inr ⟨o', ho', heq⟩)
      · rw [waiting_await_of_ne hs]
        exact h.single symbol
    unnamed := fun symbol o' ho' side hin => by
      rcases hwaiting ho' with hold | ⟨rfl, rfl⟩
      · exact h.unnamed symbol o' hold side hin
      · exact hid o'.symbol (Or.inl ⟨side, hin⟩)
    apart := h.apart
    exclusive := fun id symbol symbol' hin hin' => by
      rcases hcarries hin with hold | ⟨rfl, rfl⟩
      · rcases hcarries hin' with hold' | ⟨-, rfl⟩
        · exact h.exclusive id symbol symbol' hold hold'
        · exact absurd hold (hid symbol)
      · rcases hcarries hin' with hold' | ⟨rfl, -⟩
        · exact absurd hold' (hid symbol')
        · rfl }

/-- Fewer orders on the ladders, and fewer that wait. -/
theorem less (h : v.Sound) (hproper : ∀ symbol, Greedy.Proper (u.ladders symbol))
    (hline : ∀ symbol side, u.line symbol side ⊆ v.line symbol side)
    (hwaiting : ∀ symbol, (u.waiting symbol).Sublist (v.waiting symbol)) : u.Sound := by
  have hcarries {symbol id : String} : u.Carries symbol id → v.Carries symbol id :=
    Or.imp (fun ⟨side, hin⟩ => ⟨side, hline symbol side hin⟩)
      fun ⟨o, ho, hid⟩ => ⟨o, (hwaiting symbol).subset ho, hid⟩
  exact {
    proper := hproper
    waits := fun symbol o ho => h.waits symbol o ((hwaiting symbol).subset ho)
    single := fun symbol => (h.single symbol).sublist ((hwaiting symbol).map Order.id)
    unnamed := fun symbol o ho side hin =>
      h.unnamed symbol o ((hwaiting symbol).subset ho) side (hline symbol side hin)
    apart := fun symbol side id hin hin' =>
      h.apart symbol side id (hline symbol side hin) (hline symbol _ hin')
    exclusive := fun id symbol symbol' hin hin' =>
      h.exclusive id symbol symbol' (hcarries hin) (hcarries hin') }

theorem all (h : v.Sound) (hreq : ∀ o, req ≠ .submit o)
    (hq : ∀ orderId q, req = .modify orderId q → 0 < q) : (v.all req).Sound :=
  h.less (fun symbol => Greedy.proper_call (h.proper symbol) hreq hq)
    (fun symbol side => (Greedy.line_call (h.proper symbol) hreq side).subset)
    fun _ => List.Sublist.refl _

/-- The orders that a price calls are in hand. -/
theorem release (h : v.Sound) (symbol : String) (price : ℚ) :
    (v.prepare (.check symbol price)).Sound ∧
      (v.prepare (.check symbol price)).Hand (v.orders (.check symbol price)) := by
  have hsub (s : String) : ((v.prepare (.check symbol price)).waiting s).Sublist
      (v.waiting s) := by
    by_cases hs : s = symbol
    · subst hs
      simp only [prepare, Function.update_self]
      exact List.filter_sublist
    · simp only [prepare, Function.update_of_ne hs]
      exact List.Sublist.refl _
  refine ⟨h.less h.proper (fun _ _ => List.Subset.refl _) hsub, fun o ho => ?_, ?_, ?_⟩
  · obtain ⟨o', ho', rfl⟩ := List.mem_map.mp ho
    rw [(History.converts_activeOrder o').quantity]
    exact (h.waits symbol o' (List.mem_of_mem_filter ho')).2
  · have hids : Order.id ∘ MatchingEngine.activeOrder = Order.id :=
      funext MatchingEngine.activeOrder_id
    rw [orders, List.map_map, hids]
    exact (h.single symbol).sublist (List.filter_sublist.map Order.id)
  · intro o ho s hin
    obtain ⟨o', ho', rfl⟩ := List.mem_map.mp ho
    obtain ⟨hwaits, hcalled⟩ := List.mem_filter.mp ho'
    rw [MatchingEngine.activeOrder_id] at hin
    have hcarries : v.Carries symbol o'.id := Or.inr ⟨o', hwaits, rfl⟩
    rcases hin with ⟨side, hline⟩ | ⟨o'', ho'', hid⟩
    · obtain rfl := h.exclusive _ _ _ hcarries (Or.inl ⟨side, hline⟩)
      exact h.unnamed symbol o' hwaits side hline
    · obtain rfl := h.exclusive _ _ _ hcarries (Or.inr ⟨o'', (hsub s).subset ho'', hid⟩)
      simp only [prepare, Function.update_self] at ho''
      obtain ⟨hwaits', hleft⟩ := List.mem_filter.mp ho''
      obtain rfl := List.inj_on_of_nodup_map (h.single symbol) hwaits' hwaits hid
      simp [hcalled] at hleft

end Sound

/-- Matching does not look at the orders that wait. -/
theorem foldl_submit_waiting (os : List Order) (v : Venue) (waiting : String → List Order) :
    os.foldl submit { v with waiting := waiting } =
      { os.foldl submit v with waiting := waiting } := by
  induction os generalizing v with
  | nil => rfl
  | cons o os ih => exact ih (v.submit o)

/-- A step, cut into matches: `P` speaks of the orders in hand and of the exchange, but not of the
prices that are due. -/
theorem Sound.induct {P : List Order → Venue → Prop} (h : v.Sound) (hstep : SoundStep v l u)
    (hdue : ∀ (w : Venue) due, P [] w → P [] { w with due := due })
    (hstart : P (v.orders l) (v.prepare l))
    (hsubmit : ∀ (w : Venue) (o : Order) (rest : List Order), (o :: rest) <:+ v.orders l →
      w.Sound → w.Hand (o :: rest) → P (o :: rest) w → P rest (w.submit o))
    (hall : ∀ req, l.request? = some req → P [] (v.all req)) : u.Sound ∧ P [] u := by
  obtain ⟨⟨hnew, hmodify⟩, hstep⟩ := hstep
  cases hstep with
  | @call _ c a hserve =>
    cases c with
    | submit tryAcceptOrder o =>
      cases tryAcceptOrder with
      | false =>
        obtain ⟨-, rfl⟩ := Prod.mk.inj hserve
        exact ⟨h, hstart⟩
      | true =>
        obtain ⟨-, hq, hid⟩ := hnew o rfl
        simp only [serve, if_true] at hserve
        split_ifs at hserve with htrigger
        · obtain ⟨-, rfl⟩ := Prod.mk.inj hserve
          rw [orders, if_pos htrigger, prepare, if_pos htrigger] at hstart
          exact ⟨h.await hq hid, hstart⟩
        · obtain ⟨-, rfl⟩ := Prod.mk.inj hserve
          rw [orders, if_neg htrigger, prepare, if_neg htrigger] at hstart
          rw [orders, if_neg htrigger] at hsubmit
          have hsound := h.submit hid
          have hlast := hsubmit v o [] (List.suffix_refl _) h (.one hq hid) hstart
          exact ⟨⟨hsound.proper, hsound.waits, hsound.single, hsound.unnamed, hsound.apart,
            hsound.exclusive⟩, hdue _ _ hlast⟩
    | cancel orderId =>
      obtain ⟨-, rfl⟩ := Prod.mk.inj hserve
      refine ⟨h.all (fun o heq => ?_) (fun _ _ heq => ?_), hall _ rfl⟩ <;> cases heq
    | modify orderId newQuantity =>
      obtain ⟨-, rfl⟩ := Prod.mk.inj hserve
      refine ⟨h.all (fun o heq => ?_) (fun id q heq => ?_), hall _ rfl⟩
      · cases heq
      · exact hmodify id q (congrArg some heq)
    | subscribeToMarketData symbol callback =>
      obtain ⟨-, rfl⟩ := Prod.mk.inj hserve
      exact ⟨h, hstart⟩
    | subscribeToTrades symbol callback =>
      obtain ⟨-, rfl⟩ := Prod.mk.inj hserve
      exact ⟨h, hstart⟩
  | @check symbol price hdue' =>
    obtain ⟨hsound, hhand⟩ := h.release symbol price
    obtain ⟨hfold, hP⟩ := hsound.foldl_submit hhand hsubmit hstart
    rw [prepare, foldl_submit_waiting] at hfold hP
    exact ⟨⟨hfold.proper, hfold.waits, hfold.single, hfold.unnamed, hfold.apart,
      hfold.exclusive⟩, hdue _ (v.check symbol price).due hP⟩

/-- What has nothing to do with the orders that wait, and is kept by every match and every
request. -/
theorem Sound.keeps {P : Venue → Prop} (h : v.Sound) (hstep : SoundStep v l u)
    (hidle : ∀ (w : Venue) waiting due, P w → P { w with waiting := waiting, due := due })
    (hsubmit : ∀ w : Venue, ∀ o ∈ v.orders l, w.Sound → (∀ symbol, ¬ w.Carries symbol o.id) →
      P w → P (w.submit o))
    (hall : ∀ req, l.request? = some req → P (v.all req)) (hv : P v) : P u := by
  refine (h.induct (P := fun _ w => P w) hstep (fun w due => hidle w w.waiting due) ?_
    (fun w o rest hsuffix hw hand => hsubmit w o (hsuffix.subset List.mem_cons_self) hw
      (hand.unused o List.mem_cons_self))
    hall).2
  unfold prepare
  split
  · split_ifs
    · exact hidle v _ v.due hv
    · exact hv
  · exact hidle v _ v.due hv
  · exact hv

/-- Who waits has waited before, or has just been submitted. -/
theorem Step.mem_waiting (h : Step v l u) {symbol : String} (ho : o ∈ u.waiting symbol) :
    o ∈ v.waiting symbol ∨ l.submitted? = some o ∧ o.type.isTrigger ∧ symbol = o.symbol := by
  cases h with
  | @call _ c a hserve =>
    cases c with
    | submit tryAcceptOrder o' =>
      cases tryAcceptOrder with
      | false =>
        obtain ⟨-, rfl⟩ := Prod.mk.inj hserve
        exact Or.inl ho
      | true =>
        simp only [serve, if_true] at hserve
        split_ifs at hserve with htrigger
        · obtain ⟨-, rfl⟩ := Prod.mk.inj hserve
          by_cases hs : symbol = o'.symbol
          · subst hs
            rw [waiting_await_self, List.mem_append, List.mem_singleton] at ho
            rcases ho with hold | rfl
            · exact Or.inl hold
            · exact Or.inr ⟨rfl, htrigger, rfl⟩
          · rw [waiting_await_of_ne hs] at ho
            exact Or.inl ho
        · obtain ⟨-, rfl⟩ := Prod.mk.inj hserve
          exact Or.inl ho
    | _ =>
      obtain ⟨-, rfl⟩ := Prod.mk.inj hserve
      exact Or.inl ho
  | @check symbol' price hdue =>
    left
    by_cases hs : symbol = symbol'
    · subst hs
      simp only [Venue.check, Function.update_self] at ho
      exact List.mem_of_mem_filter ho
    · simp only [Venue.check, Function.update_of_ne hs] at ho
      exact ho

/-- The orders that a step matches have waited before, or have just been submitted. -/
theorem mem_orders (ho : o ∈ v.orders l) : l.submitted? = some o ∨
    ∃ symbol, ∃ o' ∈ v.waiting symbol, o = MatchingEngine.activeOrder o' := by
  unfold orders at ho
  split at ho
  · split_ifs at ho
    · cases ho
    · obtain rfl := List.mem_singleton.mp ho
      exact Or.inl rfl
  · rename_i symbol price
    obtain ⟨o', ho', rfl⟩ := List.mem_map.mp ho
    exact Or.inr ⟨symbol, o', List.mem_of_mem_filter ho', rfl⟩
  · cases ho

/-- Every step keeps the exchange sound. -/
theorem Sound.step (h : v.Sound) (hstep : SoundStep v l u) : u.Sound :=
  (h.induct (P := fun _ _ => True) hstep (fun _ _ _ => trivial) trivial
    (fun _ _ _ _ _ _ _ => trivial) (fun _ _ => trivial)).1

end Venue

namespace MatchingEngine

variable {e : MatchingEngine} {symbol id : String} {c : Call} {a : CallResult}

theorem Orderly.carries_iff (h : e.Orderly) (due : Multiset (String × ℚ)) :
    (e.venue due).Carries symbol id ↔ e.Carries symbol id := by
  have hline : (∃ side, id ∈ (e.venue due).line symbol side) ↔
      ∃ side, ∃ o ∈ Ladder.items ((e.book symbol).ladder e.mem side), o.id = id :=
    exists_congr fun _ => List.mem_map
  rw [Venue.Carries, hline, Carries, OrderBook.Names, ← (h.wellFormed symbol).hasOrder_iff,
    (h.wellFormed symbol).hasOrder_iff_ladder, or_self]
  rfl

/-- What an orderly engine holds is a sound exchange. -/
theorem Orderly.sound (h : e.Orderly) (due : Multiset (String × ℚ)) : (e.venue due).Sound where
  proper symbol := (h.wellFormed symbol).proper
  waits symbol o ho := by
    obtain ⟨ord, hord, rfl⟩ := List.mem_map.mp ho
    exact ⟨(h.labelled.pending symbol ord hord).2, h.positive symbol _ ho⟩
  single := h.single
  unnamed symbol o ho side hin := by
    obtain ⟨o', ho', hid⟩ := List.mem_map.mp hin
    exact h.unnamed symbol o ho (Or.inl ((h.wellFormed symbol).hasOrder_iff_ladder.mpr
      ⟨side, o', ho', hid⟩))
  apart symbol side id hin hin' := by
    obtain ⟨o, ho, rfl⟩ := List.mem_map.mp hin
    obtain ⟨o', ho', hid⟩ := List.mem_map.mp hin'
    have hwell := h.wellFormed symbol
    change o ∈ Ladder.items ((e.book symbol).ladder e.mem side) at ho
    change o' ∈ Ladder.items ((e.book symbol).ladder e.mem side.opposite) at ho'
    rw [items_ladder] at ho ho'
    obtain ⟨r, hr, rfl⟩ := List.mem_map.mp ho
    obtain ⟨r', hr', rfl⟩ := List.mem_map.mp ho'
    have hrests := OrderBook.rests_iff.mpr ⟨side, hr⟩
    have hrests' := OrderBook.rests_iff.mpr ⟨side.opposite, hr'⟩
    obtain rfl : r' = r := hwell.eq_of_id hrests' (hwell.found r hrests) hid
    have hside := hwell.toSane.side_of_mem hr
    have hside' := hwell.toSane.side_of_mem hr'
    exact Side.opposite_ne side (hside'.symm.trans hside)
  exclusive id symbol symbol' hin hin' :=
    h.exclusive id symbol symbol' ((h.carries_iff due).mp hin) ((h.carries_iff due).mp hin')

theorem Orderly.admits (h : e.Orderly) (due : Multiset (String × ℚ)) (hc : e.Clean c)
    (a : CallResult) : (e.venue due).Admits (.call c a) := by
  refine ⟨fun o ho => ?_, fun orderId newQuantity hmodify => ?_⟩
  · cases c with
    | submit tryAcceptOrder o' =>
      cases tryAcceptOrder with
      | false => cases ho
      | true =>
        obtain rfl := Option.some.inj ho
        exact ⟨hc.1, hc.2.1, fun symbol hin => hc.2.2 symbol ((h.carries_iff due).mp hin)⟩
    | cancel orderId => cases ho
    | modify orderId newQuantity => cases ho
    | subscribeToMarketData symbol callback => cases ho
    | subscribeToTrades symbol callback => cases ho
  · cases c with
    | modify orderId' newQuantity' =>
      cases hmodify
      exact hc
    | submit tryAcceptOrder o => cases tryAcceptOrder <;> cases hmodify
    | cancel orderId => cases hmodify
    | subscribeToMarketData symbol callback => cases hmodify
    | subscribeToTrades symbol callback => cases hmodify

end MatchingEngine

namespace System

/-- The order that a call brings to the engine. -/
def Event.submitted? : Event → Option Order
  | .begin (.submit true o) => some o
  | _ => none

variable {s t : System} {l : Event × List Venue.Event} {ls : List (Event × List Venue.Event)}

/-- A step of the engine is at most one step of the exchange. -/
theorem CleanStep.sound (h : s.CleanStep l t) (hs : s.engine.Orderly) :
    Run Venue.SoundStep (s.engine.venue s.due) l.2 (t.engine.venue t.due) := by
  obtain ⟨-, hrun⟩ := h.venue hs
  obtain ⟨event, shown⟩ := l
  obtain ⟨-, hclean, hshows⟩ := h
  cases event with
  | begin c =>
    obtain ⟨fuel, a, -, rfl⟩ := hshows
    obtain ⟨v, hstep, hnil⟩ := Run.cons_iff.mp hrun
    rw [Run.nil_iff.mp hnil]
    exact .one ⟨hs.admits _ (hclean c (List.mem_singleton_self c)) a, hstep⟩
  | proceed i =>
    have hshown : shown = (s.checks (.proceed i)).toList.map fun p => .check p.1 p.2 := hshows
    cases hchecks : s.checks (.proceed i) with
    | none =>
      obtain rfl : shown = [] := by rw [hshown, hchecks]; rfl
      rw [Run.nil_iff.mp hrun]
      exact .nil
    | some p =>
      obtain rfl : shown = [.check p.1 p.2] := by rw [hshown, hchecks]; rfl
      obtain ⟨v, hstep, hnil⟩ := Run.cons_iff.mp hrun
      rw [Run.nil_iff.mp hnil]
      refine .one ⟨⟨fun o ho => ?_, fun orderId newQuantity hreq => ?_⟩, hstep⟩
      · cases ho
      · cases hreq

/-- The orders that a step brings to the exchange are submitted in it. -/
theorem CleanStep.submitted (h : s.CleanStep l t) {x : Venue.Event} (hx : x ∈ l.2) {o : Order}
    (ho : x.submitted? = some o) : l.1.submitted? = some o := by
  obtain ⟨event, shown⟩ := l
  obtain ⟨-, -, hshows⟩ := h
  cases event with
  | begin c =>
    obtain ⟨fuel, a, -, rfl⟩ := hshows
    obtain rfl := List.mem_singleton.mp hx
    unfold Venue.Event.submitted? at ho
    split at ho
    · rename_i heq
      cases heq
      obtain rfl := Option.some.inj ho
      rfl
    · cases ho
  | proceed i =>
    have hshown : shown = (s.checks (.proceed i)).toList.map fun p => .check p.1 p.2 := hshows
    subst hshown
    obtain ⟨p, -, rfl⟩ := List.mem_map.mp hx
    cases ho

/-- And so it is in a run. -/
theorem submitted_of_run (h : Run CleanStep s ls t) {x : Venue.Event}
    (hx : x ∈ ls.flatMap Prod.snd) {o : Order} (ho : x.submitted? = some o) :
    ∃ l ∈ ls, l.1.submitted? = some o := by
  refine h.history (fun ls _ => x ∈ ls.flatMap Prod.snd → ∃ l ∈ ls, l.1.submitted? = some o)
    (fun hx => absurd hx List.not_mem_nil) ?_ hx
  intro ls s l t ih hstep hx
  rw [List.flatMap_append, List.mem_append] at hx
  rcases hx with hold | hnew
  · obtain ⟨l', hl', hevent⟩ := ih hold
    exact ⟨l', List.mem_append_left _ hl', hevent⟩
  · rw [List.flatMap_singleton] at hnew
    exact ⟨l, List.mem_append_right _ List.mem_cons_self, hstep.submitted hnew ho⟩

/-- The steps of an engine are steps of a sound exchange. -/
theorem soundRun (h : Run CleanStep s ls t) (hs : s.engine.Orderly) :
    Run Venue.SoundStep (s.engine.venue s.due) (ls.flatMap Prod.snd) (t.engine.venue t.due) ∧
      t.engine.Orderly := by
  obtain ⟨v, hrun, rfl, ht⟩ := h.simulates
    (fun s v => s.engine.venue s.due = v ∧ s.engine.Orderly) Prod.snd
    (by
      rintro s l t v ⟨rfl, hs⟩ hstep
      exact ⟨_, hstep.sound hs, rfl, hstep.orderly hs⟩)
    ⟨rfl, hs⟩
  exact ⟨hrun, ht⟩

end System

end GoQuant
