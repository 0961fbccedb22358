import Mathlib.Algebra.Order.Field.Rat
import Mathlib.Data.List.AList
import GoQuant.Lib.Run
import GoQuant.Lib.TokenBucket

/-!
# The rate limiter

`rate_limiter.h`: one saturating token count for each symbol, refilled when an order asks for
a token. Times are readings of the steady clock in seconds.

## Main results

* `RateLimiter.Tracks.tryConsume` — a call is answered as the windows that end with it demand.
* `RateLimiter.tryConsume_exact` — a limiter is an exact token bucket, and the manager keeps one
  for each symbol.
-/

namespace GoQuant

structure RateLimiter where
  maxBurst : ℕ
  tokensPerSec : ℚ
  tokens : ℚ
  lastRefill : ℚ
  deriving DecidableEq

namespace RateLimiter

/-- The constructor: a full bucket. -/
def create (now : ℚ) (maxBurst : ℕ) (tokensPerSec : ℚ) : RateLimiter where
  maxBurst := maxBurst
  tokensPerSec := tokensPerSec
  tokens := maxBurst
  lastRefill := now

def refillTokens (l : RateLimiter) (now : ℚ) : RateLimiter :=
  { l with
    tokens := min (l.maxBurst : ℚ) (l.tokens + (now - l.lastRefill) * l.tokensPerSec)
    lastRefill := now }

def tryConsume (l : RateLimiter) (now : ℚ) (tokens : ℕ) : Bool × RateLimiter :=
  let l := l.refillTokens now
  if tokens ≤ l.tokens then (true, { l with tokens := l.tokens - tokens }) else (false, l)

/-- A call `tryConsume()`, with its time and its answer. -/
def Step (l : RateLimiter) (call : ℚ × Bool) (l' : RateLimiter) : Prop :=
  l.tryConsume call.1 1 = (call.2, l')

/-- The calls accepted from `s` on. -/
def acceptedFrom (calls : List (ℚ × Bool)) (s : ℚ) : ℕ :=
  calls.countP fun call => s ≤ call.1 ∧ call.2

/-- The calls accepted from `s` to `t`. -/
def acceptedWithin (calls : List (ℚ × Bool)) (s t : ℚ) : ℕ :=
  calls.countP fun call => (s ≤ call.1 ∧ call.1 ≤ t) ∧ call.2

/-- An exact token bucket: a call is accepted exactly when no window that ends with it is
overdrawn, and no window is. -/
structure Exact (maxBurst : ℕ) (rate t₀ : ℚ) (calls : List (ℚ × Bool)) : Prop where
  accepted_iff : ∀ earlier t accepted later, calls = earlier ++ (t, accepted) :: later →
    (accepted = true ↔ ∀ s ∈ t₀ :: (earlier.map Prod.fst ++ [t]),
      (acceptedFrom earlier s + 1 : ℚ) ≤ maxBurst + rate * (t - s))
  within_le : ∀ s t, s ≤ t → (acceptedWithin calls s t : ℚ) ≤ maxBurst + rate * (t - s)

end RateLimiter

structure RateLimiterManager where
  limiters : AList fun _ : String => RateLimiter := ∅

namespace RateLimiterManager

def addSymbol (m : RateLimiterManager) (now : ℚ) (symbol : String)
    (ordersPerSecond maxBurst : ℕ) : RateLimiterManager :=
  match m.limiters.lookup symbol with
  | none => { m with
      limiters := m.limiters.insert symbol (RateLimiter.create now maxBurst ordersPerSecond) }
  | some _ => m

/-- `tryAcceptOrder`; `created` is the time at which a limiter is made when there is none. -/
def tryAcceptOrder (m : RateLimiterManager) (created now : ℚ) (symbol : String) :
    Bool × RateLimiterManager :=
  let limiter := (m.limiters.lookup symbol).getD (RateLimiter.create created 200 100)
  let (accepted, limiter) := limiter.tryConsume now 1
  (accepted, { m with limiters := m.limiters.insert symbol limiter })

inductive Event where
  | addSymbol (now : ℚ) (symbol : String) (ordersPerSecond maxBurst : ℕ)
  | tryAcceptOrder (created now : ℚ) (symbol : String) (accepted : Bool)

/-- The clock readings of an event. -/
def Event.clock : Event → List ℚ
  | .addSymbol now _ _ _ => [now]
  | .tryAcceptOrder created now _ _ => [created, now]

/-- The time, burst and rate of the limiter an event would make for a symbol. -/
def Event.opens (symbol : String) : Event → Option (ℚ × ℕ × ℚ)
  | .addSymbol now symbol' ordersPerSecond maxBurst =>
      if symbol' = symbol then some (now, maxBurst, ordersPerSecond) else none
  | .tryAcceptOrder created _ symbol' _ =>
      if symbol' = symbol then some (created, 200, 100) else none

/-- The call of `tryConsume` for a symbol, with its time and its answer. -/
def Event.call (symbol : String) : Event → Option (ℚ × Bool)
  | .addSymbol _ _ _ _ => none
  | .tryAcceptOrder _ now symbol' accepted =>
    if symbol' = symbol then some (now, accepted) else none

inductive Step : RateLimiterManager → Event → RateLimiterManager → Prop
  | addSymbol (m : RateLimiterManager) (now : ℚ) (symbol : String)
      (ordersPerSecond maxBurst : ℕ) :
      Step m (.addSymbol now symbol ordersPerSecond maxBurst)
        (m.addSymbol now symbol ordersPerSecond maxBurst)
  | tryAcceptOrder {m m' : RateLimiterManager} {created now : ℚ} {symbol : String}
      {accepted : Bool} (h : m.tryAcceptOrder created now symbol = (accepted, m')) :
      Step m (.tryAcceptOrder created now symbol accepted) m'

end RateLimiterManager

namespace RateLimiter

/-- The accepted calls, each with the one token it took. -/
def consumed (calls : List (ℚ × Bool)) : List (ℚ × ℚ) :=
  (calls.filter Prod.snd).map fun call => (call.1, 1)

theorem consumed_append (calls later : List (ℚ × Bool)) :
    consumed (calls ++ later) = consumed calls ++ consumed later := by
  simp [consumed]

theorem spent_consumed (calls : List (ℚ × Bool)) (s : ℚ) :
    TokenBucket.spent (consumed calls) s = acceptedFrom calls s := by
  have hfilter : (consumed calls).filter (s ≤ ·.1) =
      (calls.filter fun call => s ≤ call.1 ∧ call.2).map fun call => (call.1, 1) := by
    simp only [consumed, List.filter_map, List.filter_filter]
    congr 2
    funext call
    simp
  rw [TokenBucket.spent, hfilter, acceptedFrom, List.countP_eq_length_filter, List.map_map]
  simp [Function.comp_def]

theorem within_consumed (calls : List (ℚ × Bool)) (s t : ℚ) :
    TokenBucket.within (consumed calls) s t = acceptedWithin calls s t := by
  have hfilter : (consumed calls).filter (fun p => s ≤ p.1 ∧ p.1 ≤ t) =
      (calls.filter fun call => (s ≤ call.1 ∧ call.1 ≤ t) ∧ call.2).map
        fun call => (call.1, 1) := by
    simp only [consumed, List.filter_map, List.filter_filter]
    congr 2
    funext call
    simp
  rw [TokenBucket.within, hfilter, acceptedWithin, List.countP_eq_length_filter, List.map_map]
  simp [Function.comp_def]

/-- The calls so far were answered as the windows demanded. -/
def Decided (maxBurst : ℕ) (rate t₀ : ℚ) (calls : List (ℚ × Bool)) : Prop :=
  ∀ earlier t accepted later, calls = earlier ++ (t, accepted) :: later →
    (accepted = true ↔ ∀ s ∈ t₀ :: (earlier.map Prod.fst ++ [t]),
      (acceptedFrom earlier s + 1 : ℚ) ≤ maxBurst + rate * (t - s))

/-- A limiter that was opened at `t₀` and answered the calls. -/
structure Tracks (l : RateLimiter) (t₀ : ℚ) (calls : List (ℚ × Bool)) : Prop where
  holds : TokenBucket.Holds (l.maxBurst : ℚ) l.tokensPerSec (t₀ :: calls.map Prod.fst)
    (consumed calls) l.lastRefill l.tokens
  decided : Decided l.maxBurst l.tokensPerSec t₀ calls
  sorted : (calls.map Prod.fst).Pairwise (· ≤ ·)

theorem tracks_create (now : ℚ) (maxBurst : ℕ) (tokensPerSec : ℚ) :
    (create now maxBurst tokensPerSec).Tracks now [] where
  holds := TokenBucket.Holds.start
  decided := by simp [Decided]
  sorted := List.Pairwise.nil

variable {l l' : RateLimiter} {t₀ now : ℚ} {calls : List (ℚ × Bool)} {accepted : Bool}

theorem Decided.snoc {maxBurst : ℕ} {rate : ℚ} (h : Decided maxBurst rate t₀ calls)
    (hlast : accepted = true ↔ ∀ s ∈ t₀ :: (calls.map Prod.fst ++ [now]),
      (acceptedFrom calls s + 1 : ℚ) ≤ maxBurst + rate * (now - s)) :
    Decided maxBurst rate t₀ (calls ++ [(now, accepted)]) := by
  intro earlier t answer later heq
  rcases List.eq_nil_or_concat later with rfl | ⟨later, call, rfl⟩
  · obtain ⟨rfl, hcall⟩ := List.append_inj' heq rfl
    obtain ⟨rfl, rfl⟩ := Prod.mk.inj (List.head_eq_of_cons_eq hcall)
    exact hlast
  · rw [List.concat_eq_append, ← List.cons_append, ← List.append_assoc] at heq
    exact h earlier t answer later (List.append_inj' heq rfl).1

/-- What one call does to a limiter. -/
theorem step_spec (h : Step l (now, accepted) l') :
    l'.maxBurst = l.maxBurst ∧ l'.tokensPerSec = l.tokensPerSec ∧ l'.lastRefill = now ∧
      (accepted = true ↔ 1 ≤ (l.refillTokens now).tokens) ∧
      l'.tokens = (l.refillTokens now).tokens - if accepted then 1 else 0 := by
  rw [Step, tryConsume] at h
  split_ifs at h with htokens
  · obtain ⟨rfl, rfl⟩ := Prod.mk.inj h
    simpa [refillTokens] using htokens
  · obtain ⟨rfl, rfl⟩ := Prod.mk.inj h
    simpa [refillTokens] using htokens

/-- A call is answered as the windows that end with it demand. -/
theorem Tracks.tryConsume (h : l.Tracks t₀ calls) (hle : l.lastRefill ≤ now)
    (hstep : Step l (now, accepted) l') : l'.Tracks t₀ (calls ++ [(now, accepted)]) := by
  obtain ⟨hburst, hrate, hlast, haccepted, htokens⟩ := step_spec hstep
  have hfull : TokenBucket.Holds (l.maxBurst : ℚ) l.tokensPerSec
      (t₀ :: (calls ++ [(now, accepted)]).map Prod.fst) (consumed calls) now
      (l.refillTokens now).tokens := by
    rw [List.map_append]
    exact h.holds.refill hle
  refine ⟨?_, ?_, ?_⟩
  · rw [hburst, hrate, hlast, htokens, consumed_append]
    cases accepted with
    | false => simpa [consumed] using hfull
    | true => exact hfull.take zero_le_one
  · rw [hburst, hrate]
    refine h.decided.snoc ?_
    rw [haccepted, hfull.le_iff]
    simp only [spent_consumed, List.map_append, List.map_singleton]
  · rw [List.map_append, List.pairwise_append]
    refine ⟨h.sorted, List.pairwise_singleton _ _, fun s hs t ht => ?_⟩
    obtain rfl := List.mem_singleton.mp ht
    exact (h.holds.starts_le s (List.mem_cons_of_mem _ hs)).trans hle

/-- Among the accepted calls alone, each is admitted. -/
theorem Decided.admitted {maxBurst : ℕ} {rate : ℚ} (h : Decided maxBurst rate t₀ calls) :
    TokenBucket.Admitted (maxBurst : ℚ) rate (consumed calls) := by
  intro earlier t amount later heq s hs
  obtain ⟨before, _, hfilter, rfl, hafter⟩ := List.map_eq_append_iff.mp heq
  obtain ⟨⟨t, accepted⟩, after, rfl, hcall, -⟩ := List.map_eq_cons_iff.mp hafter
  obtain ⟨rfl, rfl⟩ := Prod.mk.inj hcall
  obtain ⟨before, _, rfl, rfl, hrest⟩ := List.filter_eq_append_iff.mp hfilter
  obtain ⟨rejected, after, rfl, hrejected, haccepted, -⟩ := List.filter_eq_cons_iff.mp hrest
  -- The calls between two accepted ones do not count.
  have hspent : TokenBucket.spent (consumed before) s = acceptedFrom (before ++ rejected) s := by
    have hnone : consumed rejected = [] := by
      simpa [consumed, List.filter_eq_nil_iff] using hrejected
    rw [← spent_consumed, consumed_append, hnone, List.append_nil]
  change TokenBucket.spent (consumed before) s + 1 ≤ (maxBurst : ℚ) + rate * (t - s)
  rw [hspent]
  refine (h (before ++ rejected) t accepted after (by simp)).mp haccepted s ?_
  rcases List.mem_append.mp hs with hs | hs
  · obtain ⟨p, hp, rfl⟩ := List.mem_map.mp hs
    obtain ⟨call, hcall, rfl⟩ := List.mem_map.mp hp
    have hmem : call.1 ∈ (before ++ rejected).map Prod.fst :=
      List.mem_map_of_mem (List.mem_append_left _ (List.mem_of_mem_filter hcall))
    exact List.mem_cons_of_mem _ (List.mem_append_left _ hmem)
  · exact List.mem_cons_of_mem _ (List.mem_append_right _ hs)

theorem Tracks.exact (h : l.Tracks t₀ calls) (hrate : 0 ≤ l.tokensPerSec) :
    Exact l.maxBurst l.tokensPerSec t₀ calls where
  accepted_iff := h.decided
  within_le := fun s t hle => by
    rw [← within_consumed]
    refine TokenBucket.Admitted.within_le hrate (Nat.cast_nonneg _) ?_ h.decided.admitted hle
    have hsub : ((consumed calls).map Prod.fst).Sublist (calls.map Prod.fst) := by
      rw [consumed, List.map_map]
      exact (List.filter_sublist).map _
    exact h.sorted.sublist hsub

/-- A limiter and its calls over a run. -/
theorem tracks_of_run {maxBurst : ℕ} {tokensPerSec : ℚ}
    (hsorted : (t₀ :: calls.map Prod.fst).Pairwise (· ≤ ·))
    (hrun : Run Step (create t₀ maxBurst tokensPerSec) calls l) :
    l.Tracks t₀ calls ∧ l.maxBurst = maxBurst ∧ l.tokensPerSec = tokensPerSec ∧
      l.lastRefill ∈ t₀ :: calls.map Prod.fst := by
  induction hrun with
  | nil => exact ⟨tracks_create t₀ maxBurst tokensPerSec, rfl, rfl, List.mem_cons_self⟩
  | @snoc calls l l' call hrun hstep ih =>
    obtain ⟨now, accepted⟩ := call
    rw [List.map_append, ← List.cons_append, List.pairwise_append] at hsorted
    obtain ⟨htracks, rfl, rfl, hlast⟩ := ih hsorted.1
    obtain ⟨hburst, hrate, hnow, -⟩ := step_spec hstep
    refine ⟨htracks.tryConsume (hsorted.2.2 _ hlast now (by simp)) hstep, hburst, hrate, ?_⟩
    simp [hnow]

end RateLimiter

namespace RateLimiterManager

open RateLimiter (Tracks Exact)

/-- The time, burst and rate of the limiter of a symbol: what its first event makes. -/
def openedBy (symbol : String) (events : List Event) : Option (ℚ × ℕ × ℚ) :=
  events.findSome? (Event.opens symbol)

/-- The calls for a symbol. -/
def callsOf (symbol : String) (events : List Event) : List (ℚ × Bool) :=
  events.filterMap (Event.call symbol)

/-- The limiter of a symbol was opened by its first event and answered its calls. -/
def Limits (m : RateLimiterManager) (symbol : String) (events : List Event) : Prop :=
  match openedBy symbol events with
  | none => m.limiters.lookup symbol = none ∧ callsOf symbol events = []
  | some (t₀, maxBurst, rate) => ∃ l, m.limiters.lookup symbol = some l ∧
      l.Tracks t₀ (callsOf symbol events) ∧ l.maxBurst = maxBurst ∧ l.tokensPerSec = rate ∧
      l.lastRefill ∈ events.flatMap Event.clock

variable {m m' : RateLimiterManager} {symbol : String} {events : List Event} {ev : Event}

theorem openedBy_snoc : openedBy symbol (events ++ [ev]) =
    (openedBy symbol events).or (ev.opens symbol) := by
  simp [openedBy, List.findSome?_append]

theorem callsOf_snoc : callsOf symbol (events ++ [ev]) =
    callsOf symbol events ++ (ev.call symbol).toList := by
  cases h : ev.call symbol <;> simp [callsOf, List.filterMap_append, h]

/-- An event about another symbol leaves the limiter of a symbol alone. -/
theorem lookup_of_opens_none (hstep : Step m ev m') (hopens : ev.opens symbol = none) :
    m'.limiters.lookup symbol = m.limiters.lookup symbol ∧ ev.call symbol = none := by
  cases hstep with
  | addSymbol now symbol' ordersPerSecond maxBurst =>
    have hne : symbol ≠ symbol' := by
      rintro rfl
      simp [Event.opens] at hopens
    refine ⟨?_, rfl⟩
    rw [addSymbol]
    split
    · exact AList.lookup_insert_ne hne
    · rfl
  | @tryAcceptOrder _ created now symbol' accepted h =>
    have hne : symbol ≠ symbol' := by
      rintro rfl
      simp [Event.opens] at hopens
    obtain ⟨-, rfl⟩ := Prod.mk.inj h
    exact ⟨AList.lookup_insert_ne hne, if_neg hne.symm⟩

/-- An event about a symbol makes its limiter if there is none, and may ask it for a token. -/
theorem lookup_of_opens {t₀ rate : ℚ} {maxBurst : ℕ} (hstep : Step m ev m')
    (hopens : ev.opens symbol = some (t₀, maxBurst, rate)) :
    (∃ t, ev.clock = t₀ :: t) ∧
      ∃ l l', l = (m.limiters.lookup symbol).getD (RateLimiter.create t₀ maxBurst rate) ∧
        m'.limiters.lookup symbol = some l' ∧
        ((ev.call symbol = none ∧ l' = l) ∨
          ∃ now accepted, ev.call symbol = some (now, accepted) ∧ ev.clock = [t₀, now] ∧
            RateLimiter.Step l (now, accepted) l') := by
  cases hstep with
  | addSymbol now symbol' ordersPerSecond burst =>
    simp only [Event.opens, Option.ite_none_right_eq_some, Option.some.injEq,
      Prod.mk.injEq] at hopens
    obtain ⟨rfl, rfl, rfl, rfl⟩ := hopens
    refine ⟨⟨[], rfl⟩, _, _, rfl, ?_, Or.inl ⟨rfl, rfl⟩⟩
    rw [addSymbol]
    cases hlookup : m.limiters.lookup symbol' with
    | none => exact AList.lookup_insert _
    | some l => exact hlookup
  | @tryAcceptOrder _ created now symbol' accepted h =>
    simp only [Event.opens, Option.ite_none_right_eq_some, Option.some.injEq,
      Prod.mk.injEq] at hopens
    obtain ⟨rfl, rfl, rfl, rfl⟩ := hopens
    obtain ⟨rfl, rfl⟩ := Prod.mk.inj h
    exact ⟨⟨[now], rfl⟩, _, _, rfl, AList.lookup_insert _,
      Or.inr ⟨now, _, if_pos rfl, rfl, rfl⟩⟩

/-- The limiter that an event about its symbol finds or makes answered the calls before it. -/
theorem Limits.before {l : RateLimiter} {t₀ rate : ℚ} {maxBurst : ℕ} (h : m.Limits symbol events)
    (hl : l = (m.limiters.lookup symbol).getD (RateLimiter.create t₀ maxBurst rate)) :
    ∃ t maxBurst' rate',
      (openedBy symbol events).or (some (t₀, maxBurst, rate)) = some (t, maxBurst', rate') ∧
        l.Tracks t (callsOf symbol events) ∧ l.maxBurst = maxBurst' ∧
        l.tokensPerSec = rate' ∧ l.lastRefill ∈ events.flatMap Event.clock ++ [t₀] := by
  rw [Limits] at h
  cases hopened : openedBy symbol events with
  | none =>
    rw [hopened] at h
    rw [h.1] at hl
    subst hl
    rw [h.2]
    exact ⟨t₀, maxBurst, rate, rfl, RateLimiter.tracks_create t₀ maxBurst rate, rfl, rfl,
      by simp [RateLimiter.create]⟩
  | some opening =>
    rw [hopened] at h
    obtain ⟨l₀, hl₀, htracks, hburst, hrate, hlast⟩ := h
    rw [hl₀] at hl
    subst hl
    exact ⟨_, _, _, rfl, htracks, hburst, hrate, List.mem_append_left _ hlast⟩

/-- One event keeps the limiter of every symbol in step with its calls. -/
theorem Limits.step (hstep : Step m ev m')
    (hsorted : ((events ++ [ev]).flatMap Event.clock).Pairwise (· ≤ ·))
    (h : m.Limits symbol events) : m'.Limits symbol (events ++ [ev]) := by
  rw [List.flatMap_append, List.flatMap_singleton, List.pairwise_append] at hsorted
  rw [Limits, openedBy_snoc, callsOf_snoc]
  cases hopens : ev.opens symbol with
  | none =>
    obtain ⟨hlookup, hcall⟩ := lookup_of_opens_none hstep hopens
    rw [hlookup, hcall, Option.or_none, Option.toList_none, List.append_nil]
    rw [Limits] at h
    cases hopened : openedBy symbol events with
    | none => rwa [hopened] at h
    | some opening =>
      rw [hopened] at h
      obtain ⟨l, hl, htracks, hburst, hrate, hlast⟩ := h
      exact ⟨l, hl, htracks, hburst, hrate, by simp [hlast]⟩
  | some opening =>
    obtain ⟨t₀, maxBurst, rate⟩ := opening
    obtain ⟨⟨clock, hclock⟩, l, l', hl, hl', hasked⟩ := lookup_of_opens hstep hopens
    obtain ⟨t, maxBurst', rate', heq, htracks, hburst, hrate, hlast⟩ := h.before hl
    rw [heq]
    rcases hasked with ⟨hcall, rfl⟩ | ⟨now, accepted, hcall, hclock', hask⟩
    · refine ⟨l', hl', by simpa [hcall] using htracks, hburst, hrate, ?_⟩
      simp only [List.flatMap_append, List.flatMap_singleton, hclock]
      rcases List.mem_append.mp hlast with hlast | hlast
      · exact List.mem_append_left _ hlast
      · exact List.mem_append_right _ (by simp [List.mem_singleton.mp hlast])
    · rw [hclock'] at hsorted
      have hle : l.lastRefill ≤ now := by
        rcases List.mem_append.mp hlast with hlast | hlast
        · exact hsorted.2.2 _ hlast now (by simp)
        · rw [List.mem_singleton.mp hlast]
          exact List.rel_of_pairwise_cons hsorted.2.1 (List.mem_singleton_self now)
      obtain ⟨hburst', hrate', hnow, -⟩ := RateLimiter.step_spec hask
      refine ⟨l', hl', ?_, hburst'.trans hburst, hrate'.trans hrate, ?_⟩
      · rw [hcall]
        exact htracks.tryConsume hle hask
      · simp [hnow, hclock']

/-- In every run the manager keeps the limiter of every symbol in step with its calls. -/
theorem limits_of_run (hsorted : (events.flatMap Event.clock).Pairwise (· ≤ ·))
    (hrun : Run Step {} events m) : m.Limits symbol events := by
  induction hrun with
  | nil => exact ⟨rfl, rfl⟩
  | snoc _ hstep ih =>
    refine (ih ?_).step hstep hsorted
    rw [List.flatMap_append, List.pairwise_append] at hsorted
    exact hsorted.1

theorem opens_nonneg {t₀ rate : ℚ} {maxBurst : ℕ}
    (h : openedBy symbol events = some (t₀, maxBurst, rate)) : 0 ≤ rate := by
  obtain ⟨ev, -, hopens⟩ := List.exists_of_findSome?_eq_some h
  cases ev <;> simp only [Event.opens, Option.ite_none_right_eq_some, Option.some.injEq,
    Prod.mk.injEq] at hopens <;> obtain ⟨-, -, -, rfl⟩ := hopens
  · exact Nat.cast_nonneg _
  · norm_num

end RateLimiterManager

namespace RateLimiter

open RateLimiterManager (Event openedBy callsOf)

/-- A limiter whose calls come at nondecreasing times is an exact token bucket, and in every run
of the manager so are the calls of each symbol, whatever comes in between. -/
theorem tryConsume_exact :
    (∀ (t₀ : ℚ) (maxBurst : ℕ) (rate : ℚ) (calls : List (ℚ × Bool)) (l : RateLimiter),
      0 ≤ rate → (t₀ :: calls.map Prod.fst).Pairwise (· ≤ ·) →
      Run Step (create t₀ maxBurst rate) calls l → Exact maxBurst rate t₀ calls) ∧
    ∀ (events : List Event) (m : RateLimiterManager),
      (events.flatMap Event.clock).Pairwise (· ≤ ·) → Run RateLimiterManager.Step {} events m →
      ∀ (symbol : String) (t₀ : ℚ) (maxBurst : ℕ) (rate : ℚ),
        openedBy symbol events = some (t₀, maxBurst, rate) →
        Exact maxBurst rate t₀ (callsOf symbol events) := by
  constructor
  · intro t₀ maxBurst rate calls l hrate hsorted hrun
    obtain ⟨htracks, rfl, rfl, -⟩ := tracks_of_run hsorted hrun
    exact htracks.exact hrate
  · intro events m hsorted hrun symbol t₀ maxBurst rate hopened
    have hlimits : m.Limits symbol events := RateLimiterManager.limits_of_run hsorted hrun
    rw [RateLimiterManager.Limits, hopened] at hlimits
    obtain ⟨l, -, htracks, rfl, rfl, -⟩ := hlimits
    exact htracks.exact (RateLimiterManager.opens_nonneg hopened)

/-- The answers of a limiter to calls at given times. -/
theorem run_exec (times : List ℚ)
    (h : Run.exec (fun l t => some ((t, (tryConsume l t 1).1), (tryConsume l t 1).2)) l times =
      some (calls, l')) : Run Step l calls l' := by
  refine Run.of_exec (fun l t call l' hcall => ?_) h
  obtain ⟨rfl, rfl⟩ := Prod.mk.inj (Option.some.inj hcall)
  rfl

/-- Half a second fills the token that the first order took; an order for another symbol does
not empty the bucket. -/
theorem tryConsume_exact_half_second :
    Exact 1 2 0 [(0, true), (1 / 4, false), (1 / 2, true)] ∧
      Exact 200 100 1 (callsOf "ETH-USDT" [.addSymbol 0 "BTC-USDT" 2 1,
        .tryAcceptOrder 0 0 "BTC-USDT" true, .tryAcceptOrder 1 1 "ETH-USDT" true,
        .tryAcceptOrder 1 1 "BTC-USDT" true, .tryAcceptOrder 1 1 "BTC-USDT" false,
        .tryAcceptOrder 1 1 "ETH-USDT" true]) := by
  have hlimiter : Run Step (create 0 1 2) [(0, true), (1 / 4, false), (1 / 2, true)]
      ⟨1, 2, 0, 1 / 2⟩ := run_exec [0, 1 / 4, 1 / 2] (by decide +kernel)
  have hmanager : Run RateLimiterManager.Step {} [.addSymbol 0 "BTC-USDT" 2 1,
        .tryAcceptOrder 0 0 "BTC-USDT" true, .tryAcceptOrder 1 1 "ETH-USDT" true,
        .tryAcceptOrder 1 1 "BTC-USDT" true, .tryAcceptOrder 1 1 "BTC-USDT" false,
        .tryAcceptOrder 1 1 "ETH-USDT" true] _ :=
    (((((Run.nil.snoc (.addSymbol _ 0 "BTC-USDT" 2 1)).snoc
      (.tryAcceptOrder (Prod.ext (by decide +kernel) rfl))).snoc
      (.tryAcceptOrder (Prod.ext (by decide +kernel) rfl))).snoc
      (.tryAcceptOrder (Prod.ext (by decide +kernel) rfl))).snoc
      (.tryAcceptOrder (Prod.ext (by decide +kernel) rfl))).snoc
      (.tryAcceptOrder (Prod.ext (by decide +kernel) rfl))
  exact ⟨tryConsume_exact.1 0 1 2 _ _ (by decide +kernel) (by decide +kernel) hlimiter,
    tryConsume_exact.2 _ _ (by decide +kernel) hmanager "ETH-USDT" 1 200 100 (by decide +kernel)⟩

end RateLimiter

end GoQuant
