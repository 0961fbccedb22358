import Mathlib.Algebra.Order.Ring.Defs
import Mathlib.Algebra.BigOperators.Group.List.Basic
import Mathlib.Data.List.Induction
import Mathlib.Order.Bounds.Basic
import Mathlib.Tactic.Linarith
import Mathlib.Tactic.Ring

/-!
# Token buckets

A bucket holds at most `burst` tokens, starts full and fills at `rate` tokens for each unit of
time; tokens are taken out at nondecreasing times. What it holds is one running value, and it
is the least unused allowance over the windows that end now.

## Main results

* `Holds.start`, `Holds.refill`, `Holds.take` — the running value is the least unused allowance.
* `Holds.le_iff` — an amount is there exactly when every window allows it.
* `within_le` — no more than the allowance is taken out in any window.
-/

namespace TokenBucket

variable {K : Type*} [CommRing K] [LinearOrder K]

/-- What a bucket holds after it has filled for a time. -/
def refill (burst rate tokens elapsed : K) : K := min burst (tokens + elapsed * rate)

/-- What was taken out from `s` on, of a list of times with amounts. -/
def spent (taken : List (K × K)) (s : K) : K := ((taken.filter (s ≤ ·.1)).map Prod.snd).sum

/-- What was taken out from `s` to `t`. -/
def within (taken : List (K × K)) (s t : K) : K :=
  ((taken.filter fun p => s ≤ p.1 ∧ p.1 ≤ t).map Prod.snd).sum

/-- What the window from `s` to `t` still allows. -/
def unused (burst rate : K) (taken : List (K × K)) (s t : K) : K :=
  burst + rate * (t - s) - spent taken s

/-- The least that the windows from the start times to `t` still allow. -/
structure Holds (burst rate : K) (starts : List K) (taken : List (K × K)) (t tokens : K) :
    Prop where
  least : IsLeast {x | ∃ s ∈ starts, x = unused burst rate taken s t} tokens
  le_burst : tokens ≤ burst
  now_mem : t ∈ starts
  starts_le : ∀ s ∈ starts, s ≤ t
  taken_mem : ∀ p ∈ taken, p.1 ∈ starts

/-- Every amount was allowed by every window that ended when it was taken. -/
def Admitted (burst rate : K) (taken : List (K × K)) : Prop :=
  ∀ earlier t amount later, taken = earlier ++ (t, amount) :: later →
    ∀ s ∈ earlier.map Prod.fst ++ [t], spent earlier s + amount ≤ burst + rate * (t - s)

variable {burst rate t now s tokens amount : K} {starts : List K} {taken : List (K × K)}

@[simp] theorem spent_nil : spent ([] : List (K × K)) s = 0 := rfl

theorem spent_cons (p : K × K) :
    spent (p :: taken) s = (if s ≤ p.1 then p.2 else 0) + spent taken s := by
  by_cases h : s ≤ p.1 <;> simp [spent, h]

theorem spent_append (later : List (K × K)) :
    spent (taken ++ later) s = spent taken s + spent later s := by
  simp [spent]

theorem spent_snoc (h : s ≤ t) : spent (taken ++ [(t, amount)]) s = spent taken s + amount := by
  rw [spent_append, spent_cons, spent_nil, if_pos h, add_zero]

theorem spent_eq_zero (h : ∀ p ∈ taken, p.1 < s) : spent taken s = 0 := by
  rw [spent, List.filter_eq_nil_iff.mpr fun p hp => by simpa using h p hp]
  rfl

theorem within_snoc :
    within (taken ++ [(t, amount)]) s now =
      within taken s now + if s ≤ t ∧ t ≤ now then amount else 0 := by
  by_cases h : s ≤ t ∧ t ≤ now <;> simp [within, h]

/-- Where nothing is later than `t`, a window to `t` takes in all that follows. -/
theorem within_eq_spent (h : ∀ p ∈ taken, p.1 ≤ t) : within taken s t = spent taken s := by
  have hfilter : (taken.filter fun p => s ≤ p.1 ∧ p.1 ≤ t) = taken.filter (s ≤ ·.1) :=
    List.filter_congr fun p hp => by simp [h p hp]
  rw [within, hfilter, spent]

theorem unused_self (h : ∀ p ∈ taken, p.1 < t) : unused burst rate taken t t = burst := by
  rw [unused, spent_eq_zero h]
  ring

theorem unused_later :
    unused burst rate taken s now = unused burst rate taken s t + (now - t) * rate := by
  rw [unused, unused]
  ring

namespace Holds

/-- A new bucket is full. -/
theorem start : Holds burst rate [t] [] t burst where
  least := by simp [unused]
  le_burst := le_rfl
  now_mem := List.mem_singleton_self t
  starts_le := by simp
  taken_mem := by simp

/-- Taking an amount out shortens the allowance of every window. -/
theorem take [IsStrictOrderedRing K] (hamount : 0 ≤ amount)
    (h : Holds burst rate starts taken t tokens) :
    Holds burst rate starts (taken ++ [(t, amount)]) t (tokens - amount) := by
  have hunused : ∀ s ∈ starts, unused burst rate (taken ++ [(t, amount)]) s t =
      unused burst rate taken s t - amount := fun s hs => by
    rw [unused, unused, spent_snoc (h.starts_le s hs)]
    ring
  obtain ⟨⟨s₀, hs₀, htokens⟩, hlower⟩ := h.least
  refine ⟨⟨⟨s₀, hs₀, by rw [hunused s₀ hs₀, htokens]⟩, ?_⟩, by linarith [h.le_burst], h.now_mem,
    h.starts_le, ?_⟩
  · rintro x ⟨s, hs, rfl⟩
    rw [hunused s hs]
    exact sub_le_sub_right (hlower ⟨s, hs, rfl⟩) amount
  · intro p hp
    rcases List.mem_append.mp hp with hp | hp
    · exact h.taken_mem p hp
    · rw [List.mem_singleton.mp hp]
      exact h.now_mem

/-- The allowance of every window grows with the time that passes, and a window that starts now
allows the burst. -/
theorem refill [IsStrictOrderedRing K] (hle : t ≤ now)
    (h : Holds burst rate starts taken t tokens) :
    Holds burst rate (starts ++ [now]) taken now
      (TokenBucket.refill burst rate tokens (now - t)) := by
  obtain ⟨⟨s₀, hs₀, htokens⟩, hlower⟩ := h.least
  refine ⟨?_, min_le_left _ _, by simp, ?_, fun p hp => List.mem_append_left _ (h.taken_mem p hp)⟩
  · rcases hle.lt_or_eq with hlt | rfl
    · -- Nothing was taken out now, so the window that starts now allows the burst.
      have hself : unused burst rate taken now now = burst :=
        unused_self fun p hp => (h.starts_le _ (h.taken_mem p hp)).trans_lt hlt
      refine ⟨?_, ?_⟩
      · rcases min_choice burst (tokens + (now - t) * rate) with hmin | hmin
        · exact ⟨now, by simp, by rw [TokenBucket.refill, hmin, hself]⟩
        · exact ⟨s₀, by simp [hs₀], by rw [TokenBucket.refill, hmin, unused_later, ← htokens]⟩
      · rintro x ⟨s, hs, rfl⟩
        rcases List.mem_append.mp hs with hs | hs
        · rw [unused_later]
          exact (min_le_right _ _).trans (add_le_add_left (hlower ⟨s, hs, rfl⟩) _)
        · obtain rfl := List.mem_singleton.mp hs
          rw [hself]
          exact min_le_left _ _
    · -- No time has passed, and the window that starts now is there already.
      have hsame : TokenBucket.refill burst rate tokens (t - t) = tokens := by
        simp [TokenBucket.refill, h.le_burst]
      have hstarts : ∀ s, s ∈ starts ++ [t] ↔ s ∈ starts := by
        intro s
        simp only [List.mem_append, List.mem_singleton, or_iff_left_iff_imp]
        rintro rfl
        exact h.now_mem
      simp only [hsame, hstarts]
      exact h.least
  · intro s hs
    rcases List.mem_append.mp hs with hs | hs
    · exact (h.starts_le s hs).trans hle
    · exact (List.mem_singleton.mp hs).le

/-- An amount is there exactly when every window allows it. -/
theorem le_iff [IsStrictOrderedRing K] (h : Holds burst rate starts taken t tokens) :
    amount ≤ tokens ↔ ∀ s ∈ starts, spent taken s + amount ≤ burst + rate * (t - s) := by
  rw [le_isGLB_iff h.least.isGLB]
  constructor
  · intro hlower s hs
    have hle : amount ≤ unused burst rate taken s t := hlower ⟨s, hs, rfl⟩
    rw [unused] at hle
    linarith
  · rintro hall x ⟨s, hs, rfl⟩
    rw [unused]
    linarith [hall s hs]

end Holds

/-- What was taken out from `s` on was taken out from some later time on when something was
taken out, or from `t` on. -/
theorem exists_start (hsorted : (taken.map Prod.fst).Pairwise (· ≤ ·)) (hs : s ≤ t) :
    ∃ u ∈ taken.map Prod.fst ++ [t], s ≤ u ∧ spent taken s = spent taken u := by
  induction taken with
  | nil => exact ⟨t, by simp, hs, rfl⟩
  | cons p taken ih =>
    rw [List.map_cons, List.pairwise_cons] at hsorted
    by_cases hp : s ≤ p.1
    · refine ⟨p.1, by simp, hp, ?_⟩
      have hall : ∀ q ∈ p :: taken, s ≤ q.1 ↔ p.1 ≤ q.1 := by
        intro q hq
        have hpq : p.1 ≤ q.1 := by
          rcases List.mem_cons.mp hq with rfl | hq
          · exact le_rfl
          · exact hsorted.1 _ (List.mem_map_of_mem hq)
        exact ⟨fun _ => hpq, hp.trans⟩
      have hfilter : (p :: taken).filter (s ≤ ·.1) = (p :: taken).filter (p.1 ≤ ·.1) :=
        List.filter_congr fun q hq => by simp only [hall q hq]
      rw [spent, hfilter, spent]
    · obtain ⟨u, hu, hsu, hspent⟩ := ih hsorted.2
      refine ⟨u, List.mem_cons_of_mem _ hu, hsu, ?_⟩
      have hpu : ¬ u ≤ p.1 := fun hup => hp (hsu.trans hup)
      rw [spent_cons, spent_cons, if_neg hp, if_neg hpu, hspent]

/-- No more than the allowance is taken out in any window, by induction on what was taken: only
the last amount of a window counts. -/
theorem Admitted.within_le [IsStrictOrderedRing K] (hrate : 0 ≤ rate) (hburst : 0 ≤ burst)
    (hsorted : (taken.map Prod.fst).Pairwise (· ≤ ·)) (h : Admitted burst rate taken)
    (hs : s ≤ t) :
    within taken s t ≤ burst + rate * (t - s) := by
  induction taken using List.reverseRecOn with
  | nil =>
    have hallowed : 0 ≤ rate * (t - s) := mul_nonneg hrate (sub_nonneg.mpr hs)
    simpa [within] using add_nonneg hburst hallowed
  | append_singleton taken p ih =>
    obtain ⟨now, amount⟩ := p
    rw [List.map_append, List.pairwise_append] at hsorted
    have hbefore : ∀ q ∈ taken, q.1 ≤ now := fun q hq =>
      hsorted.2.2 _ (List.mem_map_of_mem hq) _ (by simp)
    rw [within_snoc]
    split_ifs with hin
    · have hall : within taken s t = spent taken s :=
        within_eq_spent fun q hq => (hbefore q hq).trans hin.2
      obtain ⟨u, hu, hsu, hspent⟩ := exists_start hsorted.1 hin.1
      have hadmitted := h taken now amount [] rfl u hu
      have hlonger : rate * (now - u) ≤ rate * (t - s) :=
        mul_le_mul_of_nonneg_left (by linarith [hin.2]) hrate
      rw [hall]
      linarith
    · rw [add_zero]
      refine ih hsorted.1 fun earlier u a later heq => ?_
      exact h earlier u a (later ++ [(now, amount)]) (by simp [heq])

end TokenBucket
