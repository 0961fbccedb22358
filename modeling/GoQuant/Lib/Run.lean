import Mathlib.Data.List.Induction
import Mathlib.Tactic.Common

/-!
# Runs of a labelled transition system

A system is a relation `step s l t`: in state `s` an event `l` can happen and leads to `t`.
A run collects the events from one state to another.

## Main results

* `Run.invariant` — what every step preserves holds in every state reached.
* `Run.history` — the same for a property of the state together with the events so far.
* `Run.snoc_iff`, `Run.cons_iff`, `Run.append_iff` — a run is cut in two.
* `Run.mono` — a run of a more restrictive system is a run.
* `Run.unique` — where an event leads to one state, so does a list of events.
* `Run.of_exec` — what an executable step function computes is a run.
* `Run.exec_rel` — two step functions in step.
* `Run.simulates` — steps that another system follows with any number of its own.
* `Run.agree` — two systems that are asked the same give the same events.
* `Run.exists_take` — a record that grows by one entry at a time passes through all its prefixes.
* `Option.Rel.bind`, `Option.Rel.map` — two computations in step, one of which may fail with the
  other only.
-/

variable {σ ℓ ρ : Type*}

namespace Option.Rel

variable {α β γ δ : Type*} {R R' : α → β → Prop} {S : γ → δ → Prop} {x : Option α} {y : Option β}

theorem mono (h : Option.Rel R x y) (hR : ∀ a b, R a b → R' a b) : Option.Rel R' x y := by
  cases h with
  | some hab => exact .some (hR _ _ hab)
  | none => exact .none

/-- Computations that correspond, one after the other. -/
theorem bind {g : α → Option γ} {g' : β → Option δ} (h : Option.Rel R x y)
    (hg : ∀ a b, a ∈ x → R a b → Option.Rel S (g a) (g' b)) :
    Option.Rel S (x.bind g) (y.bind g') := by
  cases h with
  | some hab => exact hg _ _ rfl hab
  | none => exact .none

theorem map {g : α → γ} {g' : β → δ} (h : Option.Rel R x y) (hg : ∀ a b, R a b → S (g a) (g' b)) :
    Option.Rel S (x.map g) (y.map g') := by
  cases h with
  | some hab => exact .some (hg _ _ hab)
  | none => exact .none

theorem exists_of_some (h : Option.Rel R x y) {a : α} (hx : x = Option.some a) :
    ∃ b, y = Option.some b ∧ R a b := by
  subst hx
  cases h with
  | some hab => exact ⟨_, rfl, hab⟩

end Option.Rel

/-- The runs of a system, with their events in order. -/
inductive Run (step : σ → ℓ → σ → Prop) (s : σ) : List ℓ → σ → Prop
  | nil : Run step s [] s
  | snoc {ls : List ℓ} {t u : σ} {l : ℓ} : Run step s ls t → step t l u → Run step s (ls ++ [l]) u

namespace Run

variable {step step' : σ → ℓ → σ → Prop} {s t u : σ} {ls ls' : List ℓ} {l : ℓ}

theorem one (h : step s l t) : Run step s [l] t := Run.nil.snoc h

theorem trans (h : Run step s ls t) (h' : Run step t ls' u) : Run step s (ls ++ ls') u := by
  induction h' with
  | nil => simpa using h
  | snoc _ hstep ih => simpa using ih.snoc hstep

/-- The last step of a run. -/
theorem snoc_iff : Run step s (ls ++ [l]) u ↔ ∃ t, Run step s ls t ∧ step t l u := by
  constructor
  · intro h
    generalize heq : ls ++ [l] = ls' at h
    cases h with
    | nil => simp at heq
    | snoc h hstep =>
      obtain ⟨rfl, hl⟩ := List.append_inj' heq rfl
      obtain rfl := List.head_eq_of_cons_eq hl
      exact ⟨_, h, hstep⟩
  · rintro ⟨t, h, hstep⟩
    exact h.snoc hstep

/-- A run that is cut in two. -/
theorem append_iff : Run step s (ls ++ ls') u ↔ ∃ t, Run step s ls t ∧ Run step t ls' u := by
  constructor
  · intro h
    induction ls' using List.reverseRecOn generalizing u with
    | nil =>
      rw [List.append_nil] at h
      exact ⟨u, h, .nil⟩
    | append_singleton ls' l ih =>
      rw [← List.append_assoc] at h
      obtain ⟨v, hv, hstep⟩ := snoc_iff.mp h
      obtain ⟨t, ht, ht'⟩ := ih hv
      exact ⟨t, ht, ht'.snoc hstep⟩
  · rintro ⟨t, h, h'⟩
    exact h.trans h'

theorem nil_iff : Run step s [] t ↔ t = s := by
  constructor
  · intro h
    generalize heq : ([] : List ℓ) = ls at h
    cases h with
    | nil => rfl
    | snoc h hstep => simp at heq
  · rintro rfl
    exact .nil

/-- The first step of a run. -/
theorem cons_iff : Run step s (l :: ls) u ↔ ∃ t, step s l t ∧ Run step t ls u := by
  rw [← List.singleton_append, append_iff]
  refine exists_congr fun t => and_congr_left fun _ => ?_
  rw [← List.nil_append [l], snoc_iff]
  simp only [nil_iff, exists_eq_left]

theorem mono (hstep : ∀ s l t, step s l t → step' s l t) (h : Run step s ls t) :
    Run step' s ls t := by
  induction h with
  | nil => exact .nil
  | snoc _ hs ih => exact ih.snoc (hstep _ _ _ hs)

/-- A property of the state and its history. -/
theorem history (P : List ℓ → σ → Prop) (hnil : P [] s)
    (hsnoc : ∀ ls t l u, P ls t → step t l u → P (ls ++ [l]) u) (h : Run step s ls t) :
    P ls t := by
  induction h with
  | nil => exact hnil
  | snoc _ hs ih => exact hsnoc _ _ _ _ ih hs

/-- A property of the state. -/
theorem invariant (P : σ → Prop) (hs : P s) (hstep : ∀ t l u, P t → step t l u → P u)
    (h : Run step s ls t) : P t :=
  h.history (fun _ => P) hs fun _ t l u => hstep t l u

/-- A system in which an event leads to one state. -/
theorem unique (hstep : ∀ s l t u, step s l t → step s l u → u = t) (h : Run step s ls t)
    (h' : Run step s ls u) : u = t := by
  induction h generalizing u with
  | nil => exact nil_iff.mp h'
  | snoc _ hs ih =>
    obtain ⟨v, hv, hs'⟩ := snoc_iff.mp h'
    obtain rfl := ih hv
    exact hstep _ _ _ _ hs hs'

/-- The events of a system under other names. -/
theorem map {κ : Type*} {name : κ → ℓ} {ks : List κ}
    (h : Run (fun s k t => step s (name k) t) s ks t) : Run step s (ks.map name) t := by
  induction h with
  | nil => exact .nil
  | snoc _ hs ih =>
    rw [List.map_append]
    exact ih.snoc hs

/-- Feed a list of requests to a step function that may refuse one. -/
def exec (f : σ → ρ → Option (ℓ × σ)) : σ → List ρ → Option (List ℓ × σ)
  | s, [] => some ([], s)
  | s, r :: rs => (f s r).bind fun p => (exec f p.2 rs).map fun q => (p.1 :: q.1, q.2)

theorem of_exec {f : σ → ρ → Option (ℓ × σ)} (hf : ∀ s r l t, f s r = some (l, t) → step s l t)
    {rs : List ρ} (h : exec f s rs = some (ls, t)) : Run step s ls t := by
  induction rs generalizing s ls with
  | nil =>
    obtain ⟨rfl, rfl⟩ := Prod.mk.inj (Option.some.inj h)
    exact .nil
  | cons r rs ih =>
    simp only [exec, Option.bind_eq_some_iff, Option.map_eq_some_iff, Prod.mk.injEq] at h
    obtain ⟨⟨l, u⟩, hu, ⟨ls', t'⟩, ht, rfl, rfl⟩ := h
    exact (one (hf s r l u hu)).trans (ih ht)

/-- A step function that takes the events as they come. -/
theorem exec_events {g : σ → ℓ → Option σ} {rs : List ℓ}
    (h : exec (fun s l => (g s l).map (l, ·)) s rs = some (ls, t)) : ls = rs := by
  induction rs generalizing s ls with
  | nil => exact (Prod.mk.inj (Option.some.inj h)).1.symm
  | cons r rs ih =>
    simp only [exec, Option.bind_eq_some_iff, Option.map_eq_some_iff, Prod.mk.injEq] at h
    obtain ⟨p, ⟨u, -, rfl⟩, ⟨ls', t'⟩, ht, rfl, rfl⟩ := h
    obtain rfl := ih ht
    rfl

/-- Two step functions that answer alike in related states do so over whole lists of requests. -/
theorem exec_rel {τ ℓ' : Type*} {f : σ → ρ → Option (ℓ × σ)} {f' : τ → ρ → Option (ℓ' × τ)}
    (R : σ → τ → Prop) (L : ℓ → ℓ' → Prop)
    (hf : ∀ s s' r, R s s' → Option.Rel (fun p q => L p.1 q.1 ∧ R p.2 q.2) (f s r) (f' s' r))
    (rs : List ρ) {s : σ} {s' : τ} (hs : R s s') :
    Option.Rel (fun p q => List.Forall₂ L p.1 q.1 ∧ R p.2 q.2) (exec f s rs) (exec f' s' rs) := by
  induction rs generalizing s s' with
  | nil => exact .some ⟨.nil, hs⟩
  | cons r rs ih =>
    refine (hf s s' r hs).bind fun p q _ hpq => ?_
    exact (ih hpq.2).map fun p' q' hrest => ⟨.cons hpq.1 hrest.1, hrest.2⟩

/-- A system that follows another one, with a list of its own events for each event. -/
theorem simulates {τ κ : Type*} {step' : τ → κ → τ → Prop} (R : σ → τ → Prop) (f : ℓ → List κ)
    (hstep : ∀ s l t a, R s a → step s l t → ∃ b, Run step' a (f l) b ∧ R t b)
    (h : Run step s ls t) {a : τ} (ha : R s a) : ∃ b, Run step' a (ls.flatMap f) b ∧ R t b := by
  induction h with
  | nil => exact ⟨a, .nil, ha⟩
  | snoc _ hs ih =>
    obtain ⟨b, hrun, hb⟩ := ih
    obtain ⟨c, hrun', hc⟩ := hstep _ _ _ b hb hs
    refine ⟨c, ?_, hc⟩
    rw [List.flatMap_append, List.flatMap_singleton]
    exact hrun.trans hrun'

/-- Two systems whose events agree, from related states, whenever the same is asked of them. -/
theorem agree {τ κ : Type*} {step' : τ → ℓ → τ → Prop} (ask : ℓ → κ) (R : σ → τ → Prop)
    (hstep : ∀ s s' l l' t t', R s s' → ask l' = ask l → step s l t → step' s' l' t' →
      l' = l ∧ R t t')
    (h : Run step s ls t) {s' t' : τ} {ls' : List ℓ} (h' : Run step' s' ls' t') (hs : R s s')
    (hask : ls'.map ask = ls.map ask) : ls' = ls ∧ R t t' := by
  induction h generalizing ls' t' with
  | nil =>
    obtain rfl := List.map_eq_nil_iff.mp hask
    obtain rfl := nil_iff.mp h'
    exact ⟨rfl, hs⟩
  | @snoc ls u t l _ hlast ih =>
    rw [List.map_append, List.map_singleton] at hask
    obtain ⟨ls₁, ls₂, rfl, hfirst, hrest⟩ := List.map_eq_append_iff.mp hask
    obtain ⟨l', rfl, hl⟩ := List.map_eq_singleton_iff.mp hrest
    obtain ⟨u', hu', hlast'⟩ := snoc_iff.mp h'
    obtain ⟨rfl, hu⟩ := ih hu' hfirst
    obtain ⟨rfl, ht⟩ := hstep _ _ _ _ _ _ hu hl hlast hlast'
    exact ⟨rfl, ht⟩

/-- The steps of a run that stays inside an invariant. -/
theorem restrict (P : σ → Prop) (hs : P s) (hstep : ∀ t l u, P t → step t l u → P u)
    (h : Run step s ls t) : Run (fun t l u => P t ∧ step t l u) s ls t := by
  induction h with
  | nil => exact .nil
  | snoc h hlast ih => exact ih.snoc ⟨h.invariant P hs hstep, hlast⟩

/-- What a run records one by one it has recorded up to any point at some time. -/
theorem exists_take {β : Type*} {obs : σ → List β}
    (hstep : ∀ s l t, step s l t → ∃ x : Option β, obs t = obs s ++ x.toList)
    (h : Run step s ls t) {k : ℕ} (hk : (obs s).length ≤ k) (hk' : k ≤ (obs t).length) :
    ∃ ls₁ ls₂ u, ls = ls₁ ++ ls₂ ∧ Run step s ls₁ u ∧ Run step u ls₂ t ∧
      obs u = (obs t).take k := by
  induction h with
  | nil => exact ⟨[], [], s, rfl, .nil, .nil, (List.take_of_length_le hk).symm⟩
  | @snoc ls t u l h hlast ih =>
    obtain ⟨x, hx⟩ := hstep _ _ _ hlast
    by_cases hle : k ≤ (obs t).length
    · obtain ⟨ls₁, ls₂, v, rfl, hfirst, hrest, hobs⟩ := ih hle
      refine ⟨ls₁, ls₂ ++ [l], v, List.append_assoc _ _ _, hfirst, hrest.snoc hlast, ?_⟩
      rw [hobs, hx, List.take_append_of_le_length hle]
    · refine ⟨ls ++ [l], [], u, (List.append_nil _).symm, h.snoc hlast, .nil, ?_⟩
      have hlength : (obs u).length ≤ (obs t).length + 1 := by
        rw [hx, List.length_append]
        cases x <;> simp
      exact (List.take_of_length_le (by omega)).symm

end Run
