import GoQuant.Lib.Keyed
import Mathlib.Algebra.BigOperators.Group.List.Basic

/-!
# Ladders of queues

A ladder is a sorted list of tiers; a tier is a queue of items at one key. Items arrive at
the tail of the queue of their key and are looked at in ladder order, queue by queue. A tier
whose queue empties disappears.

## Main definitions

* `Ladder.items` — all items, in ladder order.
* `Ladder.update` — rewrite or drop every item, dropping the tiers that empty.
* `Ladder.retain` — keep the items that pass a test, dropping the tiers that empty.
* `Ladder.push` — append an item to the queue of its key.
* `Ladder.reach` — the items of the tiers before the first one a bound excludes.
-/

/-- A queue of items at a key. -/
structure Tier (κ α : Type*) where
  key : κ
  items : List α
  deriving DecidableEq

/-- The same tier with other items. -/
def Tier.map {κ α β : Type*} (g : α → β) (t : Tier κ α) : Tier κ β := ⟨t.key, t.items.map g⟩

namespace Ladder

variable {κ α β γ : Type*}

/-- The items of a ladder in ladder order. -/
def items (ts : List (Tier κ α)) : List α := ts.flatMap Tier.items

/-- A tier with a new queue, unless that is empty. -/
def refill (t : Tier κ α) : List β → Option (Tier κ β)
  | [] => none
  | b :: bs => some ⟨t.key, b :: bs⟩

/-- Rewrite every item, dropping the items answered `none` and the tiers that empty. -/
def update (f : α → Option β) (ts : List (Tier κ α)) : List (Tier κ β) :=
  ts.filterMap fun t => refill t (t.items.filterMap f)

/-- Drop the items a test refuses, and the tiers that empty. -/
def retain (p : α → Bool) : List (Tier κ α) → List (Tier κ α) := update (Option.guard p)

/-- Append an item to the queue of its key, opening a tier if there is none. -/
def push [DecidableEq κ] (lt : κ → κ → Prop) [DecidableRel lt] (k : κ) (a : α)
    (ts : List (Tier κ α)) : List (Tier κ α) :=
  Keyed.alter Tier.key k (fun t => some { t with items := t.items ++ [a] })
    (Keyed.emplace Tier.key lt ⟨k, []⟩ ts)

/-- The items of the tiers before the first one that fails a bound on keys. -/
def reach (within : κ → Bool) (ts : List (Tier κ α)) : List α :=
  items (ts.takeWhile fun t => within t.key)

variable {f : α → Option β} {ts : List (Tier κ α)}

theorem refill_eq_some {t : Tier κ α} {u : Tier κ β} {bs : List β} :
    refill t bs = some u ↔ u = ⟨t.key, bs⟩ ∧ bs ≠ [] := by
  cases bs <;> simp [refill, eq_comm]

theorem refill_of_ne {t : Tier κ α} {bs : List β} (h : bs ≠ []) :
    refill t bs = some ⟨t.key, bs⟩ :=
  refill_eq_some.mpr ⟨rfl, h⟩

theorem refill_key {t u : Tier κ α} (h : t.key = u.key) (bs : List β) :
    refill t bs = refill u bs := by
  cases bs <;> simp [refill, h]

theorem mem_items {a : α} : a ∈ items ts ↔ ∃ t ∈ ts, a ∈ t.items := by
  simp [items]

theorem items_cons (t : Tier κ α) (ts : List (Tier κ α)) :
    items (t :: ts) = t.items ++ items ts := by
  simp [items]

theorem items_append (ts us : List (Tier κ α)) : items (ts ++ us) = items ts ++ items us :=
  List.flatMap_append

theorem items_update : items (update f ts) = (items ts).filterMap f := by
  induction ts with
  | nil => rfl
  | cons t ts ih =>
    rw [items_cons, List.filterMap_append, ← ih, update, List.filterMap_cons]
    cases h : t.items.filterMap f with
    | nil => simp [refill, update]
    | cons a as => simp [refill, items, update]

theorem items_retain (p : α → Bool) : items (retain p ts) = (items ts).filter p := by
  rw [retain, items_update, List.filterMap_eq_filter]

theorem update_congr {f' : α → Option β} (h : ∀ a ∈ items ts, f a = f' a) :
    update f ts = update f' ts := by
  refine List.filterMap_congr fun t ht => ?_
  rw [List.filterMap_congr fun a ha => h a (mem_items.mpr ⟨t, ht, ha⟩)]

theorem retain_congr {p p' : α → Bool} (h : ∀ a ∈ items ts, p a = p' a) :
    retain p ts = retain p' ts :=
  update_congr fun a ha => by simp [Option.guard, h a ha]

theorem update_some (h : ∀ t ∈ ts, t.items ≠ []) : update some ts = ts := by
  have hcongr : update some ts = ts.filterMap some :=
    List.filterMap_congr fun t ht => by simp [refill_eq_some, h t ht]
  simpa using hcongr

theorem retain_eq_self {p : α → Bool} (hne : ∀ t ∈ ts, t.items ≠ [])
    (h : ∀ a ∈ items ts, p a = true) : retain p ts = ts := by
  have hsome : retain p ts = update some ts :=
    update_congr fun a ha => by simp [Option.guard, h a ha]
  rw [hsome, update_some hne]

theorem update_update (g : β → Option γ) :
    update g (update f ts) = update (fun a => (f a).bind g) ts := by
  simp only [update, List.filterMap_filterMap]
  refine List.filterMap_congr fun t _ => ?_
  rw [← List.filterMap_filterMap]
  cases h : t.items.filterMap f with
  | nil => rfl
  | cons a as => rfl

theorem retain_retain (p q : α → Bool) :
    retain q (retain p ts) = retain (fun a => p a && q a) ts := by
  simp only [retain, update_update]
  refine update_congr fun a _ => ?_
  cases hp : p a <;> cases hq : q a <;> simp [Option.guard, hp, hq]

theorem update_map (g : γ → α) (ts : List (Tier κ γ)) :
    update f (ts.map (Tier.map g)) = update (fun c => f (g c)) ts := by
  simp only [update, List.filterMap_map]
  refine List.filterMap_congr fun t _ => ?_
  simp only [Function.comp_apply, Tier.map, List.filterMap_map]
  rfl

theorem map_congr {g g' : α → γ} (h : ∀ a ∈ items ts, g a = g' a) :
    ts.map (Tier.map g) = ts.map (Tier.map g') := by
  refine List.map_congr_left fun t ht => ?_
  unfold Tier.map
  rw [List.map_congr_left fun a ha => h a (mem_items.mpr ⟨t, ht, ha⟩)]

theorem map_map (g : α → β) (g' : β → γ) (ts : List (Tier κ α)) :
    (ts.map (Tier.map g)).map (Tier.map g') = ts.map (Tier.map fun a => g' (g a)) := by
  simp [Tier.map, Function.comp_def]

theorem reach_map (g : α → β) (within : κ → Bool) (ts : List (Tier κ α)) :
    reach within (ts.map (Tier.map g)) = (reach within ts).map g := by
  simp only [reach, items, List.takeWhile_map, List.flatMap_map, List.map_flatMap]
  rfl

theorem map_update (g : β → γ) :
    (update f ts).map (Tier.map g) = update (fun a => (f a).map g) ts := by
  simp only [update, List.map_filterMap]
  refine List.filterMap_congr fun t _ => ?_
  rw [← List.map_filterMap]
  cases h : t.items.filterMap f with
  | nil => rfl
  | cons a as => rfl

section Push

variable [DecidableEq κ] {lt : κ → κ → Prop} [DecidableRel lt] {k : κ} {a b : α}

theorem mem_items_push : b ∈ items (push lt k a ts) ↔ b ∈ items ts ∨ b = a := by
  simp only [mem_items, push, Keyed.mem_alter, Option.some.injEq]
  constructor
  · rintro ⟨t, ⟨u, hu, hk, rfl⟩ | ⟨ht, hk⟩, hb⟩
    · rcases List.mem_append.mp hb with hb | hb
      · rcases Keyed.mem_emplace hu with rfl | hu
        · simp at hb
        · exact Or.inl ⟨u, hu, hb⟩
      · exact Or.inr (List.mem_singleton.mp hb)
    · rcases Keyed.mem_emplace ht with rfl | ht
      · exact absurd rfl hk
      · exact Or.inl ⟨t, ht, hb⟩
  · rintro (⟨t, ht, hb⟩ | rfl)
    · have ht' : t ∈ Keyed.emplace Tier.key lt ⟨k, []⟩ ts := Keyed.mem_emplace_of_mem ht
      by_cases hk : t.key = k
      · exact ⟨_, Or.inl ⟨t, ht', hk, rfl⟩, List.mem_append_left _ hb⟩
      · exact ⟨t, Or.inr ⟨ht', hk⟩, hb⟩
    · obtain ⟨t, ht, hk⟩ : ∃ t ∈ Keyed.emplace Tier.key lt ⟨k, []⟩ ts, t.key = k :=
        Keyed.exists_key_emplace (⟨k, []⟩ : Tier κ α) ts
      exact ⟨_, Or.inl ⟨t, ht, hk, rfl⟩, by simp⟩

/-- Dropping the pushed item again. -/
theorem retain_push {p : α → Bool} (ha : p a = false) :
    retain p (push lt k a ts) = retain p ts := by
  have happend : ∀ us : List (Tier κ α), retain p (Keyed.alter Tier.key k
      (fun t => some { t with items := t.items ++ [a] }) us) = retain p us := by
    intro us
    simp only [retain, update, Keyed.alter, List.filterMap_filterMap, List.filterMap_eq_filter]
    refine List.filterMap_congr fun t _ => ?_
    split_ifs with hk
    · have hfilter : (t.items ++ [a]).filter p = t.items.filter p := by simp [ha]
      simp only [Option.bind_some, hfilter]
      exact refill_key rfl _
    · rfl
  have hempty : ∀ us : List (Tier κ α), retain p (⟨k, []⟩ :: us) = retain p us :=
    fun _ => rfl
  rw [push, happend]
  induction ts with
  | nil => exact hempty []
  | cons t ts ih =>
    simp only [Keyed.emplace]
    split_ifs with hk hlt
    · rfl
    · exact hempty (t :: ts)
    · simp only [retain, update, List.filterMap_cons] at ih ⊢
      rw [ih]

theorem map_push (g : α → β) :
    (push lt k a ts).map (Tier.map g) = push lt k (g a) (ts.map (Tier.map g)) := by
  have hkey : ∀ t : Tier κ α, Tier.key (Tier.map g t) = Tier.key t := fun _ => rfl
  unfold push
  rw [Keyed.map_alter (Tier.map g) hkey
      (fun t => some { t with items := t.items ++ [g a] }),
    Keyed.map_emplace (Tier.map g) hkey]
  · rfl
  · intro t _ _
    simp [Tier.map]

end Push

section Sorted

variable [DecidableEq κ] {lt : κ → κ → Prop} [DecidableRel lt] [IsStrictTotalOrder κ lt] {k : κ}
  {a : α} {t : Tier κ α} {p : α → Bool}

omit [DecidableEq κ] [DecidableRel lt] [IsStrictTotalOrder κ lt] in
theorem sorted_update (h : Keyed.Sorted Tier.key lt ts) (f : α → Option β) :
    Keyed.Sorted Tier.key lt (update f ts) := by
  refine List.pairwise_filterMap.mpr (h.imp fun {t u} htu => ?_)
  intro t' ht' u' hu'
  obtain ⟨rfl, -⟩ := refill_eq_some.mp ht'
  obtain ⟨rfl, -⟩ := refill_eq_some.mp hu'
  exact htu

omit [DecidableEq κ] in
theorem retain_cons (p : α → Bool) (t : Tier κ α) (ts : List (Tier κ α)) :
    retain p (t :: ts) = (refill t (t.items.filter p)).toList ++ retain p ts := by
  simp only [retain, update, List.filterMap_eq_filter, List.filterMap_cons]
  cases refill t (t.items.filter p) <;> rfl

/-- An item at a key before all others opens the first tier. -/
theorem push_of_ahead (h : ∀ t ∈ ts, lt k t.key) : push lt k a ts = ⟨k, [a]⟩ :: ts := by
  have hne : ∀ t ∈ ts, t.key ≠ k := by
    rintro t ht rfl
    exact irrefl_of lt _ (h t ht)
  have hemplace : Keyed.emplace Tier.key lt (⟨k, []⟩ : Tier κ α) ts = ⟨k, []⟩ :: ts := by
    cases ts with
    | nil => rfl
    | cons t ts =>
      simp [Keyed.emplace, hne t List.mem_cons_self, h t List.mem_cons_self]
  have hcons : push lt k a ts = ⟨k, [a]⟩ :: Keyed.alter Tier.key k
      (fun t => some { t with items := t.items ++ [a] }) ts := by
    rw [push, hemplace, Keyed.alter, List.filterMap_cons, if_pos rfl]
    rfl
  rw [hcons, Keyed.alter_eq_self hne]

/-- An item at the key of the first tier joins its queue. -/
theorem push_cons_self (h : Keyed.Sorted Tier.key lt (t :: ts)) :
    push lt t.key a (t :: ts) = ⟨t.key, t.items ++ [a]⟩ :: ts := by
  have hne : ∀ u ∈ ts, u.key ≠ t.key := by
    intro u hu heq
    have hlt := (List.pairwise_cons.mp h).1 u hu
    rw [heq] at hlt
    exact irrefl_of lt _ hlt
  have hcons : push lt t.key a (t :: ts) = ⟨t.key, t.items ++ [a]⟩ ::
      Keyed.alter Tier.key t.key (fun t => some { t with items := t.items ++ [a] }) ts := by
    rw [push, Keyed.emplace, if_pos rfl, Keyed.alter, List.filterMap_cons, if_pos rfl]
    rfl
  rw [hcons, Keyed.alter_eq_self hne]

omit [IsStrictTotalOrder κ lt] in
/-- An item at a key behind the first tier leaves that alone. -/
theorem push_cons_of_behind (hne : t.key ≠ k) (hlt : ¬ lt k t.key) :
    push lt k a (t :: ts) = t :: push lt k a ts := by
  rw [push, Keyed.emplace, if_neg hne, if_neg hlt, Keyed.alter, List.filterMap_cons, if_neg hne]
  rfl

/-- An item at a key behind all others opens the last tier. -/
theorem push_of_behind (h : ∀ t ∈ ts, lt t.key k) : push lt k a ts = ts ++ [⟨k, [a]⟩] := by
  induction ts with
  | nil => exact push_of_ahead fun t ht => absurd ht List.not_mem_nil
  | cons t ts ih =>
    obtain ⟨ht, hts⟩ := List.forall_mem_cons.mp h
    have hne : t.key ≠ k := by
      rintro rfl
      exact irrefl_of lt _ ht
    rw [push_cons_of_behind hne (asymm_of lt ht), ih hts, List.cons_append]

/-- An item that passes the test can be pushed before or after the others are dropped. -/
theorem retain_push_of_pos (h : Keyed.Sorted Tier.key lt ts) (ha : p a = true) :
    retain p (push lt k a ts) = push lt k a (retain p ts) := by
  induction ts with
  | nil =>
    have hnone : ∀ t ∈ ([] : List (Tier κ α)), lt k t.key := fun t ht => absurd ht List.not_mem_nil
    rw [push_of_ahead hnone, retain_cons, retain, update, List.filterMap_nil, push_of_ahead hnone]
    simp [ha, refill]
  | cons t ts ih =>
    obtain ⟨hbehind, hs⟩ := List.pairwise_cons.mp h
    have hretained : Keyed.Sorted Tier.key lt (retain p (t :: ts)) := sorted_update h _
    have hahead : ∀ u ∈ retain p ts, lt t.key u.key := by
      intro u hu
      obtain ⟨v, hv, hrefill⟩ := List.mem_filterMap.mp hu
      obtain ⟨rfl, -⟩ := refill_eq_some.mp hrefill
      exact hbehind v hv
    rw [retain_cons] at hretained ⊢
    by_cases hk : t.key = k
    · subst hk
      rw [push_cons_self h, retain_cons, List.filter_append]
      cases hfilter : t.items.filter p with
      | nil =>
        rw [show refill t [] = (none : Option (Tier κ α)) from rfl, Option.toList_none,
          List.nil_append, List.nil_append, push_of_ahead hahead]
        simp [ha, refill]
      | cons c cs =>
        rw [hfilter] at hretained
        refine Eq.trans ?_ (push_cons_self hretained).symm
        simp [ha, refill]
    · by_cases hlt : lt k t.key
      · have hfirst : ∀ u ∈ t :: ts, lt k u.key := by
          intro u hu
          rcases List.mem_cons.mp hu with rfl | hu
          · exact hlt
          · exact trans_of lt hlt (hbehind u hu)
        have hfirst' : ∀ u ∈ retain p (t :: ts), lt k u.key := by
          intro u hu
          obtain ⟨v, hv, hrefill⟩ := List.mem_filterMap.mp hu
          obtain ⟨rfl, -⟩ := refill_eq_some.mp hrefill
          exact hfirst v hv
        rw [← retain_cons, push_of_ahead hfirst, push_of_ahead hfirst', retain_cons]
        simp [ha, refill]
      · rw [push_cons_of_behind hk hlt, retain_cons, ih hs]
        cases hfilter : t.items.filter p with
        | nil => rfl
        | cons c cs =>
          refine Eq.trans ?_ (push_cons_of_behind (t := ⟨t.key, c :: cs⟩) hk hlt).symm
          rfl

end Sorted

section Depth

variable {K : Type*} [AddCommMonoid K] {qty : α → K}

/-- The keys, each with the total of its queue. -/
def depth (qty : α → K) (ts : List (Tier κ α)) : List (κ × K) :=
  ts.map fun t => (t.key, (t.items.map qty).sum)

/-- The depth after a push. -/
theorem depth_push [DecidableEq κ] {lt : κ → κ → Prop} [DecidableRel lt] (k : κ) (a : α)
    (ts : List (Tier κ α)) : depth qty (push lt k a ts) =
      Keyed.alter Prod.fst k (fun l => some (l.1, l.2 + qty a))
        (Keyed.emplace Prod.fst lt (k, 0) (depth qty ts)) := by
  have hkey : ∀ t : Tier κ α, Prod.fst (t.key, (t.items.map qty).sum) = Tier.key t := fun _ => rfl
  unfold depth push
  rw [Keyed.map_alter _ hkey (fun l => some (l.1, l.2 + qty a)), Keyed.map_emplace _ hkey]
  · rfl
  · intro t _ _
    simp

end Depth

end Ladder
