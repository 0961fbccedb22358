import GoQuant.Lib.Fill
import GoQuant.Lib.Ladder
import Mathlib.Data.List.Perm.Subperm

/-!
# Precedence in a list

`Before a b l` says that `a` stands before `b` in a list. Where nothing stands twice, that can only
end when one of them leaves; and where demands are filled from the front, what stands behind gives
nothing before what stands in front has given everything.

## Main results

* `Before.of_sublist`, `Before.mono`, `Before.of_prefix` — entries leave, or come.
* `Fill.give_of_before` — what stands before a giver gives all it has.
* `Ladder.reach_prefix`, `Ladder.items_sublist_push` — the queue of a ladder.
-/

variable {α β κ K : Type*}

/-- One entry stands before another. -/
def Before (a b : α) (l : List α) : Prop := [a, b].Sublist l

instance [DecidableEq α] (a b : α) (l : List α) : Decidable (Before a b l) :=
  inferInstanceAs (Decidable ([a, b].Sublist l))

namespace Before

variable {a b : α} {l l' : List α}

theorem mem_left (h : Before a b l) : a ∈ l := h.subset List.mem_cons_self

theorem mem_right (h : Before a b l) : b ∈ l :=
  h.subset (List.mem_cons_of_mem a List.mem_cons_self)

theorem mono (h : Before a b l) (hl : l.Sublist l') : Before a b l' := List.Sublist.trans h hl

theorem ne (h : Before a b l) (hnd : l.Nodup) : a ≠ b := by
  intro heq
  subst heq
  have hpair := hnd.sublist h
  simp at hpair

/-- The list is cut between the two. -/
theorem exists_append (h : Before a b l) : ∃ l₁ l₂, l = l₁ ++ l₂ ∧ a ∈ l₁ ∧ b ∈ l₂ := by
  obtain ⟨l₁, l₂, rfl, ha, hb⟩ := List.cons_sublist_iff.mp h
  exact ⟨l₁, l₂, rfl, ha, List.singleton_sublist.mp hb⟩

theorem of_append {l₁ l₂ : List α} (ha : a ∈ l₁) (hb : b ∈ l₂) : Before a b (l₁ ++ l₂) :=
  (List.singleton_sublist.mpr ha).append (List.singleton_sublist.mpr hb)

section Distinct

variable [DecidableEq α]

/-- Nothing else is looked at than the two. -/
theorem filter_eq (h : Before a b l) (hnd : l.Nodup) :
    l.filter (fun x => decide (x = a ∨ x = b)) = [a, b] := by
  have hsub : [a, b].Sublist (l.filter fun x => decide (x = a ∨ x = b)) := by
    have hself : [a, b].filter (fun x => decide (x = a ∨ x = b)) = [a, b] := by simp
    exact hself ▸ List.Sublist.filter _ h
  have hle : (l.filter fun x => decide (x = a ∨ x = b)).length ≤ [a, b].length :=
    (List.subperm_of_subset (hnd.filter _) fun x hx => by
      simpa using (List.mem_filter.mp hx).2).length_le
  exact (hsub.eq_of_length_le hle).symm

theorem asymm (h : Before a b l) (hnd : l.Nodup) : ¬ Before b a l := by
  intro h'
  have heq : l.filter (fun x => decide (x = b ∨ x = a)) =
      l.filter fun x => decide (x = a ∨ x = b) :=
    List.filter_congr fun x _ => by simp only [or_comm]
  rw [h'.filter_eq hnd, h.filter_eq hnd] at heq
  exact h.ne hnd (List.cons.inj heq).1.symm

/-- Nothing stands twice, and both are still there. -/
theorem of_sublist (h : Before a b l) (hnd : l.Nodup) (hl : l'.Sublist l) (ha : a ∈ l')
    (hb : b ∈ l') : Before a b l' := by
  have hne := h.ne hnd
  obtain ⟨l₁, l₂, rfl⟩ := List.append_of_mem ha
  rcases List.mem_append.mp hb with hfront | hback
  · exact absurd ((of_append hfront List.mem_cons_self).mono hl) (h.asymm hnd)
  · rcases List.mem_cons.mp hback with heq | hback
    · exact absurd heq.symm hne
    · exact ((List.singleton_sublist.mpr hback).cons_cons a).trans
        (List.sublist_append_right l₁ _)

/-- What stands in front of an entry of the first part is in it, too. -/
theorem of_prefix (h : Before a b l) (hnd : l.Nodup) (hl : l' <+: l) (hb : b ∈ l') :
    Before a b l' := by
  obtain ⟨rest, rfl⟩ := hl
  refine h.of_sublist hnd (List.sublist_append_left l' rest) ?_ hb
  rcases List.mem_append.mp h.mem_left with ha | ha
  · exact ha
  · exact absurd (of_append hb ha) (h.asymm hnd)

end Distinct

end Before

namespace Fill

variable [AddCommGroup K] [LinearOrder K] {qty : α → K} {rem q : K} {l : List α} {a b : α}

/-- Somebody further behind gives something. -/
theorem give_of_before (h : Before a b l) (hnd : l.Nodup) (hb : (b, q) ∈ fills qty rem l) :
    (a, qty a) ∈ fills qty rem l := by
  obtain ⟨l₁, l₂, rfl, hfront, hback⟩ := h.exists_append
  have hapart : b ∉ l₁ := fun hin => (List.nodup_append.mp hnd).2.2 b hin b hback rfl
  rw [fills_append, List.mem_append] at hb ⊢
  rcases hb with hb | hb
  · exact absurd (fst_mem_of_mem_fills hb) hapart
  · have hopen : 0 < unfilled qty rem l₁ := by
      by_contra hclosed
      rw [fills_of_nonpos (not_lt.mp hclosed)] at hb
      cases hb
    left
    rw [fills_of_unfilled_pos hopen]
    exact List.mem_map.mpr ⟨a, hfront, rfl⟩

end Fill

namespace Ladder

variable {ts : List (Tier κ α)}

/-- What is reached stands in front of the rest. -/
theorem reach_prefix (within : κ → Bool) (ts : List (Tier κ α)) : reach within ts <+: items ts := by
  refine ⟨items (ts.dropWhile fun t => within t.key), ?_⟩
  rw [reach, ← items_append, List.takeWhile_append_dropWhile]

/-- A newcomer leaves the others in their order. -/
theorem items_sublist_push [DecidableEq κ] [DecidableEq α] {lt : κ → κ → Prop} [DecidableRel lt]
    {k : κ} {a : α} (h : a ∉ items ts) : (items ts).Sublist (items (push lt k a ts)) := by
  have hretain : retain (fun x => decide (x ≠ a)) (push lt k a ts) =
      retain (fun x => decide (x ≠ a)) ts := retain_push (by simp)
  have hitems := congrArg items hretain
  rw [items_retain, items_retain] at hitems
  have hself : (items ts).filter (fun x => decide (x ≠ a)) = items ts :=
    List.filter_eq_self.mpr fun x hx => by
      simpa using fun heq : x = a => h (heq ▸ hx)
  rw [← hself, ← hitems]
  exact List.filter_sublist

/-! ## Joining a ladder -/

variable [DecidableEq κ] {lt : κ → κ → Prop} [DecidableRel lt] {k : κ} {a : α}

/-- The tiers after somebody has joined: old ones, and the one joined. -/
theorem mem_push {t : Tier κ α} (h : t ∈ push lt k a ts) :
    t ∈ ts ∨ ∃ items, t = ⟨k, items ++ [a]⟩ ∧ ∀ x ∈ items, ⟨k, items⟩ ∈ ts := by
  rcases Keyed.mem_alter.mp h with ⟨u, hu, rfl, heq⟩ | ⟨ht, hkey⟩
  · obtain rfl := Option.some.inj heq
    refine Or.inr ⟨u.items, rfl, fun x hx => ?_⟩
    rcases Keyed.mem_emplace hu with hnew | hold
    · rw [hnew] at hx
      cases hx
    · exact hold
  · rcases Keyed.mem_emplace ht with rfl | hold
    · exact absurd rfl hkey
    · exact Or.inl hold

variable [IsStrictTotalOrder κ lt]

theorem sorted_push (h : Keyed.Sorted Tier.key lt ts) :
    Keyed.Sorted Tier.key lt (push lt k a ts) := by
  refine List.pairwise_filterMap.mpr ((Keyed.pairwise_emplace h _).imp fun {t u} htu => ?_)
  intro t' ht' u' hu'
  have hkey {v v' : Tier κ α} (hv : (if v.key = k then
      some ({ v with items := v.items ++ [a] } : Tier κ α) else some v) = some v') :
      v'.key = v.key := by
    split_ifs at hv <;> rw [← Option.some.inj hv]
  rw [hkey ht', hkey hu']
  exact htu

/-- Nobody is lost, by induction on the tiers. -/
theorem items_push_perm (h : Keyed.Sorted Tier.key lt ts) :
    (items (push lt k a ts)).Perm (a :: items ts) := by
  induction ts with
  | nil => rw [push_of_ahead (fun t ht => absurd ht List.not_mem_nil)]; exact List.Perm.refl _
  | cons t ts ih =>
    obtain ⟨hfirst, hrest⟩ := List.pairwise_cons.mp h
    rcases trichotomous_of lt k t.key with hlt | rfl | hgt
    · rw [push_of_ahead]
      · exact List.Perm.refl _
      · intro u hu
        rcases List.mem_cons.mp hu with rfl | hu
        · exact hlt
        · exact trans_of lt hlt (hfirst u hu)
    · rw [push_cons_self h, items_cons, items_cons]
      have hmiddle : ((t.items ++ [a]) ++ items ts).Perm (a :: (t.items ++ items ts)) := by
        rw [List.append_assoc]
        exact List.perm_middle
      exact hmiddle
    · have hne : t.key ≠ k := fun heq => irrefl_of lt k (heq ▸ hgt)
      rw [push_cons_of_behind hne (asymm_of lt hgt), items_cons, items_cons]
      exact ((ih hrest).append_left t.items).trans List.perm_middle

end Ladder
