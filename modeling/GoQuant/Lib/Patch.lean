import GoQuant.Lib.Keyed
import Mathlib.Data.List.Sort

/-!
# Patches of sorted lists

A reader keeps a copy of an ordered map and is told what changes. A patch leads to a map if it
puts only entries that are there, and drops only keys that are not. Where the copy differs from
the map, the patch has to say something; then the order in which it is applied, and what it
says besides, do not matter.

## Main definitions

* `Keyed.put`, `Keyed.drop` — write one entry, or drop one key.
* `Keyed.Change`, `Keyed.patch` — such changes, one after another.

## Main results

* `Keyed.Sorted.ext` — sorted lists with the same entries are the same.
* `Keyed.patch_eq` — a patch that leads to a map turns the copy into it.
-/

namespace Keyed

variable {κ ν : Type*} [DecidableEq κ] {key : ν → κ} {lt : κ → κ → Prop}

omit [DecidableEq κ] in
/-- Sorted lists with the same entries are the same. -/
theorem Sorted.ext [IsStrictTotalOrder κ lt] {l l' : List ν} (h : Sorted key lt l)
    (h' : Sorted key lt l') (hmem : ∀ w, w ∈ l ↔ w ∈ l') : l = l' := by
  have hnodup : ∀ {l : List ν}, Sorted key lt l → l.Nodup := fun hl => by
    refine List.Pairwise.imp (fun {v w} hlt heq => ?_) hl
    subst heq
    exact irrefl_of lt (key v) hlt
  have hperm : l.Perm l' := (List.perm_ext_iff_of_nodup (hnodup h) (hnodup h')).mpr hmem
  refine hperm.eq_of_pairwise (fun v w _ _ hvw hwv => ?_) h h'
  exact absurd (trans_of lt hvw hwv) (irrefl_of lt _)

variable (key lt)

/-- Write an entry in place of the one with its key, or between its neighbours. -/
def put [DecidableRel lt] (v : ν) : List ν → List ν
  | [] => [v]
  | w :: l =>
    if key w = key v then v :: l
    else if lt (key v) (key w) then v :: w :: l
    else w :: put v l

/-- Drop the entry at a key. -/
def drop (k : κ) (l : List ν) : List ν := l.filter fun v => key v ≠ k

end Keyed

/-- A change of one entry. -/
inductive Keyed.Change (κ ν : Type*) where
  | put (v : ν)
  | drop (k : κ)

namespace Keyed

variable {κ ν : Type*} [DecidableEq κ] (key : ν → κ) (lt : κ → κ → Prop) [DecidableRel lt]

/-- The key that a change is about. -/
def Change.at : Change κ ν → κ
  | .put v => key v
  | .drop k => k

def Change.apply : Change κ ν → List ν → List ν
  | .put v => Keyed.put key lt v
  | .drop k => Keyed.drop key k

/-- The changes, one after another. -/
def patch (cs : List (Change κ ν)) (l : List ν) : List ν :=
  cs.foldl (fun l c => c.apply key lt l) l

/-- A change puts an entry of a list, or drops a key that the list does not have. -/
def Change.LeadsTo (l : List ν) : Change κ ν → Prop
  | .put v => v ∈ l
  | .drop k => ∀ w ∈ l, key w ≠ k

variable {key lt} [IsStrictTotalOrder κ lt] {l l' : List ν} {c : Change κ ν}
  {cs : List (Change κ ν)} {v w : ν} {k : κ}

theorem mem_put (h : Sorted key lt l) :
    w ∈ put key lt v l ↔ w = v ∨ w ∈ l ∧ key w ≠ key v := by
  induction l with
  | nil => simp [put]
  | cons u l ih =>
    obtain ⟨hu, hl⟩ := List.pairwise_cons.mp h
    simp only [put]
    split_ifs with hk hlt
    · have hne : ∀ x ∈ l, key x ≠ key v := fun x hx heq =>
        irrefl_of lt (key v) (by simpa [hk, heq] using hu x hx)
      grind
    · have hne : ∀ x ∈ l, key x ≠ key v := fun x hx heq =>
        irrefl_of lt (key v) (heq ▸ trans_of lt hlt (hu x hx))
      grind
    · rw [List.mem_cons, ih hl]
      grind

theorem sorted_put (h : Sorted key lt l) (v : ν) : Sorted key lt (put key lt v l) := by
  induction l with
  | nil => exact List.pairwise_singleton _ _
  | cons u l ih =>
    obtain ⟨hu, hl⟩ := List.pairwise_cons.mp h
    simp only [put]
    split_ifs with hk hlt
    · exact List.pairwise_cons.mpr ⟨fun w hw => hk ▸ hu w hw, hl⟩
    · refine List.pairwise_cons.mpr ⟨fun w hw => ?_, h⟩
      rcases List.mem_cons.mp hw with rfl | hw
      · exact hlt
      · exact trans_of lt hlt (hu w hw)
    · refine List.pairwise_cons.mpr ⟨fun w hw => ?_, ih hl⟩
      rcases (mem_put hl).mp hw with rfl | ⟨hw, -⟩
      · exact ((trichotomous_of lt (key u) (key w)).resolve_right
          fun h => h.elim hk hlt)
      · exact hu w hw

theorem sorted_apply (h : Sorted key lt l) (c : Change κ ν) :
    Sorted key lt (c.apply key lt l) := by
  cases c with
  | put v => exact sorted_put h v
  | drop k => exact List.Pairwise.filter _ h

/-- Away from its key a change leaves everything as it is. -/
theorem mem_apply_of_ne (h : Sorted key lt l) (hne : key w ≠ c.at key) :
    w ∈ c.apply key lt l ↔ w ∈ l := by
  cases c with
  | put v =>
    rw [Change.apply, mem_put h]
    exact ⟨fun hw => hw.elim (fun heq => absurd (congrArg key heq) hne) And.left,
      fun hw => Or.inr ⟨hw, hne⟩⟩
  | drop k =>
    rw [Change.apply, drop, List.mem_filter, decide_eq_true_eq]
    exact and_iff_left hne

/-- At its key a change leads to the list. -/
theorem mem_apply_self (h : Sorted key lt l) (h' : Sorted key lt l') (hc : c.LeadsTo key l')
    (heq : key w = c.at key) : w ∈ c.apply key lt l ↔ w ∈ l' := by
  cases c with
  | put v =>
    rw [Change.apply, mem_put h]
    refine ⟨fun hw => ?_, fun hw => Or.inl (h'.eq_of_key hw hc heq)⟩
    rcases hw with rfl | ⟨-, hne⟩
    · exact hc
    · exact absurd heq hne
  | drop k =>
    refine iff_of_false (fun hw => ?_) fun hw => hc w hw heq
    exact of_decide_eq_true (List.mem_filter.mp hw).2 heq

/-- **A patch that leads to a map turns the copy into it**, if it says something wherever the two
differ. By induction on the patch. -/
theorem patch_eq (h : Sorted key lt l) (h' : Sorted key lt l') (hcs : ∀ c ∈ cs, c.LeadsTo key l')
    (hrest : ∀ w, (∀ c ∈ cs, key w ≠ c.at key) → (w ∈ l ↔ w ∈ l')) :
    patch key lt cs l = l' := by
  induction cs generalizing l with
  | nil => exact h.ext h' fun w => hrest w fun c hc => absurd hc List.not_mem_nil
  | cons c cs ih =>
    refine ih (sorted_apply h c) (fun d hd => hcs d (List.mem_cons_of_mem _ hd)) fun w hw => ?_
    by_cases heq : key w = c.at key
    · exact mem_apply_self h h' (hcs c List.mem_cons_self) heq
    · refine (mem_apply_of_ne h heq).trans (hrest w fun d hd => ?_)
      rcases List.mem_cons.mp hd with rfl | hd
      · exact heq
      · exact hw d hd

end Keyed
