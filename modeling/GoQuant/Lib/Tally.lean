import Mathlib.Algebra.BigOperators.Group.Finset.Basic
import Mathlib.Tactic.Abel

/-!
# Totals kept in step

A running total is kept in step with the values it sums when every change of a value changes
it by the same amount. Whatever the total was at first: when the values are what they were,
so is the total.

## Main results

* `Tally.change` — one value changes, and the total with it.
* `Tally.total_eq` — the total returns with the values.
-/

variable {ι M : Type*} [AddCommGroup M] {total total' total'' : M} {f f' f'' : ι → M}

/-- Two totals differ by as much as the values they sum. -/
def Tally (total : M) (f : ι → M) (total' : M) (f' : ι → M) : Prop :=
  ∃ I : Finset ι, (∀ i ∉ I, f' i = f i) ∧ total' = total + ∑ i ∈ I, (f' i - f i)

namespace Tally

theorem refl (total : M) (f : ι → M) : Tally total f total f :=
  ⟨∅, fun _ _ => rfl, by simp⟩

theorem congr (h : Tally total f total' f') (hf : ∀ i, f'' i = f' i) :
    Tally total f total' f'' := by
  obtain rfl : f'' = f' := funext hf
  exact h

theorem change [DecidableEq ι] (h : Tally total f total' f') (i : ι)
    (hf : ∀ j, j ≠ i → f'' j = f' j) (ht : total'' = total' + (f'' i - f' i)) :
    Tally total f total'' f'' := by
  obtain ⟨I, hI, rfl⟩ := h
  refine ⟨insert i I, fun j hj => ?_, ?_⟩
  · obtain ⟨hne, hj⟩ := not_or.mp (mt Finset.mem_insert.mpr hj)
    exact (hf j hne).trans (hI j hj)
  · have hold : ∑ j ∈ insert i I, (f' j - f j) = ∑ j ∈ I, (f' j - f j) := by
      refine (Finset.sum_subset (Finset.subset_insert i I) fun j _ hj => ?_).symm
      rw [hI j hj, sub_self]
    have hnew : ∑ j ∈ insert i I, (f'' j - f' j) = f'' i - f' i := by
      refine Finset.sum_eq_single i (fun j _ hne => ?_) fun hi => ?_
      · rw [hf j hne, sub_self]
      · exact absurd (Finset.mem_insert_self i I) hi
    have hsum : ∑ j ∈ insert i I, (f'' j - f j) =
        ∑ j ∈ insert i I, (f' j - f j) + ∑ j ∈ insert i I, (f'' j - f' j) := by
      rw [← Finset.sum_add_distrib]
      exact Finset.sum_congr rfl fun j _ => by abel
    rw [ht, hsum, hold, hnew]
    abel

theorem total_eq (h : Tally total f total' f') (hf : ∀ i, f' i = f i) : total' = total := by
  obtain ⟨I, -, rfl⟩ := h
  have hzero : ∑ i ∈ I, (f' i - f i) = 0 :=
    Finset.sum_eq_zero fun i _ => by rw [hf i, sub_self]
  rw [hzero, add_zero]

end Tally
