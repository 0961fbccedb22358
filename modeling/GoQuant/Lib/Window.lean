import Mathlib.Data.List.DropRight
import Mathlib.Tactic.Common

/-!
# Bounded histories

A history that keeps only its last entries: an entry is appended, and when there are more than
the bound allows the oldest is dropped. It is read back through a window of indices at its end.

## Main results

* `rtake_push` — the last entries of the longer history.
* `mapM_window` — reading a window of indices gives the last entries, and never misses.
-/

namespace Window

variable {α : Type*}

theorem length_rtake (l : List α) (n : ℕ) : (l.rtake n).length = min n l.length := by
  rw [List.rtake.eq_1, List.length_drop]
  omega

/-- The last of the last entries. -/
theorem rtake_rtake (l : List α) (m n : ℕ) : (l.rtake n).rtake m = l.rtake (min m n) := by
  simp only [List.rtake.eq_1, List.length_drop, List.drop_drop]
  congr 1
  omega

/-- There are no more entries than there are. -/
theorem rtake_min_length (l : List α) (n : ℕ) : l.rtake (min l.length n) = l.rtake n := by
  rw [List.rtake.eq_1, List.rtake.eq_1]
  congr 1
  omega

/-- An entry is appended to the last `bound` entries, and the oldest of more than `bound` is
dropped. -/
theorem rtake_push (l : List α) (a : α) {bound : ℕ} (hbound : 0 < bound) :
    (if bound < (l.rtake bound ++ [a]).length then (l.rtake bound ++ [a]).tail
      else l.rtake bound ++ [a]) = (l ++ [a]).rtake bound := by
  obtain ⟨n, rfl⟩ := Nat.exists_eq_succ_of_ne_zero hbound.ne'
  rw [List.length_append, length_rtake, List.length_singleton, List.rtake_concat_succ]
  split_ifs with hfull
  · have hlong : n < l.length := by omega
    have hne : l.rtake n.succ ≠ [] := by
      intro hnil
      have hlength := congrArg List.length hnil
      rw [length_rtake, List.length_nil] at hlength
      omega
    rw [List.tail_append_of_ne_nil hne, List.rtake.eq_1, List.rtake.eq_1, List.tail_drop]
    congr 2
    omega
  · rw [List.rtake.eq_1, List.rtake.eq_1]
    congr 2
    omega

/-- Reading the entries from an index on, by induction on how many there are. -/
theorem mapM_range' (l : List α) (k n : ℕ) (h : k + n = l.length) :
    (List.range' k n).mapM (l[·]?) = some (l.drop k) := by
  induction n generalizing k with
  | zero =>
    rw [List.range'_zero, List.mapM_nil, List.drop_eq_nil_of_le (by omega)]
    rfl
  | succ n ih =>
    have hk : k < l.length := by omega
    rw [List.range'_succ, List.mapM_cons, ih (k + 1) (by omega), List.getElem?_eq_getElem hk,
      List.drop_eq_getElem_cons hk]
    rfl

/-- Reading the last `n` indices. -/
theorem mapM_window (l : List α) {n : ℕ} (h : n ≤ l.length) :
    ((List.range l.length).drop (l.length - n)).mapM (l[·]?) = some (l.rtake n) := by
  rw [List.range_eq_range', List.drop_range', mapM_range' l _ _ (by omega), List.rtake.eq_1]
  congr 2
  omega

end Window
