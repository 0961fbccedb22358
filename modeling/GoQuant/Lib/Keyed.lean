import Mathlib.Data.List.Forall2
import Mathlib.Order.Defs.Unbundled
import Mathlib.Tactic.Common

/-!
# Sorted lists of keyed entries

An ordered map is the list of its entries in the order of a comparator `lt` on their keys.
`alter` rewrites or drops the entry at a key, `emplace` inserts an entry unless its key is
present, `find` looks a key up.

## Main results

* `sublistForall₂_alter`, `Sorted.of_sublistForall₂`, `pairwise_emplace` — both keep the
  entries sorted.
* `mem_alter`, `mem_emplace` — which entries are in the result.
* `map_alter`, `map_emplace` — both commute with a key preserving map of the entries.
* `takeWhile_eq_filter` — on a sorted list a downward closed test cuts a prefix.
* `pairwise_of_sublist`, `pairwise_of_filter` — orders of entries carried over along their keys.
-/

namespace Keyed

variable {κ ν μ : Type*} [DecidableEq κ] (key : ν → κ)

/-- The entry at a key. -/
def find (k : κ) (l : List ν) : Option ν := l.find? fun v => key v = k

/-- Rewrite the entry at a key, or drop it when `f` answers `none`. -/
def alter (k : κ) (f : ν → Option ν) (l : List ν) : List ν :=
  l.filterMap fun v => if key v = k then f v else some v

/-- Insert an entry in comparator order unless its key is present. -/
def emplace (lt : κ → κ → Prop) [DecidableRel lt] (v : ν) : List ν → List ν
  | [] => [v]
  | w :: l =>
    if key w = key v then w :: l
    else if lt (key v) (key w) then v :: w :: l
    else w :: emplace lt v l

/-- Entries strictly increasing in the comparator. -/
def Sorted (lt : κ → κ → Prop) (l : List ν) : Prop := l.Pairwise fun v w => lt (key v) (key w)

variable {key} {k : κ} {f : ν → Option ν} {l : List ν}

theorem mem_alter {w : ν} :
    w ∈ alter key k f l ↔ (∃ v ∈ l, key v = k ∧ f v = some w) ∨ (w ∈ l ∧ key w ≠ k) := by
  simp only [alter, List.mem_filterMap]
  constructor
  · rintro ⟨v, hv, h⟩
    split_ifs at h with hk
    · exact Or.inl ⟨v, hv, hk, h⟩
    · obtain rfl := Option.some.inj h
      exact Or.inr ⟨hv, hk⟩
  · rintro (⟨v, hv, hk, h⟩ | ⟨hw, hk⟩)
    · exact ⟨v, hv, by rw [if_pos hk, h]⟩
    · exact ⟨w, hw, if_neg hk⟩

theorem alter_eq_self_of_some (h : ∀ v ∈ l, key v = k → f v = some v) : alter key k f l = l := by
  rw [alter, List.filterMap_congr (g := some) fun v hv => ?_, List.filterMap_some]
  split_ifs with hk
  · exact h v hv hk
  · rfl

theorem alter_eq_self (h : ∀ v ∈ l, key v ≠ k) : alter key k f l = l :=
  alter_eq_self_of_some fun v hv hk => absurd hk (h v hv)

theorem map_alter {key' : μ → κ} (g : ν → μ) (hkey : ∀ v, key' (g v) = key v)
    (f' : μ → Option μ) (hf : ∀ v ∈ l, key v = k → (f v).map g = f' (g v)) :
    (alter key k f l).map g = alter key' k f' (l.map g) := by
  simp only [alter, List.map_filterMap, List.filterMap_map]
  refine List.filterMap_congr fun v hv => ?_
  by_cases hk : key v = k
  · simp [hkey, hk, hf v hv hk]
  · simp [hkey, hk]

/-- Rewriting an entry to one below it leaves entries below the old ones. -/
theorem sublistForall₂_alter {R : ν → ν → Prop} [Std.Refl R]
    (hf : ∀ v w, f v = some w → R w v) : List.SublistForall₂ R (alter key k f l) l := by
  induction l with
  | nil => exact .nil
  | cons v l ih =>
    have hcons : alter key k f (v :: l) =
        ((if key v = k then f v else some v).toList ++ alter key k f l) := by
      simp only [alter, List.filterMap_cons]
      split <;> simp_all
    rw [hcons]
    split_ifs with hk
    · cases hfv : f v with
      | none => exact .cons_right ih
      | some w => exact .cons (hf v w hfv) ih
    · exact .cons (refl_of R v) ih

theorem find_eq_none : find key k l = none ↔ ∀ v ∈ l, key v ≠ k := by
  simp [find]

theorem find_some {v : ν} (h : find key k l = some v) : v ∈ l ∧ key v = k := by
  refine ⟨List.mem_of_find?_eq_some h, ?_⟩
  simpa using List.find?_some h

theorem find_isSome_of_mem {v : ν} (hv : v ∈ l) (hk : key v = k) : (find key k l).isSome := by
  rw [find, List.find?_isSome]
  exact ⟨v, hv, by simpa using hk⟩

theorem find_map {key' : μ → κ} (g : ν → μ) (hkey : ∀ v, key' (g v) = key v) :
    find key' k (l.map g) = (find key k l).map g := by
  have hcomp : ((fun w => decide (key' w = k)) ∘ g) = fun v => decide (key v = k) := by
    funext v
    simp [hkey]
  rw [find, List.find?_map, hcomp, find]

section Emplace

variable {lt : κ → κ → Prop} [DecidableRel lt]

theorem mem_emplace_of_mem {v w : ν} (h : w ∈ l) : w ∈ emplace key lt v l := by
  induction l with
  | nil => simp at h
  | cons u l ih => grind [emplace]

theorem mem_emplace {v w : ν} (h : w ∈ emplace key lt v l) : w = v ∨ w ∈ l := by
  induction l with
  | nil => simpa [emplace] using h
  | cons u l ih => grind [emplace]

theorem exists_key_emplace (v : ν) (l : List ν) : ∃ w ∈ emplace key lt v l, key w = key v := by
  induction l with
  | nil => exact ⟨v, by simp [emplace], rfl⟩
  | cons u l ih => grind [emplace]

theorem map_emplace {key' : μ → κ} (g : ν → μ) (hkey : ∀ v, key' (g v) = key v) (v : ν)
    (l : List ν) : (emplace key lt v l).map g = emplace key' lt (g v) (l.map g) := by
  induction l with
  | nil => rfl
  | cons u l ih =>
    simp only [emplace, List.map_cons, hkey]
    split_ifs <;> simp [ih]

/-- What comes after all entries goes to the end. -/
theorem emplace_eq_append [IsStrictOrder κ lt] {v : ν} (h : ∀ w ∈ l, lt (key w) (key v)) :
    emplace key lt v l = l ++ [v] := by
  induction l with
  | nil => rfl
  | cons w l ih =>
    have hlt := h w List.mem_cons_self
    have hne : key w ≠ key v := fun heq => irrefl_of lt (key v) (heq ▸ hlt)
    have hnlt : ¬ lt (key v) (key w) := fun hlt' => asymm_of lt hlt hlt'
    rw [emplace, if_neg hne, if_neg hnlt, ih fun u hu => h u (List.mem_cons_of_mem w hu)]
    rfl

/-- Entries that come in order stay in order. -/
theorem foldl_emplace [IsStrictOrder κ lt] {vs : List ν} (h : Sorted key lt (l ++ vs)) :
    vs.foldl (fun l v => emplace key lt v l) l = l ++ vs := by
  induction vs generalizing l with
  | nil => simp
  | cons v vs ih =>
    have hlast : ∀ w ∈ l, lt (key w) (key v) := fun w hw =>
      (List.pairwise_append.mp h).2.2 w hw v List.mem_cons_self
    have happend : l ++ v :: vs = l ++ [v] ++ vs := by simp
    rw [List.foldl_cons, emplace_eq_append hlast, happend]
    exact ih (happend ▸ h)

end Emplace

theorem mem_of_sublistForall₂ {R : μ → ν → Prop} {l' : List μ} (h : List.SublistForall₂ R l' l)
    {w : μ} (hw : w ∈ l') : ∃ v ∈ l, R w v := by
  induction h with
  | nil => simp at hw
  | cons hR _ ih =>
    rcases List.mem_cons.mp hw with rfl | hw
    · exact ⟨_, List.mem_cons_self, hR⟩
    · obtain ⟨v, hv, h⟩ := ih hw
      exact ⟨v, List.mem_cons_of_mem _ hv, h⟩
  | cons_right _ ih =>
    obtain ⟨v, hv, h⟩ := ih hw
    exact ⟨v, List.mem_cons_of_mem _ hv, h⟩

omit [DecidableEq κ] in
theorem Sorted.of_sublistForall₂ {lt : κ → κ → Prop} {R : ν → ν → Prop} {l' : List ν}
    (h : Sorted key lt l) (hl : List.SublistForall₂ R l' l) (hR : ∀ w v, R w v → key w = key v) :
    Sorted key lt l' := by
  induction hl with
  | nil => exact List.Pairwise.nil
  | cons hab hl ih =>
    have hcons := List.pairwise_cons.mp h
    refine List.pairwise_cons.mpr ⟨fun w hw => ?_, ih hcons.2⟩
    obtain ⟨v, hv, hwv⟩ := mem_of_sublistForall₂ hl hw
    rw [hR _ _ hab, hR _ _ hwv]
    exact hcons.1 v hv
  | cons_right _ ih => exact ih (List.pairwise_cons.mp h).2

omit [DecidableEq κ] in
/-- On a sorted list, a test that holds before every place where it holds cuts a prefix. -/
theorem takeWhile_eq_filter {lt : κ → κ → Prop} {p : ν → Bool} (h : Sorted key lt l)
    (hp : ∀ v w, lt (key v) (key w) → p w → p v) : l.takeWhile p = l.filter p := by
  induction l with
  | nil => rfl
  | cons u l ih =>
    have hu := List.pairwise_cons.mp h
    by_cases hpu : p u
    · simp [hpu, ih hu.2]
    · have hnone : l.filter p = [] := by
        rw [List.filter_eq_nil_iff]
        exact fun w hw hpw => hpu (hp u w (hu.1 w hw) hpw)
      simp [hpu, hnone]

section Order

variable {lt : κ → κ → Prop} [IsStrictTotalOrder κ lt]

omit [DecidableEq κ] in
/-- A key names at most one entry of a sorted list. -/
theorem Sorted.eq_of_key (h : Sorted key lt l) {v w : ν} (hv : v ∈ l) (hw : w ∈ l)
    (hk : key v = key w) : v = w := by
  by_contra hne
  have hlt : lt (key v) (key w) ∨ lt (key w) (key v) := by
    rcases List.pairwise_iff_getElem.mp h with hp
    obtain ⟨i, hi, rfl⟩ := List.getElem_of_mem hv
    obtain ⟨j, hj, rfl⟩ := List.getElem_of_mem hw
    rcases Nat.lt_trichotomy i j with hij | rfl | hij
    · exact Or.inl (hp i j hi hj hij)
    · exact absurd rfl hne
    · exact Or.inr (hp j i hj hi hij)
  rw [hk, or_self] at hlt
  exact irrefl_of lt _ hlt

theorem find_eq_some (h : Sorted key lt l) {v : ν} (hv : v ∈ l) (hk : key v = k) :
    find key k l = some v := by
  obtain ⟨w, hw⟩ := Option.isSome_iff_exists.mp (find_isSome_of_mem hv hk)
  obtain ⟨hwl, hwk⟩ := find_some hw
  rw [hw, h.eq_of_key hwl hv (hwk.trans hk.symm)]

variable [DecidableRel lt]

theorem pairwise_emplace (h : Sorted key lt l) (v : ν) : Sorted key lt (emplace key lt v l) := by
  induction l with
  | nil => exact List.pairwise_singleton _ _
  | cons u l ih =>
    have hu := List.pairwise_cons.mp h
    simp only [emplace]
    split_ifs with hk hlt
    · exact h
    · refine List.pairwise_cons.mpr ⟨fun w hw => ?_, h⟩
      rcases List.mem_cons.mp hw with rfl | hw
      · exact hlt
      · exact trans_of lt hlt (hu.1 w hw)
    · refine List.pairwise_cons.mpr ⟨fun w hw => ?_, ih hu.2⟩
      rcases mem_emplace hw with rfl | hw
      · rcases trichotomous_of lt (key u) (key w) with h' | h' | h'
        · exact h'
        · exact absurd h' hk
        · exact absurd h' hlt
      · exact hu.1 w hw

end Order

omit [DecidableEq κ] in
/-- If the keys of some entries are found in the same order among the keys of others, which are
distinct, then what holds along the former holds along the latter. -/
theorem pairwise_of_sublist {key' : μ → κ} {r : ν → ν → Prop} {l : List ν} {m : List μ}
    (h : (l.map key).Sublist (m.map key')) (hm : (m.map key').Nodup) (hl : l.Pairwise r) :
    m.Pairwise fun x y => ∀ v ∈ l, ∀ w ∈ l, key v = key' x → key w = key' y → r v w := by
  induction m generalizing l with
  | nil => exact .nil
  | cons x m ih =>
    rw [List.map_cons] at h hm
    obtain ⟨hx, hm⟩ := List.nodup_cons.mp hm
    rw [List.sublist_cons_iff] at h
    rcases h with h | ⟨keys, hkeys, h⟩
    · refine List.pairwise_cons.mpr ⟨fun y _ v hv _ _ hvx _ => ?_, ih h hm hl⟩
      exact absurd (hvx ▸ h.subset (List.mem_map_of_mem hv)) hx
    · obtain ⟨v₀, l, rfl, hv₀, rfl⟩ := List.map_eq_cons_iff.mp hkeys
      obtain ⟨hfirst, hl⟩ := List.pairwise_cons.mp hl
      -- the first entry has the first key, and no other entry has it
      have hrest : ∀ v ∈ v₀ :: l, key v ≠ key' x → v ∈ l := fun v hv hne =>
        (List.mem_cons.mp hv).resolve_left fun heq => hne (heq ▸ hv₀)
      have hne : ∀ y ∈ m, key' y ≠ key' x := fun y hy heq =>
        hx (heq ▸ List.mem_map_of_mem hy)
      refine List.pairwise_cons.mpr ⟨fun y hy v hv w hw hvx hwy => ?_, ?_⟩
      · obtain rfl : v = v₀ := (List.mem_cons.mp hv).resolve_right fun hold =>
          hx (hvx ▸ h.subset (List.mem_map_of_mem hold))
        exact hfirst w (hrest w hw (hwy ▸ hne y hy))
      · refine (ih h hm hl).imp_of_mem fun hy hz hr v hv w hw hvy hwz => ?_
        exact hr v (hrest v hv (hvy ▸ hne _ hy)) w (hrest w hw (hwz ▸ hne _ hz)) hvy hwz

/-- What holds along the entries of each key. -/
theorem pairwise_of_filter {r : ν → ν → Prop} {l : List ν}
    (h : ∀ k, (l.filter fun v => key v = k).Pairwise r) :
    l.Pairwise fun v w => key v = key w → r v w := by
  induction l with
  | nil => exact .nil
  | cons v l ih =>
    have hv := h (key v)
    rw [List.filter_cons_of_pos (by simp), List.pairwise_cons] at hv
    refine List.pairwise_cons.mpr ⟨fun w hw heq => ?_, ih fun k => ?_⟩
    · exact hv.1 w (List.mem_filter.mpr ⟨hw, by simp [heq]⟩)
    · exact (h k).sublist ((List.sublist_cons_self v l).filter _)

end Keyed
