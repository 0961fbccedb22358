import Mathlib.Algebra.Order.Group.Defs
import Mathlib.Algebra.BigOperators.Group.List.Basic
import Mathlib.Algebra.Order.BigOperators.Group.List
import Mathlib.Tactic.Common

/-!
# Greedy filling of a demand from a queue

A demand `rem` is filled from the front of a queue of offers, each offer `a` giving
`min rem (qty a)`, until nothing of the demand is left.

## Main definitions

* `fills` — the offers used, each with the amount taken from it.
* `unfilled` — what is left of the demand.
* `covering` — the shortest prefix of the queue whose offers add up to the demand.
* `Shortest` — what makes a prefix of the queue the shortest one that covers a demand.
* `given` — what one offer gave in a list of fills.
-/

namespace Fill

variable {α β K : Type*} [AddCommGroup K] [LinearOrder K] (qty : α → K)

/-- The offers a demand uses, with the amount each one gives. -/
def fills : K → List α → List (α × K)
  | _, [] => []
  | rem, a :: as =>
    if rem ≤ 0 then [] else (a, min rem (qty a)) :: fills (rem - min rem (qty a)) as

/-- The part of a demand the queue cannot fill. -/
def unfilled : K → List α → K
  | rem, [] => rem
  | rem, a :: as => if rem ≤ 0 then rem else unfilled (rem - min rem (qty a)) as

/-- The shortest prefix of the queue that covers a demand. -/
def covering : K → List α → List α
  | _, [] => []
  | rem, a :: as => if rem ≤ 0 then [] else a :: covering (rem - qty a) as

variable {qty} {rem : K} {l : List α}

theorem fills_of_nonpos (h : rem ≤ 0) : fills qty rem l = [] := by
  cases l <;> simp [fills, h]

theorem unfilled_of_nonpos (h : rem ≤ 0) : unfilled qty rem l = rem := by
  cases l <;> simp [unfilled, h]

theorem covering_of_nonpos (h : rem ≤ 0) : covering qty rem l = [] := by
  cases l <;> simp [covering, h]

theorem covering_sublist : (covering qty rem l).Sublist l := by
  induction l generalizing rem with
  | nil => exact List.Sublist.slnil
  | cons a l ih =>
    simp only [covering]
    split_ifs
    · exact List.nil_sublist _
    · exact ih.cons_cons a

theorem covering_ne_nil (h : 0 < rem) (hl : l ≠ []) : covering qty rem l ≠ [] := by
  cases l with
  | nil => exact absurd rfl hl
  | cons a l => simp [covering, not_le.mpr h]

theorem head?_covering (h : 0 < rem) : (covering qty rem l).head? = l.head? := by
  cases l <;> simp [covering, not_le.mpr h]

theorem fills_map (f : β → α) (l : List β) :
    fills qty rem (l.map f) = (fills (fun b => qty (f b)) rem l).map fun p => (f p.1, p.2) := by
  induction l generalizing rem with
  | nil => rfl
  | cons b l ih =>
    simp only [List.map_cons, fills]
    split_ifs <;> simp [ih]

theorem covering_map (f : β → α) (l : List β) :
    covering qty rem (l.map f) = (covering (fun b => qty (f b)) rem l).map f := by
  induction l generalizing rem with
  | nil => rfl
  | cons b l ih =>
    simp only [covering, List.map_cons]
    split_ifs <;> simp [ih]

theorem unfilled_map (f : β → α) (l : List β) :
    unfilled qty rem (l.map f) = unfilled (fun b => qty (f b)) rem l := by
  induction l generalizing rem with
  | nil => rfl
  | cons b l ih =>
    simp only [List.map_cons, unfilled]
    split_ifs <;> simp [ih]

theorem fst_mem_of_mem_fills {p : α × K} (h : p ∈ fills qty rem l) : p.1 ∈ l := by
  induction l generalizing rem with
  | nil => simp [fills] at h
  | cons a l ih =>
    simp only [fills] at h
    split_ifs at h
    · simp at h
    · rcases List.mem_cons.mp h with rfl | h
      · exact List.mem_cons_self
      · exact List.mem_cons_of_mem _ (ih h)

theorem snd_pos_of_mem_fills {p : α × K} (h : p ∈ fills qty rem l) (hq : 0 < qty p.1) :
    0 < p.2 := by
  induction l generalizing rem with
  | nil => simp [fills] at h
  | cons a l ih =>
    simp only [fills] at h
    split_ifs at h with hr
    · simp at h
    · rcases List.mem_cons.mp h with rfl | h
      · exact lt_min (not_le.mp hr) hq
      · exact ih h

/-- A covering prefix fills the same demand in the same way. -/
theorem fills_covering : fills qty rem (covering qty rem l) = fills qty rem l := by
  induction l generalizing rem with
  | nil => rfl
  | cons a l ih =>
    by_cases hr : rem ≤ 0
    · rw [fills_of_nonpos hr, fills_of_nonpos hr]
    · simp only [covering, fills, if_neg hr]
      rcases le_total rem (qty a) with h | h
      · simp [min_eq_left h, fills_of_nonpos]
      · rw [min_eq_right h, ih]

theorem unfilled_covering : unfilled qty rem (covering qty rem l) = unfilled qty rem l := by
  induction l generalizing rem with
  | nil => rfl
  | cons a l ih =>
    by_cases hr : rem ≤ 0
    · rw [unfilled_of_nonpos hr, unfilled_of_nonpos hr]
    · simp only [covering, unfilled, if_neg hr]
      rcases le_total rem (qty a) with h | h
      · simp [min_eq_left h, unfilled_of_nonpos]
      · rw [min_eq_right h, ih]

theorem sum_fills_add_unfilled :
    ((fills qty rem l).map Prod.snd).sum + unfilled qty rem l = rem := by
  induction l generalizing rem with
  | nil => simp [fills, unfilled]
  | cons a l ih =>
    simp only [fills, unfilled]
    split_ifs
    · simp
    · rw [List.map_cons, List.sum_cons, add_assoc, ih, add_sub_cancel]

theorem unfilled_nonneg [IsOrderedAddMonoid K] (h : 0 ≤ rem) : 0 ≤ unfilled qty rem l := by
  induction l generalizing rem with
  | nil => exact h
  | cons a l ih =>
    simp only [unfilled]
    split_ifs
    · exact h
    · exact ih (sub_nonneg.mpr (min_le_left _ _))

/-- No more is filled than was asked for. -/
theorem sum_fills_le [IsOrderedAddMonoid K] (h : 0 ≤ rem) :
    ((fills qty rem l).map Prod.snd).sum ≤ rem := by
  have hsum : ((fills qty rem l).map Prod.snd).sum + unfilled qty rem l = rem :=
    sum_fills_add_unfilled
  have hnonneg : 0 ≤ unfilled qty rem l := unfilled_nonneg h
  calc ((fills qty rem l).map Prod.snd).sum
      ≤ ((fills qty rem l).map Prod.snd).sum + unfilled qty rem l := le_add_of_nonneg_right hnonneg
    _ = rem := hsum

theorem sum_fills_eq [IsOrderedAddMonoid K] (h : 0 ≤ rem) (hu : unfilled qty rem l ≤ 0) :
    ((fills qty rem l).map Prod.snd).sum = rem := by
  have hsum : ((fills qty rem l).map Prod.snd).sum + unfilled qty rem l = rem :=
    sum_fills_add_unfilled
  rwa [le_antisymm hu (unfilled_nonneg h), add_zero] at hsum

/-- A demand that is not filled has used the whole queue. -/
theorem fills_of_unfilled_pos (h : 0 < unfilled qty rem l) :
    fills qty rem l = l.map fun a => (a, qty a) := by
  induction l generalizing rem with
  | nil => rfl
  | cons a l ih =>
    have hr : ¬ rem ≤ 0 := by
      intro hr
      rw [unfilled_of_nonpos hr] at h
      exact absurd h (not_lt.mpr hr)
    simp only [unfilled, if_neg hr] at h
    have hq : qty a ≤ rem := by
      by_contra hq
      rw [min_eq_left (le_of_not_ge hq), sub_self, unfilled_of_nonpos le_rfl] at h
      exact lt_irrefl _ h
    rw [min_eq_right hq] at h
    simp [fills, hr, min_eq_right hq, ih h]

theorem fills_congr {qty' : α → K} (h : ∀ a ∈ l, qty a = qty' a) :
    fills qty rem l = fills qty' rem l := by
  induction l generalizing rem with
  | nil => rfl
  | cons a l ih =>
    simp only [fills, h a List.mem_cons_self]
    split_ifs
    · rfl
    · rw [ih fun b hb => h b (List.mem_cons_of_mem a hb)]

theorem covering_congr {qty' : α → K} (h : ∀ a ∈ l, qty a = qty' a) :
    covering qty rem l = covering qty' rem l := by
  induction l generalizing rem with
  | nil => rfl
  | cons a l ih =>
    simp only [covering, h a List.mem_cons_self]
    split_ifs
    · rfl
    · rw [ih fun b hb => h b (List.mem_cons_of_mem a hb)]

theorem unfilled_eq_sub (h : 0 < unfilled qty rem l) :
    unfilled qty rem l = rem - (l.map qty).sum := by
  have hsum : ((fills qty rem l).map Prod.snd).sum + unfilled qty rem l = rem :=
    sum_fills_add_unfilled
  rw [fills_of_unfilled_pos h, List.map_map] at hsum
  exact eq_sub_of_add_eq' hsum

/-- Offers that are not negative fill a demand up to their sum. -/
theorem unfilled_pos_iff [IsOrderedAddMonoid K] (hl : ∀ a ∈ l, 0 ≤ qty a) :
    0 < unfilled qty rem l ↔ (l.map qty).sum < rem := by
  constructor
  · intro h
    rwa [unfilled_eq_sub h, sub_pos] at h
  · intro h
    induction l generalizing rem with
    | nil => simpa [unfilled] using h
    | cons a l ih =>
      have hsum : 0 ≤ (l.map qty).sum := by
        refine List.sum_nonneg fun q hq => ?_
        obtain ⟨b, hb, rfl⟩ := List.mem_map.mp hq
        exact hl b (List.mem_cons_of_mem a hb)
      rw [List.map_cons, List.sum_cons] at h
      have ha : qty a < rem := (le_add_of_nonneg_right hsum).trans_lt h
      have hrem : ¬ rem ≤ 0 := not_le.mpr ((hl a List.mem_cons_self).trans_lt ha)
      simp only [unfilled, if_neg hrem, min_eq_right ha.le]
      exact ih (fun b hb => hl b (List.mem_cons_of_mem a hb)) (lt_sub_iff_add_lt'.mpr h)

theorem snd_le_of_mem_fills {p : α × K} (h : p ∈ fills qty rem l) : p.2 ≤ qty p.1 := by
  induction l generalizing rem with
  | nil => simp [fills] at h
  | cons a l ih =>
    simp only [fills] at h
    split_ifs at h
    · simp at h
    · rcases List.mem_cons.mp h with rfl | h
      · exact min_le_right _ _
      · exact ih h

/-- A demand goes on to the next queue with what the first one leaves. -/
theorem fills_append (l l' : List α) :
    fills qty rem (l ++ l') = fills qty rem l ++ fills qty (unfilled qty rem l) l' := by
  induction l generalizing rem with
  | nil => rfl
  | cons a l ih =>
    simp only [List.cons_append, fills, unfilled]
    split_ifs with hr
    · rw [fills_of_nonpos hr, List.nil_append]
    · rw [ih, List.cons_append]

theorem unfilled_append (l l' : List α) :
    unfilled qty rem (l ++ l') = unfilled qty (unfilled qty rem l) l' := by
  induction l generalizing rem with
  | nil => rfl
  | cons a l ih =>
    simp only [List.cons_append, unfilled]
    split_ifs with hr
    · rw [unfilled_of_nonpos hr]
    · exact ih

/-- Offers that are not negative give the smaller of the demand and their sum. -/
theorem unfilled_eq [IsOrderedAddMonoid K] (hl : ∀ a ∈ l, 0 ≤ qty a) (h : 0 ≤ rem) :
    unfilled qty rem l = rem - min rem (l.map qty).sum := by
  rcases lt_or_ge (l.map qty).sum rem with hlt | hge
  · rw [min_eq_right hlt.le, unfilled_eq_sub ((unfilled_pos_iff hl).mpr hlt)]
  · have hnot : ¬ 0 < unfilled qty rem l := by
      rw [unfilled_pos_iff hl]
      exact not_lt.mpr hge
    rw [min_eq_left hge, sub_self]
    exact le_antisymm (not_lt.mp hnot) (unfilled_nonneg h)

/-- Offers that give nothing are not missed. -/
theorem fills_filter {p : α → Bool} (h : ∀ x ∈ fills qty rem l, p x.1 = true) :
    fills qty rem (l.filter p) = fills qty rem l ∧
      unfilled qty rem (l.filter p) = unfilled qty rem l := by
  induction l generalizing rem with
  | nil => exact ⟨rfl, rfl⟩
  | cons a l ih =>
    by_cases hr : rem ≤ 0
    · simp only [fills_of_nonpos hr, unfilled_of_nonpos hr, and_self]
    · simp only [fills, if_neg hr, List.forall_mem_cons] at h
      obtain ⟨ha, hl⟩ := h
      obtain ⟨hfills, hunfilled⟩ := ih hl
      rw [List.filter_cons_of_pos ha]
      simp only [fills, unfilled, if_neg hr, hfills, hunfilled, and_self]

/-- Fewer offers fill no more. -/
theorem unfilled_pos_of_sublist [IsOrderedAddMonoid K] {l' : List α} (hl : ∀ a ∈ l, 0 ≤ qty a)
    (hsub : l'.Sublist l) (h : 0 < unfilled qty rem l) : 0 < unfilled qty rem l' := by
  have hl' : ∀ a ∈ l', 0 ≤ qty a := fun a ha => hl a (hsub.subset ha)
  rw [unfilled_pos_iff hl] at h
  rw [unfilled_pos_iff hl']
  refine lt_of_le_of_lt ((hsub.map qty).sum_le_sum ?_) h
  intro q hq
  obtain ⟨a, ha, rfl⟩ := List.mem_map.mp hq
  exact hl a ha

section Groups

variable {γ M : Type*} [IsOrderedAddMonoid K] [AddCommMonoid M] {members : γ → List α} {gs : List γ}

/-- What a group of offers gives together. -/
theorem sum_fills_eq_min (hl : ∀ a ∈ l, 0 ≤ qty a) (h : 0 ≤ rem) :
    ((fills qty rem l).map Prod.snd).sum = min rem (l.map qty).sum := by
  have hsum : ((fills qty rem l).map Prod.snd).sum + unfilled qty rem l = rem :=
    sum_fills_add_unfilled
  rw [unfilled_eq hl h] at hsum
  exact add_right_cancel (hsum.trans (add_sub_cancel _ _).symm)

/-- Groups of offers leave the same as single offers of their totals. -/
theorem unfilled_flatMap (hgs : ∀ g ∈ gs, ∀ a ∈ members g, 0 ≤ qty a) (h : 0 ≤ rem) :
    unfilled qty rem (gs.flatMap members) =
      unfilled (fun g => ((members g).map qty).sum) rem gs := by
  induction gs generalizing rem with
  | nil => rfl
  | cons g gs ih =>
    obtain ⟨hg, hgs⟩ := List.forall_mem_cons.mp hgs
    rw [List.flatMap_cons, unfilled_append]
    by_cases hr : rem ≤ 0
    · rw [unfilled_of_nonpos hr, unfilled_of_nonpos hr, unfilled_of_nonpos hr]
    · have hrest : 0 ≤ rem - min rem ((members g).map qty).sum :=
        sub_nonneg.mpr (min_le_left _ _)
      rw [unfilled_eq hg h, ih hgs hrest]
      simp only [unfilled, if_neg hr]

/-- Groups of offers pay the same as single offers of their totals, at a rate that depends on
the group. -/
theorem sum_fills_flatMap (pay : α → K → M) (rate : γ → K →+ M)
    (hpay : ∀ g ∈ gs, ∀ a ∈ members g, pay a = rate g)
    (hgs : ∀ g ∈ gs, ∀ a ∈ members g, 0 ≤ qty a) (h : 0 ≤ rem) :
    ((fills qty rem (gs.flatMap members)).map fun p => pay p.1 p.2).sum =
      ((fills (fun g => ((members g).map qty).sum) rem gs).map fun p => rate p.1 p.2).sum := by
  induction gs generalizing rem with
  | nil => rfl
  | cons g gs ih =>
    obtain ⟨hpayg, hpay⟩ := List.forall_mem_cons.mp hpay
    obtain ⟨hg, hgs⟩ := List.forall_mem_cons.mp hgs
    have hgroup : ((fills qty rem (members g)).map fun p => pay p.1 p.2).sum =
        rate g (min rem ((members g).map qty).sum) := by
      rw [← sum_fills_eq_min hg h, map_list_sum, List.map_map]
      refine congrArg List.sum (List.map_congr_left ?_)
      intro p hp
      rw [hpayg p.1 (fst_mem_of_mem_fills hp)]
      rfl
    have hrest : 0 ≤ rem - min rem ((members g).map qty).sum :=
      sub_nonneg.mpr (min_le_left _ _)
    rw [List.flatMap_cons, fills_append, List.map_append, List.sum_append, hgroup,
      unfilled_eq hg h, ih hpay hgs hrest]
    by_cases hr : rem ≤ 0
    · obtain rfl : rem = 0 := le_antisymm hr h
      have hzero : min 0 ((members g).map qty).sum = 0 := by
        refine min_eq_left (List.sum_nonneg ?_)
        intro q hq
        obtain ⟨a, ha, rfl⟩ := List.mem_map.mp hq
        exact hg a ha
      rw [hzero, map_zero, sub_zero, fills_of_nonpos le_rfl, fills_of_nonpos le_rfl, zero_add]
    · simp only [fills, if_neg hr, List.map_cons, List.sum_cons]

end Groups

/-! ### The shortest covering prefix -/

variable (qty rem l) in
/-- A list is the shortest prefix of the queue that adds up to a demand, or the whole queue
if no prefix does. -/
structure Shortest (p : List α) : Prop where
  isPrefix : p <+: l
  least : ∀ p', p' <+: l → rem ≤ (p'.map qty).sum → rem ≤ (p.map qty).sum ∧ p <+: p'
  whole : (∀ p', p' <+: l → (p'.map qty).sum < rem) → p = l

theorem Shortest.nil : Shortest qty rem [] [] :=
  ⟨List.prefix_rfl, fun p' hp' hsum =>
    have hnil : p' = [] := List.prefix_nil.mp hp'
    ⟨hnil ▸ hsum, List.nil_prefix⟩, fun _ => rfl⟩

theorem Shortest.of_nonpos (h : rem ≤ 0) : Shortest qty rem l [] :=
  ⟨List.nil_prefix, fun _ _ _ => ⟨h, List.nil_prefix⟩,
    fun hnone => absurd (hnone [] List.nil_prefix) (not_lt.mpr h)⟩

/-- An offer in front is part of the shortest prefix as long as something is asked for. -/
theorem Shortest.cons [IsOrderedAddMonoid K] {a : α} {p : List α} (h : 0 < rem)
    (hp : Shortest qty (rem - qty a) l p) : Shortest qty rem (a :: l) (a :: p) := by
  refine ⟨List.cons_prefix_cons.mpr ⟨rfl, hp.isPrefix⟩, ?_, ?_⟩
  · intro p' hp' hsum
    cases p' with
    | nil => exact absurd hsum (not_le.mpr h)
    | cons b p' =>
      obtain ⟨rfl, htail⟩ := List.cons_prefix_cons.mp hp'
      rw [List.map_cons, List.sum_cons, ← sub_le_iff_le_add'] at hsum
      obtain ⟨hcover, hpre⟩ := hp.least p' htail hsum
      refine ⟨?_, List.cons_prefix_cons.mpr ⟨rfl, hpre⟩⟩
      rw [List.map_cons, List.sum_cons, ← sub_le_iff_le_add']
      exact hcover
  · intro hnone
    refine congrArg (a :: ·) (hp.whole ?_)
    intro p' hp'
    have hlt := hnone (a :: p') (List.cons_prefix_cons.mpr ⟨rfl, hp'⟩)
    rw [List.map_cons, List.sum_cons] at hlt
    exact lt_sub_iff_add_lt'.mpr hlt

theorem shortest_covering [IsOrderedAddMonoid K] : Shortest qty rem l (covering qty rem l) := by
  induction l generalizing rem with
  | nil => exact .nil
  | cons a l ih =>
    simp only [covering]
    split_ifs with hr
    · exact .of_nonpos hr
    · exact .cons (not_le.mp hr) ih

theorem fst_sublist_of_fills : ((fills qty rem l).map Prod.fst).Sublist l := by
  induction l generalizing rem with
  | nil => exact List.Sublist.slnil
  | cons a l ih =>
    simp only [fills]
    split_ifs
    · exact List.nil_sublist _
    · exact ih.cons_cons a

section Given

variable [DecidableEq α] {fs : List (α × K)} {a : α}

/-- What an offer gave in total. -/
def given (fs : List (α × K)) (a : α) : K := ((fs.filter fun p => p.1 = a).map Prod.snd).sum

omit [LinearOrder K] in
theorem given_append (fs gs : List (α × K)) (a : α) :
    given (fs ++ gs) a = given fs a + given gs a := by
  simp [given]

omit [LinearOrder K] in
theorem given_eq_zero (h : a ∉ fs.map Prod.fst) : given fs a = 0 := by
  have hnil : (fs.filter fun p => p.1 = a) = [] := by
    rw [List.filter_eq_nil_iff]
    intro p hp hpa
    exact h (List.mem_map.mpr ⟨p, hp, by simpa using hpa⟩)
  simp [given, hnil]

omit [LinearOrder K] in
@[simp] theorem given_singleton (q : K) : given [(a, q)] a = q := by
  simp [given]

omit [LinearOrder K] in
theorem given_singleton_of_ne {b : α} (h : a ≠ b) (q : K) : given [(b, q)] a = 0 :=
  given_eq_zero (by simpa using h)

omit [LinearOrder K] in
theorem given_const (k : α) (l : List K) : given (l.map fun q => (k, q)) k = l.sum := by
  induction l with
  | nil => rfl
  | cons q l ih =>
    have hcons : given ((k, q) :: l.map fun q => (k, q)) k =
        given [(k, q)] k + given (l.map fun q => (k, q)) k := given_append [(k, q)] _ k
    rw [List.map_cons, hcons, ih, given_singleton, List.sum_cons]

omit [LinearOrder K] [DecidableEq α] in
/-- Renaming the offers keeps what an offer gave, if no other one gets its name. -/
theorem given_map [DecidableEq β] [DecidableEq α] (g : α → β)
    (hg : ∀ p ∈ fs, g p.1 = g a → p.1 = a) :
    given (fs.map fun p => (g p.1, p.2)) (g a) = given fs a := by
  have hfilter : (fs.filter fun p => decide (g p.1 = g a)) = fs.filter fun p => p.1 = a := by
    refine List.filter_congr fun p hp => ?_
    have hiff : g p.1 = g a ↔ p.1 = a := ⟨hg p hp, fun heq => by rw [heq]⟩
    simp [hiff]
  unfold given
  rw [List.filter_map, List.map_map, ← hfilter]
  rfl

omit [LinearOrder K] in
/-- In a list that names each offer once, the one fill of an offer is all it gave. -/
theorem given_eq_of_mem (hnd : (fs.map Prod.fst).Nodup) {q : K} (h : (a, q) ∈ fs) :
    given fs a = q := by
  induction fs with
  | nil => simp at h
  | cons p fs ih =>
    obtain ⟨hp, hnd'⟩ := List.nodup_cons.mp hnd
    have hcons : given (p :: fs) a = given [p] a + given fs a := given_append [p] fs a
    rw [hcons]
    rcases List.mem_cons.mp h with rfl | h
    · rw [given_eq_zero hp, given_singleton, add_zero]
    · have hne : a ∉ [p].map Prod.fst := by
        intro hin
        obtain rfl : a = p.1 := by simpa using hin
        exact hp (List.mem_map.mpr ⟨_, h, rfl⟩)
      rw [given_eq_zero hne, ih hnd' h, zero_add]

omit [LinearOrder K] in
/-- What some offers gave together. -/
theorem sum_given {as : List α} (has : as.Nodup) :
    (as.map (given fs)).sum = ((fs.filter fun p => p.1 ∈ as).map Prod.snd).sum := by
  induction fs with
  | nil =>
    refine List.sum_eq_zero ?_
    intro q hq
    obtain ⟨a, -, rfl⟩ := List.mem_map.mp hq
    rfl
  | cons p fs ih =>
    have hcons : ∀ a, given (p :: fs) a = given [p] a + given fs a := given_append [p] fs
    have hsplit : (as.map (given (p :: fs))).sum =
        (as.map (given [p])).sum + (as.map (given fs)).sum := by
      rw [← List.sum_map_add]
      exact congrArg List.sum (List.map_congr_left fun a _ => hcons a)
    have hone : (as.map (given [p])).sum = as.count p.1 • p.2 := by
      rw [List.sum_map_eq_nsmul_single p.1 _ fun a ha _ => given_singleton_of_ne ha p.2]
      rw [given_singleton]
    rw [hsplit, hone, ih, has.count]
    by_cases hp : p.1 ∈ as
    · rw [if_pos hp, one_nsmul, List.filter_cons_of_pos (by simpa using hp), List.map_cons,
        List.sum_cons]
    · rw [if_neg hp, zero_nsmul, zero_add, List.filter_cons_of_neg (by simpa using hp)]

end Given

end Fill
