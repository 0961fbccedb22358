import Mathlib.Data.Int.Log
import Mathlib.Data.Rat.Floor
import Mathlib.Tactic.Linarith
import Mathlib.Tactic.NormNum
import Mathlib.Tactic.Positivity

/-!
# Double precision

The numbers of the binary64 format, and addition and subtraction rounded to the nearest of them,
with ties to even and overflow to an infinity. The two zeros are one number here.

## Main definitions

* `Representable` — the rationals of the format.
* `nearest` — the closest number with 53 bits, `Double.round` — the double that it is.
* `Absorbed` — a rounding error that does not outlive the next sum.
* `Double` — a finite number, an infinity, or no number.

## Main results

* `Representable.of_nearest` — what is rounded has the format.
* `Double.round_of_representable` — what has the format is not rounded.
* `nearest_eq_iff` — what a number is rounded to.
* `Double.toRat?_sub_add_iff` — when a difference and a sum come out exactly.
-/

/-- A rational of the format: a whole number of at most 53 bits, times a power of two that is not
too small, and below the range of the infinities. -/
def Representable (q : ℚ) : Prop :=
  ∃ m e : ℤ, |m| ≤ 2 ^ 53 ∧ -1074 ≤ e ∧ q = m * 2 ^ e ∧ |q| < 2 ^ 1024

/-- The closest whole number, the even one of two. -/
def roundEven (q : ℚ) : ℤ :=
  if q - ⌊q⌋ < 1 / 2 ∨ q - ⌊q⌋ = 1 / 2 ∧ ⌊q⌋ % 2 = 0 then ⌊q⌋ else ⌊q⌋ + 1

/-- The exponent of the last of 53 bits. -/
def lastExponent (q : ℚ) : ℤ := max (Int.log 2 |q| - 52) (-1074)

/-- The closest number with 53 bits. -/
def nearest (q : ℚ) : ℚ := roundEven (q / 2 ^ lastExponent q) * 2 ^ lastExponent q

/-- A rounding of `x` that is made up for when `q` is added: the sum is a whole number of units, and
the first rounding was off by at most half of one. Nothing is too large. -/
def Absorbed (x q : ℚ) : Prop :=
  |nearest x| < 2 ^ 1024 ∧ |x + q| < 2 ^ 1024 ∧
    ∃ n : ℤ, x + q = n * 2 ^ lastExponent (nearest x + q) ∧
      (2 * |nearest x - x| < 2 ^ lastExponent (nearest x + q) ∨
        2 * |nearest x - x| = 2 ^ lastExponent (nearest x + q) ∧ n % 2 = 0)

/-- A number in double precision. -/
inductive Double where
  | finite (q : ℚ) (h : Representable q)
  | inf (negative : Bool)
  | nan

/-! ## Rounding -/

section Rounding

variable {p q x : ℚ} {n z : ℤ}

theorem two_zpow_pos (e : ℤ) : (0 : ℚ) < 2 ^ e := zpow_pos (by norm_num) e

theorem two_zpow_add (e n : ℤ) : (2 : ℚ) ^ (e + n) = 2 ^ e * 2 ^ n := zpow_add₀ (by norm_num) e n

theorem roundEven_intCast (z : ℤ) : roundEven z = z := by
  have hfraction : (z : ℚ) - ⌊(z : ℚ)⌋ < 1 / 2 := by
    rw [Int.floor_intCast, sub_self]
    norm_num
  rw [roundEven, if_pos (Or.inl hfraction), Int.floor_intCast]

/-- A number is rounded to `n` within a half, and at a half if `n` is even. -/
theorem roundEven_eq_iff :
    roundEven q = n ↔ 2 * |q - n| < 1 ∨ 2 * |q - n| = 1 ∧ n % 2 = 0 := by
  have hlo := Int.floor_le q
  have hhi := Int.lt_floor_add_one q
  have hpart (down : Prop) [Decidable down] :
      ((if down then ⌊q⌋ else ⌊q⌋ + 1) = n ↔ n = ⌊q⌋ ∧ down ∨ n = ⌊q⌋ + 1 ∧ ¬ down) := by
    split_ifs with hdown <;> simp [hdown, eq_comm]
  rw [roundEven, hpart]
  obtain hlt | rfl | rfl | hgt : n < ⌊q⌋ ∨ n = ⌊q⌋ ∨ n = ⌊q⌋ + 1 ∨ ⌊q⌋ + 1 < n := by omega
  · have hfar : 1 ≤ q - n := by
      have hle : (n : ℚ) + 1 ≤ ⌊q⌋ := by exact_mod_cast hlt
      linarith
    rw [abs_of_nonneg (by linarith)]
    constructor
    · omega
    · rintro (h | ⟨h, -⟩) <;> linarith
  · rw [abs_of_nonneg (sub_nonneg.mpr hlo)]
    constructor
    · rintro (⟨-, h | ⟨h, heven⟩⟩ | ⟨h, -⟩)
      · exact Or.inl (by linarith)
      · exact Or.inr ⟨by linarith, heven⟩
      · omega
    · rintro (h | ⟨h, heven⟩)
      · exact Or.inl ⟨rfl, Or.inl (by linarith)⟩
      · exact Or.inl ⟨rfl, Or.inr ⟨by linarith, heven⟩⟩
  · push_cast
    rw [abs_of_nonpos (by linarith)]
    constructor
    · rintro (⟨h, -⟩ | ⟨-, h⟩)
      · omega
      · rw [not_or, not_lt, not_and] at h
        rcases lt_or_eq_of_le h.1 with hlt | heq
        · exact Or.inl (by linarith)
        · have hodd := h.2 heq.symm
          exact Or.inr ⟨by linarith, by omega⟩
    · refine fun h => Or.inr ⟨rfl, ?_⟩
      rintro (hlt | ⟨heq, heven⟩)
      · rcases h with h | ⟨h, -⟩ <;> linarith
      · rcases h with h | ⟨-, h⟩
        · linarith
        · omega
  · have hfar : 1 < n - q := by
      have hle : (⌊q⌋ : ℚ) + 1 + 1 ≤ n := by exact_mod_cast hgt
      linarith
    rw [abs_of_nonpos (by linarith)]
    constructor
    · omega
    · rintro (h | ⟨h, -⟩) <;> linarith

theorem abs_roundEven_le (h : |q| ≤ n) : |roundEven q| ≤ n := by
  obtain ⟨hlo, hhi⟩ := abs_le.mp h
  have hfloor : -n ≤ ⌊q⌋ := Int.le_floor.mpr (by exact_mod_cast hlo)
  have hself := Int.floor_le q
  unfold roundEven
  rw [abs_le]
  split_ifs with hdown
  · refine ⟨hfloor, ?_⟩
    exact_mod_cast hself.trans hhi
  · -- the number is no whole number, so there is room for the next one
    have hlt : (⌊q⌋ : ℚ) < n := by
      refine lt_of_lt_of_le ?_ hhi
      refine lt_of_le_of_ne hself fun heq => hdown (Or.inl ?_)
      rw [heq, sub_self]
      norm_num
    have hlt' : ⌊q⌋ < n := by exact_mod_cast hlt
    exact ⟨by omega, by omega⟩

theorem lt_zpow_lastExponent (q : ℚ) : |q| < 2 ^ (lastExponent q + 53) := by
  have hlog := Int.lt_zpow_succ_log_self (b := 2) (by norm_num) |q|
  refine hlog.trans_le ?_
  have hle : Int.log 2 |q| + 1 ≤ lastExponent q + 53 := by
    unfold lastExponent
    omega
  exact_mod_cast zpow_le_zpow_right₀ (by norm_num : (1 : ℚ) ≤ 2) hle

theorem Representable.of_nearest (h : |nearest q| < 2 ^ 1024) : Representable (nearest q) := by
  refine ⟨roundEven (q / 2 ^ lastExponent q), lastExponent q, ?_, le_max_right _ _, rfl, h⟩
  refine abs_roundEven_le ?_
  have hpos := two_zpow_pos (lastExponent q)
  rw [abs_div, abs_of_pos hpos, div_le_iff₀ hpos, mul_comm]
  have hlt := lt_zpow_lastExponent q
  rw [two_zpow_add] at hlt
  exact_mod_cast hlt.le

/-- A number of the format is a whole number of units of its last bit. -/
theorem Representable.exists_eq (h : Representable q) :
    ∃ z : ℤ, q = z * 2 ^ lastExponent q := by
  obtain ⟨m, e, hm, he, hq, -⟩ := h
  rcases le_or_gt (lastExponent q) e with hle | hlt
  · obtain ⟨k, hk⟩ := Int.eq_ofNat_of_zero_le (sub_nonneg.mpr hle)
    refine ⟨m * 2 ^ k, ?_⟩
    have hsplit : e = k + lastExponent q := by omega
    calc q = m * 2 ^ e := hq
      _ = m * (2 ^ (k : ℤ) * 2 ^ lastExponent q) := by rw [← two_zpow_add, ← hsplit]
      _ = ((m * 2 ^ k : ℤ) : ℚ) * 2 ^ lastExponent q := by
        push_cast
        rw [zpow_natCast, mul_assoc]
  · -- only a power of two has its first bit that far to the left
    by_cases hzero : q = 0
    · exact ⟨0, by simp [hzero]⟩
    have hlast : lastExponent q = Int.log 2 |q| - 52 := by
      unfold lastExponent at hlt ⊢
      omega
    have habs : |q| = ((|m| : ℤ) : ℚ) * 2 ^ e := by
      rw [hq, abs_mul, abs_of_pos (two_zpow_pos e), Int.cast_abs]
    have hfull : |m| = 2 ^ 53 := by
      refine le_antisymm hm ?_
      have hlog := Int.zpow_log_le_self (b := 2) (by norm_num) (abs_pos.mpr hzero)
      have hle : (2 : ℚ) ^ (53 + e) ≤ |q| := by
        refine le_trans ?_ hlog
        exact_mod_cast zpow_le_zpow_right₀ (by norm_num : (1 : ℚ) ≤ 2) (by omega)
      rw [habs, two_zpow_add] at hle
      exact_mod_cast le_of_mul_le_mul_right hle (two_zpow_pos e)
    have hnext : lastExponent q = e + 1 := by
      have hpower : |q| = ((2 : ℕ) : ℚ) ^ (53 + e) := by
        rw [habs, hfull, Nat.cast_two, two_zpow_add]
        norm_cast
      rw [hlast, hpower, Int.log_zpow (by norm_num)]
      omega
    have hhalf : ∃ z, m = 2 * z := by
      rcases abs_eq (by norm_num) |>.mp hfull with rfl | rfl
      · exact ⟨2 ^ 52, by norm_num⟩
      · exact ⟨-2 ^ 52, by norm_num⟩
    obtain ⟨z, rfl⟩ := hhalf
    refine ⟨z, ?_⟩
    rw [hnext, two_zpow_add, zpow_one, hq]
    push_cast
    ring

theorem nearest_of_representable (h : Representable q) : nearest q = q := by
  obtain ⟨z, hz⟩ := h.exists_eq
  have hunits : q / 2 ^ lastExponent q = z :=
    (div_eq_iff (two_zpow_pos (lastExponent q)).ne').mpr hz
  rw [nearest, hunits, roundEven_intCast]
  exact hz.symm

/-- A number is rounded to a whole number of units within a half of one, and at a half if that
number is even. -/
theorem nearest_eq_iff : nearest p = q ↔ ∃ n : ℤ, q = n * 2 ^ lastExponent p ∧
    (2 * |p - q| < 2 ^ lastExponent p ∨ 2 * |p - q| = 2 ^ lastExponent p ∧ n % 2 = 0) := by
  have hpos := two_zpow_pos (lastExponent p)
  have hunits (n : ℤ) : 2 * |p - n * 2 ^ lastExponent p| =
      2 * |p / 2 ^ lastExponent p - n| * 2 ^ lastExponent p := by
    conv_rhs => rw [mul_assoc, ← abs_of_pos hpos, ← abs_mul, abs_of_pos hpos, sub_mul,
      div_mul_cancel₀ p hpos.ne']
  constructor
  · rintro rfl
    refine ⟨roundEven (p / 2 ^ lastExponent p), rfl, ?_⟩
    rw [nearest, hunits]
    rcases roundEven_eq_iff.mp (rfl : roundEven (p / 2 ^ lastExponent p) = _) with h | ⟨h, heven⟩
    · exact Or.inl (mul_lt_of_lt_one_left hpos h)
    · exact Or.inr ⟨by rw [h, one_mul], heven⟩
  · rintro ⟨n, rfl, h⟩
    rw [hunits] at h
    have hround : roundEven (p / 2 ^ lastExponent p) = n := by
      refine roundEven_eq_iff.mpr (h.imp (fun h => ?_) (And.imp_left fun h => ?_))
      · exact lt_of_mul_lt_mul_right (by rwa [one_mul]) hpos.le
      · exact mul_right_cancel₀ hpos.ne' (by rwa [one_mul])
    rw [nearest, hround]

theorem Representable.abs_lt (h : Representable q) : |q| < 2 ^ 1024 := by
  obtain ⟨m, e, -, -, -, hlt⟩ := h
  exact hlt

/-- What needs no rounding loses nothing. -/
theorem Absorbed.of_representable (h : Representable x) (hsum : Representable (x + q)) :
    Absorbed x q := by
  have hnearest := nearest_of_representable h
  obtain ⟨z, hz⟩ := hsum.exists_eq
  rw [Absorbed, hnearest, sub_self, abs_zero, mul_zero]
  exact ⟨h.abs_lt, hsum.abs_lt, z, hz, Or.inl (two_zpow_pos _)⟩

/-- Whole numbers of 53 bits. -/
theorem representable_intCast (h : |z| ≤ 2 ^ 53) : Representable z := by
  refine ⟨z, 0, h, by norm_num, by simp, ?_⟩
  have hle : |(z : ℚ)| ≤ 2 ^ 53 := by exact_mod_cast h
  exact hle.trans_lt (pow_lt_pow_right₀ (by norm_num) (by norm_num))

end Rounding

namespace Double

/-- The double closest to a rational, or an infinity beyond the largest ones. -/
def round (q : ℚ) : Double :=
  if h : |nearest q| < 2 ^ 1024 then .finite (nearest q) (.of_nearest h) else .inf (decide (q < 0))

/-- The rational that a double is. -/
def toRat? : Double → Option ℚ
  | finite q _ => some q
  | _ => none

/-- A sum, rounded. Infinities of two signs have none. -/
def add : Double → Double → Double
  | finite p _, finite q _ => round (p + q)
  | nan, _ | _, nan => nan
  | inf s, inf t => if s = t then inf s else nan
  | inf s, finite _ _ | finite _ _, inf s => inf s

/-- A difference, rounded. Infinities of one sign have none. -/
def sub : Double → Double → Double
  | finite p _, finite q _ => round (p - q)
  | nan, _ | _, nan => nan
  | inf s, inf t => if s = t then nan else inf s
  | inf s, finite _ _ => inf s
  | finite _ _, inf s => inf (!s)

instance : Add Double := ⟨add⟩

instance : Sub Double := ⟨sub⟩

/-- Comparison with zero, false of no number. -/
def NonPos : Double → Prop
  | finite q _ => q ≤ 0
  | inf negative => negative = true
  | nan => False

instance : (x : Double) → Decidable x.NonPos
  | finite q _ => inferInstanceAs (Decidable (q ≤ 0))
  | inf negative => inferInstanceAs (Decidable (negative = true))
  | nan => inferInstanceAs (Decidable False)

variable {p q r : ℚ} {x y z : Double}

theorem round_of_representable (h : Representable q) : round q = finite q h := by
  have hnearest := nearest_of_representable h
  unfold round
  rw [dif_pos (by rw [hnearest]; exact h.abs_lt)]
  simp only [hnearest]

theorem toRat?_round (h : Representable q) : (round q).toRat? = some q := by
  rw [round_of_representable h, toRat?]

theorem toRat?_round_iff : (round p).toRat? = some q ↔ |q| < 2 ^ 1024 ∧ nearest p = q := by
  unfold round
  split_ifs with hsmall
  · rw [toRat?, Option.some.injEq]
    exact ⟨fun h => ⟨h ▸ hsmall, h⟩, And.right⟩
  · simp only [toRat?, reduceCtorEq, false_iff]
    rintro ⟨hlt, rfl⟩
    exact hsmall hlt

/-- A difference and a sum, rounded one after the other, are exact if the first error is made up
for. -/
theorem toRat?_sub_add_iff (hx : x.toRat? = some p) (hy : y.toRat? = some q)
    (hz : z.toRat? = some r) :
    (x - y + z).toRat? = some (p - q + r) ↔ Absorbed (p - q) r := by
  cases x with
  | finite p hp =>
    cases y with
    | finite q hq =>
      cases z with
      | finite r hr =>
        obtain rfl := Option.some.inj hx
        obtain rfl := Option.some.inj hy
        obtain rfl := Option.some.inj hz
        change (add (round (p - q)) (finite r hr)).toRat? = _ ↔ _
        have herror : nearest (p - q) + r - (p - q + r) = nearest (p - q) - (p - q) :=
          add_sub_add_right_eq_sub _ _ _
        by_cases hsmall : |nearest (p - q)| < 2 ^ 1024
        · rw [round, dif_pos hsmall, add, toRat?_round_iff, nearest_eq_iff, herror, Absorbed,
            and_iff_right hsmall]
        · rw [round, dif_neg hsmall, add, Absorbed]
          simp [toRat?, hsmall]
      | _ => cases hz
    | _ => cases hy
  | _ => cases hx

theorem nonPos_iff (h : x.toRat? = some q) : x.NonPos ↔ q ≤ 0 := by
  cases x with
  | finite p hp =>
    obtain rfl := Option.some.inj h
    exact Iff.rfl
  | _ => cases h

end Double

example : (Double.round (2 ^ 53 + 2) - Double.round 2 + Double.round 1).toRat? = some (2 ^ 53) := by
  decide +kernel

example : (Double.round (10 ^ 308) + Double.round (10 ^ 308)).toRat? = none := by decide +kernel
