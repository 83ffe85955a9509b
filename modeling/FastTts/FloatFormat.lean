import Mathlib.Data.Int.Log
import Mathlib.Data.Rat.Floor
import Mathlib.Tactic.Positivity

/-!
# Binary number formats

The finite values of a format are mantissas of a fixed number of bits, scaled by powers of two. A
rational is rounded to the nearest one, and to the even mantissa if two are equally near; a value of
the format is rounded to itself.
-/

namespace FastTts.FloatFormat

/-! ## Rounding to integers -/

/-- The nearest integer, and the even one of two that are equally near. -/
def roundHalfEven (q : ℚ) : ℤ :=
  if q - ⌊q⌋ < 1 / 2 then ⌊q⌋
  else if 1 / 2 < q - ⌊q⌋ then ⌊q⌋ + 1
  else ⌊q⌋ + ⌊q⌋ % 2

@[simp] theorem roundHalfEven_intCast (n : ℤ) : roundHalfEven n = n := by
  simp [roundHalfEven]

variable {q : ℚ} {n : ℤ}

theorem roundHalfEven_le (h : q ≤ n) : roundHalfEven q ≤ n := by
  have hfloor : ⌊q⌋ ≤ n := by
    have hcast := (Int.floor_le q).trans h
    exact_mod_cast hcast
  obtain rfl | hlt := hfloor.eq_or_lt
  · have hq : q = ⌊q⌋ := le_antisymm h (Int.floor_le q)
    rw [hq, roundHalfEven_intCast, Int.floor_intCast]
  · rw [roundHalfEven]
    split_ifs <;> omega

theorem le_roundHalfEven (h : (n : ℚ) ≤ q) : n ≤ roundHalfEven q := by
  have hfloor : n ≤ ⌊q⌋ := Int.le_floor.mpr h
  rw [roundHalfEven]
  split_ifs <;> omega

theorem abs_roundHalfEven_le (h : |q| ≤ n) : |roundHalfEven q| ≤ n := by
  rw [abs_le] at h ⊢
  constructor
  · apply le_roundHalfEven
    rw [Int.cast_neg]
    exact h.1
  · exact roundHalfEven_le h.2

/-! ## Formats -/

/-- The number of bits of a mantissa, and the least and the greatest exponent. -/
structure Format where
  precision : ℕ
  minExp : ℤ
  maxExp : ℤ
  positive : 0 < precision

variable {F : Format}

def Format.bound (F : Format) : ℚ := 2 ^ (F.precision + F.maxExp)

def Format.Representable (F : Format) (q : ℚ) : Prop :=
  ∃ m e : ℤ, |m| < 2 ^ F.precision ∧ F.minExp ≤ e ∧ q = m * 2 ^ e ∧ |q| < F.bound

/-- The numbers of a format; a zero has no sign here. -/
inductive Value (F : Format)
  | finite (value : ℚ) (representable : F.Representable value)
  | infinite (negative : Bool)
  | nan

/-- The exponent at which the mantissa of a number fills its bits, if that is not too small. -/
def Format.exponent (F : Format) (q : ℚ) : ℤ := max F.minExp (Int.log 2 |q| + 1 - F.precision)

def Format.scaled (F : Format) (q : ℚ) : ℚ :=
  roundHalfEven (q / 2 ^ F.exponent q) * 2 ^ F.exponent q

theorem two_zpow_pos (e : ℤ) : (0 : ℚ) < 2 ^ e := zpow_pos two_pos e

theorem two_zpow_add (d e : ℤ) : (2 : ℚ) ^ (d + e) = 2 ^ d * 2 ^ e := zpow_add₀ two_ne_zero d e

theorem abs_mantissa_le (q : ℚ) : |roundHalfEven (q / 2 ^ F.exponent q)| ≤ 2 ^ F.precision := by
  apply abs_roundHalfEven_le
  have hlog : |q| < 2 ^ (Int.log 2 |q| + 1) := by
    have hnext := Int.lt_zpow_succ_log_self (R := ℚ) (by decide : 1 < 2) |q|
    exact_mod_cast hnext
  have hle : (2 : ℚ) ^ (Int.log 2 |q| + 1) ≤ 2 ^ ((F.precision : ℤ) + F.exponent q) := by
    apply zpow_le_zpow_right₀ (by norm_num)
    have hexp : Int.log 2 |q| + 1 - F.precision ≤ F.exponent q := le_max_right _ _
    omega
  rw [two_zpow_add F.precision, zpow_natCast] at hle
  rw [abs_div, abs_of_pos (two_zpow_pos _), div_le_iff₀ (two_zpow_pos _)]
  push_cast
  exact hlog.le.trans hle

theorem representable_scaled (h : |F.scaled q| < F.bound) : F.Representable (F.scaled q) := by
  obtain hlt | heq := (abs_mantissa_le (F := F) q).lt_or_eq
  · exact ⟨_, _, hlt, le_max_left _ _, rfl, h⟩
  · -- A mantissa that is rounded up to one bit more is halved.
    obtain ⟨p, hp⟩ := Nat.exists_eq_succ_of_ne_zero F.positive.ne'
    rw [hp] at heq
    have hhalf : ∀ m : ℤ, |m| = 2 ^ (p + 1) → ∃ half : ℤ, |half| < 2 ^ (p + 1) ∧ m = half * 2 := by
      intro m hm
      have hpow : (2 : ℤ) ^ (p + 1) = 2 ^ p * 2 := pow_succ 2 p
      have hpos : (0 : ℤ) < 2 ^ p := by positivity
      rw [hpow] at hm ⊢
      obtain hm | hm := (abs_eq (by positivity)).mp hm
      · refine ⟨2 ^ p, ?_, hm⟩
        rw [abs_of_pos hpos]
        omega
      · refine ⟨-2 ^ p, ?_, by rw [hm]; ring⟩
        rw [abs_neg, abs_of_pos hpos]
        omega
    obtain ⟨half, hsmall, hm⟩ := hhalf _ heq
    refine ⟨half, F.exponent q + 1, ?_, ?_, ?_, h⟩
    · rw [hp]
      exact hsmall
    · have hmin : F.minExp ≤ F.exponent q := le_max_left _ _
      omega
    · rw [Format.scaled, hm, two_zpow_add, zpow_one]
      push_cast
      ring

/-- The nearest number of the format; what is too large for it is infinite. -/
def Format.ofRat (F : Format) (q : ℚ) : Value F :=
  if h : |F.scaled q| < F.bound then .finite (F.scaled q) (representable_scaled h)
  else .infinite (decide (q < 0))

theorem scaled_of_representable (h : F.Representable q) : F.scaled q = q := by
  obtain ⟨m, e, hm, he, hq, -⟩ := h
  by_cases hzero : q = 0
  · rw [Format.scaled, hzero, zero_div]
    simp [roundHalfEven]
  have hsmall : |q| < 2 ^ ((F.precision : ℤ) + e) := by
    rw [hq, abs_mul, abs_of_pos (two_zpow_pos e), two_zpow_add, zpow_natCast]
    apply mul_lt_mul_of_pos_right _ (two_zpow_pos e)
    exact_mod_cast hm
  have hlog : Int.log 2 |q| < F.precision + e := by
    have hcast : |q| < ((2 : ℕ) : ℚ) ^ ((F.precision : ℤ) + e) := by exact_mod_cast hsmall
    exact (Int.lt_zpow_iff_log_lt (by decide) (abs_pos.mpr hzero)).mp hcast
  have hexp : F.exponent q ≤ e := max_le he (by omega)
  obtain ⟨n, hn⟩ := Int.eq_ofNat_of_zero_le (by omega : 0 ≤ e - F.exponent q)
  have hpow : (2 : ℚ) ^ e = 2 ^ n * 2 ^ F.exponent q := by
    rw [← zpow_natCast, ← two_zpow_add]
    congr 1
    omega
  have hint : q / 2 ^ F.exponent q = ((m * 2 ^ n : ℤ) : ℚ) := by
    rw [div_eq_iff (two_zpow_pos _).ne']
    push_cast
    rw [mul_assoc, ← hpow]
    exact hq
  rw [Format.scaled, hint, roundHalfEven_intCast]
  exact ((div_eq_iff (two_zpow_pos _).ne').mp hint).symm

theorem ofRat_of_representable (h : F.Representable q) : F.ofRat q = .finite q h := by
  have hsame := scaled_of_representable h
  have hbound : |F.scaled q| < F.bound := by
    obtain ⟨-, -, -, -, -, hlt⟩ := h
    rw [hsame]
    exact hlt
  rw [Format.ofRat, dif_pos hbound]
  simp only [hsame]

theorem ofRat_ne_nan (q : ℚ) : F.ofRat q ≠ .nan := by
  rw [Format.ofRat]
  split_ifs
  · exact nofun
  · exact nofun

end FastTts.FloatFormat
