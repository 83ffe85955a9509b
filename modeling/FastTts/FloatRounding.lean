import FastTts.FloatFormat

/-!
# Order and error of rounding

Rounding to a format keeps the order of numbers that are not negative, and its error is at most half
a unit of the last place.
-/

namespace FastTts.FloatFormat

variable {F : Format} {p q : ℚ}

theorem roundHalfEven_mono (h : p ≤ q) : roundHalfEven p ≤ roundHalfEven q := by
  have hfloor : ⌊p⌋ ≤ ⌊q⌋ := Int.floor_mono h
  obtain heq | hlt := hfloor.eq_or_lt
  · rw [roundHalfEven, roundHalfEven, heq]
    split_ifs with hp hq hq' hp' hq hq' <;> first | omega | linarith
  · have hp : roundHalfEven p ≤ ⌊p⌋ + 1 := roundHalfEven_le (by
      push_cast
      exact (Int.lt_floor_add_one p).le)
    have hq : ⌊q⌋ ≤ roundHalfEven q := le_roundHalfEven (Int.floor_le q)
    omega

theorem roundHalfEven_le_add (q : ℚ) : (roundHalfEven q : ℚ) ≤ q + 1 / 2 := by
  have hfloor := Int.floor_le q
  rw [roundHalfEven]
  split_ifs with hlow hhigh
  · linarith
  · push_cast
    linarith
  · obtain hmod | hmod := Int.emod_two_eq_zero_or_one ⌊q⌋ <;> rw [hmod] <;> push_cast <;> linarith

/-- A power of two that is a multiple of the unit of a number bounds what the number is rounded
to. -/
theorem scaled_le_zpow {e : ℤ} (he : F.exponent q ≤ e) (h : q ≤ 2 ^ e) : F.scaled q ≤ 2 ^ e := by
  obtain ⟨n, hn⟩ := Int.eq_ofNat_of_zero_le (by omega : 0 ≤ e - F.exponent q)
  have hpow : (2 : ℚ) ^ e = ((2 ^ n : ℤ) : ℚ) * 2 ^ F.exponent q := by
    push_cast
    rw [← zpow_natCast, ← two_zpow_add]
    congr 1
    omega
  rw [Format.scaled, hpow]
  refine mul_le_mul_of_nonneg_right ?_ (two_zpow_pos _).le
  rw [Int.cast_le]
  apply roundHalfEven_le
  rw [div_le_iff₀ (two_zpow_pos _), ← hpow]
  exact h

theorem zpow_le_scaled {e : ℤ} (he : F.exponent q ≤ e) (h : 2 ^ e ≤ q) : 2 ^ e ≤ F.scaled q := by
  obtain ⟨n, hn⟩ := Int.eq_ofNat_of_zero_le (by omega : 0 ≤ e - F.exponent q)
  have hpow : (2 : ℚ) ^ e = ((2 ^ n : ℤ) : ℚ) * 2 ^ F.exponent q := by
    push_cast
    rw [← zpow_natCast, ← two_zpow_add]
    congr 1
    omega
  rw [Format.scaled, hpow]
  refine mul_le_mul_of_nonneg_right ?_ (two_zpow_pos _).le
  rw [Int.cast_le]
  apply le_roundHalfEven
  rw [le_div_iff₀ (two_zpow_pos _), ← hpow]
  exact h

theorem exponent_mono (hp : 0 < p) (h : p ≤ q) : F.exponent p ≤ F.exponent q := by
  have hlog : Int.log 2 |p| ≤ Int.log 2 |q| := by
    rw [abs_of_pos hp, abs_of_pos (hp.trans_le h)]
    exact Int.log_mono_right hp h
  rw [Format.exponent, Format.exponent]
  omega

theorem scaled_zero : F.scaled 0 = 0 := by
  rw [Format.scaled, zero_div]
  simp [roundHalfEven]

theorem scaled_nonneg (h : 0 ≤ q) : 0 ≤ F.scaled q := by
  refine mul_nonneg ?_ (two_zpow_pos _).le
  have hround : (0 : ℤ) ≤ roundHalfEven (q / 2 ^ F.exponent q) :=
    le_roundHalfEven (by
      rw [Int.cast_zero]
      exact div_nonneg h (two_zpow_pos _).le)
  exact_mod_cast hround

/-- Between two exponents lies a power of two that both numbers are rounded on their side of. -/
theorem scaled_mono (hp : 0 ≤ p) (h : p ≤ q) : F.scaled p ≤ F.scaled q := by
  obtain rfl | hpos := hp.eq_or_lt
  · rw [scaled_zero]
    exact scaled_nonneg h
  have hq := hpos.trans_le h
  obtain heq | hlt := (exponent_mono (F := F) hpos h).eq_or_lt
  · rw [Format.scaled, Format.scaled, heq]
    refine mul_le_mul_of_nonneg_right ?_ (two_zpow_pos _).le
    rw [Int.cast_le]
    exact roundHalfEven_mono (div_le_div_of_nonneg_right h (two_zpow_pos _).le)
  · have hlarge : F.exponent q = Int.log 2 q + 1 - F.precision := by
      have hmin : F.minExp ≤ F.exponent p := le_max_left _ _
      have hexp : F.exponent q = max F.minExp (Int.log 2 q + 1 - F.precision) := by
        rw [Format.exponent, abs_of_pos hq]
      rw [hexp] at hlt ⊢
      omega
    have hprecision := F.positive
    have hbelow : p ≤ 2 ^ Int.log 2 q := by
      have hlog := Int.lt_zpow_succ_log_self (R := ℚ) (by decide : 1 < 2) p
      have hexp : Int.log 2 p + 1 - F.precision ≤ F.exponent p := by
        rw [Format.exponent, abs_of_pos hpos]
        exact le_max_right _ _
      have hle : (2 : ℚ) ^ (Int.log 2 p + 1) ≤ 2 ^ Int.log 2 q :=
        zpow_le_zpow_right₀ (by norm_num) (by omega)
      exact_mod_cast hlog.le.trans (by exact_mod_cast hle)
    have habove : (2 : ℚ) ^ Int.log 2 q ≤ q := by
      exact_mod_cast Int.zpow_log_le_self (by decide : 1 < 2) hq
    exact (scaled_le_zpow (by omega) hbelow).trans (zpow_le_scaled (by omega) habove)

theorem scaled_intCast {n : ℤ} (hmin : F.minExp ≤ 0) (hn : 0 ≤ n) (h : n ≤ 2 ^ F.precision) :
    F.scaled n = n := by
  obtain rfl | hpos := hn.eq_or_lt
  · rw [Int.cast_zero, scaled_zero]
  have hcast : (0 : ℚ) < n := by exact_mod_cast hpos
  have hexp : F.exponent n = max F.minExp (Int.log 2 (n : ℚ) + 1 - F.precision) := by
    rw [Format.exponent, abs_of_pos hcast]
  have hprecision := F.positive
  obtain heq | hlt := h.eq_or_lt
  · have hpow : (n : ℚ) = 2 ^ (F.precision : ℤ) := by
      rw [heq, zpow_natCast]
      push_cast
      rfl
    have hlog : Int.log 2 (n : ℚ) = F.precision := by
      rw [hpow]
      exact Int.log_zpow (by decide : 1 < 2) _
    have hle : F.exponent n ≤ F.precision := by omega
    exact le_antisymm ((scaled_le_zpow hle hpow.le).trans_eq hpow.symm)
      (hpow.le.trans (zpow_le_scaled hle hpow.ge))
  · have hlog : Int.log 2 (n : ℚ) < F.precision := by
      rw [← Int.lt_zpow_iff_log_lt (by decide : 1 < 2) hcast, zpow_natCast]
      exact_mod_cast hlt
    obtain ⟨k, hk⟩ := Int.eq_ofNat_of_zero_le (by omega : 0 ≤ -F.exponent n)
    have hdiv : (n : ℚ) / 2 ^ F.exponent n = ((n * 2 ^ k : ℤ) : ℚ) := by
      push_cast
      rw [div_eq_mul_inv, ← zpow_neg, hk, ← zpow_natCast]
    rw [Format.scaled, hdiv, roundHalfEven_intCast, ← hdiv]
    exact div_mul_cancel₀ _ (two_zpow_pos _).ne'

theorem scaled_le_mul (hq : 0 < q) (h : F.minExp ≤ Int.log 2 q + 1 - F.precision) :
    F.scaled q ≤ q * (1 + 2 ^ (-(F.precision : ℤ))) := by
  have hexp : F.exponent q = Int.log 2 q + (-(F.precision : ℤ)) + 1 := by
    rw [Format.exponent, abs_of_pos hq]
    omega
  have hlog : (2 : ℚ) ^ Int.log 2 q ≤ q := by
    exact_mod_cast Int.zpow_log_le_self (by decide : 1 < 2) hq
  have hround := roundHalfEven_le_add (q / 2 ^ F.exponent q)
  have hunit := two_zpow_pos (F.exponent q)
  calc F.scaled q
      ≤ (q / 2 ^ F.exponent q + 1 / 2) * 2 ^ F.exponent q :=
        mul_le_mul_of_nonneg_right hround hunit.le
    _ = q + 2 ^ Int.log 2 q * 2 ^ (-(F.precision : ℤ)) := by
        rw [add_mul, div_mul_cancel₀ _ hunit.ne', hexp, two_zpow_add, two_zpow_add, zpow_one]
        ring
    _ ≤ q * (1 + 2 ^ (-(F.precision : ℤ))) := by
        rw [mul_add, mul_one]
        exact add_le_add_right (mul_le_mul_of_nonneg_right hlog (two_zpow_pos _).le) q

end FastTts.FloatFormat
