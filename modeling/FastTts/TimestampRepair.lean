import FastTts.ForcedAligner

/-!
# Repaired timestamps

The times that `fix_timestamp` leaves as they are do not fall, and a run of others is filled with
times between its neighbours. Up to `2 ^ 53` the integers are all `double`s and the rounding of an
interpolation stays between them.
-/

namespace FastTts.ForcedAligner

open FloatFormat JsonText LongestChain

/-! ## Arithmetic -/

theorem int64_ok {value : ℤ} (h : 0 ≤ value) (hlt : value < 2 ^ 63) : int64 value = .ok value :=
  if_pos ⟨by omega, hlt⟩

theorem double_intCast {n : ℤ} (hn : 0 ≤ n) (h : n ≤ 2 ^ 53) : double n = n :=
  scaled_intCast (by decide) hn h

variable {n i k : ℕ}

theorem double_natCast (h : n ≤ 2 ^ 53) : double (n : ℚ) = n := by
  have hcast := double_intCast (Int.natCast_nonneg n) (by exact_mod_cast h)
  rwa [Int.cast_natCast] at hcast

theorem truncated_intCast (n : ℤ) : truncated n = n := by
  unfold truncated
  split_ifs
  · exact Int.floor_intCast n
  · exact Int.ceil_intCast n

theorem truncated_mono {p q : ℚ} (hp : 0 ≤ p) (h : p ≤ q) : truncated p ≤ truncated q := by
  rw [truncated, truncated, if_pos hp, if_pos (hp.trans h)]
  exact Int.floor_mono h

/-! ## Interpolation -/

variable {gap left : ℤ} {count position : ℕ}

theorem step_nonneg (hgap : 0 ≤ gap) (count : ℕ) :
    0 ≤ double (double gap / double ((count + 1 : ℕ) : ℚ)) := by
  apply scaled_nonneg
  exact div_nonneg (scaled_nonneg (by exact_mod_cast hgap)) (scaled_nonneg (Nat.cast_nonneg _))

/-- A step is rounded up by so little that one step for each anomaly does not reach the end. -/
theorem step_mul_le (hgap : 0 ≤ gap) (htop : gap ≤ 2 ^ 53) (hcount : count < 2 ^ 53) :
    double (double gap / double ((count + 1 : ℕ) : ℚ)) * count ≤ gap := by
  rw [double_intCast hgap htop, double_natCast hcount, double]
  obtain rfl | hpos := hgap.eq_or_lt
  · rw [Int.cast_zero, zero_div, scaled_zero, zero_mul]
  have hgap' : (1 : ℚ) ≤ gap := by exact_mod_cast hpos
  have hcount' : ((count + 1 : ℕ) : ℚ) ≤ 2 ^ 53 := by exact_mod_cast hcount
  have hden : (0 : ℚ) < ((count + 1 : ℕ) : ℚ) := by positivity
  have hlarge : (2 : ℚ) ^ (-53 : ℤ) ≤ gap / ((count + 1 : ℕ) : ℚ) := by
    rw [le_div_iff₀ hden, zpow_neg]
    calc ((2 : ℚ) ^ (53 : ℤ))⁻¹ * ((count + 1 : ℕ) : ℚ)
        ≤ (2 ^ (53 : ℤ))⁻¹ * 2 ^ 53 := by gcongr
      _ = 1 := by norm_num
      _ ≤ gap := hgap'
  have hlog : -53 ≤ Int.log 2 ((gap : ℚ) / ((count + 1 : ℕ) : ℚ)) :=
    (Int.zpow_le_iff_le_log (by decide : 1 < 2) (by positivity)).mp (by exact_mod_cast hlarge)
  have hround := scaled_le_mul (F := binary64) (q := (gap : ℚ) / ((count + 1 : ℕ) : ℚ))
    (by positivity) (by
      rw [show binary64.minExp = -1074 from rfl, show binary64.precision = 53 from rfl]
      omega)
  calc binary64.scaled ((gap : ℚ) / ((count + 1 : ℕ) : ℚ)) * count
      ≤ gap / ((count + 1 : ℕ) : ℚ) * (1 + 2 ^ (-(53 : ℤ))) * count := by
        gcongr
        exact hround
    _ = gap / ((count + 1 : ℕ) : ℚ) * (count + count * (2 ^ (53 : ℤ))⁻¹) := by
        rw [zpow_neg]
        ring
    _ ≤ gap / ((count + 1 : ℕ) : ℚ) * ((count + 1 : ℕ) : ℚ) := by
        gcongr
        push_cast
        have hsmall : (count : ℚ) * (2 ^ (53 : ℤ))⁻¹ ≤ 1 := by
          rw [mul_inv_le_iff₀ (by positivity), one_mul]
          exact_mod_cast hcount.le
        linarith
    _ = gap := div_mul_cancel₀ _ hden.ne'

theorem advance_nonneg (hgap : 0 ≤ gap) (count position : ℕ) :
    0 ≤ double (double (double gap / double ((count + 1 : ℕ) : ℚ)) * double (position : ℚ)) :=
  scaled_nonneg (mul_nonneg (step_nonneg hgap count) (scaled_nonneg (Nat.cast_nonneg _)))

theorem advance_le (hgap : 0 ≤ gap) (htop : gap ≤ 2 ^ 53) (hcount : count < 2 ^ 53)
    (hposition : position ≤ count) :
    double (double (double gap / double ((count + 1 : ℕ) : ℚ)) * double (position : ℚ)) ≤ gap := by
  have hstep := step_nonneg hgap count
  have hcast : (position : ℚ) ≤ count := by exact_mod_cast hposition
  have hmul := (mul_le_mul_of_nonneg_left hcast hstep).trans (step_mul_le hgap htop hcount)
  rw [double_natCast (by omega : position ≤ 2 ^ 53)]
  exact (scaled_mono (mul_nonneg hstep (Nat.cast_nonneg _)) hmul).trans_eq
    (double_intCast hgap htop)

theorem between_mono {m : ℕ} (hgap : 0 ≤ gap) (hleft : 0 ≤ left) (h : m ≤ n) :
    between left gap count m ≤ between left gap count n := by
  have hleft' : 0 ≤ double left := scaled_nonneg (by exact_mod_cast hleft)
  apply scaled_mono (add_nonneg hleft' (advance_nonneg hgap count m))
  apply add_le_add_right
  apply scaled_mono (mul_nonneg (step_nonneg hgap count) (scaled_nonneg (Nat.cast_nonneg _)))
  apply mul_le_mul_of_nonneg_left _ (step_nonneg hgap count)
  exact scaled_mono (Nat.cast_nonneg m) (by exact_mod_cast h)

section

variable {right : ℤ} (hleft : 0 ≤ left) (hle : left ≤ right) (hright : right ≤ 2 ^ 53)
  (hcount : count < 2 ^ 53) (hposition : position ≤ count)
include hleft hle hright hcount hposition

theorem between_bounds :
    left ≤ between left (right - left) count position ∧
      between left (right - left) count position ≤ right := by
  have hgap : 0 ≤ right - left := by omega
  have hadvance := advance_nonneg hgap count position
  have hend := advance_le hgap (by omega) hcount hposition
  rw [Int.cast_sub] at hend
  have hleft' := double_intCast hleft (by omega)
  have hright' := double_intCast (by omega : 0 ≤ right) hright
  have hleftq : (0 : ℚ) ≤ left := by exact_mod_cast hleft
  constructor
  · calc (left : ℚ) = double left := hleft'.symm
      _ ≤ _ := scaled_mono hleftq (by
        rw [hleft']
        exact le_add_of_nonneg_right hadvance)
  · calc _ ≤ double right := scaled_mono (by
          rw [hleft']
          exact add_nonneg hleftq hadvance) (by
          rw [hleft', Int.cast_sub]
          rw [Int.cast_sub] at hadvance
          linarith)
      _ = right := hright'

theorem interpolated_ok :
    interpolated left right count position =
        .ok (truncated (between left (right - left) count position)) ∧
      left ≤ truncated (between left (right - left) count position) ∧
      truncated (between left (right - left) count position) ≤ right := by
  obtain ⟨hlow, hhigh⟩ := between_bounds hleft hle hright hcount hposition
  have hleftq : (0 : ℚ) ≤ left := by exact_mod_cast hleft
  have hlower := truncated_mono hleftq hlow
  have hupper := truncated_mono (hleftq.trans hlow) hhigh
  rw [truncated_intCast] at hlower hupper
  refine ⟨?_, hlower, hupper⟩
  rw [interpolated, int64_ok (by omega) (by omega)]
  exact int64_ok (by omega) (by omega)

end

/-! ## One run -/

theorem repaired_spec {left right : Option ℤ} {top : ℤ} {j : ℕ} (own : ℕ → ℤ)
    (hsome : left ≠ none ∨ right ≠ none) (hleft : ∀ l ∈ left, 0 ≤ l ∧ l ≤ top)
    (hright : ∀ r ∈ right, 0 ≤ r ∧ r ≤ top) (hle : ∀ l ∈ left, ∀ r ∈ right, l ≤ r)
    (htop : top ≤ 2 ^ 53) (hrun : j - i < 2 ^ 53) :
    ∃ g : ℕ → ℤ, (∀ k, i ≤ k → k < j → repaired left right (own k) i j k = .ok (g k)) ∧
      (∀ k m, i ≤ k → k ≤ m → m < j → g k ≤ g m) ∧ ∀ k, i ≤ k → k < j →
        (0 ≤ g k ∧ g k ≤ top) ∧ (∀ l ∈ left, l ≤ g k) ∧ ∀ r ∈ right, g k ≤ r := by
  match left, right with
  | none, none => simp at hsome
  | none, some r =>
      refine ⟨fun _ => r, ?_, fun _ _ _ _ _ => le_rfl, ?_⟩
      · intro k _ _
        unfold repaired
        split_ifs <;> rfl
      · intro k _ _
        exact ⟨hright r rfl, by simp, by simp⟩
  | some l, none =>
      refine ⟨fun _ => l, ?_, fun _ _ _ _ _ => le_rfl, ?_⟩
      · intro k _ _
        unfold repaired
        split_ifs <;> rfl
      · intro k _ _
        exact ⟨hleft l rfl, by simp, by simp⟩
  | some l, some r =>
      obtain ⟨hl, hltop⟩ := hleft l rfl
      obtain ⟨hr, hrtop⟩ := hright r rfl
      have hlr := hle l rfl r rfl
      by_cases hshort : j - i ≤ 2
      · refine ⟨fun k => if k - (i - 1) ≤ j - k then l else r, ?_, ?_, ?_⟩
        · intro k _ _
          exact if_pos hshort
        · intro k m _ hkm _
          dsimp only
          split_ifs <;> omega
        · intro k _ _
          simp only [Option.mem_some_iff, forall_eq']
          split_ifs <;> omega
      · refine ⟨fun k => truncated (between l (r - l) (j - i) (k - i + 1)), ?_, ?_, ?_⟩
        · intro k hik hkj
          have hok := (interpolated_ok hl hlr (hrtop.trans htop) hrun
            (by omega : k - i + 1 ≤ j - i)).1
          rw [repaired, if_neg hshort]
          exact hok
        · intro k m hik hkm hmj
          have hlow := (between_bounds hl hlr (hrtop.trans htop) hrun
            (by omega : k - i + 1 ≤ j - i)).1
          have hzero : (0 : ℚ) ≤ l := by exact_mod_cast hl
          exact truncated_mono (hzero.trans hlow) (between_mono (by omega) hl (by omega))
        · intro k hik hkj
          obtain ⟨-, hlow, hhigh⟩ := interpolated_ok hl hlr (hrtop.trans htop) hrun
            (by omega : k - i + 1 ≤ j - i)
          simp only [Option.mem_some_iff, forall_eq']
          omega

theorem takeWhile_range' (p : ℕ → Bool) (start count : ℕ) :
    ((List.range' start count).takeWhile p).length ≤ count ∧
      (∀ k, start ≤ k → k < start + ((List.range' start count).takeWhile p).length → p k) ∧
      (((List.range' start count).takeWhile p).length = count ∨
        ¬ p (start + ((List.range' start count).takeWhile p).length)) := by
  induction count generalizing start with
  | zero => simp; omega
  | succ count ih =>
      rw [List.range'_succ, List.takeWhile_cons]
      by_cases hp : p start
      · obtain ⟨hle, hall, hend⟩ := ih (start + 1)
        rw [if_pos hp, List.length_cons]
        refine ⟨by omega, ?_, ?_⟩
        · intro k hk hlt
          obtain rfl | hk := hk.eq_or_lt
          · exact hp
          · exact hall k hk (by omega)
        · rw [Nat.add_comm _ 1, ← Nat.add_assoc, Nat.add_comm 1, Nat.add_right_cancel_iff]
          exact hend
      · rw [if_neg hp]
        exact ⟨Nat.zero_le _, fun k _ hlt => by simp at hlt; omega, .inr hp⟩

section Loop

variable {data : List ℤ} {normal : List ℕ} {i : ℕ}

theorem runEnd_spec (hi : i < data.length) (hnot : i ∉ normal) :
    i < runEnd data normal i ∧ runEnd data normal i ≤ data.length ∧
      (∀ k, i ≤ k → k < runEnd data normal i → k ∉ normal) ∧
      (runEnd data normal i = data.length ∨ runEnd data normal i ∈ normal) := by
  obtain ⟨hle, hall, hend⟩ := takeWhile_range' (fun k => k ∉ normal) i (data.length - i)
  simp only [decide_eq_true_eq, not_not] at hall hend
  refine ⟨?_, by unfold runEnd; omega, hall, ?_⟩
  · obtain hend | hend := hend
    · unfold runEnd
      omega
    · by_contra hempty
      unfold runEnd at hempty
      have hzero : ((List.range' i (data.length - i)).takeWhile fun k => k ∉ normal).length = 0 := by
        omega
      rw [hzero, Nat.add_zero] at hend
      exact hnot hend
  · refine hend.imp_left ?_
    unfold runEnd
    omega

@[simp] theorem leftOf_zero : leftOf normal 0 = none := rfl

theorem leftOf_succ (h : i ∈ normal) : leftOf normal (i + 1) = some i := by
  rw [leftOf, List.range_succ, List.reverse_append, List.reverse_singleton, List.singleton_append]
  exact List.find?_cons_of_pos (decide_eq_true h)

theorem rightOf_length : rightOf data normal data.length = none := by
  rw [rightOf, Nat.sub_self]
  rfl

theorem rightOf_mem {j : ℕ} (hj : j < data.length) (h : j ∈ normal) :
    rightOf data normal j = some j := by
  obtain ⟨n, hn⟩ : ∃ n, data.length - j = n + 1 := ⟨data.length - j - 1, by omega⟩
  rw [rightOf, hn, List.range'_succ]
  exact List.find?_cons_of_pos (decide_eq_true h)

end Loop


theorem valueAt_mem {data : List ℤ} (h : i < data.length) : valueAt data i ∈ data := by
  rw [valueAt, List.getD_eq_getElem _ _ h]
  exact List.getElem_mem h

theorem valueAt_append_left {result : List ℤ} (run : List ℤ) (h : k < result.length) :
    valueAt (result ++ run) k = valueAt result k :=
  List.getD_append _ _ _ _ h

theorem valueAt_append_right {result : List ℤ} (run : List ℤ) (h : result.length ≤ k) :
    valueAt (result ++ run) k = valueAt run (k - result.length) :=
  List.getD_append_right _ _ _ _ h

/-! ## The loop -/

/-- Times that can be repaired: those that are left as they are do not fall. -/
structure Repairable (data : List ℤ) (normal : List ℕ) (top : ℤ) : Prop where
  inside : ∀ i ∈ normal, i < data.length
  ordered : ∀ i ∈ normal, ∀ j ∈ normal, i ≤ j → valueAt data i ≤ valueAt data j
  occupied : data ≠ [] → normal ≠ []
  within : ∀ x ∈ data, 0 ≤ x ∧ x ≤ top
  exact : top ≤ 2 ^ 53
  short : data.length ≤ 2 ^ 53

/-- What the loop has done when it is at the index behind `result`, the start of a run of anomalies
or an index that is left as it is. -/
structure FilledTo (data : List ℤ) (normal : List ℕ) (top : ℤ) (result : List ℤ) : Prop where
  short : result.length ≤ data.length
  sorted : result.Pairwise (· ≤ ·)
  kept : ∀ k ∈ normal, k < result.length → valueAt result k = valueAt data k
  below : ∀ x ∈ result, ∀ k ∈ normal, result.length ≤ k → x ≤ valueAt data k
  within : ∀ x ∈ result, 0 ≤ x ∧ x ≤ top
  boundary : result.length < data.length → result.length ∉ normal →
    result = [] ∨ ∃ i ∈ normal, result.length = i + 1

section Filling

variable {data : List ℤ} {normal : List ℕ} {top : ℤ} {result : List ℤ}

theorem filledTo_nil : FilledTo data normal top [] :=
  ⟨Nat.zero_le _, List.Pairwise.nil, by simp, by simp, by simp, fun _ _ => .inl rfl⟩

theorem FilledTo.keep (hdata : Repairable data normal top) (h : FilledTo data normal top result)
    (hi : result.length ∈ normal) :
    FilledTo data normal top (result ++ [valueAt data result.length]) := by
  have hlt := hdata.inside _ hi
  have hlength : (result ++ [valueAt data result.length]).length = result.length + 1 := by simp
  refine ⟨by omega, ?_, ?_, ?_, ?_, fun _ _ => .inr ⟨_, hi, hlength⟩⟩
  · refine List.pairwise_append.mpr ⟨h.sorted, List.pairwise_singleton _ _, ?_⟩
    intro x hx y hy
    rw [List.mem_singleton.mp hy]
    exact h.below x hx _ hi le_rfl
  · intro k hk hlt
    obtain hlt | rfl : k < result.length ∨ k = result.length := by omega
    · rw [valueAt_append_left _ hlt, h.kept k hk hlt]
    · rw [valueAt_append_right _ le_rfl, Nat.sub_self]
      rfl
  · intro x hx k hk hle
    obtain hx | hx := List.mem_append.mp hx
    · exact h.below x hx k hk (by omega)
    · rw [List.mem_singleton.mp hx]
      exact hdata.ordered _ hi k hk (by omega)
  · intro x hx
    obtain hx | hx := List.mem_append.mp hx
    · exact h.within x hx
    · rw [List.mem_singleton.mp hx]
      exact hdata.within _ (valueAt_mem hlt)

variable {j : ℕ}

theorem FilledTo.fill (hdata : Repairable data normal top) (h : FilledTo data normal top result)
    {g : ℕ → ℤ} (hj : result.length ≤ j) (hshort : j ≤ data.length)
    (hanomalies : ∀ k, result.length ≤ k → k < j → k ∉ normal) (hend : j = data.length ∨ j ∈ normal)
    (hg : ∀ k m, result.length ≤ k → k ≤ m → m < j → g k ≤ g m)
    (habove : ∀ x ∈ result, ∀ k, result.length ≤ k → k < j → x ≤ g k)
    (hbelow : j ∈ normal → ∀ k, result.length ≤ k → k < j → g k ≤ valueAt data j)
    (hwithin : ∀ k, result.length ≤ k → k < j → 0 ≤ g k ∧ g k ≤ top) :
    FilledTo data normal top (result ++ (List.range' result.length (j - result.length)).map g) := by
  have hlength : (result ++ (List.range' result.length (j - result.length)).map g).length = j := by
    rw [List.length_append, List.length_map, List.length_range']
    omega
  have hmem : ∀ y ∈ (List.range' result.length (j - result.length)).map g,
      ∃ k, result.length ≤ k ∧ k < j ∧ y = g k := by
    intro y hy
    obtain ⟨k, hk, rfl⟩ := List.mem_map.mp hy
    have hrange := List.mem_range'_1.mp hk
    exact ⟨k, hrange.1, by omega, rfl⟩
  refine ⟨by omega, ?_, ?_, ?_, ?_,
    fun hlt hnot => absurd (hend.resolve_left (by omega)) (hlength ▸ hnot)⟩
  · refine List.pairwise_append.mpr ⟨h.sorted, ?_, ?_⟩
    · rw [List.pairwise_map]
      refine (List.pairwise_lt_range' 1).imp_of_mem ?_
      intro k m hk hm hkm
      have hfirst := List.mem_range'_1.mp hk
      have hlast := List.mem_range'_1.mp hm
      exact hg k m hfirst.1 hkm.le (by omega)
    · intro x hx y hy
      obtain ⟨k, hk, hkj, rfl⟩ := hmem y hy
      exact habove x hx k hk hkj
  · intro k hk hlt
    have hfront : k < result.length := by
      by_contra hle
      exact hanomalies k (by omega) (by omega) hk
    rw [valueAt_append_left _ hfront, h.kept k hk hfront]
  · intro x hx k hk hle
    obtain hx | hx := List.mem_append.mp hx
    · exact h.below x hx k hk (by omega)
    · obtain ⟨m, hm, hmj, rfl⟩ := hmem x hx
      have hk' := hdata.inside k hk
      have hnormal : j ∈ normal := hend.resolve_left (by omega)
      exact (hbelow hnormal m hm hmj).trans (hdata.ordered j hnormal k hk (by omega))
  · intro x hx
    obtain hx | hx := List.mem_append.mp hx
    · exact h.within x hx
    · obtain ⟨k, hk, hkj, rfl⟩ := hmem x hx
      exact hwithin k hk hkj

theorem FilledTo.leftOf_eq (h : FilledTo data normal top result)
    (hlt : result.length < data.length) (hnot : result.length ∉ normal) :
    (result = [] ∧ leftOf normal result.length = none) ∨
      ∃ i ∈ normal, result.length = i + 1 ∧ leftOf normal result.length = some i ∧
        ∀ x ∈ result, x ≤ valueAt result i := by
  obtain rfl | ⟨i, hi, hlength⟩ := h.boundary hlt hnot
  · exact .inl ⟨rfl, rfl⟩
  refine .inr ⟨i, hi, hlength, by rw [hlength, leftOf_succ hi], ?_⟩
  intro x hx
  obtain ⟨k, hk, rfl⟩ := List.mem_iff_getElem.mp hx
  have hlast : valueAt result i = result[i] := List.getD_eq_getElem _ _ (by omega)
  rw [hlast]
  obtain hki | rfl : k < i ∨ k = i := by omega
  · exact List.pairwise_iff_getElem.mp h.sorted k i hk (by omega) hki
  · exact le_rfl

section

variable (hdata : Repairable data normal top)
include hdata

theorem rightOf_eq (hend : j = data.length ∨ j ∈ normal) :
    (j = data.length ∧ rightOf data normal j = none) ∨
      (j ∈ normal ∧ rightOf data normal j = some j) := by
  by_cases hnormal : j ∈ normal
  · exact .inr ⟨hnormal, rightOf_mem (hdata.inside j hnormal) hnormal⟩
  · obtain rfl := hend.resolve_right hnormal
    exact .inl ⟨rfl, rightOf_length⟩

theorem FilledTo.step (h : FilledTo data normal top result)
    (hlt : result.length < data.length) (hnot : result.length ∉ normal) :
    ∃ run, (List.range' result.length (runEnd data normal result.length - result.length)).mapM
        (fun k => repaired ((leftOf normal result.length).map (valueAt result))
          ((rightOf data normal (runEnd data normal result.length)).map (valueAt data))
          (valueAt data k) result.length (runEnd data normal result.length) k) = .ok run ∧
      result.length < (result ++ run).length ∧ FilledTo data normal top (result ++ run) := by
  obtain ⟨hstart, hle, hanomalies, hend⟩ := runEnd_spec hlt hnot
  generalize runEnd data normal result.length = j at *
  have hshort := hdata.short
  have hleft := h.leftOf_eq hlt hnot
  have hright := rightOf_eq hdata hend
  have hneighbour : 0 < result.length ∨ j ∈ normal := by
    obtain hempty | hpos := result.length.eq_zero_or_pos
    · refine .inr (hend.resolve_left ?_)
      rintro rfl
      obtain ⟨k, hk⟩ := List.exists_mem_of_ne_nil _
        (hdata.occupied (List.ne_nil_of_length_pos (by omega)))
      exact hanomalies k (by omega) (hdata.inside k hk) hk
    · exact .inl hpos
  have hsome : (leftOf normal result.length).map (valueAt result) ≠ none ∨
      (rightOf data normal j).map (valueAt data) ≠ none := by
    obtain ⟨rfl, -⟩ | ⟨i, -, -, hi, -⟩ := hleft
    · have hj := hneighbour.resolve_left (lt_irrefl 0)
      exact .inr (by simp [rightOf_mem (hdata.inside j hj) hj])
    · exact .inl (by simp [hi])
  have hleftIn : ∀ l ∈ (leftOf normal result.length).map (valueAt result), 0 ≤ l ∧ l ≤ top := by
    obtain ⟨-, hnone⟩ | ⟨i, -, hi, hsome, -⟩ := hleft
    · simp [hnone]
    · simp only [hsome, Option.map_some, Option.mem_some_iff, forall_eq']
      exact h.within _ (valueAt_mem (by omega))
  have hrightIn : ∀ r ∈ (rightOf data normal j).map (valueAt data), 0 ≤ r ∧ r ≤ top := by
    obtain ⟨-, hnone⟩ | ⟨hj, hsome⟩ := hright
    · simp [hnone]
    · simp only [hsome, Option.map_some, Option.mem_some_iff, forall_eq']
      exact hdata.within _ (valueAt_mem (hdata.inside j hj))
  have hordered : ∀ l ∈ (leftOf normal result.length).map (valueAt result),
      ∀ r ∈ (rightOf data normal j).map (valueAt data), l ≤ r := by
    obtain ⟨-, hnone⟩ | ⟨i, -, hi, hsome, -⟩ := hleft
    · simp [hnone]
    obtain ⟨-, hnone⟩ | ⟨hj, hsome'⟩ := hright
    · simp [hnone]
    simp only [hsome, hsome', Option.map_some, Option.mem_some_iff, forall_eq']
    exact h.below _ (valueAt_mem (by omega)) j hj hstart.le
  obtain ⟨g, hok, hmono, hbounds⟩ := repaired_spec (i := result.length) (j := j) (valueAt data)
    hsome hleftIn hrightIn hordered hdata.exact (by
      obtain hpos | hj := hneighbour
      · omega
      · have hin := hdata.inside j hj
        omega)
  refine ⟨_, mapM_ok (g := g) ?_, ?_, ?_⟩
  · intro k hk
    have hrange := List.mem_range'_1.mp hk
    exact hok k hrange.1 (by omega)
  · rw [List.length_append, List.length_map, List.length_range']
    omega
  · refine h.fill hdata hstart.le hle hanomalies hend hmono ?_ ?_
      fun k hk hkj => (hbounds k hk hkj).1
    · intro x hx k hk hkj
      obtain ⟨rfl, -⟩ | ⟨i, -, -, hsome, hlast⟩ := hleft
      · exact absurd hx List.not_mem_nil
      · refine (hlast x hx).trans ((hbounds k hk hkj).2.1 _ ?_)
        simp [hsome]
    · intro hj k hk hkj
      refine (hbounds k hk hkj).2.2 _ ?_
      simp [rightOf_mem (hdata.inside j hj) hj]

theorem fixFrom_filled {fuel : ℕ}
    (hfuel : data.length ≤ result.length + fuel) (h : FilledTo data normal top result) :
    ∃ fixed, fixFrom data normal fuel result = .ok fixed ∧ FilledTo data normal top fixed ∧
      fixed.length = data.length := by
  induction fuel generalizing result with
  | zero => exact ⟨result, rfl, h, le_antisymm h.short hfuel⟩
  | succ fuel ih =>
      unfold fixFrom
      dsimp only
      split_ifs with hdone hnormal
      · exact ⟨result, rfl, h, le_antisymm h.short hdone⟩
      · exact ih (by simp; omega) (h.keep hdata hnormal)
      · obtain ⟨run, hrun, hgrows, hfilled⟩ := h.step hdata (by omega) hnormal
        rw [hrun]
        exact ih (by omega) hfilled

end

end Filling

end FastTts.ForcedAligner
