import Mathlib.Data.List.Basic

/-!
# Planar data

Lanes of `stride` items each, one lane after the other in a flat list. A loop over the lanes and
over a range in each of them changes the items of that range, and no others.
-/

namespace FastTts.Planar

variable {α : Type*}

/-- A loop over `n` items from `start` on. -/
def modifyRow (f : ℕ → α → α) (start n : ℕ) (items : List α) : List α :=
  (List.range n).foldl (fun items i => items.modify (start + i) (f i)) items

variable (f : ℕ → ℕ → α → α)

/-- The same loop in every lane. -/
def modifyRows (lanes stride start n : ℕ) (items : List α) : List α :=
  (List.range lanes).foldl
    (fun items lane => modifyRow (f lane) (lane * stride + start) n items) items

theorem modifyRow_succ (f : ℕ → α → α) (start n : ℕ) (items : List α) :
    modifyRow f start (n + 1) items = (modifyRow f start n items).modify (start + n) (f n) := by
  simp [modifyRow, List.range_succ]

theorem modifyRows_succ (lanes stride start n : ℕ) (items : List α) :
    modifyRows f (lanes + 1) stride start n items =
      modifyRow (f lanes) (lanes * stride + start) n (modifyRows f lanes stride start n items) := by
  simp [modifyRows, List.range_succ]

theorem getElem?_modifyRow (f : ℕ → α → α) (start n : ℕ) (items : List α) (j : ℕ) :
    (modifyRow f start n items)[j]? =
      if start ≤ j ∧ j < start + n then items[j]?.map (f (j - start)) else items[j]? := by
  induction n with
  | zero =>
    rw [if_neg (by omega)]
    rfl
  | succ n ih =>
    rw [modifyRow_succ, List.getElem?_modify, ih]
    by_cases hlast : start + n = j
    · subst hlast
      simp
    · have hsame : (start ≤ j ∧ j < start + (n + 1)) ↔ (start ≤ j ∧ j < start + n) := by omega
      simp [hlast, hsame]

@[simp] theorem length_modifyRow (f : ℕ → α → α) (start n : ℕ) (items : List α) :
    (modifyRow f start n items).length = items.length := by
  induction n with
  | zero => rfl
  | succ n ih => rw [modifyRow_succ, List.length_modify, ih]

@[simp] theorem length_modifyRows (lanes stride start n : ℕ) (items : List α) :
    (modifyRows f lanes stride start n items).length = items.length := by
  induction lanes with
  | zero => rfl
  | succ lanes ih => rw [modifyRows_succ, length_modifyRow, ih]

variable {stride lane frame : ℕ} {lanes lane' start n : ℕ}

theorem index_lt (hlane : lane < lanes) (hframe : frame < stride) :
    lane * stride + frame < lanes * stride := by
  have hnext : (lane + 1) * stride ≤ lanes * stride := Nat.mul_le_mul_right stride hlane
  rw [Nat.succ_mul] at hnext
  omega

theorem lane_eq {frame' : ℕ} (hframe : frame < stride) (hframe' : frame' < stride) :
    lane * stride + frame = lane' * stride + frame' ↔ lane = lane' ∧ frame = frame' := by
  constructor
  · intro h
    have hlane := congrArg (· / stride) h
    have hplace := congrArg (· % stride) h
    simp only [Nat.mul_comm _ stride, Nat.mul_add_div (Nat.zero_lt_of_lt hframe),
      Nat.div_eq_of_lt hframe, Nat.div_eq_of_lt hframe', Nat.mul_add_mod, Nat.mod_eq_of_lt hframe,
      Nat.mod_eq_of_lt hframe'] at hlane hplace
    omega
  · rintro ⟨rfl, rfl⟩
    rfl

theorem inside_row (hrange : start + n ≤ stride) (hframe : frame < stride) :
    (lane' * stride + start ≤ lane * stride + frame ∧
        lane * stride + frame < lane' * stride + start + n) ↔
      lane' = lane ∧ start ≤ frame ∧ frame < start + n := by
  constructor
  · rintro ⟨hle, hlt⟩
    obtain ⟨i, hi⟩ := Nat.exists_eq_add_of_le hle
    have hplace : lane * stride + frame = lane' * stride + (start + i) := by omega
    obtain ⟨rfl, rfl⟩ := (lane_eq hframe (show start + i < stride by omega)).mp hplace
    omega
  · rintro ⟨rfl, hle, hlt⟩
    omega

theorem getElem?_modifyRows (lanes : ℕ) (items : List α) (hrange : start + n ≤ stride)
    (hframe : frame < stride) :
    (modifyRows f lanes stride start n items)[lane * stride + frame]? =
      if lane < lanes ∧ start ≤ frame ∧ frame < start + n then
        items[lane * stride + frame]?.map (f lane (frame - start))
      else items[lane * stride + frame]? := by
  induction lanes with
  | zero =>
    rw [if_neg (by omega)]
    rfl
  | succ lanes ih =>
    rw [modifyRows_succ, getElem?_modifyRow, ih]
    simp only [inside_row hrange hframe]
    by_cases hlane : lanes = lane
    · subst hlane
      have hoffset : lanes * stride + frame - (lanes * stride + start) = frame - start := by omega
      simp [hoffset]
    · have hsame : lane < lanes + 1 ↔ lane < lanes := by omega
      simp [hlane, hsame]

theorem planar_ext {items items' : List α} (hlength : items.length = lanes * stride)
    (hlength' : items'.length = lanes * stride)
    (h : ∀ lane < lanes, ∀ frame < stride,
      items[lane * stride + frame]? = items'[lane * stride + frame]?) : items = items' := by
  apply List.ext_getElem?
  intro j
  by_cases hj : j < lanes * stride
  · have hstride : 0 < stride := by
      rcases Nat.eq_zero_or_pos stride with rfl | hpos
      · simp at hj
      · exact hpos
    have hlane : j / stride < lanes := (Nat.div_lt_iff_lt_mul hstride).mpr hj
    have hplace := h (j / stride) hlane (j % stride) (Nat.mod_lt j hstride)
    rwa [Nat.mul_comm, Nat.div_add_mod] at hplace
  · rw [List.getElem?_eq_none (by omega), List.getElem?_eq_none (by omega)]

end FastTts.Planar
