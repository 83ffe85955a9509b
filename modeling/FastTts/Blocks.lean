import Mathlib.Data.List.DropRight

/-!
# Rows in a flat list

A list of rows of one length, laid out one after the other: reading a row back, and writing into
all rows at one place.
-/

namespace FastTts.Blocks

variable {R : Type*}

def slice (n b : ℕ) (items : List R) : List R := (items.drop (b * n)).take n

variable {slot n : ℕ} {rows : List (List R)} {items values : List R} {count : ℕ}

theorem take_succ_set (h : slot < items.length) (item : R) :
    (items.set slot item).take (slot + 1) = items.take slot ++ [item] := by
  rw [List.take_add_one, List.getElem?_set_self h, List.take_set_of_le (Nat.le_refl slot)]
  rfl

section

variable (h : ∀ row ∈ rows, row.length = n)
include h

theorem slice_flatten (b : ℕ) : slice n b rows.flatten = rows.getD b [] := by
  induction rows generalizing b with
  | nil => simp [slice]
  | cons row rows ih =>
    have hrow := h row List.mem_cons_self
    have hrest := ih fun r hr => h r (List.mem_cons_of_mem _ hr)
    cases b with
    | zero =>
      rw [slice, Nat.zero_mul, List.drop_zero, List.flatten_cons, ← hrow, List.take_left]
      rfl
    | succ b =>
      have hsum : (b + 1) * n = row.length + b * n := by
        rw [hrow, Nat.add_mul, Nat.one_mul, Nat.add_comm]
      rw [slice, hsum, ← List.drop_drop, List.flatten_cons, List.drop_left]
      exact hrest b

theorem getElem?_flatten (b : ℕ) {i : ℕ} (hi : i < n) :
    rows.flatten[b * n + i]? = (rows.getD b [])[i]? := by
  rw [← slice_flatten h, slice, List.getElem?_take_of_lt hi, List.getElem?_drop]

theorem length_flatten : rows.flatten.length = rows.length * n := by
  induction rows with
  | nil => exact (Nat.zero_mul n).symm
  | cons row rows ih =>
    rw [List.flatten_cons, List.length_append, h row List.mem_cons_self,
      ih fun r hr => h r (List.mem_cons_of_mem _ hr), List.length_cons, Nat.add_mul, Nat.one_mul,
      Nat.add_comm]

theorem drop_flatten (k : ℕ) : rows.flatten.drop (k * n) = (rows.drop k).flatten := by
  induction k generalizing rows with
  | zero => rw [Nat.zero_mul, List.drop_zero, List.drop_zero]
  | succ k ih =>
    cases rows with
    | nil => rw [List.flatten_nil, List.drop_nil, List.drop_nil, List.flatten_nil]
    | cons row rows =>
      have hsum : (k + 1) * n = row.length + k * n := by
        rw [h row List.mem_cons_self, Nat.succ_mul, Nat.add_comm]
      rw [hsum, ← List.drop_drop, List.flatten_cons, List.drop_left, List.drop_succ_cons]
      exact ih fun r hr => h r (List.mem_cons_of_mem _ hr)

end

theorem rtake_rtake_append (a b : List R) (n : ℕ) :
    (a.rtake n ++ b).rtake n = (a ++ b).rtake n := by
  unfold List.rtake
  rw [List.drop_append, List.drop_append, List.drop_drop, List.length_append, List.length_append,
    List.length_drop]
  congr 2 <;> omega

def rowsOf (n count : ℕ) (items : List R) : List (List R) :=
  (List.range count).map fun b => slice n b items

theorem length_rowsOf (n count : ℕ) (items : List R) : (rowsOf n count items).length = count := by
  rw [rowsOf, List.length_map, List.length_range]

theorem length_of_mem_rowsOf {row : List R} (h : count * n ≤ items.length)
    (hrow : row ∈ rowsOf n count items) : row.length = n := by
  obtain ⟨b, hb, rfl⟩ := List.mem_map.mp hrow
  have hlast : (b + 1) * n ≤ count * n := Nat.mul_le_mul_right n (List.mem_range.mp hb)
  rw [Nat.succ_mul] at hlast
  rw [slice, List.length_take, List.length_drop]
  omega

theorem rowsOf_flatten (h : ∀ row ∈ rows, row.length = n) :
    rowsOf n rows.length rows.flatten = rows := by
  apply List.ext_getElem?
  intro b
  rw [rowsOf, List.getElem?_map]
  rcases Nat.lt_or_ge b rows.length with hb | hb
  · rw [List.getElem?_range hb, Option.map_some, slice_flatten h, List.getD_eq_getElem?_getD,
      List.getElem?_eq_getElem hb, Option.getD_some]
  · rw [List.getElem?_eq_none (by simpa using hb), List.getElem?_eq_none hb, Option.map_none]

theorem rowsOf_succ (n count : ℕ) (items : List R) :
    rowsOf n (count + 1) items = rowsOf n count items ++ [slice n count items] := by
  rw [rowsOf, rowsOf, List.range_succ, List.map_append, List.map_singleton]

theorem flatten_rowsOf (n count : ℕ) (items : List R) :
    (rowsOf n count items).flatten = items.take (count * n) := by
  induction count with
  | zero => simp [rowsOf]
  | succ count ih =>
    rw [rowsOf_succ, List.flatten_append, ih, List.flatten_singleton, slice, Nat.succ_mul,
      List.take_add]

theorem foldl_rows {initial : List R} {row : ℕ → List R} {step : List R → ℕ → List R}
    (hrow : ∀ i < count, (row i).length = n)
    (hstep : ∀ i < count, ∀ before after : List R, before.length = i * n →
      step (before ++ initial ++ after) i = before ++ row i ++ after) :
    (List.range count).foldl step (List.replicate count initial).flatten =
      ((List.range count).map row).flatten := by
  have hrows : ∀ done ≤ count, (List.range done).foldl step
      (List.replicate count initial).flatten =
      ((List.range done).map row).flatten ++
        (List.replicate (count - done) initial).flatten := by
    intro done hdone
    induction done with
    | zero => simp
    | succ done ih =>
      have hlen : ((List.range done).map row).flatten.length = done * n := by
        rw [length_flatten (n := n), List.length_map, List.length_range]
        intro r hr
        obtain ⟨i, hi, rfl⟩ := List.mem_map.mp hr
        rw [List.mem_range] at hi
        exact hrow i (by omega)
      have hleft : count - done = count - (done + 1) + 1 := by omega
      rw [List.range_succ, List.foldl_append, ih (by omega), List.foldl_cons, List.foldl_nil,
        hleft, List.replicate_succ, List.flatten_cons, ← List.append_assoc,
        hstep done hdone _ _ hlen]
      simp
  have hall := hrows count (Nat.le_refl count)
  rw [Nat.sub_self, List.replicate_zero, List.flatten_nil, List.append_nil] at hall
  exact hall

/-- Items at given places are replaced, one after the other. -/
def setRows (items : List R) (indices : List ℕ) (values : List R) : List R :=
  (indices.zip values).foldl (fun items entry => items.set entry.1 entry.2) items

section

variable (hslot : slot < n) (h : ∀ row ∈ rows, row.length = n)
  (hvalues : values.length = rows.length)
include hslot h hvalues

theorem setRows_flatten_from (before : List R) :
    setRows (before ++ rows.flatten)
        ((List.range rows.length).map fun b => before.length + b * n + slot) values =
      before ++ (List.zipWith (fun row value => row.set slot value) rows values).flatten := by
  induction rows generalizing values before with
  | nil => rfl
  | cons row rows ih =>
    cases values with
    | nil => cases hvalues
    | cons value values =>
      have hrow := h row List.mem_cons_self
      have hset : (before ++ (row :: rows).flatten).set (before.length + 0 * n + slot) value =
          (before ++ row.set slot value) ++ rows.flatten := by
        rw [Nat.zero_mul, Nat.add_zero, List.set_append_right _ _ (Nat.le_add_right _ _),
          Nat.add_sub_cancel_left, List.flatten_cons, List.set_append_left _ _ (by omega),
          List.append_assoc]
      have hindices : (List.range (row :: rows).length).map
          (fun b => before.length + b * n + slot) =
          (before.length + 0 * n + slot) :: (List.range rows.length).map fun b =>
            (before ++ row.set slot value).length + b * n + slot := by
        rw [List.length_cons, List.range_succ_eq_map, List.map_cons, List.map_map]
        congr 1
        apply List.map_congr_left
        intro b _
        simp only [Function.comp_apply, List.length_append, List.length_set, hrow,
          Nat.succ_eq_add_one, Nat.add_mul, Nat.one_mul]
        omega
      have hrest := ih (fun r hr => h r (List.mem_cons_of_mem _ hr))
        (Nat.succ.inj hvalues) (before ++ row.set slot value)
      rw [setRows] at hrest
      rw [hindices, setRows, List.zip_cons_cons, List.foldl_cons, hset, hrest,
        List.zipWith_cons_cons, List.flatten_cons, List.append_assoc]

theorem setRows_flatten :
    setRows rows.flatten ((List.range rows.length).map fun b => b * n + slot) values =
      (List.zipWith (fun row value => row.set slot value) rows values).flatten := by
  have hfrom := setRows_flatten_from hslot h hvalues []
  simpa using hfrom

end

end FastTts.Blocks
