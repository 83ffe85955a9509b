import Mathlib.Data.List.DropRight

/-!
# Windows of a local transformation

A transformation gives a block of `rate` outputs for each item, and a block depends only on its
item and at most `context` items before it. Then the last `context` items of the history are
enough to go on from it: what the window gives after its context is what the whole sequence gives
after the history.
-/

namespace FastTts.LocalWindows

variable {F S : Type*}

theorem rtake_append (items more : List F) (n : ℕ) :
    (items.rtake n ++ more).rtake n = (items ++ more).rtake n := by
  simp only [List.rtake_eq_reverse_take_reverse, List.reverse_append, List.reverse_reverse,
    List.take_append, List.take_take]
  rw [Nat.min_eq_left (Nat.sub_le _ _)]

theorem eq_of_blocks {rate : ℕ} {l l' : List S} (count : ℕ) (hlen : l.length = count * rate)
    (hlen' : l'.length = count * rate)
    (h : ∀ i < count, (l.drop (i * rate)).take rate = (l'.drop (i * rate)).take rate) : l = l' := by
  induction count generalizing l l' with
  | zero =>
    rw [Nat.zero_mul, List.length_eq_zero_iff] at hlen hlen'
    rw [hlen, hlen']
  | succ count ih =>
    have hfirst := h 0 (Nat.succ_pos _)
    rw [Nat.zero_mul, List.drop_zero, List.drop_zero] at hfirst
    have hrest : l.drop rate = l'.drop rate := by
      rw [Nat.add_mul, Nat.one_mul] at hlen hlen'
      apply ih
      · rw [List.length_drop]
        omega
      · rw [List.length_drop]
        omega
      · intro i hi
        have hblock := h (i + 1) (Nat.succ_lt_succ hi)
        rw [List.drop_drop, List.drop_drop]
        rwa [Nat.add_mul, Nat.one_mul, Nat.add_comm] at hblock
    rw [← List.take_append_drop rate l, hfirst, hrest, List.take_append_drop]

/-- The outputs of the item that comes after `before`. -/
def block (decode : List F → List S) (rate : ℕ) (before : List F) (item : F) (after : List F) :
    List S :=
  ((decode (before ++ item :: after)).drop (before.length * rate)).take rate

structure Local (decode : List F → List S) (rate context : ℕ) : Prop where
  length : ∀ items, (decode items).length = items.length * rate
  depends : ∀ before before' item after after', before.rtake context = before'.rtake context →
    block decode rate before item after = block decode rate before' item after'

variable {decode : List F → List S} {rate context : ℕ}

theorem Local.take_append (h : Local decode rate context) (items more : List F) :
    (decode (items ++ more)).take (items.length * rate) = decode items := by
  apply eq_of_blocks items.length
  · rw [List.length_take, h.length, List.length_append, Nat.add_mul]
    exact Nat.min_eq_left (Nat.le_add_right _ _)
  · exact h.length items
  · intro i hi
    have hsplit : items = items.take i ++ items[i] :: items.drop (i + 1) := by simp
    have hbefore : (items.take i).length = i := by
      rw [List.length_take]
      omega
    have hsame := h.depends (items.take i) (items.take i) items[i] (items.drop (i + 1) ++ more)
      (items.drop (i + 1)) rfl
    rw [block, block, hbefore, ← List.cons_append,
      ← List.append_assoc, ← hsplit] at hsame
    rw [List.drop_take, List.take_take, ← hsame, Nat.min_eq_left]
    rw [← Nat.sub_mul]
    exact Nat.le_mul_of_pos_left _ (Nat.sub_pos_of_lt hi)

theorem Local.append_singleton (h : Local decode rate context) (items : List F) (item : F) :
    decode (items ++ [item]) = decode items ++ block decode rate items item [] := by
  have hlen : ((decode (items ++ [item])).drop (items.length * rate)).length = rate := by
    rw [List.length_drop, h.length, List.length_append, List.length_singleton, Nat.add_mul]
    omega
  rw [← h.take_append items [item], block, List.take_of_length_le hlen.le, List.take_append_drop]

/-- A window that starts with the last items of the history gives, after these, what the whole
sequence gives after the history. -/
theorem Local.drop_window (h : Local decode rate context) (history items : List F) :
    (decode (history.rtake context ++ items)).drop ((history.rtake context).length * rate) =
      (decode (history ++ items)).drop (history.length * rate) := by
  induction items using List.reverseRecOn with
  | nil =>
    rw [List.append_nil, List.append_nil, ← h.length, ← h.length, List.drop_length,
      List.drop_length]
  | append_singleton items item ih =>
    have hle : ∀ start : List F, start.length * rate ≤ (decode (start ++ items)).length := by
      intro start
      rw [h.length, List.length_append]
      exact Nat.mul_le_mul_right _ (Nat.le_add_right _ _)
    rw [← List.append_assoc, ← List.append_assoc, h.append_singleton, h.append_singleton,
      List.drop_append_of_le_length (hle _), List.drop_append_of_le_length (hle _), ih,
      h.depends _ _ item [] [] (rtake_append history items context)]

theorem local_flatMap (f : F → List S) (hf : ∀ item, (f item).length = rate) :
    Local (List.flatMap f) rate context := by
  have hlen : ∀ items : List F, (items.flatMap f).length = items.length * rate := by
    intro items
    induction items with
    | nil => exact (Nat.zero_mul rate).symm
    | cons item items ih =>
      rw [List.flatMap_cons, List.length_append, hf, ih, List.length_cons, Nat.add_mul, Nat.one_mul,
        Nat.add_comm]
  refine ⟨hlen, ?_⟩
  intro before before' item after after' _
  have hblock : ∀ before after : List F, block (List.flatMap f) rate before item after = f item := by
    intro before after
    rw [block, List.flatMap_append, ← hlen, List.drop_left, List.flatMap_cons, ← hf item,
      List.take_left]
  rw [hblock, hblock]

end FastTts.LocalWindows
