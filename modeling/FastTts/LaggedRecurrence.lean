import Mathlib.Data.List.FinRange

/-!
# Recurrences with a lag, made anew in place

A word comes from three earlier ones: the word a whole block before it, the one after that, and one
at a fixed distance. A block of words is overwritten with the next block, word by word.
-/

namespace FastTts.LaggedRecurrence

variable {W : Type*} (step : W → W → W → W)

/-- The words that go on from the first block. -/
def sequence {n m : ℕ} (hn : 1 < n) (hm : m < n) (first : ℕ → W) (k : ℕ) : W :=
  if k < n then first k
  else step (sequence hn hm first (k - n)) (sequence hn hm first (k - n + 1))
    (sequence hn hm first (k - n + m))
termination_by k
decreasing_by all_goals omega

def Follows (n m : ℕ) (x : ℕ → W) : Prop :=
  ∀ k, x (k + n) = step (x k) (x (k + 1)) (x (k + m))

theorem sequence_first {n m : ℕ} (hn : 1 < n) (hm : m < n) (first : ℕ → W) {k : ℕ}
    (hk : k < n) : sequence step hn hm first k = first k := by
  rw [sequence, if_pos hk]

theorem follows_sequence {n m : ℕ} (hn : 1 < n) (hm : m < n) (first : ℕ → W) :
    Follows step n m (sequence step hn hm first) := by
  intro k
  rw [sequence, if_neg (by omega), Nat.add_sub_cancel]

/-- The block of words from a place on, of which the words in front are those of the next block. -/
def Turned {n : ℕ} (x : ℕ → W) (place done : ℕ) (block : Vector W n) : Prop :=
  ∀ i (h : i < n), block[i] = if i < done then x (place + n + i) else x (place + i)

variable {n : ℕ} {x : ℕ → W} {place done : ℕ} {block : Vector W n}

theorem Turned.old (h : Turned x place done block) {i : ℕ} (hi : i < n) (hdone : done ≤ i) :
    block[i] = x (place + i) := by
  rw [h i hi, if_neg (Nat.not_lt.mpr hdone)]

theorem Turned.new (h : Turned x place done block) {i : ℕ} (hi : i < n) (hdone : i < done) :
    block[i] = x (place + n + i) := by
  rw [h i hi, if_pos hdone]

theorem Turned.set (h : Turned x place done block) (hdone : done < n) {word : W}
    (hword : word = x (place + n + done)) : Turned x place (done + 1) (block.set done word) := by
  intro i hi
  rw [Vector.getElem_set]
  split_ifs with heq hlt hlt
  · rw [hword, heq]
  · omega
  · exact h.new hi (by omega)
  · exact h.old hi (by omega)

theorem Turned.next (h : Turned x place n block) : Turned x (place + n) 0 block := by
  intro i hi
  rw [h.new hi hi, if_neg (Nat.not_lt_zero i)]

theorem foldl_finRange {S : Type*} {count : ℕ} {P : ℕ → S → Prop} {body : S → Fin count → S}
    (hbody : ∀ (i : Fin count) state, P i state → P (i + 1) (body state i)) {state : S}
    (h : P 0 state) : P count ((List.finRange count).foldl body state) := by
  induction count with
  | zero => exact h
  | succ count ih =>
    rw [List.finRange_succ_last, List.foldl_append, List.foldl_map]
    exact hbody (Fin.last count) _ (ih fun i state => hbody i.castSucc state)

end FastTts.LaggedRecurrence
