import Mathlib.Data.List.Basic

/-!
# Boundaries between pieces

A sequence that arrives in pieces: when `avail` items of it are there, more come piece by piece.
The boundaries are the positions up to which the sequence is there at some time.
-/

namespace FastTts.Pieces

variable {β : Type*}

def Boundary : ℕ → List (List β) → ℕ → Prop
  | avail, [], p => avail = p
  | avail, piece :: pieces, p => avail = p ∨ Boundary (avail + piece.length) pieces p

instance decidableBoundary : (avail : ℕ) → (pieces : List (List β)) → (p : ℕ) →
    Decidable (Boundary avail pieces p)
  | avail, [], p => inferInstanceAs (Decidable (avail = p))
  | avail, piece :: pieces, p =>
    let _ := decidableBoundary (avail + piece.length) pieces p
    inferInstanceAs (Decidable (avail = p ∨ Boundary (avail + piece.length) pieces p))

theorem Boundary.here (avail : ℕ) (pieces : List (List β)) : Boundary avail pieces avail := by
  cases pieces with
  | nil => rfl
  | cons piece pieces => exact .inl rfl

variable {avail : ℕ}

theorem Boundary.le {p : ℕ} {pieces : List (List β)} (h : Boundary avail pieces p) : avail ≤ p := by
  induction pieces generalizing avail with
  | nil => exact Nat.le_of_eq h
  | cons piece pieces ih =>
    rcases h with heq | hrest
    · exact Nat.le_of_eq heq
    · exact Nat.le_trans (Nat.le_add_right _ _) (ih hrest)

theorem boundary_cons_of_lt {p : ℕ} (h : avail < p) (piece : List β) (pieces : List (List β)) :
    Boundary (avail + piece.length) pieces p ↔ Boundary avail (piece :: pieces) p := by
  constructor
  · exact .inr
  · rintro (heq | hrest)
    · omega
    · exact hrest

theorem boundary_sub {n : ℕ} (hn : n ≤ avail) (pieces : List (List β)) (p : ℕ) :
    Boundary (avail - n) pieces p ↔ Boundary avail pieces (n + p) := by
  induction pieces generalizing avail with
  | nil =>
    simp only [Boundary]
    omega
  | cons piece pieces ih =>
    have hle : n ≤ avail + piece.length := by omega
    have hsub : avail - n + piece.length = avail + piece.length - n := by omega
    rw [Boundary, Boundary, hsub, ih hle]
    have hhere : avail - n = p ↔ avail = n + p := by omega
    rw [hhere]

end FastTts.Pieces
