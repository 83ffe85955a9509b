import Mathlib.Algebra.Order.BigOperators.Group.List
import Mathlib.Algebra.Order.Group.MinMax
import Mathlib.Tactic.Abel
import Mathlib.Tactic.Linarith

/-!
# Spans on a time line

Spans that follow one another without overlap, and how much of them lies before a time.
-/

namespace FastTts.Timelines

structure Span (T : Type*) where
  start : T
  length : T
  deriving DecidableEq

variable {T : Type*} [AddCommGroup T]

def Span.stop (s : Span T) : T := s.start + s.length

def duration (spans : List (Span T)) : T := (spans.map Span.length).sum

@[simp] theorem duration_nil : duration ([] : List (Span T)) = 0 := rfl

theorem duration_append (before behind : List (Span T)) :
    duration (before ++ behind) = duration before + duration behind := by
  simp [duration]

variable [LinearOrder T]

def Span.elapsed (t : T) (s : Span T) : T := max 0 (min (t - s.start) s.length)

def elapsed (t : T) (spans : List (Span T)) : T := (spans.map (Span.elapsed t)).sum

/-- No span is negative, and each one starts when those before it have stopped. -/
structure Orderly (spans : List (Span T)) : Prop where
  nonneg : ∀ s ∈ spans, 0 ≤ s.length
  apart : spans.Pairwise fun a b => a.stop ≤ b.start

theorem Orderly.nil : Orderly ([] : List (Span T)) := ⟨nofun, List.Pairwise.nil⟩

variable {spans : List (Span T)} {s : Span T} {t : T}

theorem Orderly.concat (h : Orderly spans) (hlength : 0 ≤ s.length)
    (hafter : ∀ a ∈ spans, a.stop ≤ s.start) : Orderly (spans ++ [s]) := by
  refine ⟨fun a ha => ?_, List.pairwise_append.mpr ⟨h.apart, List.pairwise_singleton _ _, ?_⟩⟩
  · rcases List.mem_append.mp ha with ha | ha
    · exact h.nonneg a ha
    · rwa [List.mem_singleton.mp ha]
  · intro a ha b hb
    rw [List.mem_singleton.mp hb]
    exact hafter a ha

@[simp] theorem elapsed_nil (t : T) : elapsed t [] = 0 := rfl

theorem elapsed_cons (t : T) (s : Span T) (spans : List (Span T)) :
    elapsed t (s :: spans) = s.elapsed t + elapsed t spans := by
  simp [elapsed]

theorem elapsed_append (t : T) (before behind : List (Span T)) :
    elapsed t (before ++ behind) = elapsed t before + elapsed t behind := by
  simp [elapsed]

theorem Span.elapsed_nonneg (t : T) (s : Span T) : 0 ≤ s.elapsed t := le_max_left _ _

variable [IsOrderedAddMonoid T]

theorem Span.elapsed_mono {t' : T} (h : t ≤ t') (s : Span T) : s.elapsed t ≤ s.elapsed t' :=
  max_le_max_left 0 (min_le_min_right _ (sub_le_sub_right h _))

theorem Span.elapsed_of_ahead (h : t ≤ s.start) : s.elapsed t = 0 :=
  max_eq_left ((min_le_left _ _).trans (sub_nonpos.mpr h))

theorem Span.elapsed_of_begun (hlength : 0 ≤ s.length) (h : s.start ≤ t) :
    s.elapsed t = min (t - s.start) s.length :=
  max_eq_right (le_min (sub_nonneg.mpr h) hlength)

theorem Span.elapsed_of_ended (hlength : 0 ≤ s.length) (h : s.stop ≤ t) :
    s.elapsed t = s.length := by
  have hbegun : s.start ≤ t := (le_add_of_nonneg_right hlength).trans h
  rw [elapsed_of_begun hlength hbegun]
  exact min_eq_right (le_sub_iff_add_le'.mpr h)

theorem elapsed_nonneg (t : T) (spans : List (Span T)) : 0 ≤ elapsed t spans := by
  induction spans with
  | nil => exact le_refl 0
  | cons s spans ih =>
    rw [elapsed_cons]
    exact add_nonneg (s.elapsed_nonneg t) ih

theorem elapsed_mono {t' : T} (h : t ≤ t') (spans : List (Span T)) :
    elapsed t spans ≤ elapsed t' spans := by
  induction spans with
  | nil => exact le_refl 0
  | cons s spans ih =>
    rw [elapsed_cons, elapsed_cons]
    exact add_le_add (s.elapsed_mono h) ih

theorem elapsed_of_ahead (h : ∀ s ∈ spans, t ≤ s.start) : elapsed t spans = 0 := by
  induction spans with
  | nil => rfl
  | cons s spans ih =>
    rw [elapsed_cons, Span.elapsed_of_ahead (h s List.mem_cons_self),
      ih fun a ha => h a (List.mem_cons_of_mem s ha), add_zero]

theorem elapsed_of_ended (hlength : ∀ s ∈ spans, 0 ≤ s.length) (h : ∀ s ∈ spans, s.stop ≤ t) :
    elapsed t spans = duration spans := by
  induction spans with
  | nil => rfl
  | cons s spans ih =>
    have hs := List.mem_cons_self (a := s) (l := spans)
    rw [elapsed_cons, Span.elapsed_of_ended (hlength s hs) (h s hs),
      ih (fun a ha => hlength a (List.mem_cons_of_mem s ha))
        fun a ha => h a (List.mem_cons_of_mem s ha)]
    rfl

theorem elapsed_at {before behind : List (Span T)} (h : Orderly (before ++ s :: behind))
    (hbegun : s.start ≤ t) (hahead : ∀ a ∈ behind, t ≤ a.start) :
    elapsed t (before ++ s :: behind) = min (duration before + (t - s.start))
      (duration before + s.length) := by
  have hnonneg : ∀ a ∈ before, 0 ≤ a.length := fun a ha =>
    h.nonneg a (List.mem_append_left _ ha)
  have hended : ∀ a ∈ before, a.stop ≤ t := fun a ha =>
    ((List.pairwise_append.mp h.apart).2.2 a ha s List.mem_cons_self).trans hbegun
  have hlength : 0 ≤ s.length := h.nonneg s (List.mem_append_right _ List.mem_cons_self)
  rw [elapsed_append, elapsed_cons, elapsed_of_ended hnonneg hended, elapsed_of_ahead hahead,
    Span.elapsed_of_begun hlength hbegun, add_zero, min_add_add_left]

end FastTts.Timelines
