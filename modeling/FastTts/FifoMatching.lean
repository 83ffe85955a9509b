import Mathlib.Data.List.Perm.Basic
import Mathlib.Data.List.Zip
import Mathlib.Order.Lattice

/-!
# Matching in the order of arrival

Starts and ends of intervals come in the order of time, and every end is matched with the earliest
start that has none yet. Intervals of which none overtakes another are found again.
-/

namespace FastTts.FifoMatching

structure Edge (τ : Type*) where
  starts : Bool
  time : τ
  deriving DecidableEq, Repr

variable {τ σ : Type*}

def Edge.map (f : τ → σ) (edge : Edge τ) : Edge σ := ⟨edge.starts, f edge.time⟩

/-- The queue holds the starts that have no end yet; an end without a start is left out. -/
def matched : List τ → List (Edge τ) → List (τ × τ)
  | _, [] => []
  | queue, ⟨true, start⟩ :: rest => matched (queue ++ [start]) rest
  | [], ⟨false, _⟩ :: rest => matched [] rest
  | start :: queue, ⟨false, stop⟩ :: rest => (start, stop) :: matched queue rest

def startTimes (edges : List (Edge τ)) : List τ := (edges.filter Edge.starts).map Edge.time

def stopTimes (edges : List (Edge τ)) : List τ :=
  (edges.filter fun edge => !edge.starts).map Edge.time

def edgesOf (interval : τ × τ) : List (Edge τ) := [⟨true, interval.1⟩, ⟨false, interval.2⟩]

theorem matched_map (f : τ → σ) (queue : List τ) (edges : List (Edge τ)) :
    matched (queue.map f) (edges.map (Edge.map f)) = (matched queue edges).map (Prod.map f f) := by
  induction edges generalizing queue with
  | nil => cases queue <;> rfl
  | cons edge rest ih =>
      obtain ⟨starts, time⟩ := edge
      cases starts with
      | true =>
          have hrest := ih (queue ++ [time])
          rw [List.map_append] at hrest
          exact hrest
      | false =>
          cases queue with
          | nil => exact ih []
          | cons start queue => exact congrArg ((f start, f time) :: ·) (ih queue)

section Order

variable [LinearOrder τ] {edges : List (Edge τ)}

theorem matched_eq_zip {queue : List τ} (hsorted : edges.Pairwise fun a b => a.time ≤ b.time)
    (hlength : (stopTimes edges).length = (queue ++ startTimes edges).length)
    (hlasts : ∀ pair ∈ (queue ++ startTimes edges).zip (stopTimes edges), pair.1 < pair.2) :
    matched queue edges = (queue ++ startTimes edges).zip (stopTimes edges) := by
  induction edges generalizing queue with
  | nil =>
      cases queue with
      | nil => rfl
      | cons start queue => simp [startTimes, stopTimes] at hlength
  | cons edge rest ih =>
      obtain ⟨starts, time⟩ := edge
      obtain ⟨hfirst, hrest⟩ := List.pairwise_cons.mp hsorted
      cases starts with
      | true =>
          have hqueue : queue ++ startTimes (⟨true, time⟩ :: rest) =
              queue ++ [time] ++ startTimes rest := by simp [startTimes]
          rw [hqueue] at hlength hlasts ⊢
          exact ih hrest hlength hlasts
      | false =>
          have hstops : stopTimes (⟨false, time⟩ :: rest) = time :: stopTimes rest := rfl
          have hstarts : startTimes (⟨false, time⟩ :: rest) = startTimes rest := rfl
          rw [hstops, hstarts] at hlength hlasts ⊢
          cases queue with
          | nil =>
              -- The first start would come behind the end it has to precede.
              obtain ⟨start, more, hmore⟩ := List.exists_cons_of_length_pos
                (l := startTimes rest) (by simp at hlength; omega)
              have hlt := hlasts (start, time) (by simp [hmore])
              obtain ⟨later, hlater, rfl⟩ := List.mem_map.mp
                (hmore ▸ List.mem_cons_self : start ∈ startTimes rest)
              exact absurd hlt (hfirst later (List.mem_filter.mp hlater).1).not_gt
          | cons start queue =>
              have hzip : (start :: queue ++ startTimes rest).zip (time :: stopTimes rest) =
                  (start, time) :: (queue ++ startTimes rest).zip (stopTimes rest) := rfl
              rw [hzip] at hlasts ⊢
              rw [matched, ih hrest (by simpa using hlength)
                fun pair hpair => hlasts pair (List.mem_cons_of_mem _ hpair)]

/-- Intervals that start and end in one order are found in the sorted list of their edges. -/
theorem matched_of_perm {intervals : List (τ × τ)} (hperm : edges.Perm (intervals.flatMap edgesOf))
    (hsorted : edges.Pairwise fun a b => a.time ≤ b.time)
    (hordered : intervals.Pairwise fun a b => a.1 ≤ b.1 ∧ a.2 ≤ b.2)
    (hlasts : ∀ interval ∈ intervals, interval.1 < interval.2) : matched [] edges = intervals := by
  have hstartsOf : startTimes (intervals.flatMap edgesOf) = intervals.map Prod.fst := by
    clear hperm hordered hlasts
    induction intervals with
    | nil => rfl
    | cons interval rest ih => exact congrArg (interval.1 :: ·) ih
  have hstopsOf : stopTimes (intervals.flatMap edgesOf) = intervals.map Prod.snd := by
    clear hperm hordered hlasts hstartsOf
    induction intervals with
    | nil => rfl
    | cons interval rest ih => exact congrArg (interval.2 :: ·) ih
  have hstarts : startTimes edges = intervals.map Prod.fst := by
    refine List.Perm.eq_of_pairwise (fun _ _ _ _ => le_antisymm)
      (List.pairwise_map.mpr (hsorted.filter _))
      (List.pairwise_map.mpr (hordered.imp And.left)) ?_
    rw [← hstartsOf]
    exact (hperm.filter _).map _
  have hstops : stopTimes edges = intervals.map Prod.snd := by
    refine List.Perm.eq_of_pairwise (fun _ _ _ _ => le_antisymm)
      (List.pairwise_map.mpr (hsorted.filter _))
      (List.pairwise_map.mpr (hordered.imp And.right)) ?_
    rw [← hstopsOf]
    exact (hperm.filter _).map _
  have hzip : (intervals.map Prod.fst).zip (intervals.map Prod.snd) = intervals := by
    rw [List.zip_map']
    exact List.map_id _
  rw [matched_eq_zip hsorted, hstarts, hstops, List.nil_append, hzip]
  · rw [hstarts, hstops, List.nil_append, List.length_map, List.length_map]
  · rwa [hstarts, hstops, List.nil_append, hzip]

end Order

end FastTts.FifoMatching
