import Mathlib.Data.List.Infix

/-!
# Bursts

Windows are marked as loud, as quiet, or as neither. A burst begins at a loud window. It ends at the
first quiet one of a pause without loud windows, once a later quiet window finds the pause long
enough; a pause that is too short is part of the burst.
-/

namespace FastTts

structure Mark where
  loud : Bool
  quiet : Bool
  deriving DecidableEq, Repr

/-- `pause` is the window where the present pause of a burst began. -/
inductive Phase
  | idle
  | running (start : ℕ) (pause : Option ℕ)
  deriving DecidableEq, Repr

/-- The bursts among the first `count` windows. -/
structure Reading where
  count : ℕ
  phase : Phase
  done : List (ℕ × ℕ)
  deriving DecidableEq, Repr

namespace Reading

variable {ends : ℕ → Bool} {reading : Reading}

def none : Reading := ⟨0, .idle, []⟩

/-- A loud window breaks a pause off. -/
def pauseBefore (mark : Mark) (pause : Option ℕ) : Option ℕ :=
  if mark.loud then Option.none else pause

/-- A window of a burst; `ends` says which numbers of windows are a pause that ends it. -/
def readRunning (ends : ℕ → Bool) (reading : Reading) (start : ℕ) (pause : Option ℕ)
    (mark : Mark) : Reading :=
  if mark.quiet then
    let window := (pauseBefore mark pause).getD reading.count
    if ends (reading.count - window) then
      ⟨reading.count + 1, .idle, reading.done ++ [(start, window)]⟩
    else ⟨reading.count + 1, .running start (some window), reading.done⟩
  else ⟨reading.count + 1, .running start (pauseBefore mark pause), reading.done⟩

def read (ends : ℕ → Bool) (reading : Reading) (mark : Mark) : Reading :=
  match reading.phase with
  | .idle =>
    if mark.loud then ⟨reading.count + 1, .running reading.count Option.none, reading.done⟩
    else ⟨reading.count + 1, .idle, reading.done⟩
  | .running start pause => reading.readRunning ends start pause mark

def ofMarks (ends : ℕ → Bool) (marks : List Mark) : Reading := marks.foldl (read ends) none

/-- Bursts come one after the other, the one that goes on last. -/
structure Ordered (reading : Reading) : Prop where
  nonempty : ∀ burst ∈ reading.done, burst.1 < burst.2
  pairwise : reading.done.Pairwise fun first next => first.2 < next.1
  read : ∀ burst ∈ reading.done, burst.2 < reading.count
  start : ∀ start pause, reading.phase = .running start pause → start < reading.count
  last : ∀ start pause, reading.phase = .running start pause →
    ∀ burst ∈ reading.done, burst.2 < start
  pause : ∀ start pause, reading.phase = .running start (some pause) →
    start < pause ∧ pause < reading.count

theorem ordered_none : none.Ordered where
  nonempty _ h := nomatch h
  pairwise := .nil
  read _ h := nomatch h
  start _ _ h := nomatch h
  last _ _ h := nomatch h
  pause _ _ h := nomatch h

variable {start : ℕ} {pause : Option ℕ}

theorem Ordered.goesOn (h : reading.Ordered) (hphase : reading.phase = .running start pause)
    {pause' : Option ℕ}
    (hpause : ∀ window, pause' = some window → start < window ∧ window ≤ reading.count) :
    Ordered ⟨reading.count + 1, .running start pause', reading.done⟩ where
  nonempty := h.nonempty
  pairwise := h.pairwise
  read burst hburst := (h.read burst hburst).trans (Nat.lt_succ_self _)
  start start' _ hrunning := by
    cases hrunning
    exact (h.start start pause hphase).trans (Nat.lt_succ_self _)
  last start' _ hrunning := by
    cases hrunning
    exact h.last start pause hphase
  pause start' window hrunning := by
    cases hrunning
    obtain ⟨hstart, hwindow⟩ := hpause window rfl
    exact ⟨hstart, Nat.lt_succ_of_le hwindow⟩

theorem Ordered.ended (h : reading.Ordered) {window : ℕ}
    (hphase : reading.phase = .running start pause) (hstart : start < window)
    (hwindow : window ≤ reading.count) :
    Ordered ⟨reading.count + 1, .idle, reading.done ++ [(start, window)]⟩ where
  nonempty burst hburst := by
    rcases List.mem_append.mp hburst with hold | hnew
    · exact h.nonempty burst hold
    · rw [List.mem_singleton.mp hnew]
      exact hstart
  pairwise := by
    rw [List.pairwise_append]
    refine ⟨h.pairwise, List.pairwise_singleton _ _, ?_⟩
    intro burst hburst next hnext
    rw [List.mem_singleton.mp hnext]
    exact h.last start pause hphase burst hburst
  read burst hburst := by
    rcases List.mem_append.mp hburst with hold | hnew
    · exact (h.read burst hold).trans (Nat.lt_succ_self _)
    · rw [List.mem_singleton.mp hnew]
      exact Nat.lt_succ_of_le hwindow
  start _ _ hrunning := nomatch hrunning
  last _ _ hrunning := nomatch hrunning
  pause _ _ hrunning := nomatch hrunning

section

variable (h : reading.Ordered) (hphase : reading.phase = .running start pause) (mark : Mark)
include h hphase

theorem Ordered.pauseBefore {window : ℕ} (hwindow : Reading.pauseBefore mark pause = some window) :
    start < window ∧ window ≤ reading.count := by
  rw [Reading.pauseBefore] at hwindow
  split_ifs at hwindow
  rw [hwindow] at hphase
  obtain ⟨hstart, hcount⟩ := h.pause start window hphase
  exact ⟨hstart, hcount.le⟩

theorem Ordered.first :
    start < (Reading.pauseBefore mark pause).getD reading.count ∧
      (Reading.pauseBefore mark pause).getD reading.count ≤ reading.count := by
  cases hsome : Reading.pauseBefore mark pause with
  | none => exact ⟨h.start start pause hphase, le_refl _⟩
  | some window => exact h.pauseBefore hphase mark hsome

theorem Ordered.readRunning : (reading.readRunning ends start pause mark).Ordered := by
  have hfirst := h.first hphase mark
  rw [Reading.readRunning]
  by_cases hquiet : mark.quiet
  · rw [if_pos hquiet]
    by_cases hends : ends (reading.count - (Reading.pauseBefore mark pause).getD reading.count)
    · rw [if_pos hends]
      exact h.ended hphase hfirst.1 hfirst.2
    · rw [if_neg hends]
      apply h.goesOn hphase
      intro window hwindow
      cases hwindow
      exact hfirst
  · rw [if_neg hquiet]
    exact h.goesOn hphase fun _ => h.pauseBefore hphase mark

end

theorem Ordered.readMark (h : reading.Ordered) (mark : Mark) :
    (reading.read ends mark).Ordered := by
  rw [Reading.read]
  cases hphase : reading.phase with
  | running start pause => exact h.readRunning hphase mark
  | idle =>
    have hread : ∀ burst ∈ reading.done, burst.2 < reading.count + 1 :=
      fun burst hburst => (h.read burst hburst).trans (Nat.lt_succ_self _)
    by_cases hloud : mark.loud
    · rw [if_pos hloud]
      refine ⟨h.nonempty, h.pairwise, hread, ?_, ?_, ?_⟩
      · intro start pause hrunning
        cases hrunning
        exact Nat.lt_succ_self _
      · intro start pause hrunning
        cases hrunning
        exact h.read
      · intro start pause hrunning
        cases hrunning
    · rw [if_neg hloud]
      exact ⟨h.nonempty, h.pairwise, hread, nofun, nofun, nofun⟩

theorem ofMarks_append (ends : ℕ → Bool) (marks : List Mark) (mark : Mark) :
    ofMarks ends (marks ++ [mark]) = (ofMarks ends marks).read ends mark := by
  rw [ofMarks, ofMarks, List.foldl_append]
  rfl

theorem count_read (ends : ℕ → Bool) (reading : Reading) (mark : Mark) :
    (reading.read ends mark).count = reading.count + 1 := by
  rw [Reading.read]
  cases reading.phase with
  | idle => dsimp only; split_ifs <;> rfl
  | running start pause =>
    dsimp only [Reading.readRunning]
    split_ifs <;> rfl

theorem ordered_ofMarks (ends : ℕ → Bool) (marks : List Mark) : (ofMarks ends marks).Ordered := by
  induction marks using List.reverseRecOn with
  | nil => exact ordered_none
  | append_singleton marks mark ih =>
    rw [ofMarks_append]
    exact ih.readMark mark

theorem count_ofMarks (ends : ℕ → Bool) (marks : List Mark) :
    (ofMarks ends marks).count = marks.length := by
  induction marks using List.reverseRecOn with
  | nil => rfl
  | append_singleton marks mark ih =>
    rw [ofMarks_append, count_read, ih, List.length_append, List.length_singleton]

end Reading

end FastTts
