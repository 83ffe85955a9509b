import Mathlib.Data.List.Basic

/-!
# Input in slices

A machine takes its input in slices of any length, and may keep a part of a slice for later. What
it writes depends on the slices together only, if it writes for each slice what a scan of the
single items would write.
-/

namespace FastTts.Slices

variable {σ β ω : Type*}

/-- Takes the items one by one, and collects what each of them writes. -/
def scan (step : σ → β → List ω × σ) : σ → List β → List ω × σ
  | s, [] => ([], s)
  | s, item :: items =>
    ((step s item).1 ++ (scan step (step s item).2 items).1,
      (scan step (step s item).2 items).2)

def feedAll (feed : σ → List β → List ω × σ) : σ → List (List β) → List ω × σ
  | s, [] => ([], s)
  | s, slice :: slices =>
    ((feed s slice).1 ++ (feedAll feed (feed s slice).2 slices).1,
      (feedAll feed (feed s slice).2 slices).2)

variable {step : σ → β → List ω × σ}

theorem scan_append (s : σ) (items more : List β) :
    scan step s (items ++ more) =
      ((scan step s items).1 ++ (scan step (scan step s items).2 more).1,
        (scan step (scan step s items).2 more).2) := by
  induction items generalizing s with
  | nil => rfl
  | cons item items ih =>
    rw [List.cons_append, scan, ih]
    simp only [scan, List.append_assoc]

theorem scan_of_still {s : σ} (h : ∀ item, step s item = ([], s)) (items : List β) :
    scan step s items = ([], s) := by
  induction items with
  | nil => rfl
  | cons item items ih => simp [scan, h item, ih]

theorem feedAll_scan (s : σ) (slices : List (List β)) :
    feedAll (scan step) s slices = scan step s slices.flatten := by
  induction slices generalizing s with
  | nil => rfl
  | cons slice slices ih => rw [feedAll, ih, List.flatten_cons, scan_append]

theorem feedAll_eq_scan {feed : σ → List β → List ω × σ}
    (hfeed : ∀ s items, feed s items = scan step s items) (s : σ) (slices : List (List β)) :
    feedAll feed s slices = scan step s slices.flatten := by
  have heq : feed = scan step := by
    funext s items
    exact hfeed s items
  rw [heq, feedAll_scan]

end FastTts.Slices
