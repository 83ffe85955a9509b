import FastTts.Ranges
import Mathlib.Data.List.Infix

/-!
# Templates

A text with open spots can be shown with a placeholder at every spot, or filled with a value. A
scan of a text finds the placeholders in it. Where the scan finds more of them than the text has
spots, to replace what it finds is not to fill the spots, unless the value is the placeholder.
-/

namespace FastTts.Templates

open Ranges (isPrefixOf_stop)

variable {α : Type*} (value : List α)

def fill (spots : List (Option α)) : List α :=
  spots.flatMap fun spot => spot.elim value fun item => [item]

@[simp] theorem fill_nil : fill value [] = [] := rfl

@[simp] theorem fill_item (item : α) (spots : List (Option α)) :
    fill value (some item :: spots) = item :: fill value spots := rfl

@[simp] theorem fill_spot (spots : List (Option α)) :
    fill value (none :: spots) = value ++ fill value spots := rfl

@[simp] theorem fill_append (spots more : List (Option α)) :
    fill value (spots ++ more) = fill value spots ++ fill value more := List.flatMap_append

@[simp] theorem fill_items (value items : List α) : fill value (items.map some) = items := by
  induction items with
  | nil => rfl
  | cons item items ih => rw [List.map_cons, fill_item, ih]

variable [DecidableEq α]

/-- Finds the placeholders from left to right; `skip` items belong to the last one. -/
def scanFrom (placeholder : List α) : ℕ → List α → List (Option α)
  | _, [] => []
  | skip + 1, _ :: text => scanFrom placeholder skip text
  | 0, item :: text =>
    if placeholder.isPrefixOf (item :: text) then
      none :: scanFrom placeholder (placeholder.length - 1) text
    else some item :: scanFrom placeholder 0 text

def scan (placeholder text : List α) : List (Option α) := scanFrom placeholder 0 text

variable {placeholder text : List α}

theorem scanFrom_eq (skip : ℕ) (text : List α) :
    scanFrom placeholder skip text = scan placeholder (text.drop skip) := by
  induction skip generalizing text with
  | zero => rfl
  | succ skip ih =>
    cases text with
    | nil => rfl
    | cons item text => exact ih text

theorem scan_placeholder (h : placeholder ≠ []) (text : List α) :
    scan placeholder (placeholder ++ text) = none :: scan placeholder text := by
  obtain ⟨item, rest, rfl⟩ := List.exists_cons_of_ne_nil h
  have hhere : (item :: rest).isPrefixOf (item :: (rest ++ text)) = true :=
    List.isPrefixOf_iff_prefix.mpr (List.prefix_append (item :: rest) text)
  rw [List.cons_append, scan, scanFrom, if_pos hhere, scanFrom_eq, List.length_cons,
    Nat.add_sub_cancel, List.drop_left]

theorem scan_item {item : α} (h : placeholder.isPrefixOf (item :: text) = false) :
    scan placeholder (item :: text) = some item :: scan placeholder text := by
  rw [scan, scanFrom, h, if_neg Bool.false_ne_true]
  rfl

variable {items rest : List α} {first : α}

theorem scan_items (h : ∀ early late, items = early ++ late → late ≠ [] →
    placeholder.isPrefixOf (late ++ text) = false) :
    scan placeholder (items ++ text) = items.map some ++ scan placeholder text := by
  induction items with
  | nil => rfl
  | cons item items ih =>
    have hhere : placeholder.isPrefixOf (item :: (items ++ text)) = false :=
      h [] (item :: items) rfl (List.cons_ne_nil _ _)
    have hlater := ih fun early late hsplit => h (item :: early) late (congrArg (item :: ·) hsplit)
    rw [List.cons_append, scan_item hhere, hlater, List.map_cons, List.cons_append]

theorem scan_other (h : ∀ item ∈ items, item ≠ first) (text : List α) :
    scan (first :: rest) (items ++ text) = items.map some ++ scan (first :: rest) text := by
  refine scan_items fun early late hsplit hne => ?_
  obtain ⟨item, late, rfl⟩ := List.exists_cons_of_ne_nil hne
  have hitem := h item (hsplit ▸ List.mem_append_right early List.mem_cons_self)
  have hfirst : (first == item) = false := beq_eq_false_iff_ne.mpr hitem.symm
  rw [List.cons_append, List.isPrefixOf_cons_cons, hfirst, Bool.false_and]

theorem scan_stop {stop : α} (hfree : ¬ placeholder <:+: items) (hstop : stop ∉ placeholder)
    (text : List α) : scan placeholder (items ++ stop :: text) =
      items.map some ++ scan placeholder (stop :: text) := by
  refine scan_items fun early late hsplit _ => ?_
  rw [isPrefixOf_stop hstop, Bool.eq_false_iff]
  intro hpart
  refine hfree ((List.isPrefixOf_iff_prefix.mp hpart).isInfix.trans ?_)
  rw [hsplit]
  exact (List.suffix_append early late).isInfix

theorem scan_of_free (h : ¬ placeholder <:+: text) : scan placeholder text = text.map some := by
  induction text with
  | nil => rfl
  | cons item text ih =>
    have hhere : placeholder.isPrefixOf (item :: text) = false := by
      rw [Bool.eq_false_iff]
      exact fun hpart => h (List.isPrefixOf_iff_prefix.mp hpart).isInfix
    rw [scan_item hhere, ih fun hpart => h (hpart.trans (List.suffix_cons item text).isInfix),
      List.map_cons]

theorem fill_scan (h : placeholder ≠ []) (text : List α) :
    fill placeholder (scan placeholder text) = text := by
  induction hlength : text.length using Nat.strong_induction_on generalizing text with
  | _ length ih =>
    cases text with
    | nil => rfl
    | cons item text =>
      by_cases hhere : placeholder.isPrefixOf (item :: text) = true
      · obtain ⟨rest, hrest⟩ := List.isPrefixOf_iff_prefix.mp hhere
        have hpos := List.length_pos_of_ne_nil h
        have hsum := congrArg List.length hrest
        rw [List.length_append, hlength] at hsum
        rw [← hrest, scan_placeholder h, fill_spot, ih rest.length (by omega) rest rfl]
      · rw [scan_item ((Bool.not_eq_true _).mp hhere), fill_item,
          ih text.length (by rw [← hlength, List.length_cons]; omega) text rfl]

theorem scan_spelled (h : placeholder ≠ []) (text : List α) :
    ¬ placeholder.map some <:+: scan placeholder text := by
  induction hlength : text.length using Nat.strong_induction_on generalizing text with
  | _ length ih =>
    intro hinside
    have hmap : placeholder.map some ≠ [] := fun hnil => h (List.map_eq_nil_iff.mp hnil)
    cases text with
    | nil => exact hmap (List.infix_nil.mp hinside)
    | cons item text =>
      by_cases hhere : placeholder.isPrefixOf (item :: text) = true
      · obtain ⟨rest, hrest⟩ := List.isPrefixOf_iff_prefix.mp hhere
        have hpos := List.length_pos_of_ne_nil h
        have hsum := congrArg List.length hrest
        rw [List.length_append, hlength] at hsum
        rw [← hrest, scan_placeholder h] at hinside
        rcases List.infix_cons_iff.mp hinside with hfirst | hlater
        · obtain ⟨first, tail, rfl⟩ := List.exists_cons_of_ne_nil h
          exact nomatch (List.cons_prefix_cons.mp hfirst).1
        · exact ih rest.length (by omega) rest rfl hlater
      · rw [scan_item ((Bool.not_eq_true _).mp hhere)] at hinside
        rcases List.infix_cons_iff.mp hinside with hfirst | hlater
        · obtain ⟨behind, hbehind⟩ := hfirst
          have hshown := congrArg (fill placeholder) hbehind
          rw [fill_append, fill_items, fill_item, fill_scan h] at hshown
          exact hhere (List.isPrefixOf_iff_prefix.mpr ⟨_, hshown⟩)
        · refine ih text.length ?_ text rfl hlater
          rw [← hlength, List.length_cons]
          omega

/-! ## Spots and placeholders -/

/-- The second text has the spots of the first, and perhaps some where the first spells the
placeholder out. -/
inductive Refines (placeholder : List α) : List (Option α) → List (Option α) → Prop
  | nil : Refines placeholder [] []
  | item {item : α} {spots more : List (Option α)} : Refines placeholder spots more →
      Refines placeholder (some item :: spots) (some item :: more)
  | spot {spots more : List (Option α)} : Refines placeholder spots more →
      Refines placeholder (none :: spots) (none :: more)
  | extra {spots more : List (Option α)} : Refines placeholder spots more →
      Refines placeholder (placeholder.map some ++ spots) (none :: more)

omit [DecidableEq α] in
theorem spelled {spots : List (Option α)} (h : first ∉ items)
    (hshown : items <+: fill (first :: rest) spots) :
    ∃ behind, spots = items.map some ++ behind := by
  induction items generalizing spots with
  | nil => exact ⟨spots, rfl⟩
  | cons item items ih =>
    rw [List.mem_cons, not_or] at h
    cases spots with
    | nil => exact absurd (List.prefix_nil.mp hshown) (List.cons_ne_nil _ _)
    | cons spot spots =>
      cases spot with
      | none => exact absurd (List.cons_prefix_cons.mp hshown).1.symm h.1
      | some shown =>
        obtain ⟨rfl, hrest⟩ := List.cons_prefix_cons.mp hshown
        obtain ⟨behind, rfl⟩ := ih h.2 hrest
        exact ⟨behind, rfl⟩

theorem refines_scan (h : first ∉ rest) (spots : List (Option α)) :
    Refines (first :: rest) spots (scan (first :: rest) (fill (first :: rest) spots)) := by
  induction hlength : spots.length using Nat.strong_induction_on generalizing spots with
  | _ length ih =>
    cases spots with
    | nil => exact .nil
    | cons spot spots =>
      rw [List.length_cons] at hlength
      cases spot with
      | none =>
        rw [fill_spot, scan_placeholder (List.cons_ne_nil _ _)]
        exact .spot (ih spots.length (by omega) spots rfl)
      | some item =>
        rw [fill_item]
        by_cases hhere : (first :: rest).isPrefixOf (item :: fill (first :: rest) spots) = true
        · obtain ⟨rfl, hrest⟩ := List.cons_prefix_cons.mp (List.isPrefixOf_iff_prefix.mp hhere)
          obtain ⟨behind, rfl⟩ := spelled h hrest
          have hshown : first :: (rest ++ fill (first :: rest) behind) =
              (first :: rest) ++ fill (first :: rest) behind := rfl
          rw [fill_append, fill_items, hshown, scan_placeholder (List.cons_ne_nil _ _)]
          rw [List.length_append] at hlength
          exact .extra (ih behind.length (by omega) behind rfl)
        · rw [scan_item ((Bool.not_eq_true _).mp hhere)]
          exact .item (ih spots.length (by omega) spots rfl)

section Refined

variable {spots more : List (Option α)}

omit [DecidableEq α]

theorem Refines.length (h : Refines placeholder spots more) (value : List α) :
    ∃ extra, (fill value more).length + extra * placeholder.length =
      (fill value spots).length + extra * value.length ∧ (extra = 0 → spots = more) := by
  induction h with
  | nil => exact ⟨0, by rw [Nat.zero_mul, Nat.zero_mul], fun _ => rfl⟩
  | item _ ih =>
    obtain ⟨extra, hlength, hsame⟩ := ih
    refine ⟨extra, ?_, fun hzero => by rw [hsame hzero]⟩
    rw [fill_item, fill_item, List.length_cons, List.length_cons]
    omega
  | spot _ ih =>
    obtain ⟨extra, hlength, hsame⟩ := ih
    refine ⟨extra, ?_, fun hzero => by rw [hsame hzero]⟩
    rw [fill_spot, fill_spot, List.length_append, List.length_append]
    omega
  | extra _ ih =>
    obtain ⟨extra, hlength, -⟩ := ih
    refine ⟨extra + 1, ?_, fun hzero => absurd hzero (Nat.succ_ne_zero extra)⟩
    rw [fill_spot, fill_append, fill_items, List.length_append, List.length_append,
      Nat.succ_mul, Nat.succ_mul]
    omega

/-- Filled with the same value, both texts are the same only if they have the same spots, or the
value is the placeholder. -/
theorem Refines.fill_eq (h : Refines placeholder spots more) {value : List α}
    (heq : fill value more = fill value spots) : spots = more ∨ value = placeholder := by
  by_cases hlength : value.length = placeholder.length
  · induction h with
    | nil => exact .inl rfl
    | item _ ih =>
      rcases ih (List.cons.inj heq).2 with hsame | hsame
      · exact .inl (congrArg _ hsame)
      · exact .inr hsame
    | spot _ ih =>
      rcases ih (List.append_cancel_left heq) with hsame | hsame
      · exact .inl (congrArg _ hsame)
      · exact .inr hsame
    | extra _ ih =>
      rw [fill_spot, fill_append, fill_items] at heq
      exact .inr (List.append_inj heq hlength).1
  · obtain ⟨extra, hsum, hsame⟩ := h.length value
    rw [heq, Nat.add_left_cancel_iff] at hsum
    refine .inl (hsame (Nat.eq_zero_of_not_pos fun hpos => ?_))
    exact hlength (Nat.eq_of_mul_eq_mul_left hpos hsum).symm

end Refined

/-- To replace what a scan finds is to fill the spots, if the scan finds the spots and nothing else
or the value is the placeholder. -/
theorem fill_scan_iff (h : first ∉ rest) (value : List α) (spots : List (Option α)) :
    fill value (scan (first :: rest) (fill (first :: rest) spots)) = fill value spots ↔
      scan (first :: rest) (fill (first :: rest) spots) = spots ∨ value = first :: rest := by
  constructor
  · intro heq
    exact ((refines_scan h spots).fill_eq heq).imp_left Eq.symm
  · rintro (hsame | rfl)
    · rw [hsame]
    · rw [fill_scan (List.cons_ne_nil _ _)]

end FastTts.Templates
