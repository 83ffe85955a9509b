import Mathlib.Data.List.DropRight

/-!
# Ranges of a sequence

Ranges that follow one another, with nothing but blanks before, between and behind them, hold all
items that are not blank. Neighbouring ranges can be joined to one. `Kept` says what a split into
trimmed pieces keeps: all items but blanks, in order, and a budget for the length of a piece, which
only pieces of a given kind exceed.
-/

namespace FastTts.Ranges

variable {α : Type*}

def slice (items : List α) (range : ℕ × ℕ) : List α := (items.drop range.1).take (range.2 - range.1)

variable {a b pos : ℕ} {before behind l : List α} {size : List α → ℕ}

theorem length_slice {items : List α} (h : b ≤ items.length) :
    (slice items (a, b)).length = b - a := by
  rw [slice, List.length_take, List.length_drop]
  omega

theorem slice_append_drop (items : List α) (h : a ≤ b) :
    slice items (a, b) ++ items.drop b = items.drop a := by
  have hdrop : items.drop b = (items.drop a).drop (b - a) := by
    rw [List.drop_drop]
    congr 1
    omega
  rw [slice, hdrop, List.take_append_drop]

theorem slice_subset (items : List α) (range : ℕ × ℕ) : ∀ x ∈ slice items range, x ∈ items :=
  fun _ hx => List.mem_of_mem_drop (List.mem_of_mem_take hx)

theorem slice_mono (items : List α) {c : ℕ} (h : b ≤ c) :
    slice items (a, b) <+: slice items (a, c) :=
  List.take_prefix_take_left (by omega)

variable {range needle : List α} {rest : List (ℕ × ℕ)} {p : α → Bool} {q : List α → Bool}
  {cost : List α → ℕ}

theorem slice_of_drop {items : List α} (h : items.drop pos = before ++ (range ++ behind)) :
    slice items (pos, pos + before.length) = before ∧
      slice items (pos + before.length, pos + before.length + range.length) = range ∧
      items.drop (pos + before.length + range.length) = behind := by
  have hstart : items.drop (pos + before.length) = range ++ behind := by
    rw [← List.drop_drop, h, List.drop_left]
  refine ⟨?_, ?_, ?_⟩
  · rw [slice, h, Nat.add_sub_cancel_left, List.take_left]
  · rw [slice, hstart, Nat.add_sub_cancel_left, List.take_left]
  · rw [← List.drop_drop, hstart, List.drop_left]

theorem isPrefixOf_stop [BEq α] [LawfulBEq α] {b : α} (h : b ∉ needle) (value text : List α) :
    needle.isPrefixOf (value ++ b :: text) = needle.isPrefixOf value := by
  induction needle generalizing value with
  | nil => rw [List.isPrefixOf_nil_left, List.isPrefixOf_nil_left]
  | cons first needle ih =>
    rw [List.mem_cons, not_or] at h
    cases value with
    | nil =>
      have hb : (first == b) = false := beq_eq_false_iff_ne.mpr (Ne.symm h.1)
      rw [List.nil_append, List.isPrefixOf_cons_cons, hb, Bool.false_and]
      rfl
    | cons x value =>
      rw [List.cons_append, List.isPrefixOf_cons_cons, ih h.2, List.isPrefixOf_cons_cons]

theorem infix_stop {b : α} (h : b ∉ needle) (hinside : needle <:+: before ++ b :: behind) :
    needle <:+: before ∨ needle <:+: behind := by
  obtain ⟨early, late, hsplit⟩ := hinside
  rcases List.append_eq_append_iff.mp hsplit with ⟨between, rfl, -⟩ | ⟨beyond, hover, hbehind⟩
  · exact .inl ⟨early, between, rfl⟩
  · cases beyond with
    | nil => exact .inl ⟨early, [], by simpa using hover⟩
    | cons x beyond =>
      obtain ⟨rfl, rfl⟩ := List.cons.inj hbehind
      rcases List.append_eq_append_iff.mp hover with ⟨inside, -, rfl⟩ | ⟨skip, -, hskip⟩
      · exact absurd (List.mem_append_right inside List.mem_cons_self) h
      · cases skip with
        | nil =>
          rw [List.nil_append] at hskip
          exact absurd (hskip ▸ List.mem_cons_self) h
        | cons x skip =>
          obtain ⟨-, rfl⟩ := List.cons.inj hskip
          exact .inr ⟨skip, late, rfl⟩

inductive Covers (blank : α → Bool) (items : List α) : ℕ → List (ℕ × ℕ) → Prop
  | done {pos : ℕ} : (∀ x ∈ items.drop pos, blank x = true) → Covers blank items pos []
  | range {pos a b : ℕ} {rest : List (ℕ × ℕ)} : pos ≤ a → a < b → b ≤ items.length →
    (∀ x ∈ slice items (pos, a), blank x = true) → Covers blank items b rest →
    Covers blank items pos ((a, b) :: rest)

variable {blank : α → Bool} {items : List α}

theorem Covers.next (h : items.drop pos = before ++ (range ++ behind))
    (hbefore : ∀ x ∈ before, blank x = true) (hrange : range ≠ [])
    (hrest : Covers blank items (pos + before.length + range.length) rest) :
    Covers blank items pos ((pos + before.length, pos + before.length + range.length) :: rest) := by
  have hpos := List.length_pos_of_ne_nil hrange
  have hlen : items.length - pos = before.length + (range.length + behind.length) := by
    rw [← List.length_drop, h, List.length_append, List.length_append]
  refine .range (Nat.le_add_right _ _) (by omega) (by omega) ?_ hrest
  rwa [(slice_of_drop h).1]

theorem filter_of_blank (h : ∀ x ∈ l, blank x = true) : l.filter (fun x => !blank x) = [] := by
  rw [List.filter_eq_nil_iff]
  intro x hx
  rw [h x hx]
  decide

theorem Covers.group {group : List (ℕ × ℕ)} (hne : group ≠ [])
    (h : Covers blank items pos (group ++ rest)) :
    pos ≤ (group.head hne).1 ∧ (group.head hne).1 < (group.getLast hne).2 ∧
      (group.head hne).2 ≤ (group.getLast hne).2 ∧ (group.getLast hne).2 ≤ items.length ∧
      (∀ x ∈ slice items (pos, (group.head hne).1), blank x = true) ∧
      Covers blank items (group.getLast hne).2 rest := by
  induction group generalizing pos with
  | nil => exact absurd rfl hne
  | cons first group ih =>
    cases h with
    | @range pos a b _ hpos hab hb hgap hrest =>
      cases group with
      | nil => exact ⟨hpos, hab, le_rfl, hb, hgap, hrest⟩
      | cons second group =>
        obtain ⟨hle, hlt, -, hlast, -, hbehind⟩ := ih (List.cons_ne_nil _ _) hrest
        rw [List.getLast_cons (List.cons_ne_nil second group)]
        have hend := hle.trans hlt.le
        exact ⟨hpos, hab.trans_le hend, hend, hlast, hgap, hbehind⟩

/-- One range from the start of the first to the end of the last. -/
def joined (group : List (ℕ × ℕ)) : ℕ × ℕ :=
  ((group.head?.getD (0, 0)).1, (group.getLast?.getD (0, 0)).2)

theorem joined_eq {group : List (ℕ × ℕ)} (hne : group ≠ []) :
    joined group = ((group.head hne).1, (group.getLast hne).2) := by
  rw [joined, List.head?_eq_some_head hne, List.getLast?_eq_some_getLast hne]
  rfl

/-! ## Trimming -/

def trim (blank : α → Bool) (items : List α) : List α := (items.dropWhile blank).rdropWhile blank

theorem trim_map {β : Type*} (p : β → Bool) (f : α → β) (l : List α) :
    trim p (l.map f) = (trim (p ∘ f) l).map f := by
  rw [trim, trim, List.dropWhile_map, List.rdropWhile, List.rdropWhile, ← List.map_reverse,
    List.dropWhile_map, List.map_reverse]

theorem filter_dropWhile (l : List α) :
    (l.dropWhile blank).filter (fun x => !blank x) = l.filter fun x => !blank x := by
  induction l with
  | nil => rfl
  | cons x l ih =>
    by_cases hx : blank x = true
    · rw [List.dropWhile_cons_of_pos hx, ih, List.filter_cons_of_neg (by simp [hx])]
    · rw [List.dropWhile_cons_of_neg hx]

theorem filter_trim (l : List α) :
    (trim blank l).filter (fun x => !blank x) = l.filter fun x => !blank x := by
  rw [trim, List.rdropWhile, List.filter_reverse, filter_dropWhile, List.filter_reverse,
    List.reverse_reverse, filter_dropWhile]

theorem trim_subset (l : List α) : ∀ x ∈ trim blank l, x ∈ l := by
  intro x hx
  have hpart : trim blank l <+: l.dropWhile blank := List.rdropWhile_prefix _ _
  exact (List.dropWhile_suffix blank).subset (hpart.subset hx)

theorem length_trim_le (l : List α) : (trim blank l).length ≤ l.length := by
  have hpart : trim blank l <+: l.dropWhile blank := List.rdropWhile_prefix _ _
  exact hpart.length_le.trans (List.dropWhile_suffix blank).length_le

theorem trim_ne_nil (h : ∃ x ∈ l, blank x = false) : trim blank l ≠ [] := by
  obtain ⟨x, hx, hblank⟩ := h
  intro hnil
  have hfilter : x ∈ l.filter fun x => !blank x := List.mem_filter.mpr ⟨hx, by rw [hblank]; rfl⟩
  rw [← filter_trim, hnil] at hfilter
  exact absurd hfilter List.not_mem_nil

theorem shown_of_trim (h : trim blank l ≠ []) : ∃ x ∈ trim blank l, blank x = false :=
  ⟨_, List.getLast_mem h, (Bool.not_eq_true _).mp (List.rdropWhile_last_not blank _ h)⟩

theorem blank_of_trim_eq_nil (h : trim blank l = []) : ∀ x ∈ l, blank x = true := by
  intro x hx
  by_contra hblank
  exact trim_ne_nil ⟨x, hx, (Bool.not_eq_true _).mp hblank⟩ h

theorem trim_eq_self (hfirst : ∀ x ∈ l.head?, blank x = false)
    (hlast : ∀ x ∈ l.getLast?, blank x = false) : trim blank l = l := by
  have hdrop : l.dropWhile blank = l := by
    cases l with
    | nil => rfl
    | cons x l => rw [List.dropWhile_cons_of_neg (by rw [hfirst x rfl]; decide)]
  rw [trim, hdrop]
  cases l using List.reverseRecOn with
  | nil => rfl
  | append_singleton l x =>
    rw [List.rdropWhile_concat_neg _ _ _ (by rw [hlast x (by simp)]; decide)]

section

variable {l : List (List α)} (h : ∀ x ∈ l, x ≠ [] ∧ ∀ b ∈ x, p b = q x)
include h

theorem dropWhile_flatten : l.flatten.dropWhile p = (l.dropWhile q).flatten := by
  induction l with
  | nil => rfl
  | cons x l ih =>
    obtain ⟨hne, hx⟩ := h x List.mem_cons_self
    rw [List.flatten_cons]
    by_cases hq : q x = true
    · rw [List.dropWhile_append_of_pos fun b hb => (hx b hb).trans hq, List.dropWhile_cons_of_pos hq]
      exact ih fun y hy => h y (List.mem_cons_of_mem _ hy)
    · rw [List.dropWhile_cons_of_neg hq, List.flatten_cons]
      cases x with
      | nil => exact absurd rfl hne
      | cons b x =>
        rw [List.cons_append, List.dropWhile_cons_of_neg]
        rwa [hx b List.mem_cons_self]

theorem trim_flatten : trim p l.flatten = (trim q l).flatten := by
  have hreverse : ∀ {m : List (List α)}, (∀ x ∈ m, x ≠ [] ∧ ∀ b ∈ x, p b = q x) →
      m.flatten.rdropWhile p = (m.rdropWhile q).flatten := by
    intro m hm
    have hrev : ∀ x ∈ m.reverse.map List.reverse, x ≠ [] ∧ ∀ b ∈ x, p b = q x.reverse := by
      intro x hx
      obtain ⟨y, hy, rfl⟩ := List.mem_map.mp hx
      obtain ⟨hne, hy⟩ := hm y (List.mem_reverse.mp hy)
      rw [List.reverse_reverse]
      exact ⟨by rwa [Ne, List.reverse_eq_nil_iff], fun b hb => hy b (List.mem_reverse.mp hb)⟩
    rw [List.rdropWhile, List.reverse_flatten, ← List.map_reverse,
      dropWhile_flatten (q := fun x => q x.reverse) hrev, List.dropWhile_map, List.reverse_flatten,
      List.map_map, List.rdropWhile]
    simp [Function.comp_def]
  rw [trim, dropWhile_flatten h, trim]
  exact hreverse fun x hx => h x ((List.dropWhile_suffix q).subset hx)

end

/-! ## Groups -/

/-- The items in groups; a group ends behind an item that `ends` picks, given what follows it. -/
def splitAfter (ends : α → List α → Bool) (group : List α) : List α → List (List α)
  | [] => if group.isEmpty then [] else [group]
  | x :: rest =>
    if ends x rest then (group ++ [x]) :: splitAfter ends [] rest
    else splitAfter ends (group ++ [x]) rest

variable (ends : α → List α → Bool)

theorem flatten_splitAfter (group l : List α) : (splitAfter ends group l).flatten = group ++ l := by
  induction l generalizing group with
  | nil =>
    rw [splitAfter, List.append_nil]
    split
    · next h => exact (List.isEmpty_iff.mp h).symm
    · exact List.flatten_singleton
  | cons x rest ih =>
    rw [splitAfter]
    split
    · rw [List.flatten_cons, ih, List.nil_append, List.append_assoc, List.singleton_append]
    · rw [ih, List.append_assoc, List.singleton_append]

theorem ne_nil_of_mem_splitAfter (group l : List α) : ∀ g ∈ splitAfter ends group l, g ≠ [] := by
  induction l generalizing group with
  | nil =>
    intro g hg
    rw [splitAfter] at hg
    split at hg
    · cases hg
    · next h =>
      rw [List.mem_singleton.mp hg]
      exact fun hnil => h (List.isEmpty_iff.mpr hnil)
  | cons x rest ih =>
    intro g hg
    rw [splitAfter] at hg
    split at hg
    · rcases List.mem_cons.mp hg with rfl | hg
      · exact List.append_ne_nil_of_right_ne_nil _ (List.cons_ne_nil _ _)
      · exact ih [] g hg
    · exact ih (group ++ [x]) g hg

/-- The items in groups, each of the size that is wanted for the items from its start on. -/
def packed (size : List α → ℕ) : List α → List (List α)
  | [] => []
  | x :: rest =>
    (x :: rest.take (size (x :: rest) - 1)) :: packed size (rest.drop (size (x :: rest) - 1))
termination_by l => l.length
decreasing_by
  rw [List.length_drop, List.length_cons]
  omega

theorem flatten_packed (size : List α → ℕ) (l : List α) : (packed size l).flatten = l := by
  induction l using packed.induct size with
  | case1 => rw [packed, List.flatten_nil]
  | case2 x rest ih =>
    rw [packed, List.flatten_cons, ih, List.cons_append, List.take_append_drop]

theorem forall_packed {p : List α → Prop}
    (h : ∀ (x : α) (rest : List α), p (x :: rest.take (size (x :: rest) - 1))) (l : List α) :
    ∀ g ∈ packed size l, p g := by
  induction l using packed.induct size with
  | case1 =>
    intro g hg
    rw [packed] at hg
    cases hg
  | case2 x rest ih =>
    intro g hg
    rw [packed] at hg
    rcases List.mem_cons.mp hg with rfl | hg
    · exact h x rest
    · exact ih g hg

/-- What is left of the items at the start of each group. -/
def starts (size : List α → ℕ) : List α → List (List α)
  | [] => []
  | x :: rest => (x :: rest) :: starts size (rest.drop (size (x :: rest) - 1))
termination_by l => l.length
decreasing_by
  rw [List.length_drop, List.length_cons]
  omega

theorem packed_eq_map_starts (hsize : ∀ x rest, 0 < size (x :: rest)) (l : List α) :
    packed size l = (starts size l).map fun rest => rest.take (size rest) := by
  induction l using packed.induct size with
  | case1 => rw [packed, starts, List.map_nil]
  | case2 x rest ih =>
    rw [packed, starts, ih, List.map_cons, List.take_cons (hsize x rest)]

theorem suffix_of_mem_starts (l : List α) : ∀ s ∈ starts size l, s <:+ l := by
  induction l using packed.induct size with
  | case1 =>
    intro s hs
    rw [starts] at hs
    cases hs
  | case2 x rest ih =>
    intro s hs
    rw [starts] at hs
    rcases List.mem_cons.mp hs with rfl | hs
    · exact List.suffix_refl _
    · exact (ih s hs).trans ((List.drop_suffix _ _).trans (List.suffix_cons x rest))

/-- The items from the start that stay in the budget. -/
def fitting (cost : List α → ℕ) (budget : ℕ) (l : List α) : ℕ :=
  ((List.range l.length).takeWhile fun k => decide (cost (l.take (k + 1)) ≤ budget)).length

theorem cost_of_le_fitting {budget k : ℕ} (hk : k < fitting cost budget l) :
    cost (l.take (k + 1)) ≤ budget := by
  have hmem : ((List.range l.length).takeWhile
      fun k => decide (cost (l.take (k + 1)) ≤ budget))[k] = k := by
    rw [(List.takeWhile_prefix _).getElem hk, List.getElem_range]
  have hholds := List.mem_takeWhile_imp (List.getElem_mem hk)
  rw [hmem] at hholds
  exact of_decide_eq_true hholds

theorem single_or_fits {budget size : ℕ} {x : α} {rest : List α}
    (h : size ≤ max 1 (fitting cost budget (x :: rest))) :
    x :: rest.take (size - 1) = [x] ∨ cost (x :: rest.take (size - 1)) ≤ budget := by
  by_cases hsize : size ≤ 1
  · left
    rw [Nat.sub_eq_zero_of_le hsize, List.take_zero]
  · right
    have hlt : size - 1 < fitting cost budget (x :: rest) := by omega
    have hcost := cost_of_le_fitting hlt
    rwa [List.take_succ_cons] at hcost

/-! ## What a split keeps -/

structure Kept (blank : α → Bool) (single : List α → Prop) (budget : ℕ) (items : List α)
    (pieces : List (List α)) : Prop where
  shown : ∀ piece ∈ pieces, ∃ x ∈ piece, blank x = false
  subset : ∀ piece ∈ pieces, ∀ x ∈ piece, x ∈ items
  content : pieces.flatten.filter (fun x => !blank x) = items.filter fun x => !blank x
  long : ∀ piece ∈ pieces, budget < piece.length → single piece

variable {single : List α → Prop} {budget : ℕ}

theorem Kept.ne_nil {pieces : List (List α)} (h : Kept blank single budget items pieces) :
    ∀ piece ∈ pieces, piece ≠ [] := by
  intro piece hpiece
  obtain ⟨x, hx, -⟩ := h.shown piece hpiece
  exact List.ne_nil_of_mem hx

theorem Kept.none (h : ∀ x ∈ items, blank x = true) : Kept blank single budget items [] where
  shown _ hpiece := absurd hpiece List.not_mem_nil
  subset _ hpiece := absurd hpiece List.not_mem_nil
  content := (filter_of_blank h).symm
  long _ hpiece := absurd hpiece List.not_mem_nil

theorem Kept.whole (hshown : ∃ x ∈ items, blank x = false) (hlen : items.length ≤ budget) :
    Kept blank single budget items [items] where
  shown := List.forall_mem_singleton.mpr hshown
  subset := List.forall_mem_singleton.mpr fun _ hx => hx
  content := by rw [List.flatten_singleton]
  long := List.forall_mem_singleton.mpr fun hlt => absurd hlt hlen.not_gt

theorem Kept.piece (hne : trim blank items ≠ [])
    (hlong : budget < (trim blank items).length → single (trim blank items)) :
    Kept blank single budget items [trim blank items] where
  shown := List.forall_mem_singleton.mpr (shown_of_trim hne)
  subset := List.forall_mem_singleton.mpr (trim_subset items)
  content := by rw [List.flatten_singleton, filter_trim]
  long := List.forall_mem_singleton.mpr hlong

theorem Kept.append {items' : List α} {pieces pieces' : List (List α)}
    (h : Kept blank single budget items pieces) (h' : Kept blank single budget items' pieces') :
    Kept blank single budget (items ++ items') (pieces ++ pieces') where
  shown := List.forall_mem_append.mpr ⟨h.shown, h'.shown⟩
  subset := List.forall_mem_append.mpr
    ⟨fun piece hpiece x hx => List.mem_append_left _ (h.subset piece hpiece x hx),
      fun piece hpiece x hx => List.mem_append_right _ (h'.subset piece hpiece x hx)⟩
  content := by rw [List.flatten_append, List.filter_append, List.filter_append, h.content, h'.content]
  long := List.forall_mem_append.mpr ⟨h.long, h'.long⟩

theorem Covers.kept {groups : List (List (ℕ × ℕ))} (hne : ∀ g ∈ groups, g ≠ [])
    (hitem : ∀ r ∈ groups.flatten, ∃ x ∈ slice items r, blank x = false)
    (hsingle : ∀ r ∈ groups.flatten, single (trim blank (slice items r)))
    (hfit : ∀ g ∈ groups, (∃ r, g = [r]) ∨ (joined g).2 - (joined g).1 ≤ budget)
    (h : Covers blank items pos groups.flatten) :
    Kept blank single budget (items.drop pos)
      (groups.map fun g => trim blank (slice items (joined g))) := by
  induction groups generalizing pos with
  | nil =>
    cases h with
    | done hblank => exact .none hblank
  | cons g groups ih =>
    have hg := hne g List.mem_cons_self
    rw [List.flatten_cons] at h hitem hsingle
    obtain ⟨hpos, hlt, hend, hlast, hgap, hbehind⟩ := h.group hg
    have hrest := ih (fun g' h' => hne g' (List.mem_cons_of_mem _ h'))
      (fun r hr => hitem r (List.mem_append_right _ hr))
      (fun r hr => hsingle r (List.mem_append_right _ hr))
      (fun g' h' => hfit g' (List.mem_cons_of_mem _ h')) hbehind
    have hhead : g.head hg ∈ g ++ groups.flatten := List.mem_append_left _ (List.head_mem hg)
    obtain ⟨x, hx, hxblank⟩ := hitem _ hhead
    have hpiece : trim blank (slice items (joined g)) ≠ [] := by
      rw [joined_eq hg]
      exact trim_ne_nil ⟨x, (slice_mono items hend).subset hx, hxblank⟩
    have hlong : budget < (trim blank (slice items (joined g))).length →
        single (trim blank (slice items (joined g))) := by
      intro hlen
      rcases hfit g List.mem_cons_self with ⟨r, rfl⟩ | hbudget
      · exact hsingle r (List.mem_append_left _ List.mem_cons_self)
      · have hle : (trim blank (slice items (joined g))).length ≤ (slice items (joined g)).length :=
          length_trim_le _
        have hslice : (slice items (joined g)).length = (joined g).2 - (joined g).1 := by
          rw [joined_eq hg]
          exact length_slice hlast
        omega
    have hnone : Kept blank single budget _ [] := .none hgap
    have happend := hnone.append ((Kept.piece hpiece hlong).append hrest)
    rw [joined_eq hg, slice_append_drop items hlt.le, slice_append_drop items hpos] at happend
    rw [List.map_cons, joined_eq hg]
    exact happend

theorem Kept.of_trim {pieces : List (List α)}
    (h : Kept blank single budget (trim blank items) pieces) :
    Kept blank single budget items pieces where
  shown := h.shown
  subset piece hpiece x hx := trim_subset items x (h.subset piece hpiece x hx)
  content := h.content.trans (filter_trim items)
  long := h.long

end FastTts.Ranges
