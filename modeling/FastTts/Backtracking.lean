import Mathlib.Data.List.Basic
import Mathlib.Data.List.TakeWhile

/-!
# Backtracking patterns

A pattern matches the beginning of a text in several ways, which are tried in order: a repetition
takes as much as it can first, and an option is taken before it is left out. A search takes the
first way at the leftmost place that has one.
-/

namespace FastTts.Backtracking

/-- Repetitions are those of a class of items. -/
inductive Pattern (σ : Type*)
  | run (accepts : σ → Bool) (least : ℕ) (most : Option ℕ)
  | seq (p q : Pattern σ)
  | alt (p q : Pattern σ)
  | opt (p : Pattern σ)
  | group (p : Pattern σ)
  | ahead (p : Pattern σ)
  | atEnd

namespace Pattern

variable {σ : Type*}

def one (accepts : σ → Bool) : Pattern σ := run accepts 1 (some 1)

def plus (accepts : σ → Bool) : Pattern σ := run accepts 1 none

def many (accepts : σ → Bool) : Pattern σ := run accepts 0 none

def groups : Pattern σ → ℕ
  | run _ _ _ => 0
  | seq p q => p.groups + q.groups
  | alt p q => p.groups + q.groups
  | opt p => p.groups
  | group p => p.groups + 1
  | ahead p => p.groups
  | atEnd => 0

end Pattern

/-- What is taken of a text, what the groups took of it, and what is left. -/
structure Way (σ : Type*) where
  taken : List σ
  groups : List (List σ)
  rest : List σ
  deriving DecidableEq

variable {σ : Type*}

/-- How many items a repetition takes at most. -/
def runLength (accepts : σ → Bool) (most : Option ℕ) (text : List σ) : ℕ :=
  match most with
  | none => (text.takeWhile accepts).length
  | some most => min most (text.takeWhile accepts).length

/-- Repetitions that take `least` and then up to `more` items, the longest first. -/
def runWays (text : List σ) (least : ℕ) : ℕ → List (Way σ)
  | 0 => [⟨text.take least, [], text.drop least⟩]
  | more + 1 =>
    ⟨text.take (least + more + 1), [], text.drop (least + more + 1)⟩ :: runWays text least more

def Way.andThen (first second : Way σ) : Way σ :=
  ⟨first.taken ++ second.taken, first.groups ++ second.groups, second.rest⟩

/-- The ways in which a pattern matches the beginning of a text, the preferred ones first. A group
that takes no part is empty. -/
@[grind =]
def ways : Pattern σ → List σ → List (Way σ)
  | .run accepts least most, text =>
    if least ≤ runLength accepts most text then
      runWays text least (runLength accepts most text - least)
    else []
  | .seq p q, text => (ways p text).flatMap fun first => (ways q first.rest).map first.andThen
  | .alt p q, text =>
    (ways p text).map (fun way => { way with
      groups := way.groups ++ List.replicate q.groups [] }) ++
    (ways q text).map fun way => { way with groups := List.replicate p.groups [] ++ way.groups }
  | .opt p, text => ways p text ++ [⟨[], List.replicate p.groups [], text⟩]
  | .group p, text => (ways p text).map fun way => { way with groups := way.taken :: way.groups }
  | .ahead p, text => match ways p text with
    | [] => []
    | way :: _ => [⟨[], way.groups, text⟩]
  | .atEnd, text => if text.isEmpty then [⟨[], [], text⟩] else []

/-- The preferred way at the beginning of a text. -/
def matchAt (p : Pattern σ) (text : List σ) : Option (Way σ) := (ways p text).head?

/-- The first place that has a way, with what lies before it. -/
@[grind =]
def search (p : Pattern σ) : List σ → Option (List σ × Way σ)
  | [] => (matchAt p []).map fun way => ([], way)
  | item :: text => match matchAt p (item :: text) with
    | some way => some ([], way)
    | none => (search p text).map fun found => (item :: found.1, found.2)

/-- The places that are found one behind the other, and what is left. A place where nothing is taken
ends the list. -/
def hitsWithin (p : Pattern σ) : ℕ → List σ → List (List σ × Way σ) × List σ
  | 0, text => ([], text)
  | fuel + 1, text => match search p text with
    | none => ([], text)
    | some (before, way) =>
      if way.taken.isEmpty then ([], text)
      else
        ((before, way) :: (hitsWithin p fuel way.rest).1, (hitsWithin p fuel way.rest).2)

/-- Every hit takes something, so that there are no more of them than items. -/
def hits (p : Pattern σ) (text : List σ) : List (List σ × Way σ) × List σ :=
  hitsWithin p text.length text

/-! ## Ways -/

variable {accepts : σ → Bool} {text before : List σ} {least : ℕ} {way : Way σ} {p q : Pattern σ}

theorem takeWhile_take {n : ℕ} (h : n ≤ (text.takeWhile accepts).length) :
    text.take n = (text.takeWhile accepts).take n := by
  conv_lhs => rw [← List.takeWhile_append_dropWhile (p := accepts) (l := text)]
  exact List.take_append_of_le_length h

theorem mem_runWays {more : ℕ} :
    way ∈ runWays text least more ↔
      ∃ n, least ≤ n ∧ n ≤ least + more ∧ way = ⟨text.take n, [], text.drop n⟩ := by
  induction more with
  | zero =>
    rw [runWays, List.mem_singleton]
    constructor
    · rintro rfl
      exact ⟨least, le_refl _, le_refl _, rfl⟩
    · rintro ⟨n, hleast, hmost, rfl⟩
      rw [le_antisymm hmost hleast, Nat.add_zero]
  | succ more ih =>
    rw [runWays, List.mem_cons, ih]
    constructor
    · rintro (rfl | ⟨n, hleast, hmost, rfl⟩)
      · exact ⟨least + more + 1, by omega, by omega, rfl⟩
      · exact ⟨n, hleast, by omega, rfl⟩
    · rintro ⟨n, hleast, hmost, rfl⟩
      rcases Nat.lt_or_ge n (least + more + 1) with hlt | hge
      · exact .inr ⟨n, hleast, by omega, rfl⟩
      · rw [show n = least + more + 1 by omega]
        exact .inl rfl

theorem runLength_le (accepts : σ → Bool) (most : Option ℕ) (text : List σ) :
    runLength accepts most text ≤ (text.takeWhile accepts).length := by
  cases most with
  | none => exact le_refl _
  | some most => exact min_le_right _ _

theorem mem_ways_run {most : Option ℕ} (h : way ∈ ways (.run accepts least most) text) :
    way.taken ++ way.rest = text ∧ way.groups = [] ∧ (∀ item ∈ way.taken, accepts item = true) ∧
      least ≤ way.taken.length ∧ ∀ bound, most = some bound → way.taken.length ≤ bound := by
  rw [ways] at h
  split_ifs at h with hleast
  · obtain ⟨n, hn, hmore, rfl⟩ := mem_runWays.mp h
    have hlength : n ≤ runLength accepts most text := by omega
    have hrun := hlength.trans (runLength_le accepts most text)
    have hall : n ≤ text.length := hrun.trans (List.takeWhile_prefix accepts).length_le
    refine ⟨List.take_append_drop n text, rfl, fun item hitem => ?_, ?_, fun bound hbound => ?_⟩
    · rw [takeWhile_take hrun] at hitem
      exact List.mem_takeWhile_imp (List.mem_of_mem_take hitem)
    · rwa [List.length_take_of_le hall]
    · rw [List.length_take_of_le hall]
      rw [hbound] at hlength
      exact hlength.trans (min_le_left _ _)
  · exact nomatch h

theorem mem_ways_seq :
    way ∈ ways (.seq p q) text ↔
      ∃ first ∈ ways p text, ∃ second ∈ ways q first.rest, first.andThen second = way := by
  rw [ways, List.mem_flatMap]
  simp only [List.mem_map]

theorem mem_ways_opt :
    way ∈ ways (.opt p) text ↔
      way ∈ ways p text ∨ way = ⟨[], List.replicate p.groups [], text⟩ := by
  rw [ways, List.mem_append, List.mem_singleton]

theorem mem_ways_group :
    way ∈ ways (.group p) text ↔
      ∃ inner ∈ ways p text, { inner with groups := inner.taken :: inner.groups } = way := by
  rw [ways, List.mem_map]

theorem taken_append_rest (h : way ∈ ways p text) : way.taken ++ way.rest = text := by
  induction p generalizing text way with
  | run accepts least most => exact (mem_ways_run h).1
  | seq p q ihp ihq =>
    obtain ⟨first, hfirst, second, hsecond, rfl⟩ := mem_ways_seq.mp h
    rw [Way.andThen, List.append_assoc, ihq hsecond, ihp hfirst]
  | alt p q ihp ihq =>
    rw [ways, List.mem_append, List.mem_map, List.mem_map] at h
    rcases h with ⟨inner, hinner, rfl⟩ | ⟨inner, hinner, rfl⟩
    · have hall := ihp hinner
      exact hall
    · have hall := ihq hinner
      exact hall
  | opt p ih =>
    rcases mem_ways_opt.mp h with hinner | rfl
    · exact ih hinner
    · rfl
  | group p ih =>
    obtain ⟨inner, hinner, rfl⟩ := mem_ways_group.mp h
    have hall := ih hinner
    exact hall
  | ahead p ih =>
    rw [ways] at h
    split at h
    · exact nomatch h
    · rw [List.mem_singleton.mp h, List.nil_append]
  | atEnd =>
    rw [ways] at h
    split_ifs at h
    · rw [List.mem_singleton.mp h, List.nil_append]
    · exact nomatch h

/-! ## The preferred way -/

theorem matchAt_mem (h : matchAt p text = some way) :
    way ∈ ways p text := List.mem_of_head? h

theorem matchAt_eq_none : matchAt p text = none ↔ ways p text = [] :=
  List.head?_eq_none_iff

theorem matchAt_seq {first second : Way σ} (hfirst : matchAt p text = some first)
    (hsecond : matchAt q first.rest = some second) :
    matchAt (.seq p q) text = some (first.andThen second) := by
  obtain ⟨others, hothers⟩ := List.head?_eq_some_iff.mp hfirst
  obtain ⟨seconds, hseconds⟩ := List.head?_eq_some_iff.mp hsecond
  rw [matchAt, ways, hothers, List.flatMap_cons, hseconds]
  rfl

theorem head?_runWays (text : List σ) (least more : ℕ) :
    (runWays text least more).head? =
      some ⟨text.take (least + more), [], text.drop (least + more)⟩ := by
  cases more <;> rfl

theorem matchAt_run (h : least ≤ (text.takeWhile accepts).length) :
    matchAt (.run accepts least none) text =
      some ⟨text.takeWhile accepts, [], text.dropWhile accepts⟩ := by
  have htake : text.take (text.takeWhile accepts).length = text.takeWhile accepts := by
    rw [takeWhile_take (le_refl _), List.take_length]
  have hdrop : text.drop (text.takeWhile accepts).length = text.dropWhile accepts := by
    refine (List.append_right_inj (text.takeWhile accepts)).mp ?_
    conv_lhs => rw [← htake]
    rw [List.length_take_of_le (List.takeWhile_prefix accepts).length_le, List.take_append_drop,
      List.takeWhile_append_dropWhile]
  rw [matchAt, ways, if_pos (show least ≤ runLength accepts none text from h), head?_runWays,
    Nat.add_sub_cancel' (show least ≤ runLength accepts none text from h)]
  exact congrArg some (congrArg₂ (fun taken rest => Way.mk taken [] rest) htake hdrop)

theorem matchAt_alt_left (h : matchAt p text = some way) :
    ∃ way', matchAt (.alt p q) text = some way' ∧
      way'.taken = way.taken ∧ way'.rest = way.rest := by
  obtain ⟨others, hothers⟩ := List.head?_eq_some_iff.mp h
  rw [matchAt, ways, hothers]
  exact ⟨_, rfl, rfl, rfl⟩

theorem matchAt_alt_right (hnone : matchAt p text = none) (h : matchAt q text = some way) :
    ∃ way', matchAt (.alt p q) text = some way' ∧ way'.taken = way.taken ∧
      way'.rest = way.rest := by
  obtain ⟨others, hothers⟩ := List.head?_eq_some_iff.mp h
  rw [matchAt, ways, matchAt_eq_none.mp hnone, hothers]
  exact ⟨_, rfl, rfl, rfl⟩

theorem matchAt_opt_some (h : matchAt p text = some way) : matchAt (.opt p) text = some way := by
  obtain ⟨others, hothers⟩ := List.head?_eq_some_iff.mp h
  rw [matchAt, ways, hothers]
  rfl

theorem matchAt_opt (p : Pattern σ) (text : List σ) : ∃ way, matchAt (.opt p) text = some way := by
  cases h : matchAt p text with
  | none =>
    rw [matchAt, ways, matchAt_eq_none.mp h]
    exact ⟨_, rfl⟩
  | some way => exact ⟨way, matchAt_opt_some h⟩

/-! ## Searching -/

theorem search_of_matchAt (h : matchAt p text = some way) : search p text = some ([], way) := by
  cases text with
  | nil => rw [search, h]; rfl
  | cons item text => rw [search, h]

theorem search_some (h : search p text = some (before, way)) :
    before ++ (way.taken ++ way.rest) = text ∧ matchAt p (way.taken ++ way.rest) = some way := by
  induction text generalizing before with
  | nil =>
    rw [search] at h
    obtain ⟨found, hfound, hpair⟩ := Option.map_eq_some_iff.mp h
    obtain ⟨rfl, rfl⟩ := Prod.mk.inj hpair
    have hall := taken_append_rest (matchAt_mem hfound)
    rw [hall]
    exact ⟨rfl, hfound⟩
  | cons item text ih =>
    rw [search] at h
    cases hfound : matchAt p (item :: text) with
    | some found =>
      rw [hfound] at h
      obtain ⟨rfl, rfl⟩ := Prod.mk.inj (Option.some.inj h)
      have hall := taken_append_rest (matchAt_mem hfound)
      rw [hall]
      exact ⟨rfl, hfound⟩
    | none =>
      rw [hfound] at h
      obtain ⟨⟨later, found⟩, hlater, hpair⟩ := Option.map_eq_some_iff.mp h
      obtain ⟨rfl, rfl⟩ := Prod.mk.inj hpair
      obtain ⟨hall, hmatch⟩ := ih hlater
      exact ⟨congrArg (item :: ·) hall, hmatch⟩

theorem search_none (h : search p text = none) {rest : List σ} (hrest : rest <:+ text) :
    matchAt p rest = none := by
  induction text with
  | nil =>
    rw [search, Option.map_eq_none_iff] at h
    rwa [List.suffix_nil.mp hrest]
  | cons item text ih =>
    rw [search] at h
    cases hfound : matchAt p (item :: text) with
    | some found =>
      rw [hfound] at h
      exact nomatch h
    | none =>
      rw [hfound, Option.map_eq_none_iff] at h
      rcases List.suffix_cons_iff.mp hrest with rfl | hlater
      · exact hfound
      · exact ih h hlater

/-- The text that the hits and the gaps between them make up. -/
def spelled (found : List (List σ × Way σ) × List σ) : List σ :=
  found.1.flatMap (fun hit => hit.1 ++ hit.2.taken) ++ found.2

theorem spelled_hitsWithin (p : Pattern σ) (fuel : ℕ) (text : List σ) :
    spelled (hitsWithin p fuel text) = text := by
  induction fuel generalizing text with
  | zero => rfl
  | succ fuel ih =>
    rw [hitsWithin]
    cases hfound : search p text with
    | none => rfl
    | some found =>
      obtain ⟨before, way⟩ := found
      dsimp only
      split_ifs
      · rfl
      · have hrest := ih way.rest
        rw [spelled, List.flatMap_cons, List.append_assoc]
        rw [spelled] at hrest
        rw [hrest, List.append_assoc]
        exact (search_some hfound).1

theorem spelled_hits (p : Pattern σ) (text : List σ) : spelled (hits p text) = text :=
  spelled_hitsWithin p text.length text

theorem search_before (h : search p text = some (before, way)) {earlier : List σ}
    (hne : earlier ≠ []) (hearlier : earlier <:+ before) :
    matchAt p (earlier ++ (way.taken ++ way.rest)) = none := by
  induction text generalizing before with
  | nil =>
    rw [search] at h
    obtain ⟨found, -, hpair⟩ := Option.map_eq_some_iff.mp h
    obtain ⟨rfl, rfl⟩ := Prod.mk.inj hpair
    exact absurd (List.suffix_nil.mp hearlier) hne
  | cons item text ih =>
    have hall := (search_some h).1
    rw [search] at h
    cases hfound : matchAt p (item :: text) with
    | some found =>
      rw [hfound] at h
      obtain ⟨rfl, rfl⟩ := Prod.mk.inj (Option.some.inj h)
      exact absurd (List.suffix_nil.mp hearlier) hne
    | none =>
      rw [hfound] at h
      obtain ⟨⟨later, found⟩, hlater, hpair⟩ := Option.map_eq_some_iff.mp h
      obtain ⟨rfl, rfl⟩ := Prod.mk.inj hpair
      rcases List.suffix_cons_iff.mp hearlier with rfl | hrest
      · rw [hall]
        exact hfound
      · exact ih hlater hrest

def Eats (p : Pattern σ) : Prop := ∀ text, ∀ way ∈ ways p text, way.taken ≠ []

/-- The hits in a text, and what is left where there are no more. -/
inductive Hits (p : Pattern σ) : List σ → List (List σ × Way σ) → List σ → Prop
  | done {text : List σ} (h : search p text = none) : Hits p text [] text
  | hit {text before : List σ} {way : Way σ} {found : List (List σ × Way σ)} {last : List σ}
      (h : search p text = some (before, way)) (hne : way.taken ≠ [])
      (hrest : Hits p way.rest found last) : Hits p text ((before, way) :: found) last

theorem hitsWithin_hits (heats : Eats p) {fuel : ℕ} (hfuel : text.length ≤ fuel) :
    Hits p text (hitsWithin p fuel text).1 (hitsWithin p fuel text).2 := by
  induction fuel generalizing text with
  | zero =>
    rw [List.length_eq_zero_iff.mp (Nat.le_zero.mp hfuel)]
    refine .done ?_
    cases hfound : search p ([] : List σ) with
    | none => rfl
    | some found =>
      obtain ⟨before, way⟩ := found
      obtain ⟨hall, hmatch⟩ := search_some hfound
      obtain ⟨-, hnil⟩ := List.append_eq_nil_iff.mp hall
      exact absurd (List.append_eq_nil_iff.mp hnil).1 (heats _ _ (matchAt_mem hmatch))
  | succ fuel ih =>
    rw [hitsWithin]
    cases hfound : search p text with
    | none => exact .done hfound
    | some found =>
      obtain ⟨before, way⟩ := found
      obtain ⟨hall, hmatch⟩ := search_some hfound
      have hne := heats _ _ (matchAt_mem hmatch)
      have hlength := congrArg List.length hall
      rw [List.length_append, List.length_append] at hlength
      have htaken := List.length_pos_iff.mpr hne
      dsimp only
      rw [if_neg (by simpa using hne)]
      exact .hit hfound hne (ih (by omega))

theorem hits_hits (heats : Eats p) (text : List σ) :
    Hits p text (hits p text).1 (hits p text).2 := hitsWithin_hits heats (le_refl _)

theorem hits_of_search_none (h : search p text = none) : hits p text = ([], text) := by
  rw [hits]
  cases text.length with
  | zero => rfl
  | succ fuel => rw [hitsWithin, h]

variable {last : List σ} {found : List (List σ × Way σ)}

/-- If each place where a search may go on has a way, nothing is left between the hits. -/
theorem Hits.cover {P : List σ → Prop}
    (hstep : ∀ text, P text → text ≠ [] → ∃ way, matchAt p text = some way ∧ P way.rest)
    (h : Hits p text found last) (hp : P text) :
    (found.map fun hit => hit.2.taken).flatten = text := by
  induction h with
  | @done text hnone =>
    by_cases hnil : text = []
    · rw [hnil]
      rfl
    · obtain ⟨way, hway, -⟩ := hstep text hp hnil
      rw [search_of_matchAt hway] at hnone
      exact nomatch hnone
  | @hit text before way found last hfound hne hrest ih =>
    have hnil : text ≠ [] := by
      rintro rfl
      obtain ⟨hall, -⟩ := search_some hfound
      exact hne (List.append_eq_nil_iff.mp (List.append_eq_nil_iff.mp hall).2).1
    obtain ⟨first, hfirst, hlater⟩ := hstep text hp hnil
    rw [search_of_matchAt hfirst] at hfound
    obtain ⟨rfl, rfl⟩ := Prod.mk.inj (Option.some.inj hfound)
    rw [List.map_cons, List.flatten_cons, ih hlater]
    exact taken_append_rest (matchAt_mem hfirst)

/-! ## Repetitions of a class -/

theorem eats_plus (accepts : σ → Bool) : Eats (.plus accepts) := by
  intro text way hway
  obtain ⟨-, -, -, hleast, -⟩ := mem_ways_run hway
  exact List.length_pos_iff.mp hleast

theorem matchAt_plus_cons {item : σ} (h : accepts item = true) (text : List σ) :
    matchAt (.plus accepts) (item :: text) =
      some ⟨(item :: text).takeWhile accepts, [], (item :: text).dropWhile accepts⟩ :=
  matchAt_run (by simp [h])

theorem not_accepts_of_search_none (h : search (.plus accepts) text = none) :
    ∀ item ∈ text, accepts item = false := by
  intro item hitem
  obtain ⟨before, behind, rfl⟩ := List.append_of_mem hitem
  have hnone := search_none h (List.suffix_append before (item :: behind))
  by_contra haccepts
  rw [matchAt_plus_cons (by simpa using haccepts)] at hnone
  exact nomatch hnone

theorem not_accepts_of_search_some (h : search (.plus accepts) text = some (before, way)) :
    (∀ item ∈ before, accepts item = false) ∧ ∀ item ∈ way.taken, accepts item = true := by
  refine ⟨fun item hitem => ?_, (mem_ways_run (matchAt_mem (search_some h).2)).2.2.1⟩
  obtain ⟨earlier, behind, rfl⟩ := List.append_of_mem hitem
  have hnone := search_before h (List.cons_ne_nil item behind)
    (List.suffix_append earlier (item :: behind))
  by_contra haccepts
  rw [List.cons_append, matchAt_plus_cons (by simpa using haccepts)] at hnone
  exact nomatch hnone

theorem Hits.flatten_gaps (h : Hits (.plus accepts) text found last) :
    (found.map Prod.fst).flatten ++ last = text.filter fun item => !accepts item := by
  induction h with
  | done hnone =>
    refine (List.filter_eq_self.mpr fun item hitem => ?_).symm
    rw [not_accepts_of_search_none hnone item hitem]
    rfl
  | @hit text before way found last hfound hne hrest ih =>
    obtain ⟨hbefore, htaken⟩ := not_accepts_of_search_some hfound
    have hkept : before.filter (fun item => !accepts item) = before :=
      List.filter_eq_self.mpr fun item hitem => by rw [hbefore item hitem]; rfl
    have hlost : way.taken.filter (fun item => !accepts item) = [] :=
      List.filter_eq_nil_iff.mpr fun item hitem => by rw [htaken item hitem]; decide
    rw [← (search_some hfound).1, List.filter_append, List.filter_append, hkept, hlost,
      List.nil_append, ← ih, List.map_cons, List.flatten_cons, List.append_assoc]

end FastTts.Backtracking
