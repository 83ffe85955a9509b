import Mathlib.Data.List.Basic
import Mathlib.Logic.Relation

/-!
# Edits of a text

One piece of a text after the other is replaced by another one. If every piece that is replaced
consists of items of a class and has a key item, then the whole replaces some such pieces of the
first text, and keeps what stands between them.
-/

namespace FastTts.TextEdits

variable {σ : Type*}

/-- One piece is replaced, and all around it is kept. -/
inductive Replaces (P : List σ → List σ → Prop) : List σ → List σ → Prop
  | at (before behind : List σ) {piece inserted : List σ} (h : P piece inserted) :
      Replaces P (before ++ (piece ++ behind)) (before ++ (inserted ++ behind))

variable {P : List σ → List σ → Prop}

theorem Replaces.front {text later : List σ} (h : Replaces P text later) (front : List σ) :
    Replaces P (front ++ text) (front ++ later) := by
  obtain ⟨before, behind, hpiece⟩ := h
  rw [← List.append_assoc, ← List.append_assoc front]
  exact .at (front ++ before) behind hpiece

/-- One replacement after the other. -/
abbrev Rewrites (P : List σ → List σ → Prop) : List σ → List σ → Prop :=
  Relation.ReflTransGen (Replaces P)

theorem Rewrites.front {text later : List σ} (h : Rewrites P text later) (front : List σ) :
    Rewrites P (front ++ text) (front ++ later) := by
  induction h with
  | refl => exact .refl
  | tail _ hstep ih => exact ih.tail (hstep.front front)

theorem Rewrites.keeps {Q : List σ → Prop} {text later : List σ} (h : Rewrites P text later)
    (hstep : ∀ before behind piece inserted, P piece inserted →
      Q (before ++ (piece ++ behind)) → Q (before ++ (inserted ++ behind))) (hq : Q text) :
    Q later := by
  induction h with
  | refl => exact hq
  | tail _ hreplaces ih =>
    obtain ⟨before, behind, hpiece⟩ := hreplaces
    exact hstep before behind _ _ hpiece ih

/-! ## Pieces of the first text -/

def Keyed (inside key : σ → Prop) (piece : List σ) : Prop :=
  (∀ item ∈ piece, inside item) ∧ ∃ item ∈ piece, key item

/-- Some pieces of the text are replaced; what stands between them is kept, in order. -/
inductive Edits (inside key : σ → Prop) : List σ → List σ → Prop
  | nil : Edits inside key [] []
  | keep (item : σ) {text later : List σ} (h : Edits inside key text later) :
      Edits inside key (item :: text) (item :: later)
  | edit {piece text later : List σ} (inserted : List σ) (hpiece : Keyed inside key piece)
      (h : Edits inside key text later) :
      Edits inside key (piece ++ text) (inserted ++ later)

section Pieces

variable {inside key : σ → Prop} {text later : List σ}

theorem Edits.refl (text : List σ) : Edits inside key text text := by
  induction text with
  | nil => exact .nil
  | cons item text ih => exact .keep item ih

theorem Edits.append (h : Edits inside key text later) {text' later' : List σ}
    (h' : Edits inside key text' later') : Edits inside key (text ++ text') (later ++ later') := by
  induction h with
  | nil => exact h'
  | keep item _ ih => exact .keep item ih
  | edit inserted hpiece _ ih =>
    rw [List.append_assoc, List.append_assoc]
    exact .edit inserted hpiece ih

theorem Edits.all_inside (h : Edits inside key text later) (hlater : ∀ item ∈ later, inside item) :
    ∀ item ∈ text, inside item := by
  induction h with
  | nil => exact nofun
  | keep item _ ih =>
    obtain ⟨hitem, hrest⟩ := List.forall_mem_cons.mp hlater
    exact List.forall_mem_cons.mpr ⟨hitem, ih hrest⟩
  | edit inserted hpiece _ ih =>
    obtain ⟨-, hrest⟩ := List.forall_mem_append.mp hlater
    exact List.forall_mem_append.mpr ⟨hpiece.1, ih hrest⟩

theorem Edits.has_key (h : Edits inside key text later) (hlater : ∃ item ∈ later, key item) :
    ∃ item ∈ text, key item := by
  induction h with
  | nil => exact hlater
  | keep item _ ih =>
    obtain ⟨found, hfound, hkey⟩ := hlater
    rcases List.mem_cons.mp hfound with rfl | hrest
    · exact ⟨found, List.mem_cons_self, hkey⟩
    · obtain ⟨other, hother, hkey'⟩ := ih ⟨found, hrest, hkey⟩
      exact ⟨other, List.mem_cons_of_mem item hother, hkey'⟩
  | edit inserted hpiece _ ih =>
    obtain ⟨found, hfound, hkey⟩ := hpiece.2
    exact ⟨found, List.mem_append_left _ hfound, hkey⟩

theorem Edits.cut {first second : List σ} (h : Edits inside key text (first ++ second)) :
    ∃ before piece behind front tail head back, text = before ++ (piece ++ behind) ∧
      first = front ++ tail ∧ second = head ++ back ∧ Edits inside key before front ∧
      Edits inside key behind back ∧
      (piece = [] ∧ tail = [] ∧ head = [] ∨ Keyed inside key piece) := by
  generalize heq : first ++ second = whole at h
  induction h generalizing first with
  | nil =>
    obtain ⟨rfl, rfl⟩ := List.append_eq_nil_iff.mp heq
    exact ⟨[], [], [], [], [], [], [], rfl, rfl, rfl, .nil, .nil, .inl ⟨rfl, rfl, rfl⟩⟩
  | @keep item text later hlater ih =>
    cases first with
    | nil =>
      rw [List.nil_append] at heq
      exact ⟨[], [], item :: text, [], [], [], second, rfl, rfl, rfl, .nil,
        heq ▸ .keep item hlater, .inl ⟨rfl, rfl, rfl⟩⟩
    | cons other first =>
      obtain ⟨rfl, hrest⟩ := List.cons.inj heq
      obtain ⟨before, piece, behind, front, tail, head, back, rfl, rfl, hsecond, hbefore, hbehind,
        hpiece⟩ := ih hrest
      exact ⟨other :: before, piece, behind, other :: front, tail, head, back, rfl, rfl, hsecond,
        .keep other hbefore, hbehind, hpiece⟩
  | @edit piece text later inserted hpiece hlater ih =>
    rcases List.append_eq_append_iff.mp heq with ⟨head, rfl, rfl⟩ | ⟨more, rfl, rfl⟩
    · exact ⟨[], piece, text, [], first, head, later, rfl, rfl, rfl, .nil, hlater, .inr hpiece⟩
    · obtain ⟨before, next, behind, front, tail, head, back, rfl, rfl, hsecond, hbefore, hbehind,
        hnext⟩ := ih rfl
      exact ⟨piece ++ before, next, behind, inserted ++ front, tail, head, back,
        (List.append_assoc ..).symm, (List.append_assoc ..).symm, hsecond,
        .edit inserted hpiece hbefore, hbehind, hnext⟩

theorem Edits.replace {before piece behind : List σ}
    (h : Edits inside key text (before ++ (piece ++ behind))) (hpiece : Keyed inside key piece)
    (inserted : List σ) : Edits inside key text (before ++ (inserted ++ behind)) := by
  rw [← List.append_assoc] at h
  obtain ⟨text₁, last, text₂, front, tail, head, back, rfl, hfront, rfl, h₁, h₂, hlast⟩ := h.cut
  rcases List.append_eq_append_iff.mp hfront with ⟨middle, rfl, rfl⟩ | ⟨inner, rfl, rfl⟩
  · -- the piece begins in front of the last cut
    obtain ⟨text₃, first, text₄, front, tail', head', back', rfl, rfl, rfl, h₃, h₄, hfirst⟩ :=
      h₁.cut
    obtain ⟨hpiece, found, hfound, hkey⟩ := hpiece
    rw [List.forall_mem_append, List.forall_mem_append] at hpiece
    have hwhole : Keyed inside key (first ++ (text₄ ++ last)) := by
      refine ⟨?_, ?_⟩
      · rw [List.forall_mem_append, List.forall_mem_append]
        refine ⟨?_, h₄.all_inside hpiece.1.2, ?_⟩
        · rcases hfirst with ⟨rfl, -⟩ | hfirst
          · exact nofun
          · exact hfirst.1
        · rcases hlast with ⟨rfl, -⟩ | hlast
          · exact nofun
          · exact hlast.1
      · simp only [List.mem_append] at hfound ⊢
        rcases hfound with (hhead | hback) | htail
        · rcases hfirst with ⟨-, -, rfl⟩ | ⟨-, other, hother, hkey'⟩
          · exact nomatch hhead
          · exact ⟨other, .inl hother, hkey'⟩
        · obtain ⟨other, hother, hkey'⟩ := h₄.has_key ⟨found, hback, hkey⟩
          exact ⟨other, .inr (.inl hother), hkey'⟩
        · rcases hlast with ⟨-, rfl, -⟩ | ⟨-, other, hother, hkey'⟩
          · exact nomatch htail
          · exact ⟨other, .inr (.inr hother), hkey'⟩
    have hall := h₃.append (Edits.edit (tail' ++ (inserted ++ head)) hwhole h₂)
    simpa only [List.append_assoc] using hall
  · -- the piece lies in what replaces another one
    have hlast : Keyed inside key last := by
      rcases hlast with ⟨-, htail, -⟩ | hlast
      · obtain ⟨found, hfound, -⟩ := hpiece.2
        rw [(List.append_eq_nil_iff.mp htail).2] at hfound
        exact nomatch hfound
      · exact hlast
    have hall := h₁.append (Edits.edit (inner ++ (inserted ++ head)) hlast h₂)
    simpa only [List.append_assoc] using hall

theorem Rewrites.edits {P : List σ → List σ → Prop} (h : Rewrites P text later)
    (hp : ∀ piece inserted, P piece inserted → Keyed inside key piece) :
    Edits inside key text later :=
  h.keeps (fun _ _ piece inserted hpiece hedits =>
    hedits.replace (hp piece inserted hpiece) inserted) (.refl text)

end Pieces

end FastTts.TextEdits
