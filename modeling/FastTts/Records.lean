import Mathlib.Data.List.Basic

/-!
# Terminated records

Records that are written one after the other, each with a terminator that occurs in none of them,
can be read back; so can two fields with a separator that the first one does not contain.
-/

namespace FastTts.Records

variable {β : Type*} {x : β}

theorem separated_inj {a a' b b' : List β} (ha : x ∉ a) (ha' : x ∉ a')
    (h : a ++ x :: b = a' ++ x :: b') : a = a' ∧ b = b' := by
  induction a generalizing a' with
  | nil =>
    cases a' with
    | nil => exact ⟨rfl, (List.cons.inj h).2⟩
    | cons y a' =>
      have hy : x = y := (List.cons.inj h).1
      exact absurd (hy ▸ List.mem_cons_self) ha'
  | cons y a ih =>
    cases a' with
    | nil =>
      have hy : y = x := (List.cons.inj h).1
      exact absurd (hy ▸ List.mem_cons_self) ha
    | cons y' a' =>
      obtain ⟨rfl, htail⟩ := List.cons.inj h
      have hrest : x ∉ a := fun hx => ha (List.mem_cons_of_mem _ hx)
      have hrest' : x ∉ a' := fun hx => ha' (List.mem_cons_of_mem _ hx)
      obtain ⟨rfl, rfl⟩ := ih hrest hrest' htail
      exact ⟨rfl, rfl⟩

def terminated (x : β) (records : List (List β)) : List β := records.flatMap fun r => r ++ [x]

theorem terminated_cons (r : List β) (records : List (List β)) :
    terminated x (r :: records) = r ++ x :: terminated x records := by
  rw [terminated, List.flatMap_cons, List.append_assoc]
  rfl

theorem terminated_cons_ne_nil (r : List β) (records : List (List β)) :
    terminated x (r :: records) ≠ [] := by
  rw [terminated_cons]
  exact List.append_ne_nil_of_right_ne_nil _ (List.cons_ne_nil _ _)

theorem terminated_inj {records records' : List (List β)} (hx : ∀ r ∈ records, x ∉ r)
    (hx' : ∀ r ∈ records', x ∉ r) (h : terminated x records = terminated x records') :
    records = records' := by
  induction records generalizing records' with
  | nil =>
    cases records' with
    | nil => rfl
    | cons r' records' => exact absurd h.symm (terminated_cons_ne_nil r' records')
  | cons r records ih =>
    cases records' with
    | nil => exact absurd h (terminated_cons_ne_nil r records)
    | cons r' records' =>
      rw [terminated_cons, terminated_cons] at h
      -- The first terminator ends the first record on both sides.
      obtain ⟨rfl, htail⟩ := separated_inj (hx r List.mem_cons_self) (hx' r' List.mem_cons_self) h
      have hrest := ih (fun q hq => hx q (List.mem_cons_of_mem _ hq))
        (fun q hq => hx' q (List.mem_cons_of_mem _ hq)) htail
      rw [hrest]

end FastTts.Records
