import Mathlib.Data.List.Basic

/-!
# Schedules

A schedule computes one node after the other, each from what the store holds for the nodes it reads.
When no node reads itself or a later one, the store that the schedule leaves is a solution of the
equations of its nodes, and two stores that follow the same equations agree.
-/

namespace FastTts.Schedules

variable {N α : Type*}

structure Ordered (reads : N → N → Prop) (nodes : List N) : Prop where
  nodup : nodes.Nodup
  irrefl : ∀ n ∈ nodes, ¬ reads n n
  later : nodes.Pairwise fun n m => ¬ reads n m

variable {reads : N → N → Prop} {n : N} {nodes : List N}

theorem Ordered.tail (h : Ordered reads (n :: nodes)) : Ordered reads nodes :=
  ⟨(List.nodup_cons.mp h.nodup).2, fun m hm => h.irrefl m (List.mem_cons_of_mem n hm),
    (List.pairwise_cons.mp h.later).2⟩

theorem Ordered.notMem_of_reads {m : N} (h : Ordered reads (n :: nodes)) (hm : reads n m) :
    m ≠ n ∧ m ∉ nodes := by
  constructor
  · rintro rfl
    exact h.irrefl m List.mem_cons_self hm
  · intro hmem
    exact (List.pairwise_cons.mp h.later).1 m hmem hm

theorem pairwise_of_split {R : N → N → Prop}
    (h : ∀ before n after, nodes = before ++ n :: after → ∀ m ∈ after, R n m) :
    nodes.Pairwise R := by
  induction nodes with
  | nil => exact .nil
  | cons a nodes ih =>
    refine .cons (h [] a nodes rfl) (ih ?_)
    intro before n after hsplit
    exact h (a :: before) n after (by rw [hsplit]; rfl)

theorem Ordered.of_before (hnodup : nodes.Nodup)
    (h : ∀ before n after, nodes = before ++ n :: after → ∀ m, reads n m → m ∈ before ∨ m ∉ nodes) :
    Ordered reads nodes := by
  have hnot : ∀ before n after, nodes = before ++ n :: after → ∀ m ∈ n :: after, ¬ reads n m := by
    intro before n after hsplit m hm hreads
    rw [hsplit] at hnodup
    rcases h before n after hsplit m hreads with hbefore | hnone
    · exact (List.nodup_append.mp hnodup).2.2 m hbefore m hm rfl
    · apply hnone
      rw [hsplit]
      exact List.mem_append_right before hm
  refine ⟨hnodup, ?_, ?_⟩
  · intro n hn
    obtain ⟨before, after, hsplit⟩ := List.append_of_mem hn
    exact hnot before n after hsplit n List.mem_cons_self
  · apply pairwise_of_split
    intro before n after hsplit m hm
    exact hnot before n after hsplit m (List.mem_cons_of_mem n hm)

theorem Ordered.filter (h : Ordered reads nodes) (p : N → Bool) : Ordered reads (nodes.filter p) :=
  ⟨h.nodup.filter p, fun n hn => h.irrefl n (List.mem_filter.mp hn).1, h.later.filter p⟩

theorem agree {β : Type*} {f g : N → β} {keep : N → Prop} (h : Ordered reads nodes)
    (hkeep : ∀ n ∈ nodes, keep n → ∀ m, reads n m → keep m)
    (hstep : ∀ n ∈ nodes, keep n → (∀ m, reads n m → f m = g m) → f n = g n)
    (hout : ∀ n, n ∉ nodes → keep n → f n = g n) : ∀ n, keep n → f n = g n := by
  induction nodes with
  | nil => exact fun n => hout n List.not_mem_nil
  | cons a nodes ih =>
    apply ih h.tail
    · exact fun n hn => hkeep n (List.mem_cons_of_mem a hn)
    · exact fun n hn => hstep n (List.mem_cons_of_mem a hn)
    · intro n hn hkeepn
      by_cases hna : n = a
      · subst hna
        apply hstep n List.mem_cons_self hkeepn
        intro m hm
        obtain ⟨hne, hnot⟩ := h.notMem_of_reads hm
        exact hout m (fun hmem => (List.mem_cons.mp hmem).elim hne hnot)
          (hkeep n List.mem_cons_self hkeepn m hm)
      · exact hout n (fun hmem => (List.mem_cons.mp hmem).elim hna hn) hkeepn

variable [DecidableEq N]

def run (eval : (N → α) → N → α) (nodes : List N) (store : N → α) : N → α :=
  nodes.foldl (fun store n => Function.update store n (eval store n)) store

variable {eval : (N → α) → N → α}

theorem run_of_notMem (store : N → α) (h : n ∉ nodes) : run eval nodes store n = store n := by
  induction nodes generalizing store with
  | nil => rfl
  | cons m nodes ih =>
    rw [List.mem_cons, not_or] at h
    rw [run, List.foldl_cons]
    exact (ih _ h.2).trans (Function.update_of_ne h.1 ..)

/-- By induction on the schedule: what the later nodes write is read by none before them. -/
theorem run_eq (h : Ordered reads nodes)
    (hlocal : ∀ f g n, (∀ m, reads n m → f m = g m) → eval f n = eval g n) (store : N → α) :
    ∀ n ∈ nodes, run eval nodes store n = eval (run eval nodes store) n := by
  induction nodes generalizing store with
  | nil => exact fun n hn => absurd hn List.not_mem_nil
  | cons a nodes ih =>
    intro n hn
    rcases List.mem_cons.mp hn with rfl | hn
    · have hfirst : run eval (n :: nodes) store n = eval store n := by
        rw [run, List.foldl_cons]
        exact (run_of_notMem _ (List.nodup_cons.mp h.nodup).1).trans (Function.update_self ..)
      rw [hfirst]
      apply hlocal
      intro m hm
      obtain ⟨hne, hnot⟩ := h.notMem_of_reads hm
      have hall : m ∉ n :: nodes := fun hmem => (List.mem_cons.mp hmem).elim hne hnot
      exact (run_of_notMem store hall).symm
    · exact ih h.tail _ n hn

end FastTts.Schedules
