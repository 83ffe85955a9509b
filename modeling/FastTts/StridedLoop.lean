import Mathlib.Data.List.Nodup
import Mathlib.Data.List.Perm.Basic
import Mathlib.Data.Nat.ModEq
import Mathlib.Tactic.Ring

/-!
# Loops over lanes with a stride

Every lane of a device takes in each pass of its loop a number of elements that are a stride apart.
The lanes together take each element once.
-/

namespace FastTts.StridedLoop

variable {stride unroll total : ℕ}

def element (stride unroll lane pass component : ℕ) : ℕ :=
  (pass * unroll + component) * stride + lane

variable {lane : ℕ}

theorem element_mod (h : lane < stride) (pass component : ℕ) :
    element stride unroll lane pass component % stride = lane := by
  rw [element, Nat.add_comm, Nat.add_mul_mod_self_right, Nat.mod_eq_of_lt h]

theorem element_div (h : lane < stride) (pass component : ℕ) :
    element stride unroll lane pass component / stride = pass * unroll + component := by
  rw [element, Nat.add_comm, Nat.add_mul_div_right _ _ (Nat.zero_lt_of_lt h), Nat.div_eq_of_lt h,
    Nat.zero_add]

variable {component pass : ℕ}

theorem element_component (h : lane < stride) (hcomponent : component < unroll) (pass : ℕ) :
    element stride unroll lane pass component / stride % unroll = component := by
  rw [element_div h, Nat.add_comm, Nat.add_mul_mod_self_right, Nat.mod_eq_of_lt hcomponent]

theorem element_pass (h : lane < stride) (hcomponent : component < unroll) (pass : ℕ) :
    element stride unroll lane pass component / (unroll * stride) = pass := by
  rw [Nat.mul_comm, ← Nat.div_div_eq_div_mul, element_div h, Nat.add_comm,
    Nat.add_mul_div_right _ _ (Nat.zero_lt_of_lt hcomponent), Nat.div_eq_of_lt hcomponent,
    Nat.zero_add]

theorem element_parts (stride unroll n : ℕ) :
    element stride unroll (n % stride) (n / (unroll * stride)) (n / stride % unroll) = n := by
  rw [element, Nat.mul_comm unroll, ← Nat.div_div_eq_div_mul, Nat.div_add_mod', Nat.div_add_mod']

theorem element_succ (lane pass component : ℕ) :
    element stride unroll lane pass (component + 1) =
      element stride unroll lane pass component + stride := by
  simp only [element]
  ring

theorem element_eq_add (stride unroll lane pass component : ℕ) :
    element stride unroll lane pass component =
      element stride unroll lane pass 0 + component * stride := by
  simp only [element]
  ring

def passElements (stride unroll total lane pass : ℕ) : List ℕ :=
  ((List.range unroll).map (element stride unroll lane pass)).filter (· < total)

def elements (stride unroll total passes : ℕ) : List ℕ :=
  (List.range stride).flatMap fun lane =>
    (List.range passes).flatMap (passElements stride unroll total lane)

theorem mem_passElements {n : ℕ} :
    n ∈ passElements stride unroll total lane pass ↔
      n < total ∧ ∃ component < unroll, element stride unroll lane pass component = n := by
  simp [passElements, and_comm]

theorem passElements_of_le (h : total ≤ element stride unroll lane pass 0) :
    passElements stride unroll total lane pass = [] := by
  refine List.eq_nil_iff_forall_not_mem.mpr fun n hn => ?_
  obtain ⟨hinside, component, -, rfl⟩ := mem_passElements.mp hn
  rw [element_eq_add] at hinside
  omega

theorem passElements_nodup (h : lane < stride) (pass : ℕ) :
    (passElements stride unroll total lane pass).Nodup := by
  refine List.Nodup.filter _ (List.Nodup.map_on ?_ List.nodup_range)
  intro first hfirst second hsecond heq
  rw [← element_component h (List.mem_range.mp hfirst) pass, heq,
    element_component h (List.mem_range.mp hsecond) pass]

theorem elements_nodup (passes : ℕ) : (elements stride unroll total passes).Nodup := by
  refine List.nodup_flatMap.mpr ⟨fun lane hlane => List.nodup_flatMap.mpr ⟨?_, ?_⟩, ?_⟩
  · exact fun pass _ => passElements_nodup (List.mem_range.mp hlane) pass
  · refine List.Pairwise.imp ?_ List.nodup_range
    intro first second hne n hfirst hsecond
    obtain ⟨-, component, hcomponent, rfl⟩ := mem_passElements.mp hfirst
    obtain ⟨-, other, hother, heq⟩ := mem_passElements.mp hsecond
    refine hne ?_
    rw [← element_pass (List.mem_range.mp hlane) hcomponent first, ← heq,
      element_pass (List.mem_range.mp hlane) hother second]
  · refine List.Pairwise.imp_of_mem ?_ List.nodup_range
    intro first second hfirst hsecond hne n hn hn'
    obtain ⟨pass, -, hpass⟩ := List.mem_flatMap.mp hn
    obtain ⟨pass', -, hpass'⟩ := List.mem_flatMap.mp hn'
    obtain ⟨-, component, -, rfl⟩ := mem_passElements.mp hpass
    obtain ⟨-, other, -, heq⟩ := mem_passElements.mp hpass'
    refine hne ?_
    rw [← element_mod (List.mem_range.mp hfirst) pass component, ← heq,
      element_mod (List.mem_range.mp hsecond) pass' other]

theorem elements_perm {passes : ℕ} (hstride : 0 < stride) (hunroll : 0 < unroll)
    (h : total ≤ passes * (unroll * stride)) :
    (elements stride unroll total passes).Perm (List.range total) := by
  refine (List.perm_ext_iff_of_nodup (elements_nodup passes) List.nodup_range).mpr fun n => ?_
  rw [List.mem_range]
  constructor
  · intro hn
    obtain ⟨lane, -, hlane⟩ := List.mem_flatMap.mp hn
    obtain ⟨pass, -, hpass⟩ := List.mem_flatMap.mp hlane
    exact (mem_passElements.mp hpass).1
  · intro hn
    refine List.mem_flatMap.mpr ⟨n % stride, List.mem_range.mpr (Nat.mod_lt _ hstride),
      List.mem_flatMap.mpr ⟨n / (unroll * stride), List.mem_range.mpr ?_, ?_⟩⟩
    · exact Nat.div_lt_of_lt_mul (by rw [Nat.mul_comm]; exact Nat.lt_of_lt_of_le hn h)
    · exact mem_passElements.mpr ⟨hn, _, Nat.mod_lt _ hunroll, element_parts stride unroll n⟩

end FastTts.StridedLoop
