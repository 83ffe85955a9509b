import Mathlib.Data.List.Basic
import Mathlib.Algebra.Order.Group.Nat

/-!
# Longest chains

A chain of a sequence is a choice of indices at which the values do not fall. For every index the
search keeps the length of a longest chain that ends there, and the index before the last; a longest
chain of all is read off these links from its end.
-/

namespace FastTts.LongestChain

variable {α : Type} [LinearOrder α] (value : ℕ → α)

structure Link where
  length : ℕ
  parent : Option ℕ
  deriving DecidableEq, Repr

/-- A chain, from its last index on. -/
def Descends (indices : List ℕ) : Prop := indices.Pairwise fun i j => j < i ∧ value j ≤ value i

def extend (i : ℕ) (best : Link) (earlier : Link × ℕ) : Link :=
  if value earlier.2 ≤ value i ∧ best.length < earlier.1.length + 1 then
    ⟨earlier.1.length + 1, some earlier.2⟩
  else best

def appendLink (links : List Link) : List Link :=
  links ++ [links.zipIdx.foldl (extend value links.length) ⟨1, none⟩]

def links : ℕ → List Link
  | 0 => []
  | n + 1 => appendLink value (links n)

/-- The chain that the links give from an index on; the fuel bounds its length. -/
def walk (links : List Link) : ℕ → ℕ → List ℕ
  | 0, _ => []
  | fuel + 1, index =>
    match links[index]? with
    | none => []
    | some link =>
      match link.parent with
      | none => [index]
      | some j => index :: walk links fuel j

/-- The first of the greatest lengths is where the chain ends. -/
def lastIndex (links : List Link) : ℕ :=
  links.findIdx fun link => links.all fun other => other.length ≤ link.length

def longest (n : ℕ) : List ℕ := walk (links value n) n (lastIndex (links value n))

/-! ## Links -/

theorem foldl_extend (i : ℕ) (earlier : List (Link × ℕ)) (best : Link) :
    best.length ≤ (earlier.foldl (extend value i) best).length ∧
      (∀ entry ∈ earlier, value entry.2 ≤ value i →
        entry.1.length + 1 ≤ (earlier.foldl (extend value i) best).length) ∧
      (earlier.foldl (extend value i) best = best ∨ ∃ entry ∈ earlier, value entry.2 ≤ value i ∧
        earlier.foldl (extend value i) best = ⟨entry.1.length + 1, some entry.2⟩) := by
  induction earlier generalizing best with
  | nil => simp
  | cons entry earlier ih =>
      obtain ⟨hbest, hall, hfrom⟩ := ih (extend value i best entry)
      rw [List.foldl_cons]
      have hstep : best.length ≤ (extend value i best entry).length ∧
          (value entry.2 ≤ value i → entry.1.length + 1 ≤ (extend value i best entry).length) := by
        unfold extend
        split_ifs with h
        · exact ⟨h.2.le, fun _ => le_rfl⟩
        · exact ⟨le_rfl, fun hvalue => by
            by_contra hlt
            exact h ⟨hvalue, by omega⟩⟩
      refine ⟨hstep.1.trans hbest, ?_, ?_⟩
      · intro other hother hvalue
        obtain rfl | hother := List.mem_cons.mp hother
        · exact (hstep.2 hvalue).trans hbest
        · exact hall other hother hvalue
      · obtain hsame | ⟨other, hother, hvalue, heq⟩ := hfrom
        · rw [hsame]
          by_cases h : value entry.2 ≤ value i ∧ best.length < entry.1.length + 1
          · exact .inr ⟨entry, List.mem_cons_self, h.1, if_pos h⟩
          · exact .inl (if_neg h)
        · exact .inr ⟨other, List.mem_cons_of_mem _ hother, hvalue, heq⟩

/-- A link has the length of a longest chain that ends at its index, and leads to the chain of its
parent. -/
structure Linked (links : List Link) (i : ℕ) (link : Link) : Prop where
  bounds : ∀ indices, Descends value (i :: indices) → (i :: indices).length ≤ link.length
  reached : link = ⟨1, none⟩ ∨ ∃ j < i, ∃ earlier, links[j]? = some earlier ∧
    value j ≤ value i ∧ link = ⟨earlier.length + 1, some j⟩

variable {i n : ℕ} {link : Link}

theorem Linked.mono {links more : List Link} (h : Linked value links i link) :
    Linked value (links ++ more) i link := by
  refine ⟨h.bounds, h.reached.imp_right ?_⟩
  rintro ⟨j, hj, earlier, hearlier, rest⟩
  exact ⟨j, hj, earlier, by rw [List.getElem?_append_left (List.getElem?_eq_some_iff.mp hearlier).1,
    hearlier], rest⟩

variable {indices : List ℕ}

variable {value} in
theorem Descends.tail_of_cons {j : ℕ} (h : Descends value (i :: j :: indices)) :
    j < i ∧ value j ≤ value i ∧ Descends value (j :: indices) := by
  obtain ⟨hhead, htail⟩ := List.pairwise_cons.mp h
  obtain ⟨hlt, hvalue⟩ := hhead j List.mem_cons_self
  exact ⟨hlt, hvalue, htail⟩

theorem linked_appendLink {links : List Link}
    (h : ∀ i link, links[i]? = some link → Linked value links i link)
    (hlink : (appendLink value links)[i]? = some link) :
    Linked value (appendLink value links) i link := by
  obtain hi | hi := Nat.lt_or_ge i links.length
  · rw [appendLink, List.getElem?_append_left hi] at hlink
    exact (h i link hlink).mono
  have hlast : i = links.length := by
    have hlength := (List.getElem?_eq_some_iff.mp hlink).1
    rw [appendLink, List.length_append, List.length_singleton] at hlength
    omega
  subst hlast
  rw [appendLink, List.getElem?_concat_length, Option.some_inj] at hlink
  obtain ⟨hone, hall, hfrom⟩ := foldl_extend value links.length links.zipIdx ⟨1, none⟩
  rw [hlink] at hone hall hfrom
  refine Linked.mono value ⟨?_, ?_⟩
  · intro indices hindices
    cases indices with
    | nil => exact hone
    | cons j indices =>
        obtain ⟨hlt, hvalue, htail⟩ := hindices.tail_of_cons
        have hbound := (h j _ (List.getElem?_eq_getElem hlt)).bounds indices htail
        have hmem := List.mk_mem_zipIdx_iff_getElem?.mpr (List.getElem?_eq_getElem hlt)
        exact (Nat.add_le_add_right hbound 1).trans (hall _ hmem hvalue)
  · refine hfrom.imp_right ?_
    rintro ⟨⟨earlier, j⟩, hmem, hvalue, rfl⟩
    have hj := List.mk_mem_zipIdx_iff_getElem?.mp hmem
    exact ⟨j, (List.getElem?_eq_some_iff.mp hj).1, earlier, hj, hvalue, rfl⟩

theorem length_links (n : ℕ) : (links value n).length = n := by
  induction n with
  | zero => rfl
  | succ n ih => rw [links, appendLink, List.length_append, List.length_singleton, ih]

theorem linked_links (n : ℕ) (h : (links value n)[i]? = some link) :
    Linked value (links value n) i link := by
  induction n generalizing i link with
  | zero => simp [links] at h
  | succ n ih => exact linked_appendLink value (fun _ _ => ih) h

/-! ## Walks -/

theorem walk_spec {links : List Link}
    (h : ∀ i link, links[i]? = some link → Linked value links i link) {fuel : ℕ} (hfuel : i < fuel)
    (hlink : links[i]? = some link) :
    ∃ indices, walk links fuel i = i :: indices ∧ Descends value (i :: indices) ∧
      (i :: indices).length = link.length := by
  induction fuel generalizing i link with
  | zero => omega
  | succ fuel ih =>
      unfold walk
      rw [hlink]
      obtain rfl | ⟨j, hj, earlier, hearlier, hvalue, rfl⟩ := (h i link hlink).reached
      · exact ⟨[], rfl, List.pairwise_singleton _ _, rfl⟩
      obtain ⟨indices, hwalk, hdescends, hlength⟩ := ih (by omega) hearlier
      refine ⟨j :: indices, congrArg _ hwalk, ?_, congrArg (· + 1) hlength⟩
      refine List.pairwise_cons.mpr ⟨?_, hdescends⟩
      intro k hk
      obtain rfl | hk := List.mem_cons.mp hk
      · exact ⟨hj, hvalue⟩
      · have hbelow := (List.pairwise_cons.mp hdescends).1 k hk
        exact ⟨by omega, hbelow.2.trans hvalue⟩

theorem exists_greatest {links : List Link} (h : links ≠ []) :
    ∃ link ∈ links, ∀ other ∈ links, other.length ≤ link.length := by
  induction links with
  | nil => exact absurd rfl h
  | cons first links ih =>
      by_cases hrest : links = []
      · exact ⟨first, List.mem_cons_self, by simp [hrest]⟩
      obtain ⟨link, hlink, hgreatest⟩ := ih hrest
      obtain hlt | hle := Nat.lt_or_ge link.length first.length
      · exact ⟨first, List.mem_cons_self, List.forall_mem_cons.mpr
          ⟨le_rfl, fun other hother => (hgreatest other hother).trans hlt.le⟩⟩
      · exact ⟨link, List.mem_cons_of_mem _ hlink, List.forall_mem_cons.mpr ⟨hle, hgreatest⟩⟩

theorem lastIndex_spec {links : List Link} (h : links ≠ []) :
    ∃ link, links[lastIndex links]? = some link ∧ ∀ other ∈ links, other.length ≤ link.length := by
  obtain ⟨link, hlink, hgreatest⟩ := exists_greatest h
  have hlt : lastIndex links < links.length := List.findIdx_lt_length_of_exists
    ⟨link, hlink, by simpa using hgreatest⟩
  have hall := List.all_eq_true.mp (List.findIdx_getElem (w := hlt))
  exact ⟨_, List.getElem?_eq_getElem hlt, fun other hother => of_decide_eq_true (hall other hother)⟩

theorem longest_spec (hn : 0 < n) :
    ∃ link : Link, (∀ other ∈ links value n, other.length ≤ link.length) ∧
      Descends value (longest value n) ∧ (longest value n).length = link.length ∧
      ∀ i ∈ longest value n, i < n := by
  have hlength := length_links value n
  have hne : links value n ≠ [] := by
    rintro hnil
    rw [hnil, List.length_nil] at hlength
    omega
  obtain ⟨link, hlink, hgreatest⟩ := lastIndex_spec hne
  have hlast : lastIndex (links value n) < n :=
    (List.getElem?_eq_some_iff.mp hlink).1.trans_eq hlength
  obtain ⟨indices, hwalk, hdescends, heq⟩ :=
    walk_spec value (fun _ _ => linked_links value n) hlast hlink
  rw [longest, hwalk]
  refine ⟨link, hgreatest, hdescends, heq, ?_⟩
  intro i hi
  obtain rfl | hi := List.mem_cons.mp hi
  · exact hlast
  · have hbelow := (List.pairwise_cons.mp hdescends).1 i hi
    omega

/-! ## Longest chains -/

theorem descends_longest (n : ℕ) : Descends value (longest value n) := by
  obtain rfl | hn := n.eq_zero_or_pos
  · exact List.Pairwise.nil
  · obtain ⟨_, _, h, _⟩ := longest_spec value hn
    exact h

theorem lt_of_mem_longest (h : i ∈ longest value n) : i < n := by
  obtain rfl | hn := n.eq_zero_or_pos
  · exact absurd h List.not_mem_nil
  · obtain ⟨_, _, _, _, hlt⟩ := longest_spec value hn
    exact hlt i h

theorem length_le_longest (h : Descends value indices) (hlt : ∀ i ∈ indices, i < n) :
    indices.length ≤ (longest value n).length := by
  cases indices with
  | nil => exact Nat.zero_le _
  | cons i indices =>
      have hi := hlt i List.mem_cons_self
      obtain ⟨link, hgreatest, _, heq, _⟩ := longest_spec value (by omega : 0 < n)
      have hlength : i < (links value n).length := by rwa [length_links]
      have hbound := (linked_links value n (List.getElem?_eq_getElem hlength)).bounds indices h
      rw [heq]
      exact hbound.trans (hgreatest _ (List.getElem_mem hlength))

end FastTts.LongestChain
