import Mathlib.Data.List.Pairwise
import Mathlib.Order.Basic

/-!
# Sessions in a stream of events

Some events of a stream open a session, some close one and some speak for one; each does so by an
id. In an orderly stream the ids of the sessions increase, each session is closed at most once and
before the next one opens, and no event speaks for a closed session.
-/

namespace FastTts

variable {ε ι : Type*}

structure SessionKind (ε ι : Type*) where
  opens : ε → Option ι
  closes : ε → Option ι
  speaks : ε → Option ι

/-- An orderly stream with the sessions that are open at its end. -/
structure Orderly [LT ι] (k : SessionKind ε ι) (es : List ε) (opened : List ι) : Prop where
  increasing : (es.filterMap k.opens).Pairwise (· < ·)
  closed : es.filterMap k.opens = es.filterMap k.closes ++ opened
  quiet : es.Pairwise fun e e' => ∀ u, k.closes e = some u → k.speaks e' ≠ some u

namespace Orderly

variable [Preorder ι] {k : SessionKind ε ι} {es : List ε} {opened : List ι} {e : ε} {u : ι}

theorem nil (k : SessionKind ε ι) : Orderly k [] [] := ⟨.nil, rfl, .nil⟩

theorem quiet_append (h : Orderly k es opened)
    (he : ∀ u ∈ es.filterMap k.closes, k.speaks e ≠ some u) :
    (es ++ [e]).Pairwise fun e e' => ∀ u, k.closes e = some u → k.speaks e' ≠ some u := by
  rw [List.pairwise_append]
  refine ⟨h.quiet, List.pairwise_singleton _ _, ?_⟩
  intro c hc e' he' u hcu
  rw [List.mem_singleton.mp he']
  exact he u (List.mem_filterMap.mpr ⟨c, hc, hcu⟩)

theorem silent (h : Orderly k es opened) (ho : k.opens e = none) (hc : k.closes e = none)
    (hs : k.speaks e = none) : Orderly k (es ++ [e]) opened := by
  refine ⟨?_, ?_, h.quiet_append (by simp [hs])⟩
  · simpa [ho] using h.increasing
  · simpa [ho, hc] using h.closed

theorem opening (h : Orderly k es []) (ho : k.opens e = some u) (hc : k.closes e = none)
    (hs : k.speaks e = none) (hnew : ∀ v ∈ es.filterMap k.opens, v < u) :
    Orderly k (es ++ [e]) [u] := by
  refine ⟨?_, ?_, h.quiet_append (by simp [hs])⟩
  · rw [List.filterMap_append, List.pairwise_append]
    refine ⟨h.increasing, by simp [ho], ?_⟩
    intro v hv w hw
    obtain rfl : w = u := by simpa [ho] using hw
    exact hnew v hv
  · have hclosed := h.closed
    rw [List.append_nil] at hclosed
    simp [ho, hc, hclosed]

theorem closing (h : Orderly k es [u]) (ho : k.opens e = none) (hc : k.closes e = some u)
    (hs : k.speaks e = none) : Orderly k (es ++ [e]) [] := by
  refine ⟨?_, ?_, h.quiet_append (by simp [hs])⟩
  · simpa [ho] using h.increasing
  · simpa [ho, hc] using h.closed

theorem notMem_closes (h : Orderly k es [u]) : u ∉ es.filterMap k.closes := by
  have hinc := h.increasing
  rw [h.closed, List.pairwise_append] at hinc
  intro hu
  exact lt_irrefl u (hinc.2.2 u hu u (List.mem_singleton_self u))

theorem speaking (h : Orderly k es [u]) (ho : k.opens e = none) (hc : k.closes e = none)
    (hs : k.speaks e = some u) : Orderly k (es ++ [e]) [u] := by
  refine ⟨?_, ?_, h.quiet_append ?_⟩
  · simpa [ho] using h.increasing
  · simpa [ho, hc] using h.closed
  · intro v hv hvu
    rw [hs] at hvu
    exact h.notMem_closes (Option.some.inj hvu ▸ hv)

end Orderly

end FastTts
