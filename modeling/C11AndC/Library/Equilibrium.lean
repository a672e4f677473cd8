import Mathlib.Data.Int.Init

namespace C11AndC.Library

variable {S T : Type} {f g : S → T → Int} {c v : Int} {s : S} {t : T}

/-- Neither player gains by another strategy of his own. -/
structure Optimal (f g : S → T → Int) (s : S) (t : T) : Prop where
  first : ∀ s', f s' t ≤ f s t
  second : ∀ t', g s t' ≤ g s t

/-- What one player takes the other does not have. If the first one is sure of `v` and the second one can
hold him down to `v`, then that is what he has under optimal play. -/
theorem optimal_of_secure (hc : ∀ s t, f s t + g s t = c) (hs : ∀ t, v ≤ f s t) (ht : ∀ s, f s t ≤ v) :
    Optimal f g s t := by
  have hv : f s t = v := Int.le_antisymm (ht s) (hs t)
  refine ⟨fun s' => hv ▸ ht s', fun t' => ?_⟩
  have h := hs t'
  have hsum := hc s t
  have hsum' := hc s t'
  omega

theorem eq_of_optimal (hc : ∀ s t, f s t + g s t = c) (hs : ∀ t, v ≤ f s t) (ht : ∀ s, f s t ≤ v)
    {s' : S} {t' : T} (h : Optimal f g s' t') : f s' t' = v := by
  have hfirst := h.first s
  have hsecond := h.second t
  have hle := hs t'
  have hge := ht s'
  have hsum := hc s' t
  have hsum' := hc s' t'
  omega

end C11AndC.Library
