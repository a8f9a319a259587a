import Mathlib.Logic.Relation

/-! Graph search. A search that visits only what it can reach, and that ends with a set in which every step
from a visited vertex stays, has visited exactly what can be reached. -/

namespace Witcher.Search

open Relation

variable {α : Type} {step : α → α → Prop} {start : α} {visited : α → Prop}

theorem visited_iff_reachable (hstart : visited start) (hsound : ∀ w, visited w → ReflTransGen step start w)
    (hclosed : ∀ w u, visited w → step w u → visited u) (w : α) : visited w ↔ ReflTransGen step start w := by
  constructor
  · exact hsound w
  · intro h
    induction h with
    | refl => exact hstart
    | tail _ hstep ih => exact hclosed _ _ ih hstep

end Witcher.Search
