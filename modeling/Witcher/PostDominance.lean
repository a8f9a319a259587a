import Mathlib.Data.List.Basic

/-! Post-dominance in a control flow graph. A block post-dominates another if every path from there to an
exit goes through it; the post-dominance frontier of a block holds the blocks that decide whether it is
reached. -/

namespace Witcher

/-- A function: its blocks in the order of their layout, the entry first, and where control goes from each
block. The exits are the roots of the post-dominator tree. -/
structure FlowGraph (β : Type) where
  entry : β
  others : List β
  succs : β → List β
  exits : List β

namespace FlowGraph

variable {β : Type} (F : FlowGraph β)

def blocks : List β := F.entry :: F.others

/-- The last block of the layout. -/
def last : β := F.blocks.getLast (List.cons_ne_nil _ _)

/-- A path from `a` to an exit that avoids `b`. -/
inductive Escapes (b : β) : β → Prop
  | exit {a : β} : a ≠ b → a ∈ F.exits → Escapes b a
  | step {a c : β} : a ≠ b → c ∈ F.succs a → Escapes b c → Escapes b a

def PostDominates (b a : β) : Prop := ¬F.Escapes b a

def ProperlyPostDominates (b a : β) : Prop := b ≠ a ∧ F.PostDominates b a

/-- `a` is in the post-dominance frontier of `b`: from `a` control can go where `b` cannot be avoided, and it
can go elsewhere. -/
def InFrontier (b a : β) : Prop :=
  a ∈ F.blocks ∧ (∃ c ∈ F.succs a, F.PostDominates b c) ∧ ¬F.ProperlyPostDominates b a

variable {F}

theorem escapes_iff {b a : β} : F.Escapes b a ↔ a ≠ b ∧ (a ∈ F.exits ∨ ∃ c ∈ F.succs a, F.Escapes b c) := by
  constructor
  · intro h
    cases h with
    | exit hne hexit => exact ⟨hne, .inl hexit⟩
    | step hne hc hrest => exact ⟨hne, .inr ⟨_, hc, hrest⟩⟩
  · rintro ⟨hne, hexit | ⟨c, hc, hrest⟩⟩
    · exact .exit hne hexit
    · exact .step hne hc hrest

end FlowGraph

end Witcher
