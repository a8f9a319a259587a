import Mathlib.Data.List.Basic

/-! Worklists whose items are normalised when they are taken. An item whose normal form was done before is skipped, another one
is done and its dependences are added. Both relations may leave a choice, since what they depend on may change from step to
step. -/

namespace Witcher.Worklists

variable {α : Type}

structure State (α : Type) where
  work : List α
  done : List α

variable {Norm : α → α → Prop} {Deps : α → List α → Prop} {initial x n e d : α} {s t : State α}

inductive Step (Norm : α → α → Prop) (Deps : α → List α → Prop) : State α → State α → Prop
  | skip {x n : α} {rest done : List α} (hnorm : Norm x n) (hmem : n ∈ done) : Step Norm Deps ⟨x :: rest, done⟩ ⟨rest, done⟩
  | process {x n : α} {rest done new : List α} (hnorm : Norm x n) (hnew : n ∉ done) (hdeps : Deps n new) :
      Step Norm Deps ⟨x :: rest, done⟩ ⟨new ++ rest, n :: done⟩

/-- What the initial item leads to. -/
inductive Demanded (Norm : α → α → Prop) (Deps : α → List α → Prop) (initial : α) : α → Prop
  | initial : Demanded Norm Deps initial initial
  | dep {x n e : α} {new : List α} (h : Demanded Norm Deps initial x) (hnorm : Norm x n) (hdeps : Deps n new) (hmem : e ∈ new) :
      Demanded Norm Deps initial e

/-- The item waits, or a normal form of it is done. -/
def Handled (Norm : α → α → Prop) (s : State α) (e : α) : Prop := e ∈ s.work ∨ ∃ n, Norm e n ∧ n ∈ s.done

theorem Step.handled (h : Step Norm Deps s t) (he : Handled Norm s e) : Handled Norm t e := by
  cases h with
  | skip hnorm hmem =>
      rcases he with hwork | hdone
      · rcases List.mem_cons.mp hwork with rfl | hrest
        · exact .inr ⟨_, hnorm, hmem⟩
        · exact .inl hrest
      · exact .inr hdone
  | process hnorm hnew hdeps =>
      rcases he with hwork | ⟨m, hm, hdone⟩
      · rcases List.mem_cons.mp hwork with rfl | hrest
        · exact .inr ⟨_, hnorm, List.mem_cons_self⟩
        · exact .inl (List.mem_append_right _ hrest)
      · exact .inr ⟨m, hm, List.mem_cons_of_mem _ hdone⟩

/-- The initial item is handled and so are the dependences of what is done; nothing else is done, and nothing twice. -/
structure Inv (Norm : α → α → Prop) (Deps : α → List α → Prop) (initial : α) (s : State α) : Prop where
  handled : Handled Norm s initial
  closed : ∀ d ∈ s.done, ∃ new, Deps d new ∧ ∀ e ∈ new, Handled Norm s e
  waiting : ∀ x ∈ s.work, Demanded Norm Deps initial x
  sound : ∀ d ∈ s.done, ∃ x, Demanded Norm Deps initial x ∧ Norm x d
  nodup : s.done.Nodup

theorem inv_initial : Inv Norm Deps initial ⟨[initial], []⟩ where
  handled := .inl List.mem_cons_self
  closed := fun _ hmem => nomatch hmem
  waiting := List.forall_mem_singleton.mpr .initial
  sound := fun _ hmem => nomatch hmem
  nodup := List.nodup_nil

theorem Step.inv (hstep : Step Norm Deps s t) (h : Inv Norm Deps initial s) : Inv Norm Deps initial t := by
  have hhandled := hstep.handled h.handled
  have hclosed : ∀ d ∈ s.done, ∃ new, Deps d new ∧ ∀ e ∈ new, Handled Norm t e := fun d hd =>
    (h.closed d hd).imp fun _ hnew => ⟨hnew.1, fun e he => hstep.handled (hnew.2 e he)⟩
  cases hstep with
  | skip hnorm hmem => exact ⟨hhandled, hclosed, (List.forall_mem_cons.mp h.waiting).2, h.sound, h.nodup⟩
  | process hnorm hnew hdeps =>
      obtain ⟨hx, hrest⟩ := List.forall_mem_cons.mp h.waiting
      refine ⟨hhandled, List.forall_mem_cons.mpr ⟨?_, hclosed⟩, List.forall_mem_append.mpr ⟨?_, hrest⟩,
        List.forall_mem_cons.mpr ⟨⟨_, hx, hnorm⟩, h.sound⟩, List.nodup_cons.mpr ⟨hnew, h.nodup⟩⟩
      · exact ⟨_, hdeps, fun e he => .inl (List.mem_append_left _ he)⟩
      · exact fun e he => hx.dep hnorm hdeps he

/-- What holds of the initial item and is passed on holds of everything demanded. -/
theorem Demanded.invariant {C : α → Prop} (hinitial : C initial) (hnorm : ∀ x n, C x → Norm x n → C n)
    (hdeps : ∀ n new, C n → Deps n new → ∀ e ∈ new, C e) (h : Demanded Norm Deps initial x) : C x := by
  induction h with
  | initial => exact hinitial
  | dep _ hx hnew hmem ih => exact hdeps _ _ (hnorm _ _ ih hx) hnew _ hmem

end Witcher.Worklists
