import Mathlib.Data.List.Basic

/-! Runs of a partial step function whose steps all meet a condition on the state before the step. What
such steps preserve holds of every state reached. Then the runs of a relation some of whose steps have a label. -/

namespace Witcher.Runs

variable {σ α : Type} {step : σ → α → Option σ} {cond : σ → α → Prop} {s t : σ}

inductive Run (step : σ → α → Option σ) (cond : σ → α → Prop) (s : σ) : σ → Prop
  | refl : Run step cond s s
  | step {t u : σ} (a : α) : Run step cond s t → cond t a → step t a = some u → Run step cond s u

theorem Run.invariant {I : σ → Prop} (hinit : I s) (hstep : ∀ t a u, I t → cond t a → step t a = some u → I u)
    (h : Run step cond s t) : I t := by
  induction h with
  | refl => exact hinit
  | step a _ hcond hnext ih => exact hstep _ a _ ih hcond hnext

/-- The state after the given actions, if each of them can be taken and meets the condition. -/
def runActions (step : σ → α → Option σ) (cond : σ → α → Prop) [∀ s a, Decidable (cond s a)] (s : σ) (actions : List α) :
    Option σ :=
  actions.foldlM (fun s a => if cond s a then step s a else none) s

theorem Run.of_runActions [∀ s a, Decidable (cond s a)] {actions : List α}
    (h : runActions step cond s actions = some t) : Run step cond s t := by
  suffices hrun : ∀ (actions : List α) (u : σ), Run step cond s u → runActions step cond u actions = some t →
      Run step cond s t from hrun actions s .refl h
  intro actions
  induction actions with
  | nil =>
      intro u hu ht
      cases ht
      exact hu
  | cons a actions ih =>
      intro u hu ht
      rw [runActions, List.foldlM_cons, Option.bind_eq_bind, Option.bind_eq_some_iff] at ht
      obtain ⟨v, hv, ht⟩ := ht
      split_ifs at hv with hcond
      exact ih v (hu.step a hcond hv) ht

/-! ### Labels -/

section Labels

variable {ε : Type} {next : σ → Option ε → σ → Prop} {u : σ} {label : ε} {labels before rest : List ε}

/-- The labels of the steps from a state to another. -/
inductive Emits (next : σ → Option ε → σ → Prop) : σ → List ε → σ → Prop
  | refl (s : σ) : Emits next s [] s
  | silent {s t u : σ} {labels : List ε} (hstep : next s none t) (hrun : Emits next t labels u) : Emits next s labels u
  | emit {s t u : σ} {label : ε} {labels : List ε} (hstep : next s (some label) t) (hrun : Emits next t labels u) :
      Emits next s (label :: labels) u

/-- What every step preserves holds at the end, and what it gives of a label holds of all labels. -/
theorem Emits.invariant {I : σ → Prop} {Q : ε → Prop} (hstep : ∀ s l t, I s → next s l t → I t)
    (hlabel : ∀ s label t, I s → next s (some label) t → Q label) (h : Emits next s labels t) (hinit : I s) :
    I t ∧ ∀ label ∈ labels, Q label := by
  induction h with
  | refl s => exact ⟨hinit, fun label hmem => nomatch hmem⟩
  | silent hnext _ ih => exact ih (hstep _ _ _ hinit hnext)
  | emit hnext _ ih =>
      obtain ⟨hlast, hrest⟩ := ih (hstep _ _ _ hinit hnext)
      exact ⟨hlast, List.forall_mem_cons.mpr ⟨hlabel _ _ _ hinit hnext, hrest⟩⟩

/-- The step of one of the labels, between the runs before and after it. -/
theorem Emits.split (h : Emits next s (before ++ label :: rest) u) :
    ∃ t v, Emits next s before t ∧ next t (some label) v ∧ Emits next v rest u := by
  generalize hlabels : before ++ label :: rest = labels at h
  induction h generalizing before with
  | refl s => cases before <;> cases hlabels
  | silent hnext _ ih =>
      obtain ⟨t, v, hbefore, hlabel, hrest⟩ := ih hlabels
      exact ⟨t, v, .silent hnext hbefore, hlabel, hrest⟩
  | emit hnext hrun ih =>
      cases before with
      | nil =>
          cases hlabels
          exact ⟨_, _, .refl _, hnext, hrun⟩
      | cons first before =>
          rw [List.cons_append, List.cons.injEq] at hlabels
          obtain ⟨rfl, hlabels⟩ := hlabels
          obtain ⟨t, v, hbefore, hlabel, hrest⟩ := ih hlabels
          exact ⟨t, v, .emit hnext hbefore, hlabel, hrest⟩

end Labels

end Witcher.Runs
