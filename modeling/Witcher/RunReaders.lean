import Witcher.Runs

/-! Readers of the labels of a run. A reader has a state of its own, such as a counter or an index. What relates it to
the state of the run before a label relates it to the state after the label, and so at the end of the run. A reader that
goes backwards reads a run of the converse relation. -/

namespace Witcher.Runs

variable {σ ε : Type} {next : σ → Option ε → σ → Prop} {s t u : σ} {labels labels' : List ε}

theorem Emits.append (h : Emits next s labels t) (h' : Emits next t labels' u) : Emits next s (labels ++ labels') u := by
  induction h with
  | refl s => exact h'
  | silent hstep _ ih => exact .silent hstep (ih h')
  | emit hstep _ ih => exact .emit hstep (ih h')

theorem Emits.converse (h : Emits next s labels t) : Emits (fun a label b => next b label a) t labels.reverse s := by
  induction h with
  | refl s => exact .refl s
  | silent hstep _ ih =>
      have hlast := ih.append (.silent hstep (.refl _))
      rwa [List.append_nil] at hlast
  | emit hstep _ ih =>
      rw [List.reverse_cons]
      exact ih.append (.emit hstep (.refl _))

/-- What can only be lost for good, and is not lost at the end, holds before and after every step. -/
theorem Emits.restrict {I Lost : σ → Prop} (hstep : ∀ s label t, I s → next s label t → I t ∨ Lost t)
    (hlost : ∀ s label t, Lost s → next s label t → Lost t) (h : Emits next s labels t) (hs : I s) (hend : ¬Lost t) :
    Emits (fun a label b => next a label b ∧ I a ∧ I b) s labels t := by
  have hkept : ∀ {s labels t}, Emits next s labels t → ¬Lost t → ¬Lost s := by
    intro s labels t h hend hs
    exact hend (h.invariant (Q := fun _ => True) hlost (fun _ _ _ _ _ => trivial) hs).1
  induction h with
  | refl s => exact .refl s
  | silent hnext hrun ih =>
      have hi := (hstep _ _ _ hs hnext).resolve_right (hkept hrun hend)
      exact .silent ⟨hnext, hs, hi⟩ (ih hi hend)
  | emit hnext hrun ih =>
      have hi := (hstep _ _ _ hs hnext).resolve_right (hkept hrun hend)
      exact .emit ⟨hnext, hs, hi⟩ (ih hi hend)

theorem Emits.last_of_restrict {I : σ → Prop} (h : Emits (fun a label b => next a label b ∧ I a ∧ I b) s labels t) (hs : I s) :
    I t :=
  (h.invariant (Q := fun _ => True) (fun _ _ _ _ hstep => hstep.2.2) (fun _ _ _ _ _ => trivial) hs).1

/-- What holds of all labels can be used at every step. -/
theorem Emits.labelled {Q : ε → Prop} (h : Emits next s labels t) (hQ : ∀ x ∈ labels, Q x) :
    Emits (fun a label b => next a label b ∧ ∀ x, label = some x → Q x) s labels t := by
  induction h with
  | refl s => exact .refl s
  | silent hstep _ ih => exact .silent ⟨hstep, fun x hx => nomatch hx⟩ (ih hQ)
  | emit hstep _ ih =>
      obtain ⟨hlabel, hrest⟩ := List.forall_mem_cons.mp hQ
      exact .emit ⟨hstep, fun x hx => Option.some.inj hx ▸ hlabel⟩ (ih hrest)

/-! ### One reader -/

section Reader

variable {κ α ρ : Type} {k : κ} (value : ε → α) (read : κ → Nat → List α → ρ) (Related : κ → σ → Prop)

/-- The reader is given the values of the labels and their positions. After the run it goes on with what follows. -/
theorem Emits.follow (hsilent : ∀ k s t, Related k s → next s none t → Related k t)
    (hread : ∀ k s x t, Related k s → next s (some x) t →
      ∃ k', Related k' t ∧ ∀ i rest, read k i (value x :: rest) = read k' (i + 1) rest)
    (h : Emits next s labels t) (hs : Related k s) :
    ∃ k', Related k' t ∧ ∀ i rest, read k i (labels.map value ++ rest) = read k' (i + labels.length) rest := by
  induction h generalizing k with
  | refl s => exact ⟨k, hs, fun _ _ => rfl⟩
  | silent hstep _ ih => exact ih (hsilent _ _ _ hs hstep)
  | emit hstep _ ih =>
      obtain ⟨k', hk', hfirst⟩ := hread _ _ _ _ hs hstep
      obtain ⟨k'', hk'', hrest⟩ := ih hk'
      refine ⟨k'', hk'', fun i rest => (hfirst i _).trans ((hrest (i + 1) rest).trans ?_)⟩
      rw [List.length_cons, Nat.add_assoc, Nat.add_comm 1]

end Reader

/-! ### Labels of several runs -/

/-- The run of one party among labels that are not its own. -/
def Among (own : ε → Bool) (next : σ → Option ε → σ → Prop) (a : σ) (label : Option ε) (b : σ) : Prop :=
  next a label b ∨ ∃ x, label = some x ∧ own x = false ∧ b = a

variable {own : ε → Bool}

theorem Emits.foreign (hforeign : ∀ x ∈ labels', own x = false) (h : Emits (Among own next) s labels t) :
    Emits (Among own next) s (labels' ++ labels) t := by
  induction labels' with
  | nil => exact h
  | cons x labels' ih =>
      have hx := hforeign x List.mem_cons_self
      exact .emit (.inr ⟨x, rfl, hx, rfl⟩) (ih fun y hy => hforeign y (List.mem_cons_of_mem x hy))

theorem Emits.among (h : Emits next s (labels.filter own) t) : Emits (Among own next) s labels t := by
  generalize hown : labels.filter own = filtered at h
  induction h generalizing labels with
  | refl s =>
      have hforeign := List.filter_eq_nil_iff.mp hown
      have hrefl : Emits (Among own next) s [] s := .refl s
      have hidle := hrefl.foreign fun x hx => eq_false_of_ne_true (hforeign x hx)
      rwa [List.append_nil] at hidle
  | silent hstep _ ih => exact .silent (.inl hstep) (ih hown)
  | emit hstep _ ih =>
      obtain ⟨front, back, rfl, hforeign, -, hback⟩ := List.filter_eq_cons_iff.mp hown
      exact (Emits.emit (.inl hstep) (ih hback)).foreign fun x hx => eq_false_of_ne_true (hforeign x hx)

end Witcher.Runs
