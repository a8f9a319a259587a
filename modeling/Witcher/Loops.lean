import Mathlib.Data.List.Basic

/-! Fallible loops. A `for` loop whose body may raise is a monadic fold in `Except`. The rule below
proves at once that no iteration raises and that an invariant on the part already traversed is
kept. -/

namespace Witcher.Loops

variable {ε α β σ : Type}

theorem bind_ok {x : Except ε α} {f : α → Except ε β} {b : β} (h : x >>= f = .ok b) :
    ∃ a, x = .ok a ∧ f a = .ok b := by
  cases x with
  | error e => cases h
  | ok a => exact ⟨a, rfl, h⟩

@[simp] theorem ok_bind (a : α) (f : α → Except ε β) : (Except.ok a >>= f) = f a := rfl

@[simp] theorem bind_ok_right (x : Except ε α) : (x >>= fun a => .ok a) = x := by
  cases x <;> rfl

@[simp] theorem foldlM_nil (body : σ → α → Except ε σ) (s : σ) : [].foldlM body s = .ok s := rfl

theorem foldlM_cons_ok {body : σ → α → Except ε σ} {a : α} {l : List α} {s t : σ}
    (h : body s a = .ok t) : (a :: l).foldlM body s = l.foldlM body t := by
  rw [List.foldlM_cons, h]
  rfl

theorem foldlM_append_ok {body : σ → α → Except ε σ} {front back : List α} {s t : σ}
    (h : front.foldlM body s = .ok t) : (front ++ back).foldlM body s = back.foldlM body t := by
  rw [List.foldlM_append, h]
  rfl

/-- A loop in a loop is one loop. -/
theorem foldlM_flatten (body : σ → α → Except ε σ) (ls : List (List α)) (s : σ) :
    ls.foldlM (fun s l => l.foldlM body s) s = ls.flatten.foldlM body s := by
  induction ls generalizing s with
  | nil => rfl
  | cons l ls ih =>
      rw [List.foldlM_cons, List.flatten_cons, List.foldlM_append]
      cases l.foldlM body s with
      | error e => rfl
      | ok s' => exact ih s'

/-- A loop runs to its end and keeps the invariant, if each iteration does: `motive` sees the
elements already traversed. -/
theorem foldlM_induction {body : σ → α → Except ε σ} {motive : List α → σ → Prop} (l : List α) (s : σ)
    (hinit : motive [] s)
    (hstep : ∀ (done : List α) (a : α) (rest : List α) (t : σ), l = done ++ a :: rest → motive done t →
      ∃ t', body t a = .ok t' ∧ motive (done ++ [a]) t') :
    ∃ t, l.foldlM body s = .ok t ∧ motive l t := by
  suffices h : ∀ (rest done : List α) (t : σ), l = done ++ rest → motive done t →
      ∃ t', rest.foldlM body t = .ok t' ∧ motive l t' from h l [] s rfl hinit
  intro rest
  induction rest with
  | nil =>
      intro done t hl ht
      rw [hl, List.append_nil]
      exact ⟨t, rfl, ht⟩
  | cons a rest ih =>
      intro done t hl ht
      obtain ⟨t', hbody, ht'⟩ := hstep done a rest t hl ht
      rw [foldlM_cons_ok hbody]
      exact ih (done ++ [a]) t' (by simp [hl]) ht'

/-- What every iteration that does not raise keeps, a loop that does not raise keeps: `motive` sees the elements
already traversed. -/
theorem foldlM_ok_induction {body : σ → α → Except ε σ} {motive : List α → σ → Prop} {l : List α} {s t : σ}
    (h : l.foldlM body s = .ok t) (hinit : motive [] s)
    (hstep : ∀ (done : List α) (a : α) (rest : List α) (s s' : σ), l = done ++ a :: rest → motive done s → body s a = .ok s' →
      motive (done ++ [a]) s') : motive l t := by
  suffices hloop : ∀ (rest done : List α) (s : σ), l = done ++ rest → motive done s → rest.foldlM body s = .ok t →
    motive l t from
    hloop l [] s rfl hinit h
  intro rest
  induction rest with
  | nil =>
      intro done s hl hs hrun
      cases hrun
      rw [hl, List.append_nil]
      exact hs
  | cons a rest ih =>
      intro done s hl hs hrun
      rw [List.foldlM_cons] at hrun
      obtain ⟨s', hbody, hrest⟩ := bind_ok hrun
      exact ih (done ++ [a]) s' (by simp [hl]) (hstep done a rest s s' hl hs hbody) hrest

theorem foldlM_invariant {body : σ → α → Except ε σ} {P : σ → Prop} {l : List α} {s t : σ}
    (hstep : ∀ s, ∀ a ∈ l, ∀ s', P s → body s a = .ok s' → P s') (hinit : P s) (h : l.foldlM body s = .ok t) : P t :=
  foldlM_ok_induction (motive := fun _ => P) h hinit fun _ a _ s s' hl => hstep s a (by simp [hl]) s'

/-- A loop whose iterations add to what the state describes: each adds its own part, and the loop adds the parts in
their order. -/
theorem foldlM_flatMap {γ : Type} {body : σ → α → Except ε σ} {P : List γ → σ → Prop} {g : α → List γ} {l : List α}
    (hstep : ∀ a ∈ l, ∀ seen s, P seen s → ∃ t, body s a = .ok t ∧ P (seen ++ g a) t) {seen : List γ} {s : σ}
    (hinit : P seen s) : ∃ t, l.foldlM body s = .ok t ∧ P (seen ++ l.flatMap g) t := by
  refine foldlM_induction (motive := fun done t => P (seen ++ done.flatMap g) t) l s (by simpa using hinit) ?_
  intro done a rest t hl ht
  have hmem : a ∈ l := by simp [hl]
  obtain ⟨t', hbody, ht'⟩ := hstep a hmem _ t ht
  refine ⟨t', hbody, ?_⟩
  rw [List.flatMap_append, List.flatMap_singleton, ← List.append_assoc]
  exact ht'

/-- A loop none of whose iterations changes the state. -/
theorem foldlM_skip {body : σ → α → Except ε σ} {l : List α} {s : σ} (h : ∀ a ∈ l, body s a = .ok s) :
    l.foldlM body s = .ok s := by
  induction l with
  | nil => rfl
  | cons a l ih =>
      rw [foldlM_cons_ok (h a List.mem_cons_self)]
      exact ih fun b hb => h b (List.mem_cons_of_mem a hb)

/-! ### Two loops -/

section Agree

variable {ε' σ' α' β' : Type} {R : σ → σ' → Prop} {e : ε} {e' : ε'}

/-- Both computations succeed with related results, or they raise the two errors. -/
def Agree (R : σ → σ' → Prop) (e : ε) (e' : ε') (x : Except ε σ) (y : Except ε' σ') : Prop :=
  (∃ s t, x = .ok s ∧ y = .ok t ∧ R s t) ∨ (x = .error e ∧ y = .error e')

theorem Agree.ok {s : σ} {t : σ'} (h : R s t) : Agree R e e' (.ok s) (.ok t) := .inl ⟨s, t, rfl, rfl, h⟩

theorem Agree.error : Agree R e e' (.error e) (.error e') := .inr ⟨rfl, rfl⟩

theorem Agree.bind {Q : β → β' → Prop} {x : Except ε σ} {y : Except ε' σ'} {f : σ → Except ε β} {g : σ' → Except ε' β'}
    (h : Agree R e e' x y) (hnext : ∀ s t, R s t → Agree Q e e' (f s) (g t)) : Agree Q e e' (x >>= f) (y >>= g) := by
  rcases h with ⟨s, t, rfl, rfl, hst⟩ | ⟨rfl, rfl⟩
  · exact hnext s t hst
  · exact .error

/-- Two loops over related lists agree if their iterations do. -/
theorem Agree.foldlM {Q : α → α' → Prop} {body : σ → α → Except ε σ} {body' : σ' → α' → Except ε' σ'} {l : List α}
    {l' : List α'} (hl : List.Forall₂ Q l l') (hstep : ∀ s t a b, R s t → Q a b → Agree R e e' (body s a) (body' t b))
    {s : σ} {t : σ'} (hst : R s t) : Agree R e e' (l.foldlM body s) (l'.foldlM body' t) := by
  induction hl generalizing s t with
  | nil => exact .ok hst
  | @cons a b l l' hab _ ih =>
      rw [List.foldlM_cons, List.foldlM_cons]
      exact (hstep s t a b hst hab).bind fun s t hst => ih hst

end Agree

theorem mapM_ok {f : α → Except ε β} {g : α → β} {l : List α} (h : ∀ a ∈ l, f a = .ok (g a)) :
    l.mapM f = .ok (l.map g) := by
  induction l with
  | nil => rfl
  | cons a l ih =>
      rw [List.mapM_cons, h a List.mem_cons_self, ok_bind, ih fun b hb => h b (List.mem_cons_of_mem a hb)]
      rfl

theorem mapM_spec {f : α → Except ε β} {P : β → Prop} {l : List α} (h : ∀ a ∈ l, ∃ b, f a = .ok b ∧ P b) :
    ∃ bs, l.mapM f = .ok bs ∧ ∀ b ∈ bs, P b := by
  induction l with
  | nil => exact ⟨[], rfl, by simp⟩
  | cons a l ih =>
      obtain ⟨b, hb, hP⟩ := h a List.mem_cons_self
      obtain ⟨bs, hbs, hPs⟩ := ih fun c hc => h c (List.mem_cons_of_mem a hc)
      refine ⟨b :: bs, ?_, ?_⟩
      · rw [List.mapM_cons, hb, ok_bind, hbs]
        rfl
      · intro c hc
        rcases List.mem_cons.mp hc with rfl | hc
        · exact hP
        · exact hPs c hc

theorem mapM_forall₂ {f : α → Except ε β} {l : List α} {bs : List β} (h : l.mapM f = .ok bs) :
    List.Forall₂ (fun a b => f a = .ok b) l bs := by
  induction l generalizing bs with
  | nil =>
      cases h
      exact .nil
  | cons a l ih =>
      rw [List.mapM_cons] at h
      obtain ⟨b, hb, h⟩ := bind_ok h
      obtain ⟨rest, hrest, h⟩ := bind_ok h
      cases h
      exact .cons hb (ih hrest)

end Witcher.Loops
