import Mathlib.Algebra.Order.BigOperators.Group.List
import Mathlib.Algebra.BigOperators.Group.Finset.Basic
import Witcher.Persistency

/-! Counting crash states. At a fence any leading part of the pending stores of each line may have been
persisted, so the states are counted by a product over the lines. Pending stores carried over from
before only add states, and they add some as soon as there is a fence. -/

namespace Witcher.Persistency

variable {ι σ : Type}

/-- The number of choices of a leading part of each listed line's pending stores. -/
def choices (keys : List ι) (m : Memory ι σ) : Nat := (keys.map fun a => (m a).pending.length + 1).prod

theorem choices_pos (keys : List ι) (m : Memory ι σ) : 0 < choices keys m := by
  induction keys with
  | nil => exact Nat.one_pos
  | cons a keys ih =>
      simp only [choices, List.map_cons, List.prod_cons] at ih ⊢
      exact Nat.mul_pos (Nat.succ_pos _) ih

/-- Lines with nothing pending do not count, so any two lists of the lines that matter agree. -/
theorem choices_eq_of_covers [DecidableEq ι] {keys keys' : List ι} {m : Memory ι σ} (hkeys : keys.Nodup)
    (hkeys' : keys'.Nodup) (hcover : ∀ a, (m a).pending ≠ [] → a ∈ keys) (hcover' : ∀ a, (m a).pending ≠ [] → a ∈ keys') :
    choices keys m = choices keys' m := by
  have hone : ∀ (l l' : List ι), (∀ a, (m a).pending ≠ [] → a ∈ l) → l'.Nodup → l.Nodup →
      choices l m = ∏ a ∈ l.toFinset ∪ l'.toFinset, ((m a).pending.length + 1) := by
    intro l l' hl _ hnodup
    rw [choices, ← List.prod_toFinset _ hnodup]
    refine Finset.prod_subset Finset.subset_union_left ?_
    intro a _ ha
    by_contra hne
    refine ha (List.mem_toFinset.mpr (hl a ?_))
    intro hnil
    simp [hnil] at hne
  rw [hone keys keys' hcover hkeys' hkeys, hone keys' keys hcover' hkeys hkeys', Finset.union_comm]

variable [DecidableEq ι]

/-- The sum over the fences of an event list of the number of nonempty choices there. -/
def choiceSum (keys : List ι) : Memory ι σ → List (Event ι σ) → Nat
  | _, [] => 0
  | m, .fence :: events => (choices keys m - 1) + choiceSum keys (m.step .fence) events
  | m, e :: events => choiceSum keys (m.step e) events

theorem choiceSum_append (keys : List ι) (m : Memory ι σ) (front back : List (Event ι σ)) :
    choiceSum keys m (front ++ back) = choiceSum keys m front + choiceSum keys (m.run front) back := by
  induction front generalizing m with
  | nil => rw [List.nil_append, choiceSum, Nat.zero_add, Memory.run_nil]
  | cons e front ih =>
      cases e with
      | fence => rw [List.cons_append, choiceSum, choiceSum, ih, Memory.run_cons, Nat.add_assoc]
      | _ => exact ih _

/-- Line by line, `m` holds at least as many flushing and clear stores as `m'`. -/
def Dominates (m m' : Memory ι σ) : Prop :=
  ∀ a, (m' a).flushing.length ≤ (m a).flushing.length ∧ (m' a).clear.length ≤ (m a).clear.length

omit [DecidableEq ι] in
theorem Dominates.pending_le {m m' : Memory ι σ} (h : Dominates m m') (a : ι) :
    (m' a).pending.length ≤ (m a).pending.length := by
  have := h a
  simp only [Line.pending, List.length_append]
  omega

theorem Dominates.step {m m' : Memory ι σ} (h : Dominates m m') (e : Event ι σ) : Dominates (m.step e) (m'.step e) := by
  intro a
  have ha := h a
  cases e with
  | store c st =>
      by_cases hc : a = c
      · subst hc
        simp [Memory.step, ha]
      · simpa [Memory.step, hc] using ha
  | flush c =>
      by_cases hc : a = c
      · subst hc
        simp only [Memory.step, Function.update_self, List.length_append, List.length_nil]
        omega
      · simpa [Memory.step, hc] using ha
  | fence => simpa [Memory.step] using ha.2
  | drain => simp [Memory.step]

/-- A store or a flush keeps the difference between the pending stores of two memories. -/
theorem pending_length_step (m : Memory ι σ) {e : Event ι σ} (hfence : e ≠ .fence) (hdrain : e ≠ .drain) (a : ι) :
    (m.step e a).pending.length = (m a).pending.length + (storesAt a [e]).length := by
  have hstores := m.stores_step e a
  rw [Line.stores, Line.stores, m.persisted_step hfence hdrain, List.append_assoc] at hstores
  rw [List.append_cancel_left hstores, List.length_append]

omit [DecidableEq ι] in
theorem Dominates.choices_le {m m' : Memory ι σ} (h : Dominates m m') (keys : List ι) :
    choices keys m' ≤ choices keys m := by
  induction keys with
  | nil => exact le_rfl
  | cons a keys ih =>
      have ha := h.pending_le a
      simp only [choices, List.map_cons, List.prod_cons] at ih ⊢
      exact Nat.mul_le_mul (by omega) ih

omit [DecidableEq ι] in
theorem Dominates.choices_lt {m m' : Memory ι σ} (h : Dominates m m') {keys : List ι} {a : ι} (ha : a ∈ keys)
    (hlt : (m' a).pending.length < (m a).pending.length) : choices keys m' < choices keys m := by
  induction keys with
  | nil => cases ha
  | cons b keys ih =>
      have hb := h.pending_le b
      have hle := h.choices_le keys
      have hpos := choices_pos keys m
      simp only [choices, List.map_cons, List.prod_cons] at ih hle hpos ⊢
      rcases List.mem_cons.mp ha with rfl | ha
      · exact Nat.mul_lt_mul_of_lt_of_le (by omega) hle hpos
      · exact Nat.mul_lt_mul_of_le_of_lt (by omega) (ih ha) (by omega)

theorem Dominates.choiceSum_le {m m' : Memory ι σ} (h : Dominates m m') (keys : List ι) (events : List (Event ι σ)) :
    choiceSum keys m' events ≤ choiceSum keys m events := by
  induction events generalizing m m' with
  | nil => exact le_rfl
  | cons e events ih =>
      have hrest := ih (h.step e)
      cases e with
      | fence =>
          have hle := h.choices_le keys
          simp only [choiceSum]
          omega
      | _ => exact hrest

/-- A store pending in `m` only is counted at the first fence. -/
theorem Dominates.choiceSum_lt {m m' : Memory ι σ} (h : Dominates m m') {keys : List ι} {a : ι} (ha : a ∈ keys)
    (hlt : (m' a).pending.length < (m a).pending.length) {events : List (Event ι σ)}
    (hdrain : ∀ e ∈ events, e ≠ .drain) (hfence : HasFence events) :
    choiceSum keys m' events < choiceSum keys m events := by
  induction events generalizing m m' with
  | nil => cases hfence
  | cons e events ih =>
      have hrest : ∀ e' ∈ events, e' ≠ .drain := fun e' he' => hdrain e' (List.mem_cons_of_mem e he')
      have hstep : e ≠ .fence → ((m'.step e) a).pending.length < ((m.step e) a).pending.length := by
        intro hne
        rw [pending_length_step m hne (hdrain e List.mem_cons_self), pending_length_step m' hne (hdrain e List.mem_cons_self)]
        omega
      cases e with
      | fence =>
          have hchoices := h.choices_lt ha hlt
          have hpos := choices_pos keys m'
          have hle := (h.step .fence).choiceSum_le keys events
          simp only [choiceSum]
          omega
      | store c st => exact ih (h.step _) (hstep (by simp)) hrest hfence
      | flush c => exact ih (h.step _) (hstep (by simp)) hrest hfence
      | drain => exact absurd rfl (hdrain _ List.mem_cons_self)

theorem choiceSum_of_no_fence (keys : List ι) (m : Memory ι σ) {events : List (Event ι σ)} (h : ¬HasFence events) :
    choiceSum keys m events = 0 := by
  induction events generalizing m with
  | nil => rfl
  | cons e events ih =>
      cases e with
      | fence => exact absurd trivial h
      | _ => exact ih _ h

/-- Starting from a memory instead of from an empty one changes the sum exactly when something is
pending at the start and there is a fence to count it. -/
theorem choiceSum_eq_iff {keys : List ι} {m : Memory ι σ} (hcover : ∀ a, (m a).pending ≠ [] → a ∈ keys)
    {events : List (Event ι σ)} (hdrain : ∀ e ∈ events, e ≠ .drain) :
    choiceSum keys Memory.empty events = choiceSum keys m events ↔
      ¬HasFence events ∨ ∀ a, (m a).pending = [] := by
  have hdom : Dominates m Memory.empty := fun a => ⟨Nat.zero_le _, Nat.zero_le _⟩
  constructor
  · intro heq
    by_contra hnot
    push Not at hnot
    obtain ⟨hfence, a, ha⟩ := hnot
    have hpos : ((Memory.empty : Memory ι σ) a).pending.length < (m a).pending.length := List.length_pos_iff.mpr ha
    have hlt := hdom.choiceSum_lt (hcover a ha) hpos hdrain hfence
    omega
  · rintro (hfence | hpend)
    · rw [choiceSum_of_no_fence keys _ hfence, choiceSum_of_no_fence keys _ hfence]
    · have hdom' : Dominates Memory.empty m := by
        intro a
        obtain ⟨hflushing, hclear⟩ := List.append_eq_nil_iff.mp (hpend a)
        simp [hflushing, hclear]
      exact le_antisymm (hdom.choiceSum_le keys events) (hdom'.choiceSum_le keys events)

end Witcher.Persistency
