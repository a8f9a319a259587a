import Mathlib.Algebra.Ring.Int.Defs
import Mathlib.Data.List.Induction
import Mathlib.Data.List.Infix

/-! Nesting in a list whose elements open and close levels. A place in the list is an element with what comes
before it; the depth at a place is what the elements before it have opened and not closed; and a value belongs to
the outermost open span if a level has been open ever since the element that has the value. -/

namespace Witcher.OpenSpans

variable {α β : Type} {l before : List α} {x y : α}

/-! ### Places -/

/-- The element comes right after `before`. -/
def At (l before : List α) (x : α) : Prop := before ++ [x] <+: l

theorem at_concat : At (l ++ [y]) before x ↔ At l before x ∨ (before = l ∧ x = y) := by
  rw [At, At, List.prefix_concat_iff, or_comm]
  refine or_congr_right ⟨fun h => ?_, fun ⟨hbefore, hx⟩ => by rw [hbefore, hx]⟩
  obtain ⟨hbefore, hx⟩ := List.append_inj' h rfl
  exact ⟨hbefore, List.singleton_inj.mp hx⟩

theorem at_cons : At (y :: l) before x ↔ (before = [] ∧ x = y) ∨ ∃ before', before = y :: before' ∧ At l before' x := by
  cases before with
  | nil => simp [At, eq_comm]
  | cons z before' =>
      simp only [At, List.cons_append, List.cons_prefix_cons, reduceCtorEq, false_and, false_or, List.cons.injEq]
      constructor
      · rintro ⟨rfl, h⟩
        exact ⟨before', ⟨rfl, rfl⟩, h⟩
      · rintro ⟨_, ⟨rfl, rfl⟩, h⟩
        exact ⟨rfl, h⟩

theorem At.front (h : At l before x) : before <+: l :=
  (List.prefix_append before [x]).trans h

theorem At.trans {l' : List α} (h : At l before x) (hl : l <+: l') : At l' before x :=
  List.IsPrefix.trans h hl

theorem At.mem (h : At l before x) : x ∈ l :=
  h.subset (List.mem_append_right before (List.mem_singleton_self x))

theorem At.eq (h : At l before x) (h' : At l before y) : x = y := by
  have hlist : before ++ [x] = before ++ [y] := (List.prefix_of_prefix_length_le h h' (by simp)).eq_of_length (by simp)
  exact List.singleton_inj.mp (List.append_cancel_left hlist)

/-- Of two places the list up to the earlier one is a part of what comes before the other one. -/
theorem At.total {before' : List α} (h : At l before x) (h' : At l before' y) :
    (before = before' ∧ x = y) ∨ At before' before x ∨ At before before' y := by
  rcases List.prefix_or_prefix_of_prefix h h' with hle | hle
  · rcases at_concat.mp hle with hlt | heq
    · exact .inr (.inl hlt)
    · exact .inl heq
  · rcases at_concat.mp hle with hlt | ⟨hbefore, hx⟩
    · exact .inr (.inr hlt)
    · exact .inl ⟨hbefore.symm, hx.symm⟩

/-- An element that occurs once has one place. -/
theorem At.unique {before' : List α} (hnodup : l.Nodup) (h : At l before x) (h' : At l before' x) : before = before' := by
  have hfresh : ∀ {f : List α}, At l f x → x ∉ f := by
    intro f hf hmem
    have hf' := hnodup.sublist hf.sublist
    exact (List.nodup_append.mp hf').2.2 x hmem x (List.mem_singleton_self x) rfl
  rcases h.total h' with ⟨heq, -⟩ | hlt | hlt
  · exact heq
  · exact absurd hlt.mem (hfresh h')
  · exact absurd hlt.mem (hfresh h)

theorem at_iff_getElem? : At l before x ↔ ∃ i, l[i]? = some x ∧ l.take i = before := by
  constructor
  · rintro ⟨rest, rfl⟩
    exact ⟨before.length, by simp, by simp⟩
  · rintro ⟨i, hget, rfl⟩
    obtain ⟨hi, rfl⟩ := List.getElem?_eq_some_iff.mp hget
    rw [At, ← List.take_succ_eq_append_getElem hi]
    exact List.take_prefix (i + 1) l

/-- The property holds at some place. -/
def Somewhere (P : List α → α → Prop) (l : List α) : Prop := ∃ before x, At l before x ∧ P before x

theorem somewhere_nil {P : List α → α → Prop} : ¬Somewhere P [] := by
  rintro ⟨before, x, hat, -⟩
  exact absurd hat.mem List.not_mem_nil

theorem somewhere_concat {P : List α → α → Prop} : Somewhere P (l ++ [y]) ↔ Somewhere P l ∨ P l y := by
  simp only [Somewhere, at_concat]
  constructor
  · rintro ⟨before, x, hat | ⟨rfl, rfl⟩, hP⟩
    · exact .inl ⟨before, x, hat, hP⟩
    · exact .inr hP
  · rintro (⟨before, x, hat, hP⟩ | hP)
    · exact ⟨before, x, .inl hat, hP⟩
    · exact ⟨l, y, .inr ⟨rfl, rfl⟩, hP⟩

/-! ### Depth -/

section Depth

variable (delta : α → Int) (value : α → Option β)

/-- The number of open levels. -/
def depth (l : List α) : Int := (l.map delta).sum

theorem depth_concat (l : List α) (x : α) : depth delta (l ++ [x]) = depth delta l + delta x := by
  simp [depth]

/-- The value is that of an element of the outermost span that is open at the end. -/
def Outer (l : List α) (v : β) : Prop :=
  ∃ before x, At l before x ∧ value x = some v ∧ ∀ mid, At mid before x → mid <+: l → 0 < depth delta mid

variable {delta value} {v : β}

theorem Outer.depth_pos (h : Outer delta value l v) : 0 < depth delta l := by
  obtain ⟨before, x, hat, -, hopen⟩ := h
  exact hopen l hat (List.prefix_refl l)

theorem not_outer (h : depth delta l = 0) (v : β) : ¬Outer delta value l v := by
  intro houter
  have hpos := houter.depth_pos
  omega

theorem outer_concat : Outer delta value (l ++ [y]) v ↔
    0 < depth delta (l ++ [y]) ∧ (Outer delta value l v ∨ value y = some v) := by
  constructor
  · intro h
    refine ⟨h.depth_pos, ?_⟩
    obtain ⟨before, x, hat, hvalue, hopen⟩ := h
    rcases at_concat.mp hat with hat | ⟨rfl, rfl⟩
    · exact .inl ⟨before, x, hat, hvalue, fun mid hmid hle => hopen mid hmid (hle.trans (List.prefix_append l [y]))⟩
    · exact .inr hvalue
  · rintro ⟨hpos, ⟨before, x, hat, hvalue, hopen⟩ | hvalue⟩
    · refine ⟨before, x, hat.trans (List.prefix_append l [y]), hvalue, fun mid hmid hle => ?_⟩
      rcases List.prefix_concat_iff.mp hle with rfl | hle
      · exact hpos
      · exact hopen mid hmid hle
    · refine ⟨l, y, List.prefix_refl _, hvalue, fun mid hmid hle => ?_⟩
      rw [← List.IsPrefix.eq_of_length hmid (Nat.le_antisymm hmid.length_le hle.length_le)]
      exact hpos

end Depth

end Witcher.OpenSpans
