import Mathlib.Data.List.Pairwise
import Mathlib.Data.List.Sort
import Mathlib.Data.Set.Lattice
import Mathlib.Logic.Relation
import Mathlib.Order.CompletePartialOrder
import Mathlib.Order.Interval.Set.LinearOrder

/-! Merging of half-open ranges. Objects merge ranges if they are sorted, disjoint, cover what the
ranges cover, and hold together only ranges that overlap step by step. The objects are determined by
the ranges. -/

namespace Witcher.Intervals

structure Span (α : Type) where
  lo : α
  hi : α
  deriving DecidableEq, Repr

variable {α : Type} [LinearOrder α]

namespace Span

def points (s : Span α) : Set α := Set.Ico s.lo s.hi

def Proper (s : Span α) : Prop := s.lo < s.hi

def Overlap (s t : Span α) : Prop := s.lo < t.hi ∧ t.lo < s.hi

def Inside (s t : Span α) : Prop := t.lo ≤ s.lo ∧ s.hi ≤ t.hi

variable {s t u : Span α}

theorem Proper.lo_mem (h : s.Proper) : s.lo ∈ s.points := ⟨le_refl _, h⟩

theorem overlap_iff (hs : s.Proper) (ht : t.Proper) : s.Overlap t ↔ (s.points ∩ t.points).Nonempty := by
  rw [points, points, Set.Ico_inter_Ico, Set.nonempty_Ico, sup_lt_iff, lt_inf_iff, lt_inf_iff]
  exact ⟨fun ⟨h, h'⟩ => ⟨⟨hs, h⟩, h', ht⟩, fun ⟨⟨_, h⟩, h', _⟩ => ⟨h, h'⟩⟩

theorem Inside.subset (h : s.Inside t) : s.points ⊆ t.points := Set.Ico_subset_Ico h.1 h.2

theorem Inside.trans (h : s.Inside t) (h' : t.Inside u) : s.Inside u := ⟨h'.1.trans h.1, h.2.trans h'.2⟩

theorem Inside.of_subset (hs : s.Proper) (h : s.points ⊆ t.points) : s.Inside t := (Set.Ico_subset_Ico_iff hs).mp h

theorem eq_of_points_eq (hs : s.Proper) (ht : t.Proper) (h : s.points = t.points) : s = t := by
  obtain ⟨hlo, hhi⟩ := Inside.of_subset hs h.subset
  obtain ⟨hlo', hhi'⟩ := Inside.of_subset ht h.superset
  cases s
  cases t
  exact congrArg₂ Span.mk (le_antisymm hlo' hlo) (le_antisymm hhi hhi')

end Span

/-! ### Chains of ranges -/

def Linked (ranges : List (Span α)) (r r' : Span α) : Prop :=
  r ∈ ranges ∧ r' ∈ ranges ∧ (r.points ∩ r'.points).Nonempty

/-- Two ranges are connected by a chain of ranges, each sharing a point with the next. -/
def Chained (ranges : List (Span α)) : Span α → Span α → Prop := Relation.ReflTransGen (Linked ranges)

theorem Linked.symm {ranges : List (Span α)} {r r' : Span α} (h : Linked ranges r r') : Linked ranges r' r :=
  ⟨h.2.1, h.1, by rw [Set.inter_comm]; exact h.2.2⟩

instance (ranges : List (Span α)) : Std.Symm (Linked ranges) := ⟨fun _ _ h => h.symm⟩

theorem Chained.symm {ranges : List (Span α)} {r r' : Span α} (h : Chained ranges r r') : Chained ranges r' r :=
  Relation.ReflTransGen.stdSymm.symm _ _ h

theorem Chained.mono {ranges ranges' : List (Span α)} (hsub : ∀ r ∈ ranges, r ∈ ranges') {r r' : Span α}
    (h : Chained ranges r r') : Chained ranges' r r' :=
  Relation.ReflTransGen.mono (fun a b ⟨ha, hb, hne⟩ => ⟨hsub a ha, hsub b hb, hne⟩) r r' h

/-! ### Merged objects -/

/-- Sorted items whose spans do not overlap share no point. -/
theorem eq_of_mem_points {β : Type*} (span : β → Span α) {items : List β}
    (hsorted : items.Pairwise fun a b => (span a).hi ≤ (span b).lo) {a b : β} (ha : a ∈ items) (hb : b ∈ items) {x : α}
    (hx : x ∈ (span a).points) (hx' : x ∈ (span b).points) : a = b := by
  by_contra hne
  have hdisjoint : items.Pairwise fun a b => (span a).hi ≤ (span b).lo ∨ (span b).hi ≤ (span a).lo :=
    hsorted.imp fun h => .inl h
  have : Std.Symm fun a b : β => (span a).hi ≤ (span b).lo ∨ (span b).hi ≤ (span a).lo := ⟨fun _ _ h => h.symm⟩
  rcases hdisjoint.forall ha hb hne with hle | hle
  · exact absurd (lt_of_lt_of_le hx.2 (hle.trans hx'.1)) (lt_irrefl x)
  · exact absurd (lt_of_lt_of_le hx'.2 (hle.trans hx.1)) (lt_irrefl x)

structure Merged (ranges objects : List (Span α)) : Prop where
  proper : ∀ o ∈ objects, o.Proper
  sorted : objects.Pairwise fun o o' => o.hi ≤ o'.lo
  inside : ∀ r ∈ ranges, ∃ o ∈ objects, r.Inside o
  covered : ∀ o ∈ objects, ∀ x ∈ o.points, ∃ r ∈ ranges, x ∈ r.points
  chained : ∀ o ∈ objects, ∀ r ∈ ranges, ∀ r' ∈ ranges, r.Inside o → r'.Inside o → Chained ranges r r'

namespace Merged

variable {ranges ranges' objects objects' : List (Span α)}

theorem nil : Merged ([] : List (Span α)) [] where
  proper o ho := by cases ho
  sorted := List.Pairwise.nil
  inside r hr := by cases hr
  covered o ho := by cases ho
  chained o ho := by cases ho

/-- Objects that share a point are one object. -/
theorem iUnion_points (h : Merged ranges objects) : (⋃ o ∈ objects, o.points) = ⋃ r ∈ ranges, r.points := by
  ext x
  simp only [Set.mem_iUnion, exists_prop]
  constructor
  · rintro ⟨o, ho, hx⟩
    exact h.covered o ho x hx
  · rintro ⟨r, hr, hx⟩
    obtain ⟨o, ho, hin⟩ := h.inside r hr
    exact ⟨o, ho, hin.subset hx⟩

/-- A range that shares a point with an object lies inside it. -/
theorem inside_of_mem_points (h : Merged ranges objects) {r o : Span α} (hr : r ∈ ranges) (ho : o ∈ objects) {x : α}
    (hx : x ∈ r.points) (hx' : x ∈ o.points) : r.Inside o := by
  obtain ⟨o', ho', hin⟩ := h.inside r hr
  rw [eq_of_mem_points id h.sorted ho ho' hx' (hin.subset hx)]
  exact hin

theorem inside_of_chained (h : Merged ranges objects) {r r' o : Span α} (ho : o ∈ objects) (hin : r.Inside o)
    (hchain : Chained ranges r r') : r'.Inside o := by
  induction hchain with
  | refl => exact hin
  | tail _ hlink ih =>
      obtain ⟨hr, hr', x, hx, hx'⟩ := hlink
      exact h.inside_of_mem_points hr' ho hx' (ih.subset hx)

/-- Ranges lie in one object exactly if a chain connects them. -/
theorem same_object_iff (h : Merged ranges objects) {r r' : Span α} (hr : r ∈ ranges) (hr' : r' ∈ ranges) :
    (∃ o ∈ objects, r.Inside o ∧ r'.Inside o) ↔ Chained ranges r r' := by
  constructor
  · rintro ⟨o, ho, hin, hin'⟩
    exact h.chained o ho r hr r' hr' hin hin'
  · intro hchain
    obtain ⟨o, ho, hin⟩ := h.inside r hr
    exact ⟨o, ho, hin, h.inside_of_chained ho hin hchain⟩

/-- An object is the union of the ranges chained to any range inside it. -/
theorem mem_points_iff (h : Merged ranges objects) {o r : Span α} (ho : o ∈ objects) (hr : r ∈ ranges)
    (hin : r.Inside o) (x : α) : x ∈ o.points ↔ ∃ r' ∈ ranges, Chained ranges r r' ∧ x ∈ r'.points := by
  constructor
  · intro hx
    obtain ⟨r', hr', hx'⟩ := h.covered o ho x hx
    exact ⟨r', hr', h.chained o ho r hr r' hr' hin (h.inside_of_mem_points hr' ho hx' hx), hx'⟩
  · rintro ⟨r', _, hchain, hx⟩
    exact (h.inside_of_chained ho hin hchain).subset hx

theorem mem_of_mem (h : Merged ranges objects) (h' : Merged ranges objects') {o : Span α} (ho : o ∈ objects) :
    o ∈ objects' := by
  have hproper := h.proper o ho
  obtain ⟨r, hr, hx⟩ := h.covered o ho o.lo hproper.lo_mem
  have hin := h.inside_of_mem_points hr ho hx hproper.lo_mem
  obtain ⟨o', ho', hin'⟩ := h'.inside r hr
  have heq : o = o' := by
    apply Span.eq_of_points_eq hproper (h'.proper o' ho')
    ext x
    rw [h.mem_points_iff ho hr hin, h'.mem_points_iff ho' hr hin']
  rw [heq]
  exact ho'

theorem sorted_lo (h : Merged ranges objects) : objects.Pairwise fun o o' => o.lo < o'.lo :=
  List.Pairwise.imp_of_mem (fun ho _ hle => lt_of_lt_of_le (h.proper _ ho) hle) h.sorted

theorem congr_ranges (h : Merged ranges objects) (hmem : ∀ r, r ∈ ranges ↔ r ∈ ranges') : Merged ranges' objects where
  proper := h.proper
  sorted := h.sorted
  inside r hr := h.inside r ((hmem r).mpr hr)
  covered o ho x hx := by
    obtain ⟨r, hr, hx⟩ := h.covered o ho x hx
    exact ⟨r, (hmem r).mp hr, hx⟩
  chained o ho r hr r' hr' hin hin' :=
    (h.chained o ho r ((hmem r).mpr hr) r' ((hmem r').mpr hr') hin hin').mono fun s hs => (hmem s).mp hs

/-- The objects do not depend on the order or multiplicity of the ranges. -/
theorem unique (h : Merged ranges objects) (h' : Merged ranges' objects') (hmem : ∀ r, r ∈ ranges ↔ r ∈ ranges') :
    objects = objects' := by
  have h₁ := h.congr_ranges hmem
  have : Std.Irrefl fun o o' : Span α => o.lo < o'.lo := ⟨fun o => lt_irrefl o.lo⟩
  apply List.Pairwise.eq_of_mem_iff h.sorted_lo h'.sorted_lo
  exact fun o => ⟨h₁.mem_of_mem h', h'.mem_of_mem h₁⟩

end Merged

/-! ### Adding a range -/

/-- The span `h` is the union of `x` and the objects it overlaps. -/
structure Hull (x : Span α) (mid : List (Span α)) (h : Span α) : Prop where
  self : x.Inside h
  overlapped : ∀ o ∈ mid, o.Inside h
  covered : ∀ p ∈ h.points, p ∈ x.points ∨ ∃ o ∈ mid, p ∈ o.points

theorem Hull.self_only (x : Span α) : Hull x [] x where
  self := ⟨le_refl _, le_refl _⟩
  overlapped _ ho := absurd ho List.not_mem_nil
  covered _ hp := .inl hp

/-- Two ranges are joined first, and then the others. -/
theorem Hull.cons {x y j h : Span α} {mid : List (Span α)} (hx : x.Inside j) (hy : y.Inside j)
    (hj : ∀ p ∈ j.points, p ∈ x.points ∨ p ∈ y.points) (hhull : Hull j mid h) : Hull x (y :: mid) h where
  self := hx.trans hhull.self
  overlapped := List.forall_mem_cons.mpr ⟨hy.trans hhull.self, hhull.overlapped⟩
  covered p hp := by
    rcases hhull.covered p hp with hp | ⟨o, ho, hp⟩
    · exact (hj p hp).imp_right fun hy => ⟨y, List.mem_cons_self, hy⟩
    · exact .inr ⟨o, List.mem_cons_of_mem y ho, hp⟩

namespace Merged

variable {ranges : List (Span α)} {left mid right : List (Span α)} {x h : Span α}

/-- The hull keeps its place between the objects before and after the new range. -/
theorem sorted_insert (hmerged : Merged ranges (left ++ mid ++ right)) (hx : x.Proper)
    (hleft : ∀ o ∈ left, o.hi ≤ x.lo) (hright : ∀ o ∈ right, x.hi ≤ o.lo) (hhull : Hull x mid h) :
    (left ++ h :: right).Pairwise fun o o' => o.hi ≤ o'.lo := by
  have hproper : h.Proper := lt_of_le_of_lt hhull.self.1 (lt_of_lt_of_le hx hhull.self.2)
  obtain ⟨hfront, hback, hcross⟩ := List.pairwise_append.mp hmerged.sorted
  obtain ⟨hleft', _, hleftmid⟩ := List.pairwise_append.mp hfront
  refine List.pairwise_append.mpr ⟨hleft', List.pairwise_cons.mpr ⟨?_, hback⟩, ?_⟩
  · -- the first point of an object after `x` is in the hull only if it is in `x` or before it
    intro o ho
    by_contra hlt
    have hmem : o.lo ∈ h.points :=
      ⟨hhull.self.1.trans (le_of_lt (lt_of_lt_of_le hx (hright o ho))), lt_of_not_ge hlt⟩
    rcases hhull.covered o.lo hmem with hp | ⟨o', ho', hp⟩
    · exact absurd (lt_of_lt_of_le hp.2 (hright o ho)) (lt_irrefl _)
    · exact absurd (lt_of_lt_of_le hp.2 (hcross o' (List.mem_append_right _ ho') o ho)) (lt_irrefl _)
  · intro o ho o' ho'
    rcases List.mem_cons.mp ho' with rfl | ho'
    · rcases hhull.covered _ hproper.lo_mem with hp | ⟨m, hm, hp⟩
      · exact (hleft o ho).trans hp.1
      · exact (hleftmid o ho m hm).trans hp.1
    · exact hcross o (List.mem_append_left _ ho) o' ho'

/-- Every old range inside the hull is chained to the new one. -/
theorem chained_new (hmerged : Merged ranges (left ++ mid ++ right)) (hx : x.Proper)
    (hproper : ∀ r ∈ ranges, r.Proper) (hmid : ∀ o ∈ mid, o.Overlap x) (hhull : Hull x mid h) {r : Span α}
    (hr : r ∈ ranges) (hin : r.Inside h) : Chained (x :: ranges) x r := by
  have hrp := hproper r hr
  rcases hhull.covered r.lo (hin.subset hrp.lo_mem) with hp | ⟨o, ho, hp⟩
  · exact .single ⟨List.mem_cons_self, List.mem_cons_of_mem x hr, r.lo, hp, hrp.lo_mem⟩
  · -- `x` shares a point with the object `o`, and that point with a range inside `o`
    have hmem : o ∈ left ++ mid ++ right := List.mem_append_left _ (List.mem_append_right _ ho)
    obtain ⟨p, hpo, hpx⟩ := (Span.overlap_iff (hmerged.proper o hmem) hx).mp (hmid o ho)
    obtain ⟨r', hr', hpr⟩ := hmerged.covered o hmem p hpo
    have hin' := hmerged.inside_of_mem_points hr' hmem hpr hpo
    have hino := hmerged.inside_of_mem_points hr hmem hrp.lo_mem hp
    have hold := hmerged.chained o hmem r' hr' r hr hin' hino
    exact .head ⟨List.mem_cons_self, List.mem_cons_of_mem x hr', p, hpx, hpr⟩
      (hold.mono fun s hs => List.mem_cons_of_mem x hs)

theorem insert (hmerged : Merged ranges (left ++ mid ++ right)) (hx : x.Proper) (hproper : ∀ r ∈ ranges, r.Proper)
    (hleft : ∀ o ∈ left, o.hi ≤ x.lo) (hmid : ∀ o ∈ mid, o.Overlap x) (hright : ∀ o ∈ right, x.hi ≤ o.lo)
    (hhull : Hull x mid h) : Merged (x :: ranges) (left ++ h :: right) := by
  have hsorted := hmerged.sorted_insert hx hleft hright hhull
  have hh : h.Proper := lt_of_le_of_lt hhull.self.1 (lt_of_lt_of_le hx hhull.self.2)
  -- an object of the new list other than the hull is an old object that misses `x`
  have hold : ∀ o ∈ left ++ h :: right, o = h ∨ (o ∈ left ++ mid ++ right ∧ ¬(o.points ∩ x.points).Nonempty) := by
    intro o ho
    rcases List.mem_append.mp ho with ho | ho
    · refine .inr ⟨List.mem_append_left _ (List.mem_append_left _ ho), ?_⟩
      rintro ⟨p, hpo, hpx⟩
      exact absurd (lt_of_lt_of_le hpo.2 ((hleft o ho).trans hpx.1)) (lt_irrefl p)
    · rcases List.mem_cons.mp ho with ho | ho
      · exact .inl ho
      · refine .inr ⟨List.mem_append_right _ ho, ?_⟩
        rintro ⟨p, hpo, hpx⟩
        exact absurd (lt_of_lt_of_le hpx.2 ((hright o ho).trans hpo.1)) (lt_irrefl p)
  refine ⟨?_, hsorted, ?_, ?_, ?_⟩
  · intro o ho
    rcases hold o ho with rfl | ⟨ho, _⟩
    · exact hh
    · exact hmerged.proper o ho
  · intro r hr
    rcases List.mem_cons.mp hr with rfl | hr
    · exact ⟨h, by simp, hhull.self⟩
    · obtain ⟨o, ho, hin⟩ := hmerged.inside r hr
      rcases List.mem_append.mp ho with ho | ho
      · rcases List.mem_append.mp ho with ho | ho
        · exact ⟨o, List.mem_append_left _ ho, hin⟩
        · exact ⟨h, by simp, hin.trans (hhull.overlapped o ho)⟩
      · exact ⟨o, List.mem_append_right _ (List.mem_cons_of_mem h ho), hin⟩
  · intro o ho p hp
    rcases hold o ho with rfl | ⟨ho, _⟩
    · rcases hhull.covered p hp with hp | ⟨m, hm, hp⟩
      · exact ⟨x, List.mem_cons_self, hp⟩
      · obtain ⟨r, hr, hp⟩ := hmerged.covered m (List.mem_append_left _ (List.mem_append_right _ hm)) p hp
        exact ⟨r, List.mem_cons_of_mem x hr, hp⟩
    · obtain ⟨r, hr, hp⟩ := hmerged.covered o ho p hp
      exact ⟨r, List.mem_cons_of_mem x hr, hp⟩
  · intro o ho r hr r' hr' hin hin'
    rcases hold o ho with rfl | ⟨ho, hmiss⟩
    · have hnew : ∀ s ∈ x :: ranges, s.Inside o → Chained (x :: ranges) x s := by
        intro s hs hsin
        rcases List.mem_cons.mp hs with rfl | hs
        · exact .refl
        · exact hmerged.chained_new hx hproper hmid hhull hs hsin
      exact (hnew r hr hin).symm.trans (hnew r' hr' hin')
    · have hrange : ∀ s ∈ x :: ranges, s.Inside o → s ∈ ranges := by
        intro s hs hsin
        rcases List.mem_cons.mp hs with rfl | hs
        · exact absurd ⟨s.lo, hsin.subset hx.lo_mem, hx.lo_mem⟩ hmiss
        · exact hs
      exact (hmerged.chained o ho r (hrange r hr hin) r' (hrange r' hr' hin') hin hin').mono
        fun s hs => List.mem_cons_of_mem x hs

end Merged

end Witcher.Intervals
