import Witcher.ParallelEdges
import Witcher.Search

/-! The persistent dependence edges are reachability. The search from a vertex follows data dependences and
stops at the persistent values other than its own; each persistent value where it stops gets an edge to all
of its vertices. -/

namespace Witcher

open Relation

section Search

variable {ν : Type} [DecidableEq ν] {I : SlicerInput ν}

/-! ### What the search visits -/

/-- The search from `x` goes on at values that are not persistent, and at the value of `x` itself. -/
def Transparent (g : PPDG ν) (x a : DynValue ν) : Prop := a = x ∨ g.contains a = false

/-- From a vertex at which the search from `x` goes on, along a data dependence. -/
def SearchStep (I : SlicerInput ν) (g : PPDG ν) (x : DynValue ν) (w u : Nat) : Prop :=
  (∃ a, I.pdg.getVertexValue I.heap w = some a ∧ Transparent g x a) ∧
    ∃ e ∈ I.pdg.edges, e.source = w ∧ e.kind = .dataDep ∧ e.target = u

/-- An edge that is added where the search from `src`, of value `x`, stops. -/
def StopEdge (I : SlicerInput ν) (g : PPDG ν) (x : DynValue ν) (src : Nat) (kind : Edge) (w : Nat) (e : DepEdge) : Prop :=
  ∃ a, I.pdg.getVertexValue I.heap w = some a ∧ ¬Transparent g x a ∧ e.source = src ∧ e.kind = kind ∧ e.target ∈ g.getVertices a

/-- What the search from `v` has done so far: it has visited vertices it can reach, it has followed all steps
from them, those of the opened vertices apart, and it has added the edges where it stopped. -/
structure Searched (I : SlicerInput ν) (x : DynValue ν) (src : Nat) (kind : Edge) (v : Nat) (opened : List Nat) (g : PPDG ν)
    (processed : List Nat) (g' : PPDG ν) (processed' : List Nat) : Prop where
  vertices : g'.vertices = g.vertices
  map : g'.valToVtxMap = g.valToVtxMap
  grown : ∀ w ∈ processed, w ∈ processed'
  start : v ∈ processed'
  reached : ∀ w ∈ processed', w ∉ processed → ReflTransGen (SearchStep I g x) v w
  closed : ∀ w ∈ processed', w ∉ processed → w ∉ opened → ∀ u, SearchStep I g x w u → u ∈ processed'
  edges : ∀ e, e ∈ g'.edges ↔ e ∈ g.edges ∨ ∃ w ∈ processed', w ∉ processed ∧ StopEdge I g x src kind w e

section Congruence

variable {g g' : PPDG ν} (hmap : g'.valToVtxMap = g.valToVtxMap)

include hmap

theorem contains_congr (a : DynValue ν) : g'.contains a = g.contains a := by
  rw [PPDG.contains, PPDG.contains, hmap]

theorem getVertices_congr (a : DynValue ν) : g'.getVertices a = g.getVertices a := by
  rw [PPDG.getVertices, PPDG.getVertices, hmap]

theorem searchStep_congr (x : DynValue ν) : SearchStep I g' x = SearchStep I g x := by
  funext w u
  simp only [SearchStep, Transparent, contains_congr hmap]

theorem stopEdge_congr (x : DynValue ν) (src : Nat) (kind : Edge) : StopEdge I g' x src kind = StopEdge I g x src kind := by
  funext w e
  simp only [StopEdge, Transparent, contains_congr hmap, getVertices_congr hmap]

end Congruence

theorem mem_foldl_addDepEdge (src : Nat) (kind : Edge) (targets : List Nat) (g : PPDG ν) (e : DepEdge) :
    e ∈ (targets.foldl (PPDG.addDepEdge src kind) g).edges ↔
      e ∈ g.edges ∨ (e.source = src ∧ e.kind = kind ∧ e.target ∈ targets) := by
  induction targets generalizing g with
  | nil => simp
  | cons t targets ih =>
      rw [List.foldl_cons, ih]
      have hadd : e ∈ (g.addDepEdge src kind t).edges ↔ e ∈ g.edges ∨ (e.source = src ∧ e.kind = kind ∧ e.target = t) := by
        rw [PPDG.addDepEdge, List.mem_append, List.mem_singleton]
        apply or_congr_right
        obtain ⟨source, target, k⟩ := e
        simp only [DepEdge.mk.injEq]
        tauto
      rw [hadd, List.mem_cons]
      tauto

theorem not_transparent_iff {g : PPDG ν} {x a : DynValue ν} : ¬Transparent g x a ↔ g.contains a = true ∧ a ≠ x := by
  rw [Transparent, not_or, Bool.not_eq_false]
  exact and_comm

section Start

variable {x a : DynValue ν} {src : Nat} {kind : Edge} {v : Nat} {g : PPDG ν} {processed : List Nat}

theorem eq_of_mem_cons_of_not_mem {w : Nat} (hw : w ∈ v :: processed) (hnot : w ∉ processed) : w = v :=
  (List.mem_cons.mp hw).resolve_right hnot

/-- The search stops at its start. -/
theorem searched_stop (hval : I.pdg.getVertexValue I.heap v = some a) (hstop : ¬Transparent g x a) (hnew : v ∉ processed) :
    Searched I x src kind v [] g processed ((g.getVertices a).foldl (PPDG.addDepEdge src kind) g) (v :: processed) := by
  have hext : Extended src kind g _ := extended_foldl g (g.getVertices_lt a)
  constructor
  · exact hext.vertices
  · exact hext.map
  · exact fun w hw => List.mem_cons_of_mem v hw
  · exact List.mem_cons_self
  · intro w hw hnot
    rw [eq_of_mem_cons_of_not_mem hw hnot]
  · rintro w hw hnot - u ⟨⟨b, hb, hclear⟩, -⟩
    rw [eq_of_mem_cons_of_not_mem hw hnot, hval] at hb
    cases hb
    exact absurd hclear hstop
  · intro e
    rw [mem_foldl_addDepEdge]
    apply or_congr_right
    constructor
    · intro he
      exact ⟨v, List.mem_cons_self, hnew, a, hval, hstop, he⟩
    · rintro ⟨w, hw, hnot, b, hb, -, he⟩
      rw [eq_of_mem_cons_of_not_mem hw hnot, hval] at hb
      cases hb
      exact he

/-- The search goes on at its start, which stays open until its edges were followed. -/
theorem searched_open (hval : I.pdg.getVertexValue I.heap v = some a) (hclear : Transparent g x a) :
    Searched I x src kind v [v] g processed g (v :: processed) := by
  constructor
  · rfl
  · rfl
  · exact fun w hw => List.mem_cons_of_mem v hw
  · exact List.mem_cons_self
  · intro w hw hnot
    rw [eq_of_mem_cons_of_not_mem hw hnot]
  · intro w hw hnot hopen
    exact absurd (List.mem_singleton.mpr (eq_of_mem_cons_of_not_mem hw hnot)) hopen
  · intro e
    refine ⟨Or.inl, ?_⟩
    rintro (he | ⟨w, hw, hnot, b, hb, hstop, -⟩)
    · exact he
    · rw [eq_of_mem_cons_of_not_mem hw hnot, hval] at hb
      cases hb
      exact absurd hclear hstop

end Start

section Steps

variable {x : DynValue ν} {src : Nat} {kind : Edge} {v t : Nat} {opened : List Nat} {g g₁ g₂ : PPDG ν}
  {processed processed₁ processed₂ : List Nat}

/-- The search goes on with the search from a vertex that a step leads to. -/
theorem Searched.trans (h : Searched I x src kind v opened g processed g₁ processed₁) (hstep : SearchStep I g x v t)
    (h' : Searched I x src kind t [] g₁ processed₁ g₂ processed₂) :
    Searched I x src kind v opened g processed g₂ processed₂ := by
  have hreached := h'.reached
  have hclosed := h'.closed
  have hedges := h'.edges
  rw [searchStep_congr h.map] at hreached hclosed
  rw [stopEdge_congr h.map] at hedges
  constructor
  · exact h'.vertices.trans h.vertices
  · exact h'.map.trans h.map
  · exact fun w hw => h'.grown w (h.grown w hw)
  · exact h'.grown v h.start
  · intro w hw hnot
    by_cases hw₁ : w ∈ processed₁
    · exact h.reached w hw₁ hnot
    · exact .head hstep (hreached w hw hw₁)
  · intro w hw hnot hopen u hu
    by_cases hw₁ : w ∈ processed₁
    · exact h'.grown u (h.closed w hw₁ hnot hopen u hu)
    · exact hclosed w hw hw₁ List.not_mem_nil u hu
  · intro e
    rw [hedges, h.edges, or_assoc]
    apply or_congr_right
    constructor
    · rintro (⟨w, hw, hnot, hstop⟩ | ⟨w, hw, hnot, hstop⟩)
      · exact ⟨w, h'.grown w hw, hnot, hstop⟩
      · exact ⟨w, hw, fun hw' => hnot (h.grown w hw'), hstop⟩
    · rintro ⟨w, hw, hnot, hstop⟩
      by_cases hw₁ : w ∈ processed₁
      · exact .inl ⟨w, hw₁, hnot, hstop⟩
      · exact .inr ⟨w, hw, hw₁, hstop⟩

/-- The start is closed when the targets of its data dependences were visited. -/
theorem Searched.close (h : Searched I x src kind v [v] g processed g₁ processed₁)
    (htargets : ∀ e ∈ I.pdg.outEdges v, e.kind = .dataDep → e.target ∈ processed₁) :
    Searched I x src kind v [] g processed g₁ processed₁ := by
  refine ⟨h.vertices, h.map, h.grown, h.start, h.reached, ?_, h.edges⟩
  intro w hw hnot _ u hu
  by_cases hwv : w = v
  · obtain ⟨-, e, he, hsource, hkind, rfl⟩ := hu
    rw [hwv] at hsource
    exact htargets e (List.mem_filter.mpr ⟨he, decide_eq_true hsource⟩) hkind
  · exact h.closed w hw hnot (fun hopen => hwv (List.mem_singleton.mp hopen)) u hu

end Steps

/-- The loop over the edges of an open vertex keeps what was searched and visits the target of each data dependence
it meets. -/
theorem Searched.loop {x a : DynValue ν} {src v : Nat} {kind : Edge} {g : PPDG ν} {processed : List Nat}
    {search : Nat → PPDG ν × List Nat → Option (PPDG ν × List Nat)}
    (hsearch : ∀ w g₁ processed₁ g₂ processed₂, g₁.getVertexValue src = some x →
      search w (g₁, processed₁) = some (g₂, processed₂) → Searched I x src kind w [] g₁ processed₁ g₂ processed₂)
    (hx : g.getVertexValue src = some x) (hval : I.pdg.getVertexValue I.heap v = some a) (hclear : Transparent g x a)
    (out : List DepEdge) (hsub : ∀ e ∈ out, e ∈ I.pdg.outEdges v) {g₁ g' : PPDG ν} {processed₁ processed' : List Nat}
    (hsearched : Searched I x src kind v [v] g processed g₁ processed₁)
    (hrun : out.foldlM (fun s e => if e.kind ≠ .dataDep ∨ e.target ∈ s.2 then some s else search e.target s) (g₁, processed₁) =
      some (g', processed')) :
    Searched I x src kind v [v] g processed g' processed' ∧ (∀ w ∈ processed₁, w ∈ processed') ∧
      ∀ e ∈ out, e.kind = .dataDep → e.target ∈ processed' := by
  induction out generalizing g₁ processed₁ with
  | nil =>
      cases hrun
      exact ⟨hsearched, fun w hw => hw, fun e he => by cases he⟩
  | cons e out ih =>
      obtain ⟨he, hsub⟩ := List.forall_mem_cons.mp hsub
      rw [List.foldlM_cons] at hrun
      by_cases hskip : e.kind ≠ .dataDep ∨ e.target ∈ processed₁
      · rw [if_pos hskip] at hrun
        obtain ⟨hsearched', hgrown, htargets⟩ := ih hsub hsearched hrun
        refine ⟨hsearched', hgrown, List.forall_mem_cons.mpr ⟨?_, htargets⟩⟩
        intro hkind
        exact hgrown _ (hskip.resolve_left (not_not.mpr hkind))
      · rw [if_neg hskip, Option.bind_eq_bind, Option.bind_eq_some_iff] at hrun
        obtain ⟨⟨g₂, processed₂⟩, hcall, hrun⟩ := hrun
        rw [not_or, not_not] at hskip
        obtain ⟨hmem, hsource⟩ := List.mem_filter.mp he
        have hstep : SearchStep I g x v e.target := ⟨⟨a, hval, hclear⟩, e, hmem, of_decide_eq_true hsource, hskip.1, rfl⟩
        have hx₁ : g₁.getVertexValue src = some x := by
          rw [PPDG.getVertexValue, hsearched.vertices]
          exact hx
        have hsearched₂ := hsearch _ _ _ _ _ hx₁ hcall
        obtain ⟨hsearched', hgrown, htargets⟩ := ih hsub (hsearched.trans hstep hsearched₂) hrun
        refine ⟨hsearched', fun w hw => hgrown w (hsearched₂.grown w hw), List.forall_mem_cons.mpr ⟨?_, htargets⟩⟩
        intro _
        exact hgrown _ hsearched₂.start

/-- Every call of the search that returns is a search. -/
theorem getDataEdges_searched {x : DynValue ν} {src : Nat} (kind : Edge) (fuel : Nat) {v : Nat} {g g' : PPDG ν}
    {processed processed' : List Nat} (hx : g.getVertexValue src = some x)
    (hrun : getDataEdges I src kind fuel v (g, processed) = some (g', processed')) :
    Searched I x src kind v [] g processed g' processed' := by
  induction fuel generalizing v g processed g' processed' with
  | zero => cases hrun
  | succ fuel ih =>
      rw [getDataEdges] at hrun
      split_ifs at hrun with hnew
      rw [hx] at hrun
      cases hval : I.pdg.getVertexValue I.heap v with
      | none =>
          rw [hval] at hrun
          cases hrun
      | some a =>
          rw [hval] at hrun
          simp only at hrun
          split_ifs at hrun with hstop
          · cases hrun
            exact searched_stop hval (not_transparent_iff.mpr hstop) hnew
          · have hclear : Transparent g x a := by
              by_contra hnot
              exact hstop (not_transparent_iff.mp hnot)
            obtain ⟨hsearched, -, htargets⟩ := Searched.loop (fun w g₁ processed₁ g₂ processed₂ hx₁ hcall => ih hx₁ hcall)
              hx hval hclear _ (fun e he => he) (searched_open hval hclear) hrun
            exact hsearched.close htargets

/-! ### Dependences between values -/

/-- A dependence edge between the vertices of two values. -/
def DepOn (I : SlicerInput ν) (kind : Edge) (a b : DynValue ν) : Prop :=
  ∃ e ∈ I.pdg.edges, e.kind = kind ∧ I.pdg.getVertexValue I.heap e.source = some a ∧
    I.pdg.getVertexValue I.heap e.target = some b

/-- A data path all of whose intermediate values are clear. -/
inductive ClearPath (I : SlicerInput ν) (clear : DynValue ν → Prop) : DynValue ν → DynValue ν → Prop where
  | edge {a b : DynValue ν} : DepOn I .dataDep a b → ClearPath I clear a b
  | cons {a b c : DynValue ν} : DepOn I .dataDep a b → clear b → ClearPath I clear b c → ClearPath I clear a c

/-- A path that may be empty, and whose first value is clear if it is not. -/
def ClearReach (I : SlicerInput ν) (clear : DynValue ν → Prop) (a b : DynValue ν) : Prop :=
  a = b ∨ (clear a ∧ ClearPath I clear a b)

/-- What the edges of each kind from a vertex of value `x` to one of value `y` stand for. The intermediate values
are not persistent, or `x` itself. -/
def PersistentDep (I : SlicerInput ν) (g : PPDG ν) : Edge → DynValue ν → DynValue ν → Prop
  | .dataDep, x, y => ClearPath I (Transparent g x) x y
  | .ctrlDep, x, y => ∃ c, DepOn I .ctrlDep x c ∧ ClearReach I (Transparent g x) c y

/-- Every value of the program dependence graph has one vertex. -/
def SlicerInput.Distinct (I : SlicerInput ν) : Prop :=
  ∀ d v, I.pdg.vertexOf d = some v ↔ I.pdg.getVertexValue I.heap v = some d

/-- The map of a persistent dependence graph lists the vertices of each value. -/
structure PPDG.Exact (g : PPDG ν) : Prop where
  mem_getVertices : ∀ d v, v ∈ g.getVertices d ↔ g.getVertexValue v = some d
  contains : ∀ d, g.contains d = true ↔ ∃ v, g.getVertexValue v = some d

omit [DecidableEq ν] in
theorem PDG.exists_getVertexValue {v : Nat} (hv : v < I.pdg.vertices.length) :
    ∃ a, I.pdg.getVertexValue I.heap v = some a := by
  rw [PDG.getVertexValue, List.getElem?_eq_getElem hv]
  exact ⟨_, rfl⟩

theorem SlicerInput.Distinct.vertex_unique (h : I.Distinct) {d : DynValue ν} {v w : Nat}
    (hv : I.pdg.getVertexValue I.heap v = some d) (hw : I.pdg.getVertexValue I.heap w = some d) : v = w := by
  have hv' := (h d v).mpr hv
  rw [(h d w).mpr hw] at hv'
  exact (Option.some.inj hv').symm

section Reach

variable {g : PPDG ν} {x : DynValue ν}

/-- The search visits the start, and goes on from it along clear paths. -/
theorem reached_iff (hpdg : I.pdg.Bounded) (hdistinct : I.Distinct) {v w : Nat} {a b : DynValue ν}
    (hv : I.pdg.getVertexValue I.heap v = some a) (hw : I.pdg.getVertexValue I.heap w = some b) :
    ReflTransGen (SearchStep I g x) v w ↔ ClearReach I (Transparent g x) a b := by
  constructor
  · intro h
    induction h using ReflTransGen.head_induction_on generalizing a with
    | refl =>
        rw [hw] at hv
        exact .inl (Option.some.inj hv).symm
    | @head v u hstep _ ih =>
        obtain ⟨⟨a', ha', hclear⟩, e, he, rfl, hkind, rfl⟩ := hstep
        rw [hv] at ha'
        cases ha'
        obtain ⟨c, hc⟩ := PDG.exists_getVertexValue (hpdg.target_lt e he)
        have hdep : DepOn I .dataDep a c := ⟨e, he, hkind, hv, hc⟩
        right
        refine ⟨hclear, ?_⟩
        rcases ih hc with rfl | ⟨hclear', hpath⟩
        · exact .edge hdep
        · exact .cons hdep hclear' hpath
  · rintro (rfl | ⟨hclear, hpath⟩)
    · rw [hdistinct.vertex_unique hv hw]
    · induction hpath generalizing v with
      | edge hdep =>
          obtain ⟨e, he, hkind, hsource, htarget⟩ := hdep
          have hstep : SearchStep I g x v w :=
            ⟨⟨_, hv, hclear⟩, e, he, hdistinct.vertex_unique hsource hv, hkind, hdistinct.vertex_unique htarget hw⟩
          exact .single hstep
      | cons hdep hclear' _ ih =>
          obtain ⟨e, he, hkind, hsource, htarget⟩ := hdep
          have hstep : SearchStep I g x v e.target :=
            ⟨⟨_, hv, hclear⟩, e, he, hdistinct.vertex_unique hsource hv, hkind, rfl⟩
          exact .head hstep (ih htarget hw hclear')

/-- The edges a search from a fresh set of vertices adds. -/
theorem getDataEdges_edges (hpdg : I.pdg.Bounded) (hdistinct : I.Distinct) (hg : g.Exact) (kind : Edge) {src v : Nat}
    {a : DynValue ν} (hx : g.getVertexValue src = some x) (hv : I.pdg.getVertexValue I.heap v = some a)
    (hvalues : ∀ w ∈ g.vertices, I.pdg.contains w.1) :
    ∃ g' processed', getDataEdges I src kind I.pdg.vertices.length v (g, []) = some (g', processed') ∧
      g'.vertices = g.vertices ∧ g'.valToVtxMap = g.valToVtxMap ∧
      ∀ e, e ∈ g'.edges ↔ e ∈ g.edges ∨ (e.source = src ∧ e.kind = kind ∧ ∃ y, g.getVertexValue e.target = some y ∧ y ≠ x ∧
        ClearReach I (Transparent g x) a y) := by
  have hsrc : src < g.vertices.length := by
    rw [PPDG.getVertexValue, Option.map_eq_some_iff] at hx
    obtain ⟨p, hp, -⟩ := hx
    exact (List.getElem?_eq_some_iff.mp hp).1
  have hvlt : v < I.pdg.vertices.length := hpdg.map_lt a v ((hdistinct a v).mpr hv)
  obtain ⟨g', processed', hrun, hext⟩ := getDataEdges_nil hpdg kind hsrc hvlt
  have hsearched := getDataEdges_searched kind _ hx hrun
  have hvisited : ∀ w, w ∈ processed' ↔ ReflTransGen (SearchStep I g x) v w :=
    Search.visited_iff_reachable hsearched.start (fun w hw => hsearched.reached w hw List.not_mem_nil)
      fun w u hw hu => hsearched.closed w hw List.not_mem_nil List.not_mem_nil u hu
  refine ⟨g', processed', hrun, hext.vertices, hext.map, ?_⟩
  intro e
  rw [hsearched.edges]
  apply or_congr_right
  constructor
  · rintro ⟨w, hw, -, y, hy, hstop, hsource, hkind, htarget⟩
    refine ⟨hsource, hkind, y, (hg.mem_getVertices y _).mp htarget, (not_transparent_iff.mp hstop).2, ?_⟩
    exact (reached_iff hpdg hdistinct hv hy).mp ((hvisited w).mp hw)
  · rintro ⟨hsource, hkind, y, hy, hne, hreach⟩
    have hin : I.pdg.contains y := by
      rw [PPDG.getVertexValue, Option.map_eq_some_iff] at hy
      obtain ⟨p, hp, rfl⟩ := hy
      exact hvalues p (List.mem_of_getElem? hp)
    obtain ⟨w, hw⟩ := Option.isSome_iff_exists.mp hin
    have hwy := (hdistinct y w).mp hw
    have hcontains : g.contains y = true := (hg.contains y).mpr ⟨_, hy⟩
    refine ⟨w, (hvisited w).mpr ((reached_iff hpdg hdistinct hv hwy).mpr hreach), List.not_mem_nil, y, hwy, ?_,
      hsource, hkind, ?_⟩
    · exact not_transparent_iff.mpr ⟨hcontains, hne⟩
    · exact (hg.mem_getVertices y _).mpr hy

end Reach

/-! ### All edges -/

/-- A graph with other edges between the same vertices. -/
structure PPDG.SameVertices (g g' : PPDG ν) : Prop where
  vertices : g'.vertices = g.vertices
  map : g'.valToVtxMap = g.valToVtxMap

namespace PPDG.SameVertices

variable {g g' g'' : PPDG ν}

theorem trans (h : g.SameVertices g') (h' : g'.SameVertices g'') : g.SameVertices g'' :=
  ⟨h'.vertices.trans h.vertices, h'.map.trans h.map⟩

theorem getVertexValue (h : g.SameVertices g') (v : Nat) : g'.getVertexValue v = g.getVertexValue v := by
  rw [PPDG.getVertexValue, PPDG.getVertexValue, h.vertices]

theorem transparent (h : g.SameVertices g') (x : DynValue ν) : Transparent g' x = Transparent g x := by
  funext a
  rw [Transparent, Transparent, contains_congr h.map]

theorem persistentDep (h : g.SameVertices g') (kind : Edge) (x y : DynValue ν) :
    PersistentDep I g' kind x y ↔ PersistentDep I g kind x y := by
  cases kind <;> simp only [PersistentDep, h.transparent]

theorem exact (h : g.SameVertices g') (hg : g.Exact) : g'.Exact := by
  constructor
  · intro d v
    rw [getVertices_congr h.map, h.getVertexValue]
    exact hg.mem_getVertices d v
  · intro d
    rw [contains_congr h.map, hg.contains]
    simp only [h.getVertexValue]

end PPDG.SameVertices

/-! ### The vertices -/

theorem PPDG.getVertexValue_append {g g' : PPDG ν} {val : DynValue ν} {info : TraceInfo}
    (h : g'.vertices = g.vertices ++ [(val, info)]) (d : DynValue ν) (v : Nat) :
    g'.getVertexValue v = some d ↔ g.getVertexValue v = some d ∨ (d = val ∧ v = g.vertices.length) := by
  rw [PPDG.getVertexValue, PPDG.getVertexValue, h, List.getElem?_append]
  split_ifs with hv
  · refine ⟨Or.inl, ?_⟩
    rintro (hd | ⟨-, rfl⟩)
    · exact hd
    · exact absurd hv (lt_irrefl _)
  · rw [List.getElem?_eq_none (Nat.le_of_not_lt hv), List.getElem?_singleton]
    split_ifs with hlast
    · simp only [Option.map_some, Option.map_none, Option.some.injEq, reduceCtorEq, false_or]
      refine ⟨fun hd => ⟨hd.symm, by omega⟩, fun hd => hd.1.symm⟩
    · simp only [Option.map_none, reduceCtorEq, false_or, false_iff, not_and]
      omega

/-- The map of a new vertex. -/
theorem createVertex_map {g g' : PPDG ν} {val : DynValue ν} {info : TraceInfo} (h : g.createVertex val info = some g') :
    (∀ d v, v ∈ g'.getVertices d ↔ v ∈ g.getVertices d ∨ (d = val ∧ v = g.vertices.length)) ∧
      ∀ d, g'.contains d = true ↔ g.contains d = true ∨ d = val := by
  rw [PPDG.createVertex] at h
  split at h
  · rename_i first hfirst
    cases h
    constructor
    · intro d v
      simp only [PPDG.getVertices, Dict.get?_set, Dict.get?_erase]
      split_ifs with hd <;> simp_all
    · intro d
      simp only [PPDG.contains, Dict.get?_set, Dict.get?_erase]
      split_ifs with hd <;> simp_all
  · cases h
  · rename_i hnone
    cases h
    constructor
    · intro d v
      simp only [PPDG.getVertices, Dict.get?_set]
      split_ifs with hd <;> simp_all
    · intro d
      simp only [PPDG.contains, Dict.get?_set]
      split_ifs with hd <;> simp_all

theorem createVertex_exact {g g' : PPDG ν} {val : DynValue ν} {info : TraceInfo} (hg : g.Exact)
    (h : g.createVertex val info = some g') : g'.Exact := by
  have hvertices := (createVertex_cases h).1
  obtain ⟨hmem, hcontains⟩ := createVertex_map h
  constructor
  · intro d v
    rw [hmem, hg.mem_getVertices, PPDG.getVertexValue_append hvertices]
  · intro d
    rw [hcontains, hg.contains]
    simp only [PPDG.getVertexValue_append hvertices, exists_or, exists_and_left, exists_eq, and_true]

/-- The pass makes a vertex for each value its map names. -/
theorem generateVertices_exact {trace : List Entry} {g : PPDG ν} (h : generateVertices I trace = some g) : g.Exact := by
  refine generateVertices_induction ⟨?_, ?_⟩ (fun g₀ g₁ v h₀ _ hnew => createVertex_exact h₀ hnew) h
  · exact fun d v => by simp [PPDG.getVertices, PPDG.getVertexValue, PPDG.empty]
  · exact fun d => by simp [PPDG.contains, PPDG.getVertexValue, PPDG.empty]

section Generate

/-- A control dependence among `out` leads to a value from which `y` is reached. -/
def ReachedThrough (I : SlicerInput ν) (g : PPDG ν) (x : DynValue ν) (out : List DepEdge) (y : DynValue ν) : Prop :=
  ∃ o ∈ out, o.kind = .ctrlDep ∧ ∃ c, I.pdg.getVertexValue I.heap o.target = some c ∧ ClearReach I (Transparent g x) c y

theorem reachedThrough_append_of_ne {g : PPDG ν} {x y : DynValue ν} {out : List DepEdge} {o : DepEdge}
    (ho : o.kind ≠ .ctrlDep) :
    ReachedThrough I g x (out ++ [o]) y ↔ ReachedThrough I g x out y := by
  simp [ReachedThrough, or_and_right, exists_or, ho]

theorem reachedThrough_append_ctrlDep {g : PPDG ν} {x y a : DynValue ν} {out : List DepEdge} {o : DepEdge}
    (ho : o.kind = .ctrlDep) (ha : I.pdg.getVertexValue I.heap o.target = some a) :
    ReachedThrough I g x (out ++ [o]) y ↔ ReachedThrough I g x out y ∨ ClearReach I (Transparent g x) a y := by
  simp [ReachedThrough, or_and_right, exists_or, ho, ha]

variable (hpdg : I.pdg.Bounded) (hdistinct : I.Distinct)

include hdistinct

/-- The control dependences of a value are the edges that leave its vertex. -/
theorem persistentDep_ctrlDep_iff (g : PPDG ν) {v : Nat} {x : DynValue ν} (hv : I.pdg.getVertexValue I.heap v = some x)
    (y : DynValue ν) : PersistentDep I g .ctrlDep x y ↔ ReachedThrough I g x (I.pdg.outEdges v) y := by
  constructor
  · rintro ⟨c, ⟨o, ho, hkind, hsource, htarget⟩, hreach⟩
    have hout : o ∈ I.pdg.outEdges v :=
      List.mem_filter.mpr ⟨ho, decide_eq_true (hdistinct.vertex_unique hsource hv)⟩
    exact ⟨o, hout, hkind, c, htarget, hreach⟩
  · rintro ⟨o, ho, hkind, c, htarget, hreach⟩
    obtain ⟨ho, hsource⟩ := List.mem_filter.mp ho
    refine ⟨c, ⟨o, ho, hkind, ?_, htarget⟩, hreach⟩
    rw [of_decide_eq_true hsource]
    exact hv

include hpdg

/-- The loop over edges: the targets that are reached from where the control dependences among them lead. -/
theorem ctrlLoop_edges {g : PPDG ν} (hg : g.Exact) (hvalues : ∀ w ∈ g.vertices, I.pdg.contains w.1) {src : Nat} {x : DynValue ν}
    (hx : g.getVertexValue src = some x) (out : List DepEdge) (htargets : ∀ o ∈ out, o.target < I.pdg.vertices.length) :
    ∃ g', out.foldlM (fun g e => if e.kind ≠ .ctrlDep then some g
        else (getDataEdges I src .ctrlDep I.pdg.vertices.length e.target (g, [])).map Prod.fst) g = some g' ∧
      g.SameVertices g' ∧ ∀ e, e ∈ g'.edges ↔ e ∈ g.edges ∨ (e.source = src ∧ e.kind = .ctrlDep ∧
        ∃ y, g.getVertexValue e.target = some y ∧ y ≠ x ∧ ReachedThrough I g x out y) := by
  induction out using List.reverseRecOn with
  | nil => exact ⟨g, rfl, ⟨rfl, rfl⟩, fun e => by simp [ReachedThrough]⟩
  | append_singleton out o ih =>
      obtain ⟨g₁, hrun, hsame, hedges⟩ := ih fun o' ho' => htargets o' (List.mem_append_left _ ho')
      rw [List.foldlM_append, hrun, Option.bind_eq_bind, Option.bind_some, List.foldlM_cons]
      by_cases hkind : o.kind = .ctrlDep
      · obtain ⟨a, ha⟩ := PDG.exists_getVertexValue (htargets o (by simp))
        obtain ⟨g₂, processed, hcall, hvertices, hmap, hedges₂⟩ := getDataEdges_edges hpdg hdistinct (hsame.exact hg)
          .ctrlDep ((hsame.getVertexValue src).trans hx) ha (by rw [hsame.vertices]; exact hvalues)
        rw [if_neg (not_not.mpr hkind), hcall]
        refine ⟨g₂, rfl, hsame.trans ⟨hvertices, hmap⟩, ?_⟩
        intro e
        rw [hedges₂, hedges, or_assoc]
        apply or_congr_right
        simp only [hsame.getVertexValue, hsame.transparent, reachedThrough_append_ctrlDep hkind ha, and_or_left, exists_or]
      · rw [if_pos hkind]
        refine ⟨g₁, rfl, hsame, ?_⟩
        simpa only [reachedThrough_append_of_ne hkind] using hedges

/-- The edges of the control dependences of a vertex. -/
theorem getCtrlEdges_edges {g : PPDG ν} (hg : g.Exact) (hvalues : ∀ w ∈ g.vertices, I.pdg.contains w.1) {src v : Nat}
    {x : DynValue ν} (hx : g.getVertexValue src = some x) (hv : I.pdg.getVertexValue I.heap v = some x) :
    ∃ g', getCtrlEdges I v src g = some g' ∧ g.SameVertices g' ∧
      ∀ e, e ∈ g'.edges ↔ e ∈ g.edges ∨ (e.source = src ∧ e.kind = .ctrlDep ∧ ∃ y, g.getVertexValue e.target = some y ∧ y ≠ x ∧
        PersistentDep I g .ctrlDep x y) := by
  simp only [persistentDep_ctrlDep_iff hdistinct g hv]
  apply ctrlLoop_edges hpdg hdistinct hg hvalues hx
  intro o ho
  exact hpdg.target_lt o (List.mem_of_mem_filter ho)

/-- The edges of a vertex. -/
theorem generaeteEdgesOf_edges {g : PPDG ν} (hg : g.Exact) (hvalues : ∀ w ∈ g.vertices, I.pdg.contains w.1) {k : Nat}
    (hk : k < g.vertices.length) :
    ∃ g', generaeteEdgesOf I g k = some g' ∧ g.SameVertices g' ∧
      ∀ e, e ∈ g'.edges ↔ e ∈ g.edges ∨
        (e.source = k ∧ ∃ x y, g.getVertexValue k = some x ∧ g.getVertexValue e.target = some y ∧
        x ≠ y ∧ PersistentDep I g e.kind x y) := by
  have hx : g.getVertexValue k = some g.vertices[k].1 := by
    rw [PPDG.getVertexValue, List.getElem?_eq_getElem hk, Option.map_some]
  obtain ⟨v, hv⟩ := Option.isSome_iff_exists.mp (hvalues _ (List.getElem_mem hk))
  have hvx := (hdistinct _ v).mp hv
  obtain ⟨g₁, processed, hdata, hvertices, hmap, hedges₁⟩ := getDataEdges_edges hpdg hdistinct hg .dataDep hx hvx hvalues
  have hsame : g.SameVertices g₁ := ⟨hvertices, hmap⟩
  obtain ⟨g₂, hctrl, hsame₂, hedges₂⟩ := getCtrlEdges_edges hpdg hdistinct (hsame.exact hg) (by rw [hvertices]; exact hvalues)
    ((hsame.getVertexValue k).trans hx) hvx
  refine ⟨g₂, ?_, hsame.trans hsame₂, ?_⟩
  · simp only [generaeteEdgesOf, hx, PDG.vertexOf, hv, hdata, hctrl, Option.bind_eq_bind, Option.bind_some]
  · intro e
    rw [hedges₂, hedges₁, or_assoc]
    apply or_congr_right
    simp only [hsame.getVertexValue, hsame.persistentDep, hx]
    constructor
    · rintro (⟨hsource, hkind, y, hy, hne, hreach⟩ | ⟨hsource, hkind, y, hy, hne, hdep⟩)
      · rw [hkind]
        exact ⟨hsource, _, y, rfl, hy, hne.symm, (hreach.resolve_left hne.symm).2⟩
      · rw [hkind]
        exact ⟨hsource, _, y, rfl, hy, hne.symm, hdep⟩
    · rintro ⟨hsource, x, y, hxk, hy, hne, hdep⟩
      cases hxk
      cases hkind : e.kind with
      | dataDep =>
          rw [hkind] at hdep
          exact .inl ⟨hsource, rfl, y, hy, hne.symm, .inr ⟨.inl rfl, hdep⟩⟩
      | ctrlDep =>
          rw [hkind] at hdep
          exact .inr ⟨hsource, rfl, y, hy, hne.symm, hdep⟩

/-- The edges are the dependences between the values of vertices, whatever the order of the search. -/
theorem generaeteEdges_exact {g : PPDG ν} (hg : g.Exact) (hedges : g.edges = [])
    (hvalues : ∀ w ∈ g.vertices, I.pdg.contains w.1) :
    ∃ g', generaeteEdges I g = some g' ∧ g'.vertices = g.vertices ∧
      ∀ e, e ∈ g'.edges ↔ ∃ x y, g.getVertexValue e.source = some x ∧ g.getVertexValue e.target = some y ∧ x ≠ y ∧
        PersistentDep I g e.kind x y := by
  suffices hloop : ∀ k ≤ g.vertices.length, ∃ g', (List.range k).foldlM (generaeteEdgesOf I) g = some g' ∧ g.SameVertices g' ∧
      ∀ e, e ∈ g'.edges ↔ e.source < k ∧ ∃ x y, g.getVertexValue e.source = some x ∧ g.getVertexValue e.target = some y ∧
        x ≠ y ∧ PersistentDep I g e.kind x y by
    obtain ⟨g', hrun, hsame, hall⟩ := hloop g.vertices.length (le_refl _)
    refine ⟨g', hrun, hsame.vertices, ?_⟩
    intro e
    rw [hall]
    refine ⟨And.right, fun h => ⟨?_, h⟩⟩
    obtain ⟨x, y, hx, -⟩ := h
    rw [PPDG.getVertexValue, Option.map_eq_some_iff] at hx
    obtain ⟨p, hp, -⟩ := hx
    exact (List.getElem?_eq_some_iff.mp hp).1
  intro k
  induction k with
  | zero =>
      intro _
      exact ⟨g, rfl, ⟨rfl, rfl⟩, fun e => by simp [hedges]⟩
  | succ k ih =>
      intro hk
      obtain ⟨g₁, hrun, hsame, hall⟩ := ih (by omega)
      obtain ⟨g₂, hstep, hsame₂, hnew⟩ := generaeteEdgesOf_edges hpdg hdistinct (hsame.exact hg)
        (by rw [hsame.vertices]; exact hvalues) (k := k) (by rw [hsame.vertices]; exact hk)
      refine ⟨g₂, ?_, hsame.trans hsame₂, ?_⟩
      · rw [List.range_succ, List.foldlM_append, hrun, Option.bind_eq_bind, Option.bind_some, List.foldlM_cons, hstep]
        rfl
      · intro e
        rw [hnew, hall]
        simp only [hsame.getVertexValue, hsame.persistentDep]
        constructor
        · rintro (⟨hlt, hdep⟩ | ⟨rfl, hdep⟩)
          · exact ⟨Nat.lt_succ_of_lt hlt, hdep⟩
          · exact ⟨Nat.lt_succ_self _, hdep⟩
        · rintro ⟨hlt, hdep⟩
          rcases Nat.lt_succ_iff_lt_or_eq.mp hlt with hlt | rfl
          · exact .inl ⟨hlt, hdep⟩
          · exact .inr ⟨rfl, hdep⟩

end Generate

end Search

/-! ### Three values -/

/-- Three executions with the dependences between them; the persistent ones are those of the trace. -/
def threeValues (edges : List DepEdge) : SlicerInput Nat where
  pdg := ⟨[0, 1, 2], ((Dict.empty.set ⟨0, 0⟩ 0).set ⟨1, 0⟩ 1).set ⟨2, 0⟩ 2, edges⟩
  heap p := ⟨p, 0⟩
  getDynValueFromIndex id _ := some ⟨id.toNat, 0⟩
  locateSrcInfo _ := ""
  pmAddrRange := ⟨64, 128⟩

theorem threeValues_distinct (edges : List DepEdge) : (threeValues edges).Distinct := by
  intro d v
  have hmap : (threeValues edges).pdg.vertexOf d = some v ↔ (d = ⟨2, 0⟩ ∧ v = 2) ∨ (d = ⟨1, 0⟩ ∧ v = 1) ∨
    (d = ⟨0, 0⟩ ∧ v = 0) := by
    simp only [threeValues, PDG.vertexOf, Dict.get?_set, Dict.get?_empty]
    split_ifs with h₂ h₁ h₀ <;> simp_all [eq_comm]
  rw [hmap]
  rcases v with _ | _ | _ | v
  · simp [threeValues, PDG.getVertexValue, eq_comm]
  · simp [threeValues, PDG.getVertexValue, eq_comm]
  · simp [threeValues, PDG.getVertexValue, eq_comm]
  · simp [threeValues, PDG.getVertexValue]

/-- A store control dependent on a persistent load, which was loaded through another persistent load. -/
def branchOnLoad : SlicerInput Nat := threeValues [⟨2, 1, .ctrlDep⟩, ⟨1, 0, .dataDep⟩]

def branchOnLoadTrace : List Entry := [⟨.ldType, 0, 0, 64, 8⟩, ⟨.ldType, 1, 0, 72, 8⟩, ⟨.stType, 2, 0, 80, 8⟩]

/-- The search from the control dependence stops at the load it leads to, so the data path from there to the
other load gives no edge. -/
theorem ctrlDep_stops_at_load : ∃ g g', generateVertices branchOnLoad branchOnLoadTrace = some g ∧
    generaeteEdges branchOnLoad g = some g' ∧ g.getVertexValue 2 = some ⟨2, 0⟩ ∧ g.getVertexValue 0 = some ⟨0, 0⟩ ∧
    (∃ c, DepOn branchOnLoad .ctrlDep ⟨2, 0⟩ c ∧ (c = ⟨0, 0⟩ ∨ ClearPath branchOnLoad (Transparent g ⟨2, 0⟩) c ⟨0, 0⟩)) ∧
    ⟨2, 0, .ctrlDep⟩ ∉ g'.edges := by
  obtain ⟨g, hg⟩ : ∃ g, generateVertices branchOnLoad branchOnLoadTrace = some g := ⟨_, rfl⟩
  obtain ⟨g', hg'⟩ : ∃ g', generaeteEdges branchOnLoad g = some g' := by
    cases hg
    exact ⟨_, rfl⟩
  refine ⟨g, g', hg, hg', ?_, ?_, ⟨⟨1, 0⟩, ⟨⟨2, 1, .ctrlDep⟩, ?_⟩, .inr (.edge ⟨⟨1, 0, .dataDep⟩, ?_⟩)⟩, ?_⟩
  · cases hg
    rfl
  · cases hg
    rfl
  · decide
  · decide
  · cases hg
    cases hg'
    decide

/-- A store of what was computed in a loop from a load, under a branch on that load; only the load and the store
are persistent. -/
def loopStore : SlicerInput Nat :=
  threeValues [⟨2, 1, .dataDep⟩, ⟨1, 1, .dataDep⟩, ⟨1, 2, .dataDep⟩, ⟨1, 0, .dataDep⟩, ⟨2, 0, .ctrlDep⟩]

def loopStoreTrace : List Entry := [⟨.ldType, 0, 0, 64, 8⟩, ⟨.stType, 2, 0, 72, 8⟩]

theorem generaeteEdges_exact_loop_store : ∃ g g', generateVertices loopStore loopStoreTrace = some g ∧
    generaeteEdges loopStore g = some g' ∧ g'.edges = [⟨1, 0, .dataDep⟩, ⟨1, 0, .ctrlDep⟩] ∧
    ∀ e, e ∈ g'.edges ↔ ∃ x y, g.getVertexValue e.source = some x ∧ g.getVertexValue e.target = some y ∧ x ≠ y ∧
      PersistentDep loopStore g e.kind x y := by
  have hbounded : loopStore.pdg.Bounded := by
    constructor
    · intro d v hd
      simp only [loopStore, threeValues, PDG.vertexOf, Dict.get?_set, Dict.get?_empty] at hd
      split_ifs at hd <;> cases hd <;> decide
    · decide
  obtain ⟨g, hg⟩ : ∃ g, generateVertices loopStore loopStoreTrace = some g := ⟨_, rfl⟩
  obtain ⟨hnil, hpersistent⟩ := generateVertices_spec hg
  obtain ⟨g', hrun, -, hedges⟩ := generaeteEdges_exact hbounded (threeValues_distinct _) (generateVertices_exact hg) hnil
    fun w hw => (hpersistent w hw).1
  refine ⟨g, g', hg, hrun, ?_, hedges⟩
  cases hg
  cases hrun
  rfl

end Witcher
