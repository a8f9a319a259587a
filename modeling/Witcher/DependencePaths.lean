import Mathlib.Data.List.Forall2
import Witcher.DependenceGraph

/-! Paths of the dependence graph. The edge to a dependence ends at the vertex of the value as it was
found, the edges of that value leave from the vertex of the normalised value. The two are one vertex
exactly when the value was found normalised. -/

namespace Witcher

variable {ν β : Type}

/-! ### What a run has to process -/

def CtrlDependent (T : TraceFile ν β) (d t : DynValue ν) : Prop :=
  ∃ b, T.basicBlock d = some b ∧ T.execForcer b = .terminator t

/-- The values that slicing the initial loads and stores asks for, normalised. -/
inductive Demanded (T : TraceFile ν β) (initials : List (DynValue ν)) : DynValue ν → Prop
  | initial {v : DynValue ν} : v ∈ initials → Demanded T initials (T.normalize v)
  | data {d e : DynValue ν} : Demanded T initials d → e ∈ T.getSourcesFor d → Demanded T initials (T.normalize e)
  | ctrl {d t : DynValue ν} : Demanded T initials d → CtrlDependent T d t → Demanded T initials (T.normalize t)

theorem Demanded.mono {T : TraceFile ν β} {initials more : List (DynValue ν)} {d : DynValue ν}
    (h : Demanded T initials d) (hsub : ∀ v ∈ initials, v ∈ more) : Demanded T more d := by
  induction h with
  | initial hv => exact .initial (hsub _ hv)
  | data _ he ih => exact .data ih he
  | ctrl _ ht ih => exact .ctrl ih ht

def HasDependence (T : TraceFile ν β) (d : DynValue ν) : Prop :=
  (∃ e, e ∈ T.getSourcesFor d) ∨ ∃ t, CtrlDependent T d t

/-- Every data source that is demanded is found normalised, unless it has no dependence of its own. -/
def SourcesNormal (T : TraceFile ν β) (initials : List (DynValue ν)) : Prop :=
  ∀ d, Demanded T initials d → ∀ e ∈ T.getSourcesFor d, T.normalize e = e ∨ ¬HasDependence T (T.normalize e)

variable [DecidableEq ν]

/-! ### Vertices -/

/-- Different values have different vertices. -/
structure PDG.Inv (g : PDG ν) : Prop where
  bound : ∀ d v, g.vertexOf d = some v → v < g.vertices.length
  inj : ∀ d d' v, g.vertexOf d = some v → g.vertexOf d' = some v → d = d'

theorem PDG.getVertexOrCreate_spec {g : PDG ν} (h : g.Inv) (heap : Nat → DynValue ν) (val : Nat) :
    (g.getVertexOrCreate heap val).2.vertexOf (heap val) = some (g.getVertexOrCreate heap val).1 ∧
      (g.getVertexOrCreate heap val).2.Inv ∧ (g.getVertexOrCreate heap val).2.edges = g.edges ∧
      ∀ d v, g.vertexOf d = some v → (g.getVertexOrCreate heap val).2.vertexOf d = some v := by
  rw [PDG.getVertexOrCreate]
  cases hget : g.valToVtxMap.get? (heap val) with
  | some v => exact ⟨hget, h, rfl, fun _ _ hd => hd⟩
  | none =>
      have hvertex : ∀ d, (g.valToVtxMap.set (heap val) g.vertices.length).get? d =
          if d = heap val then some g.vertices.length else g.vertexOf d :=
        fun d => Dict.get?_set _ _ _ _
      refine ⟨by simp only [PDG.vertexOf, hvertex, if_true], ⟨?_, ?_⟩, rfl, ?_⟩
      · intro d v hd
        simp only [PDG.vertexOf, hvertex] at hd
        rw [List.length_append, List.length_singleton]
        split_ifs at hd with heq
        · cases hd
          omega
        · have := h.bound d v hd
          omega
      · intro d d' v hd hd'
        simp only [PDG.vertexOf, hvertex] at hd hd'
        split_ifs at hd hd' with heq heq' heq'
        · rw [heq, heq']
        · cases hd
          exact absurd (h.bound d' _ hd') (Nat.lt_irrefl _)
        · cases hd'
          exact absurd (h.bound d _ hd) (Nat.lt_irrefl _)
        · exact h.inj d d' v hd hd'
      · intro d v hd
        simp only [PDG.vertexOf, hvertex]
        rw [if_neg]
        · exact hd
        · rintro rfl
          rw [PDG.vertexOf, hget] at hd
          cases hd

theorem PDG.addDepEdge_spec {g : PDG ν} (h : g.Inv) (heap : Nat → DynValue ν) (source target : Nat) (kind : Edge) :
    ∃ u v, (g.addDepEdge heap source target kind).vertexOf (heap source) = some u ∧
      (g.addDepEdge heap source target kind).vertexOf (heap target) = some v ∧
      (g.addDepEdge heap source target kind).edges = g.edges ++ [⟨u, v, kind⟩] ∧
      (g.addDepEdge heap source target kind).Inv ∧
      ∀ d w, g.vertexOf d = some w → (g.addDepEdge heap source target kind).vertexOf d = some w := by
  obtain ⟨hsource, hinv₁, hedges₁, hmap₁⟩ := PDG.getVertexOrCreate_spec h heap source
  obtain ⟨htarget, hinv₂, hedges₂, hmap₂⟩ := PDG.getVertexOrCreate_spec hinv₁ heap target
  refine ⟨(g.getVertexOrCreate heap source).1, ((g.getVertexOrCreate heap source).2.getVertexOrCreate heap target).1,
    hmap₂ _ _ hsource, htarget, ?_, ⟨hinv₂.bound, hinv₂.inj⟩, fun d w hd => hmap₂ _ _ (hmap₁ _ _ hd)⟩
  simp only [PDG.addDepEdge, hedges₂, hedges₁]

/-! ### Growing a state -/

/-- A value is processed, or waits on the worklist to be normalised to it. -/
def Scheduled (T : TraceFile ν β) (s : SlicingState ν β) (x : DynValue ν) : Prop :=
  x ∈ s.processedValues ∨ ∃ p ∈ s.toProcess, T.normalize (s.heap p) = x

/-- What adding dependences of the value behind `DV` does to a state. -/
structure Grown (T : TraceFile ν β) (DV : Nat) (s s' : SlicingState ν β) : Prop where
  valid : ∀ p ∈ s'.toProcess, p < s'.next
  inv : s'.graph.Inv
  processed : s'.processedValues = s.processedValues
  next_le : s.next ≤ s'.next
  heap : ∀ p < s.next, s'.heap p = s.heap p
  toProcess : ∀ p ∈ s.toProcess, p ∈ s'.toProcess
  added : ∀ p ∈ s'.toProcess, p ∈ s.toProcess ∨
    s'.heap p ∈ T.getSourcesFor (s.heap DV) ∨ CtrlDependent T (s.heap DV) (s'.heap p)
  map : ∀ d v, s.graph.vertexOf d = some v → s'.graph.vertexOf d = some v
  edges : ∀ g ∈ s.graph.edges, g ∈ s'.graph.edges
  newEdges : ∀ g ∈ s'.graph.edges, g ∈ s.graph.edges ∨
    (s'.graph.vertexOf (s.heap DV) = some g.source ∧ HasDependence T (s.heap DV))

section Growing

variable {T : TraceFile ν β} {DV : Nat} {s s' s'' : SlicingState ν β}

theorem Grown.refl (hvalid : ∀ p ∈ s.toProcess, p < s.next) (hinv : s.graph.Inv) : Grown T DV s s :=
  ⟨hvalid, hinv, rfl, Nat.le_refl _, fun _ _ => rfl, fun _ hp => hp, fun _ hp => .inl hp, fun _ _ h => h, fun _ h => h,
    fun _ h => .inl h⟩

theorem Grown.trans (h : Grown T DV s s') (hDV : DV < s.next) (h' : Grown T DV s' s'') : Grown T DV s s'' where
  valid := h'.valid
  inv := h'.inv
  processed := h'.processed.trans h.processed
  next_le := Nat.le_trans h.next_le h'.next_le
  heap p hp := (h'.heap p (Nat.lt_of_lt_of_le hp h.next_le)).trans (h.heap p hp)
  toProcess p hp := h'.toProcess p (h.toProcess p hp)
  added p hp := by
    rw [← h.heap DV hDV]
    rcases h'.added p hp with hold | hnew
    · rcases h.added p hold with hold' | hnew
      · exact .inl hold'
      · rw [h'.heap p (h.valid p hold)]
        rw [h.heap DV hDV]
        exact .inr hnew
    · exact .inr hnew
  map d v hd := h'.map d v (h.map d v hd)
  edges g hg := h'.edges g (h.edges g hg)
  newEdges g hg := by
    rw [← h.heap DV hDV]
    rcases h'.newEdges g hg with hold | hnew
    · rcases h.newEdges g hold with hold' | ⟨hvertex, hdep⟩
      · exact .inl hold'
      · rw [h.heap DV hDV]
        exact .inr ⟨h'.map _ _ hvertex, hdep⟩
    · exact .inr hnew

theorem Grown.scheduled (h : Grown T DV s s') (hvalid : ∀ p ∈ s.toProcess, p < s.next) {x : DynValue ν}
    (hx : Scheduled T s x) : Scheduled T s' x := by
  rcases hx with hx | ⟨p, hp, hx⟩
  · exact .inl (by rw [h.processed]; exact hx)
  · exact .inr ⟨p, h.toProcess p hp, by rw [h.heap p (hvalid p hp)]; exact hx⟩

omit [DecidableEq ν] in
/-- Allocation gives new pointers to the values and changes nothing else. -/
theorem SlicingState.allocate_spec (s : SlicingState ν β) (es : List (DynValue ν)) :
    ∃ heap next ps, s.allocate es = ({ s with heap := heap, next := next }, ps) ∧ s.next ≤ next ∧
      (∀ p < s.next, heap p = s.heap p) ∧ List.Forall₂ (fun p e => heap p = e ∧ p < next) ps es := by
  induction es generalizing s with
  | nil => exact ⟨s.heap, s.next, [], rfl, Nat.le_refl _, fun _ _ => rfl, .nil⟩
  | cons e es ih =>
      obtain ⟨heap, next, ps, heq, hle, hheap, hps⟩ :=
        ih { s with heap := Function.update s.heap s.next e, next := s.next + 1 }
      refine ⟨heap, next, s.next :: ps, ?_, Nat.le_of_succ_le hle, ?_, .cons ⟨?_, ?_⟩ hps⟩
      · rw [SlicingState.allocate, heq]
      · intro p hp
        rw [hheap p (Nat.lt_succ_of_lt hp)]
        exact Function.update_of_ne (by omega) _ _
      · rw [hheap s.next (Nat.lt_succ_self _)]
        exact Function.update_self _ _ _
      · exact hle

theorem Grown.of_heap (hvalid : ∀ p ∈ s.toProcess, p < s.next) (hinv : s.graph.Inv) {heap : Nat → DynValue ν}
    {next : Nat} (hle : s.next ≤ next) (hheap : ∀ p < s.next, heap p = s.heap p) :
    Grown T DV s { s with heap := heap, next := next } :=
  ⟨fun p hp => Nat.lt_of_lt_of_le (hvalid p hp) hle, hinv, rfl, hle, hheap, fun _ hp => hp, fun _ hp => .inl hp,
    fun _ _ h => h, fun _ h => h, fun _ h => .inl h⟩

/-- An edge from the value to another object. -/
theorem Grown.addEdge (hvalid : ∀ p ∈ s.toProcess, p < s.next) (hinv : s.graph.Inv) (dep : Nat) (kind : Edge)
    (hdep : HasDependence T (s.heap DV)) :
    Grown T DV s (s.addEdge DV dep kind) ∧ ∃ u v, (s.addEdge DV dep kind).graph.vertexOf (s.heap DV) = some u ∧
      (s.addEdge DV dep kind).graph.vertexOf (s.heap dep) = some v ∧
      ⟨u, v, kind⟩ ∈ (s.addEdge DV dep kind).graph.edges := by
  obtain ⟨u, v, hu, hv, hedges, hinv', hmap⟩ := PDG.addDepEdge_spec hinv s.heap DV dep kind
  refine ⟨⟨hvalid, hinv', rfl, Nat.le_refl _, fun _ _ => rfl, fun _ hp => hp, fun _ hp => .inl hp, hmap, ?_, ?_⟩,
    u, v, hu, hv, ?_⟩
  · intro g hg
    rw [SlicingState.addEdge, hedges]
    exact List.mem_append_left _ hg
  · intro g hg
    rw [SlicingState.addEdge, hedges] at hg
    rcases List.mem_append.mp hg with hg | hg
    · exact .inl hg
    · rw [List.mem_singleton.mp hg]
      exact .inr ⟨hu, hdep⟩
  · rw [SlicingState.addEdge, hedges]
    exact List.mem_append_right _ (List.mem_singleton_self _)

/-- An edge to a new dependence, which then waits on the worklist. -/
theorem Grown.addDep (hvalid : ∀ p ∈ s.toProcess, p < s.next) (hinv : s.graph.Inv) {dep : Nat} (hdep : dep < s.next)
    (kind : Edge) (hsource : s.heap dep ∈ T.getSourcesFor (s.heap DV) ∨ CtrlDependent T (s.heap DV) (s.heap dep)) :
    Grown T DV s (SlicingState.addDep DV kind s dep) ∧
      Scheduled T (SlicingState.addDep DV kind s dep) (T.normalize (s.heap dep)) ∧
      ∃ u v, (SlicingState.addDep DV kind s dep).graph.vertexOf (s.heap DV) = some u ∧
        (SlicingState.addDep DV kind s dep).graph.vertexOf (s.heap dep) = some v ∧
        ⟨u, v, kind⟩ ∈ (SlicingState.addDep DV kind s dep).graph.edges := by
  have hhas : HasDependence T (s.heap DV) := by
    rcases hsource with h | h
    · exact .inl ⟨_, h⟩
    · exact .inr ⟨_, h⟩
  obtain ⟨hgrown, hedge⟩ := Grown.addEdge hvalid hinv dep kind hhas
  refine ⟨⟨?_, hgrown.inv, rfl, Nat.le_refl _, fun _ _ => rfl, fun _ hp => List.mem_cons_of_mem _ hp, ?_, hgrown.map,
    hgrown.edges, hgrown.newEdges⟩, .inr ⟨dep, List.mem_cons_self, rfl⟩, hedge⟩
  · intro p hp
    rcases List.mem_cons.mp hp with rfl | hp
    · exact hdep
    · exact hvalid p hp
  · intro p hp
    rcases List.mem_cons.mp hp with rfl | hp
    · exact .inr hsource
    · exact .inl hp

end Growing

/-! ### The two dependence analyses -/

section Analyses

variable {T : TraceFile ν β} {DV : Nat} {s : SlicingState ν β}

/-- The edge of one data dependence. -/
def HasDataEdge (g : PDG ν) (d e : DynValue ν) : Prop :=
  ∃ u v, g.vertexOf d = some u ∧ g.vertexOf e = some v ∧ ⟨u, v, .dataDep⟩ ∈ g.edges

theorem HasDataEdge.grown {s' : SlicingState ν β} (h : Grown T DV s s') {d e : DynValue ν}
    (hedge : HasDataEdge s.graph d e) : HasDataEdge s'.graph d e := by
  obtain ⟨u, v, hu, hv, hmem⟩ := hedge
  exact ⟨u, v, h.map _ _ hu, h.map _ _ hv, h.edges _ hmem⟩

/-- The loop over the sources. -/
theorem addDep_foldl {ps : List Nat} {es : List (DynValue ν)}
    (hps : List.Forall₂ (fun p e => s.heap p = e ∧ p < s.next) ps es)
    (hes : ∀ e ∈ es, e ∈ T.getSourcesFor (s.heap DV)) (hDV : DV < s.next) (hvalid : ∀ p ∈ s.toProcess, p < s.next)
    (hinv : s.graph.Inv) :
    Grown T DV s (ps.foldl (SlicingState.addDep DV .dataDep) s) ∧
      (ps.foldl (SlicingState.addDep DV .dataDep) s).processedBBs = s.processedBBs ∧
      ∀ e ∈ es, Scheduled T (ps.foldl (SlicingState.addDep DV .dataDep) s) (T.normalize e) ∧
        HasDataEdge (ps.foldl (SlicingState.addDep DV .dataDep) s).graph (s.heap DV) e := by
  induction ps generalizing es s with
  | nil =>
      cases hps
      exact ⟨Grown.refl hvalid hinv, rfl, by simp⟩
  | cons p ps ih =>
      cases hps with
      | @cons _ e _ es hp hps =>
          obtain ⟨rfl, hlt⟩ := hp
          obtain ⟨hgrown, hscheduled, hedge⟩ :=
            Grown.addDep hvalid hinv hlt .dataDep (.inl (hes _ List.mem_cons_self))
          obtain ⟨hrest, hBBs, hsources⟩ := ih (s := SlicingState.addDep DV .dataDep s p) hps
            (fun e he => hes e (List.mem_cons_of_mem _ he)) hDV hgrown.valid hgrown.inv
          refine ⟨hgrown.trans hDV hrest, hBBs, ?_⟩
          intro e he
          rcases List.mem_cons.mp he with rfl | he
          · exact ⟨hrest.scheduled hgrown.valid hscheduled, HasDataEdge.grown hrest hedge⟩
          · exact hsources e he

/-- Data dependences: an edge to each source, and each source waits on the worklist. -/
theorem slicingDataDep_spec (hDV : DV < s.next) (hvalid : ∀ p ∈ s.toProcess, p < s.next) (hinv : s.graph.Inv) :
    Grown T DV s (slicingDataDep T s DV) ∧ (slicingDataDep T s DV).processedBBs = s.processedBBs ∧
      ∀ e ∈ T.getSourcesFor (s.heap DV), Scheduled T (slicingDataDep T s DV) (T.normalize e) ∧
        HasDataEdge (slicingDataDep T s DV).graph (s.heap DV) e := by
  obtain ⟨heap, next, ps, halloc, hle, hheap, hps⟩ := s.allocate_spec (T.getSourcesFor (s.heap DV))
  have hstart : Grown T DV s { s with heap := heap, next := next } := Grown.of_heap hvalid hinv hle hheap
  have hsame : heap DV = s.heap DV := hheap DV hDV
  obtain ⟨hgrown, hBBs, hsources⟩ := addDep_foldl (T := T) (s := { s with heap := heap, next := next }) hps
    (fun e he => by simp only [hsame]; exact he) (Nat.lt_of_lt_of_le hDV hle) hstart.valid hstart.inv
  rw [slicingDataDep, halloc]
  refine ⟨hstart.trans hDV hgrown, hBBs, ?_⟩
  simpa only [hsame] using hsources

variable [DecidableEq β]

/-- The record of searched blocks: a pointer stands for a forcer that waits or is processed, the null
pointer for a block without one. -/
structure SearchedBlocks (T : TraceFile ν β) (s : SlicingState ν β) : Prop where
  found : ∀ b p, s.processedBBs.get? b = some (some p) → ∃ t, T.execForcer b = .terminator t ∧ Scheduled T s (T.normalize t)
  null : ∀ b, s.processedBBs.get? b = some none → ∀ t, T.execForcer b ≠ .terminator t

omit [DecidableEq ν] in
theorem SearchedBlocks.of_scheduled {s' : SlicingState ν β} (h : SearchedBlocks T s)
    (hBBs : s'.processedBBs = s.processedBBs) (hscheduled : ∀ x, Scheduled T s x → Scheduled T s' x) :
    SearchedBlocks T s' where
  found b p hb := by
    rw [hBBs] at hb
    obtain ⟨t, ht, hc⟩ := h.found b p hb
    exact ⟨t, ht, hscheduled _ hc⟩
  null b hb := by
    rw [hBBs] at hb
    exact h.null b hb

theorem SearchedBlocks.grown {s' : SlicingState ν β} (h : SearchedBlocks T s)
    (hvalid : ∀ p ∈ s.toProcess, p < s.next) (hgrown : Grown T DV s s') (hBBs : s'.processedBBs = s.processedBBs) :
    SearchedBlocks T s' :=
  h.of_scheduled hBBs fun _ => hgrown.scheduled hvalid

omit [DecidableEq ν] in
theorem SearchedBlocks.setNull {b : β} (h : SearchedBlocks T s) (hforcer : T.execForcer b = .entryOnly) :
    SearchedBlocks T { s with processedBBs := s.processedBBs.set b none } where
  found b' p hb' := by
    rw [Dict.get?_set] at hb'
    split_ifs at hb' with heq
    · cases hb'
    · exact h.found b' p hb'
  null b' hb' t ht := by
    rw [Dict.get?_set] at hb'
    split_ifs at hb' with heq
    · rw [heq, hforcer] at ht
      cases ht
    · exact h.null b' hb' t ht

theorem SearchedBlocks.setFound {s' : SlicingState ν β} {b : β} {p : Nat} {t : DynValue ν} (h : SearchedBlocks T s)
    (hvalid : ∀ p ∈ s.toProcess, p < s.next) (hgrown : Grown T DV s s')
    (hBBs : s'.processedBBs = s.processedBBs.set b (some p)) (hforcer : T.execForcer b = .terminator t)
    (hscheduled : Scheduled T s' (T.normalize t)) : SearchedBlocks T s' where
  found b' p' hb' := by
    rw [hBBs, Dict.get?_set] at hb'
    split_ifs at hb' with heq
    · exact ⟨t, by rw [heq]; exact hforcer, hscheduled⟩
    · obtain ⟨t', ht', hc⟩ := h.found b' p' hb'
      exact ⟨t', ht', hgrown.scheduled hvalid hc⟩
  null b' hb' := by
    rw [hBBs, Dict.get?_set] at hb'
    split_ifs at hb' with heq
    · cases hb'
    · exact h.null b' hb'

/-- What the search for the control dependence of the value behind `DV` does: an edge if the block has a
forcer, and the forcer is processed or waits. -/
structure CtrlSliced (T : TraceFile ν β) (DV : Nat) (s s' : SlicingState ν β) : Prop where
  grown : Grown T DV s s'
  blocks : SearchedBlocks T s'
  edges : ∀ t, CtrlDependent T (s.heap DV) t → Scheduled T s' (T.normalize t) ∧
    ∃ g ∈ s'.graph.edges, s'.graph.vertexOf (s.heap DV) = some g.source

/-- A value without a control dependence adds no edge. -/
theorem CtrlSliced.none (hvalid : ∀ p ∈ s.toProcess, p < s.next) (hinv : s.graph.Inv)
    {blocks : Dict β (Option Nat)} (hblocks : SearchedBlocks T { s with processedBBs := blocks })
    (hdep : ∀ t, ¬CtrlDependent T (s.heap DV) t) : CtrlSliced T DV s { s with processedBBs := blocks } where
  grown := ⟨hvalid, hinv, rfl, Nat.le_refl _, fun _ _ => rfl, fun _ hp => hp, fun _ hp => .inl hp, fun _ _ h => h,
    fun _ h => h, fun _ h => .inl h⟩
  blocks := hblocks
  edges t ht := absurd ht (hdep t)

/-- The forcer was found before. -/
theorem CtrlSliced.cached (hvalid : ∀ p ∈ s.toProcess, p < s.next) (hinv : s.graph.Inv) (hblocks : SearchedBlocks T s)
    {t : DynValue ν} (hctrl : ∀ t', CtrlDependent T (s.heap DV) t' ↔ t' = t) (hscheduled : Scheduled T s (T.normalize t))
    (p : Nat) : CtrlSliced T DV s (s.addEdge DV p .ctrlDep) := by
  obtain ⟨hgrown, u, v, hu, _, hmem⟩ := Grown.addEdge (T := T) hvalid hinv p .ctrlDep (.inr ⟨t, (hctrl t).mpr rfl⟩)
  refine ⟨hgrown, hblocks.grown hvalid hgrown rfl, ?_⟩
  intro t' ht'
  rw [(hctrl t').mp ht']
  exact ⟨hgrown.scheduled hvalid hscheduled, _, hmem, hu⟩

/-- The forcer is new: it is recorded and put on the worklist. -/
theorem CtrlSliced.found (hDV : DV < s.next) (hvalid : ∀ p ∈ s.toProcess, p < s.next) (hinv : s.graph.Inv)
    (hblocks : SearchedBlocks T s) {b : β} {t : DynValue ν} (hforcer : T.execForcer b = .terminator t)
    (hctrl : ∀ t', CtrlDependent T (s.heap DV) t' ↔ t' = t) {heap : Nat → DynValue ν} {next p : Nat}
    (hle : s.next ≤ next) (hheap : ∀ q < s.next, heap q = s.heap q) (hvalue : heap p = t) (hlt : p < next) :
    CtrlSliced T DV s (SlicingState.addDep DV .ctrlDep
      { s with heap := heap, next := next, processedBBs := s.processedBBs.set b (some p) } p) := by
  have hsame : heap DV = s.heap DV := hheap DV hDV
  have hstart : Grown T DV s { s with heap := heap, next := next, processedBBs := s.processedBBs.set b (some p) } :=
    ⟨fun q hq => Nat.lt_of_lt_of_le (hvalid q hq) hle, hinv, rfl, hle, hheap, fun _ hq => hq,
      fun _ hq => .inl hq, fun _ _ h => h, fun _ h => h, fun _ h => .inl h⟩
  have hdep : CtrlDependent T (heap DV) (heap p) := by
    rw [hsame, hvalue]
    exact (hctrl t).mpr rfl
  obtain ⟨hgrown, hscheduled, u, v, hu, _, hmem⟩ := Grown.addDep (T := T)
    (s := { s with heap := heap, next := next, processedBBs := s.processedBBs.set b (some p) })
    hstart.valid hstart.inv hlt .ctrlDep (.inr hdep)
  have hwhole := hstart.trans hDV hgrown
  simp only [hvalue] at hscheduled
  simp only [hsame] at hu
  refine ⟨hwhole, hblocks.setFound hvalid hwhole rfl hforcer hscheduled, ?_⟩
  intro t' ht'
  rw [(hctrl t').mp ht']
  exact ⟨hscheduled, _, hmem, hu⟩

theorem slicingCtrlDep_spec (hDV : DV < s.next) (hvalid : ∀ p ∈ s.toProcess, p < s.next) (hinv : s.graph.Inv)
    (hblocks : SearchedBlocks T s) : CtrlSliced T DV s (slicingCtrlDep T s DV) := by
  cases hblock : T.basicBlock (s.heap DV) with
  | none =>
      have hres : slicingCtrlDep T s DV = s := by simp only [slicingCtrlDep, hblock]
      rw [hres]
      refine CtrlSliced.none hvalid hinv hblocks ?_
      rintro t ⟨b, hb, _⟩
      rw [hblock] at hb
      cases hb
  | some b =>
      have hctrl : ∀ t, CtrlDependent T (s.heap DV) t ↔ T.execForcer b = .terminator t := by
        intro t
        rw [CtrlDependent, hblock]
        exact ⟨fun ⟨b', hb', ht⟩ => by cases hb'; exact ht, fun ht => ⟨b, rfl, ht⟩⟩
      have hunique : ∀ t, T.execForcer b = .terminator t → ∀ t', CtrlDependent T (s.heap DV) t' ↔ t' = t := by
        intro t ht t'
        rw [hctrl, ht, ExecForcer.terminator.injEq, eq_comm]
      cases hget : s.processedBBs.get? b with
      | some cached =>
          cases cached with
          | none =>
              have hres : slicingCtrlDep T s DV = s := by simp only [slicingCtrlDep, hblock, hget]
              rw [hres]
              exact CtrlSliced.none hvalid hinv hblocks fun t ht => hblocks.null b hget t ((hctrl t).mp ht)
          | some p =>
              have hres : slicingCtrlDep T s DV = s.addEdge DV p .ctrlDep := by
                simp only [slicingCtrlDep, hblock, hget]
              obtain ⟨t, ht, hscheduled⟩ := hblocks.found b p hget
              rw [hres]
              exact CtrlSliced.cached hvalid hinv hblocks (hunique t ht) hscheduled p
      | none =>
          cases hforcer : T.execForcer b with
          | notFound =>
              have hres : slicingCtrlDep T s DV = s := by simp only [slicingCtrlDep, hblock, hget, hforcer]
              rw [hres]
              refine CtrlSliced.none hvalid hinv hblocks fun t ht => ?_
              rw [hctrl, hforcer] at ht
              cases ht
          | entryOnly =>
              have hres : slicingCtrlDep T s DV = { s with processedBBs := s.processedBBs.set b none } := by
                simp only [slicingCtrlDep, hblock, hget, hforcer]
              rw [hres]
              refine CtrlSliced.none hvalid hinv (hblocks.setNull hforcer) fun t ht => ?_
              rw [hctrl, hforcer] at ht
              cases ht
          | terminator t =>
              obtain ⟨heap, next, ps, halloc, hle, hheap, hps⟩ := s.allocate_spec [t]
              cases hps with
              | @cons p _ _ _ hp hnil =>
                  cases hnil
                  have hres : slicingCtrlDep T s DV = SlicingState.addDep DV .ctrlDep
                      { s with heap := heap, next := next, processedBBs := s.processedBBs.set b (some p) } p := by
                    simp only [slicingCtrlDep, hblock, hget, hforcer, halloc, List.foldl_cons, List.foldl_nil]
                  rw [hres]
                  exact CtrlSliced.found hDV hvalid hinv hblocks hforcer (hunique t hforcer) hle hheap hp.1 hp.2

end Analyses

variable [DecidableEq β]

/-! ### Whole runs -/

/-- What holds in every state of a run. -/
structure SlicingInv (T : TraceFile ν β) (initials : List (DynValue ν)) (s : SlicingState ν β) : Prop where
  valid : ∀ p ∈ s.toProcess, p < s.next
  graph : s.graph.Inv
  demanded : ∀ d ∈ s.processedValues, Demanded T initials d
  waiting : ∀ p ∈ s.toProcess, Demanded T initials (T.normalize (s.heap p))
  started : ∀ v ∈ initials, Scheduled T s (T.normalize v)
  data : ∀ d ∈ s.processedValues, ∀ e ∈ T.getSourcesFor d, Scheduled T s (T.normalize e) ∧ HasDataEdge s.graph d e
  ctrl : ∀ d ∈ s.processedValues, ∀ t, CtrlDependent T d t →
    Scheduled T s (T.normalize t) ∧ ∃ g ∈ s.graph.edges, s.graph.vertexOf d = some g.source
  blocks : SearchedBlocks T s
  origin : ∀ g ∈ s.graph.edges, ∃ d ∈ s.processedValues, s.graph.vertexOf d = some g.source ∧ HasDependence T d

namespace SlicingInv

variable {T : TraceFile ν β} {initials : List (DynValue ν)} {s : SlicingState ν β}

theorem init (memory : Nat → DynValue ν) : SlicingInv T [] (.init memory) where
  valid p hp := by cases hp
  graph := ⟨fun d v hd => (by cases hd), fun d d' v hd => (by cases hd)⟩
  demanded d hd := by cases hd
  waiting p hp := by cases hp
  started v hv := by cases hv
  data d hd := by cases hd
  ctrl d hd := by cases hd
  blocks := ⟨fun b p hb => (by cases hb), fun b hb => (by cases hb)⟩
  origin g hg := by cases hg

/-- The next load or store is put on the empty worklist. -/
theorem start (h : SlicingInv T initials s) (hempty : s.toProcess = []) (initial : DynValue ν) :
    SlicingInv T (initials ++ [initial]) (s.start initial) := by
  obtain ⟨heap, next, ps, halloc, hle, hheap, hps⟩ := s.allocate_spec [initial]
  cases hps with
  | @cons p _ _ _ hp hnil =>
      cases hnil
      obtain ⟨hvalue, hlt⟩ := hp
      have hres : s.start initial = { s with heap := heap, next := next, toProcess := [p] } := by
        simp only [SlicingState.start, halloc]
      have hscheduled : ∀ x, Scheduled T s x → Scheduled T (s.start initial) x := by
        rintro x (hx | ⟨q, hq, _⟩)
        · rw [hres]
          exact .inl hx
        · rw [hempty] at hq
          cases hq
      have hmono : ∀ d, Demanded T initials d → Demanded T (initials ++ [initial]) d := fun d hd =>
        hd.mono fun v hv => List.mem_append_left _ hv
      have hgraph : (s.start initial).graph = s.graph := by rw [hres]
      have hprocessed : (s.start initial).processedValues = s.processedValues := by rw [hres]
      constructor
      case valid =>
        intro q hq
        rw [hres] at hq ⊢
        rw [List.mem_singleton.mp hq]
        exact hlt
      case graph =>
        rw [hgraph]
        exact h.graph
      case demanded =>
        intro d hd
        rw [hprocessed] at hd
        exact hmono d (h.demanded d hd)
      case waiting =>
        intro q hq
        rw [hres] at hq ⊢
        rw [List.mem_singleton.mp hq]
        simp only [hvalue]
        exact .initial (List.mem_append_right _ (List.mem_singleton_self _))
      case started =>
        intro v hv
        rcases List.mem_append.mp hv with hv | hv
        · exact hscheduled _ (h.started v hv)
        · rw [List.mem_singleton.mp hv, hres]
          exact .inr ⟨p, List.mem_singleton_self p, by simp only [hvalue]⟩
      case data =>
        intro d hd e he
        rw [hprocessed] at hd
        rw [hgraph]
        exact ⟨hscheduled _ (h.data d hd e he).1, (h.data d hd e he).2⟩
      case ctrl =>
        intro d hd t ht
        rw [hprocessed] at hd
        rw [hgraph]
        exact ⟨hscheduled _ (h.ctrl d hd t ht).1, (h.ctrl d hd t ht).2⟩
      case blocks => exact h.blocks.of_scheduled (by rw [hres]) hscheduled
      case origin =>
        intro g hg
        rw [hgraph] at hg ⊢
        rw [hprocessed]
        exact h.origin g hg

omit [DecidableEq ν] [DecidableEq β] in
/-- Taking a pointer from the worklist and normalising the object behind it covers the same values,
if the normalised value is then among the processed ones. -/
theorem scheduled_pop {DV : Nat} {rest : List Nat} {processed : List (DynValue ν)} (hs : s.toProcess = DV :: rest)
    (hsub : ∀ d ∈ s.processedValues, d ∈ processed) (hDV : T.normalize (s.heap DV) ∈ processed) {x : DynValue ν}
    (hx : Scheduled T s x) :
    Scheduled T { s with
      toProcess := rest
      heap := Function.update s.heap DV (T.normalize (s.heap DV))
      processedValues := processed } x := by
  rcases hx with hx | ⟨p, hp, hx⟩
  · exact .inl (hsub x hx)
  · by_cases hpDV : p = DV
    · subst hpDV
      exact .inl (hx ▸ hDV)
    · rw [hs] at hp
      refine .inr ⟨p, (List.mem_cons.mp hp).resolve_left hpDV, ?_⟩
      simp only [Function.update_of_ne hpDV]
      exact hx

omit [DecidableEq ν] [DecidableEq β] in
/-- Normalising an object twice is normalising it once. -/
theorem normalize_update (heap : Nat → DynValue ν) (DV p : Nat) :
    T.normalize (Function.update heap DV (T.normalize (heap DV)) p) = T.normalize (heap p) := by
  by_cases hp : p = DV
  · rw [hp, Function.update_self, T.normalize_idem]
  · rw [Function.update_of_ne hp]

/-- A value that was processed before is skipped. -/
theorem skip (h : SlicingInv T initials s) {DV : Nat} {rest : List Nat} (hs : s.toProcess = DV :: rest)
    (hmem : T.normalize (s.heap DV) ∈ s.processedValues) :
    SlicingInv T initials { s with
      toProcess := rest
      heap := Function.update s.heap DV (T.normalize (s.heap DV)) } := by
  have hscheduled : ∀ x, Scheduled T s x → Scheduled T { s with
      toProcess := rest
      heap := Function.update s.heap DV (T.normalize (s.heap DV)) } x :=
    fun x hx => scheduled_pop hs (fun d hd => hd) hmem hx
  have hrest : ∀ p ∈ rest, p ∈ s.toProcess := fun p hp => by rw [hs]; exact List.mem_cons_of_mem _ hp
  refine ⟨fun p hp => h.valid p (hrest p hp), h.graph, h.demanded, ?_, fun v hv => hscheduled _ (h.started v hv),
    fun d hd e he => ⟨hscheduled _ (h.data d hd e he).1, (h.data d hd e he).2⟩,
    fun d hd t ht => ⟨hscheduled _ (h.ctrl d hd t ht).1, (h.ctrl d hd t ht).2⟩,
    h.blocks.of_scheduled rfl hscheduled, h.origin⟩
  intro p hp
  simp only [normalize_update]
  exact h.waiting p (hrest p hp)

/-- A new value is marked as processed, and its control and data dependences go to the worklist. -/
theorem process (h : SlicingInv T initials s) {DV : Nat} {rest : List Nat} (hs : s.toProcess = DV :: rest) :
    SlicingInv T initials (slicingDataDep T (slicingCtrlDep T { s with
      toProcess := rest
      heap := Function.update s.heap DV (T.normalize (s.heap DV))
      processedValues := T.normalize (s.heap DV) :: s.processedValues } DV) DV) := by
  -- `s₁` has the value marked as processed, but none of its dependences yet
  generalize hs₁ : ({ s with
    toProcess := rest
    heap := Function.update s.heap DV (T.normalize (s.heap DV))
    processedValues := T.normalize (s.heap DV) :: s.processedValues } : SlicingState ν β) = s₁
  have hscheduled : ∀ x, Scheduled T s x → Scheduled T s₁ x := by
    intro x hx
    rw [← hs₁]
    exact scheduled_pop hs (fun d hd => List.mem_cons_of_mem _ hd) List.mem_cons_self hx
  have hheap : s₁.heap DV = T.normalize (s.heap DV) := by
    rw [← hs₁]
    exact Function.update_self _ _ _
  have hprocessed : s₁.processedValues = s₁.heap DV :: s.processedValues := by rw [hheap, ← hs₁]
  have hgraph : s₁.graph = s.graph := by rw [← hs₁]
  have hrest : ∀ p ∈ s₁.toProcess, p ∈ s.toProcess := by
    rw [← hs₁, hs]
    exact fun p hp => List.mem_cons_of_mem _ hp
  have hDVlt : DV < s₁.next := by
    rw [← hs₁]
    exact h.valid DV (by rw [hs]; exact List.mem_cons_self)
  have hvalid : ∀ p ∈ s₁.toProcess, p < s₁.next := by
    intro p hp
    have hlt := h.valid p (hrest p hp)
    rwa [← hs₁]
  have hblocks : SearchedBlocks T s₁ := h.blocks.of_scheduled (by rw [← hs₁]) hscheduled
  obtain ⟨hctrl, hblocks₂, hctrlEdges⟩ := slicingCtrlDep_spec hDVlt hvalid (by rw [hgraph]; exact h.graph) hblocks
  have hDVlt₂ := Nat.lt_of_lt_of_le hDVlt hctrl.next_le
  obtain ⟨hdata, hBBs, hdataEdges⟩ := slicingDataDep_spec (T := T) hDVlt₂ hctrl.valid hctrl.inv
  have hgrown := hctrl.trans hDVlt hdata
  rw [hctrl.heap DV hDVlt] at hdataEdges
  have hall : ∀ x, Scheduled T s x → Scheduled T (slicingDataDep T (slicingCtrlDep T s₁ DV) DV) x :=
    fun x hx => hgrown.scheduled hvalid (hscheduled x hx)
  have hdemanded : Demanded T initials (s₁.heap DV) := by
    rw [hheap]
    exact h.waiting DV (by rw [hs]; exact List.mem_cons_self)
  refine ⟨hgrown.valid, hgrown.inv, ?_, ?_, fun v hv => hall _ (h.started v hv), ?_, ?_, ?_, ?_⟩
  · intro d hd
    rw [hgrown.processed, hprocessed] at hd
    rcases List.mem_cons.mp hd with rfl | hd
    · exact hdemanded
    · exact h.demanded d hd
  · intro p hp
    rcases hgrown.added p hp with hold | hsource | ht
    · rw [hgrown.heap p (hvalid p hold), ← hs₁]
      simp only [normalize_update]
      exact h.waiting p (hrest p hold)
    · exact .data hdemanded hsource
    · exact .ctrl hdemanded ht
  · intro d hd e he
    rw [hgrown.processed, hprocessed] at hd
    rcases List.mem_cons.mp hd with rfl | hd
    · exact hdataEdges e he
    · obtain ⟨hc, hedge⟩ := h.data d hd e he
      rw [← hgraph] at hedge
      exact ⟨hall _ hc, HasDataEdge.grown hgrown hedge⟩
  · intro d hd t ht
    rw [hgrown.processed, hprocessed] at hd
    rcases List.mem_cons.mp hd with rfl | hd
    · obtain ⟨hc, g, hg, hvertex⟩ := hctrlEdges t ht
      exact ⟨hdata.scheduled hctrl.valid hc, g, hdata.edges g hg, hdata.map _ _ hvertex⟩
    · obtain ⟨hc, g, hg, hvertex⟩ := h.ctrl d hd t ht
      rw [← hgraph] at hg hvertex
      exact ⟨hall _ hc, g, hgrown.edges g hg, hgrown.map _ _ hvertex⟩
  · exact hblocks₂.grown hctrl.valid hdata hBBs
  · intro g hg
    rw [hgrown.processed, hprocessed]
    rcases hgrown.newEdges g hg with hold | ⟨hvertex, hdep⟩
    · rw [hgraph] at hold
      obtain ⟨d, hd, hvertex, hdep⟩ := h.origin g hold
      rw [← hgraph] at hvertex
      exact ⟨d, List.mem_cons_of_mem _ hd, hgrown.map _ _ hvertex, hdep⟩
    · exact ⟨s₁.heap DV, List.mem_cons_self, hvertex, hdep⟩

theorem step (h : SlicingInv T initials s) : SlicingInv T initials (slicingStep T s) := by
  rw [slicingStep]
  cases hs : s.toProcess with
  | nil => exact h
  | cons DV rest =>
      simp only [Function.update_self]
      split_ifs with hmem
      · exact h.skip hs hmem
      · exact h.process hs

theorem reached {memory : Nat → DynValue ν} (h : Reached T memory initials s) : SlicingInv T initials s := by
  induction h with
  | init => exact init memory
  | start initial _ hempty ih => exact ih.start hempty initial
  | step _ ih => exact ih.step

/-- At the end of a run everything demanded is processed. -/
theorem processed_of_demanded (h : SlicingInv T initials s) (hempty : s.toProcess = []) {d : DynValue ν}
    (hd : Demanded T initials d) : d ∈ s.processedValues := by
  have hclosed : ∀ x, Scheduled T s x → x ∈ s.processedValues := by
    rintro x (hx | ⟨p, hp, _⟩)
    · exact hx
    · rw [hempty] at hp
      cases hp
  induction hd with
  | initial hv => exact hclosed _ (h.started _ hv)
  | data _ he ih => exact hclosed _ (h.data _ ih _ he).1
  | ctrl _ ht ih => exact hclosed _ (h.ctrl _ ih _ ht).1

end SlicingInv

/-! ### Connected paths -/

/-- A chain of data dependences between processed values, from `d` to a source of the last of them. -/
inductive DataChain (T : TraceFile ν β) (processed : List (DynValue ν)) : DynValue ν → DynValue ν → Prop
  | last {d e : DynValue ν} : d ∈ processed → e ∈ T.getSourcesFor d → DataChain T processed d e
  | cons {d e e' : DynValue ν} : d ∈ processed → e ∈ T.getSourcesFor d → DataChain T processed (T.normalize e) e' →
      DataChain T processed d e'

/-- The edge of each data dependence ends where the edges of the normalised dependence leave, and
chains of data dependences are paths along data edges. -/
structure PathsConnected (T : TraceFile ν β) (s : SlicingState ν β) : Prop where
  edge : ∀ d ∈ s.processedValues, ∀ e ∈ T.getSourcesFor d, ∃ u v, s.graph.vertexOf d = some u ∧
    s.graph.vertexOf e = some v ∧ ⟨u, v, .dataDep⟩ ∈ s.graph.edges ∧
    ∀ g ∈ s.graph.edges, s.graph.vertexOf (T.normalize e) = some g.source → g.source = v
  path : ∀ d e, DataChain T s.processedValues d e → ∃ u v, s.graph.vertexOf d = some u ∧
    s.graph.vertexOf e = some v ∧ Relation.ReflTransGen (fun a b => ⟨a, b, .dataDep⟩ ∈ s.graph.edges) u v

omit [DecidableEq β] in
/-- Connected edges make connected paths. -/
theorem PathsConnected.of_edge {T : TraceFile ν β} {s : SlicingState ν β}
    (h : ∀ d ∈ s.processedValues, ∀ e ∈ T.getSourcesFor d, ∃ u v, s.graph.vertexOf d = some u ∧
      s.graph.vertexOf e = some v ∧ ⟨u, v, .dataDep⟩ ∈ s.graph.edges ∧
      ∀ g ∈ s.graph.edges, s.graph.vertexOf (T.normalize e) = some g.source → g.source = v) :
    PathsConnected T s := by
  refine ⟨h, ?_⟩
  intro d e hchain
  induction hchain with
  | last hd he =>
      obtain ⟨u, v, hu, hv, hmem, _⟩ := h _ hd _ he
      exact ⟨u, v, hu, hv, .single hmem⟩
  | @cons d e e' hd he hrest ih =>
      obtain ⟨u, v, hu, _, hmem, hsame⟩ := h d hd e he
      obtain ⟨u', v', hu', hv', hpath⟩ := ih
      -- the rest of the chain starts with an edge of the normalised dependence
      obtain ⟨e₂, hprocessed, he₂⟩ : ∃ e₂, T.normalize e ∈ s.processedValues ∧ e₂ ∈ T.getSourcesFor (T.normalize e) := by
        cases hrest with
        | last hd' he' => exact ⟨_, hd', he'⟩
        | cons hd' he' _ => exact ⟨_, hd', he'⟩
      obtain ⟨u₂, v₂, hu₂, _, hmem₂, _⟩ := h _ hprocessed e₂ he₂
      have heq : u₂ = v := hsame ⟨u₂, v₂, .dataDep⟩ hmem₂ hu₂
      rw [hu₂] at hu'
      cases hu'
      exact ⟨u, v', hu, hv', .head hmem (heq ▸ hpath)⟩

/-- If demanded sources are found normalised, the edges are connected in every state of a run. -/
theorem SlicingInv.pathsConnected {T : TraceFile ν β} {initials : List (DynValue ν)} {s : SlicingState ν β}
    (h : SlicingInv T initials s) (hnormal : SourcesNormal T initials) : PathsConnected T s := by
  apply PathsConnected.of_edge
  intro d hd e he
  obtain ⟨u, v, hu, hv, hmem⟩ := (h.data d hd e he).2
  refine ⟨u, v, hu, hv, hmem, ?_⟩
  intro g hg hvertex
  obtain ⟨d', _, hvertex', hdep⟩ := h.origin g hg
  rw [h.graph.inj _ _ _ hvertex' hvertex] at hdep
  rcases hnormal d (h.demanded d hd) e he with heq | hnone
  · rw [heq, hv] at hvertex
    cases hvertex
    rfl
  · exact absurd hdep hnone

/-- At the end of a run, connected edges mean that demanded sources were found normalised. -/
theorem SlicingInv.sourcesNormal {T : TraceFile ν β} {initials : List (DynValue ν)} {s : SlicingState ν β}
    (h : SlicingInv T initials s) (hempty : s.toProcess = []) (hpaths : PathsConnected T s) :
    SourcesNormal T initials := by
  intro d hd e he
  by_cases hdep : HasDependence T (T.normalize e)
  · left
    have hmem := h.processed_of_demanded hempty (.data hd he)
    obtain ⟨u, v, _, hv, _, hsame⟩ := hpaths.edge d (h.processed_of_demanded hempty hd) e he
    obtain ⟨g, hg, hvertex⟩ : ∃ g ∈ s.graph.edges, s.graph.vertexOf (T.normalize e) = some g.source := by
      rcases hdep with ⟨e', he'⟩ | ⟨t, ht⟩
      · obtain ⟨u', v', hu', _, hmem'⟩ := (h.data _ hmem e' he').2
        exact ⟨_, hmem', hu'⟩
      · exact (h.ctrl _ hmem t ht).2
    have heq := hsame g hg hvertex
    rw [heq] at hvertex
    exact h.graph.inj _ _ _ hvertex hv
  · exact .inr hdep

/-- In every state of every run the paths are connected if each demanded data source is found
normalised or has no dependence of its own; at the end of a run they are connected only then. -/
theorem pathsConnected_iff (T : TraceFile ν β) (memory : Nat → DynValue ν) (initials : List (DynValue ν)) :
    (SourcesNormal T initials → ∀ s, Reached T memory initials s → PathsConnected T s) ∧
      ∀ fuel s, generatePDG T fuel memory initials = some s → (PathsConnected T s ↔ SourcesNormal T initials) := by
  refine ⟨fun hnormal s hs => (SlicingInv.reached hs).pathsConnected hnormal, ?_⟩
  intro fuel s hs
  obtain ⟨hreached, hempty⟩ := generatePDG_reached hs
  have hinv := SlicingInv.reached hreached
  exact ⟨hinv.sourcesNormal hempty, hinv.pathsConnected⟩

/-- Instruction 0, executed at index 5, uses instruction 1 of a block that was last executed at index 3,
and instruction 1 uses instruction 2 of its own block. Operands are looked up at the index of their
user. -/
def operandTrace : TraceFile Nat Nat where
  getSourcesFor d := if d = ⟨0, 5⟩ then [⟨1, 5⟩] else if d = ⟨1, 3⟩ then [⟨2, 3⟩] else []
  normalize d := if d = ⟨1, 5⟩ then ⟨1, 3⟩ else d
  basicBlock _ := none
  execForcer _ := .notFound
  normalize_V d := by
    split_ifs with h
    · rw [h]
    · rfl
  normalize_idem d := by
    split_ifs with h h'
    · cases h'
    · rfl
    · rfl

theorem operandTrace_normal : SourcesNormal operandTrace [⟨1, 3⟩] := by
  have hdemanded : ∀ d, Demanded operandTrace [⟨1, 3⟩] d → d = ⟨1, 3⟩ ∨ d = ⟨2, 3⟩ := by
    intro d hd
    induction hd with
    | initial hv =>
        rw [List.mem_singleton.mp hv]
        exact .inl rfl
    | data _ he ih =>
        rcases ih with rfl | rfl
        · rw [List.mem_singleton.mp he]
          exact .inr rfl
        · cases he
    | ctrl _ ht _ =>
        obtain ⟨b, hb, _⟩ := ht
        cases hb
  intro d hd e he
  rcases hdemanded d hd with rfl | rfl
  · rw [List.mem_singleton.mp he]
    exact .inl rfl
  · cases he

theorem pathsConnected_iff_same_block :
    ∃ s, generatePDG operandTrace 2 (fun _ => ⟨0, 0⟩) [⟨1, 3⟩] = some s ∧ PathsConnected operandTrace s :=
  ⟨_, rfl, ((pathsConnected_iff operandTrace (fun _ => ⟨0, 0⟩) [⟨1, 3⟩]).2 2 _ rfl).mpr operandTrace_normal⟩

/-- The edge from instruction 0 ends at vertex 1, the edge of the instruction it uses leaves from
vertex 2. -/
theorem pathsConnected_fails_at_operand :
    ∃ s, generatePDG operandTrace 3 (fun _ => ⟨0, 0⟩) [⟨0, 5⟩] = some s ∧
      s.graph.edges = [⟨0, 1, .dataDep⟩, ⟨2, 3, .dataDep⟩] ∧ ¬PathsConnected operandTrace s := by
  refine ⟨_, rfl, rfl, ?_⟩
  intro h
  obtain ⟨u, v, _, hv, _, hsame⟩ := h.edge ⟨0, 5⟩ (by decide) ⟨1, 5⟩ (by decide)
  have heq := hsame ⟨2, 3, .dataDep⟩ (by decide) rfl
  cases hv
  exact absurd heq (by decide)

end Witcher
