import Witcher.BeliefInference
import Witcher.WitcherParallelPPDG

/-! Parallel edges of a persistent dependence graph. The data edges of a vertex are added before its
control edges, so the directed graph, which keeps the last kind of each pair, keeps a control edge
whenever there is one. A control edge gives all the beliefs a data edge gives, and the neighbours are
the same, so the database is that of all the edges. -/

namespace Witcher

section Model

variable {ν β : Type} [DecidableEq ν]

/-! ### The program dependence graph -/

/-- Values and edges refer to vertices. -/
structure PDG.Bounded (g : PDG ν) : Prop where
  map_lt : ∀ d v, g.vertexOf d = some v → v < g.vertices.length
  target_lt : ∀ e ∈ g.edges, e.target < g.vertices.length

theorem PDG.Bounded.getVertexOrCreate {g : PDG ν} (h : g.Bounded) (heap : Nat → DynValue ν) (val : Nat) :
    (g.getVertexOrCreate heap val).2.Bounded ∧
      (g.getVertexOrCreate heap val).1 < (g.getVertexOrCreate heap val).2.vertices.length := by
  rw [PDG.getVertexOrCreate]
  cases hget : g.valToVtxMap.get? (heap val) with
  | some v => exact ⟨h, h.map_lt _ v hget⟩
  | none =>
      refine ⟨⟨?_, ?_⟩, ?_⟩
      · intro d v hd
        simp only [PDG.vertexOf, Dict.get?_set] at hd
        rw [List.length_append, List.length_singleton]
        split_ifs at hd with hval
        · cases hd
          exact Nat.lt_succ_self _
        · exact Nat.lt_succ_of_lt (h.map_lt d v hd)
      · intro e he
        rw [List.length_append]
        exact Nat.lt_add_right _ (h.target_lt e he)
      · simp only [List.length_append, List.length_singleton]
        omega

theorem PDG.Bounded.addDepEdge {g : PDG ν} (h : g.Bounded) (heap : Nat → DynValue ν) (source target : Nat)
    (kind : Edge) : (g.addDepEdge heap source target kind).Bounded := by
  have h₁ := (h.getVertexOrCreate heap source).1
  obtain ⟨h₂, hlt⟩ := h₁.getVertexOrCreate heap target
  refine ⟨h₂.map_lt, ?_⟩
  intro e he
  rcases List.mem_append.mp he with he | he
  · exact h₂.target_lt e he
  · rw [List.mem_singleton.mp he]
    exact hlt

omit [DecidableEq ν] in
theorem SlicingState.graph_allocate (s : SlicingState ν β) (es : List (DynValue ν)) :
    (s.allocate es).1.graph = s.graph := by
  induction es generalizing s with
  | nil => rfl
  | cons e es ih => exact ih { s with heap := Function.update s.heap s.next e, next := s.next + 1 }

section Slicing

variable [DecidableEq β] {T : TraceFile ν β} {P : PDG ν → Prop}

/-- What every added edge preserves holds of the graph of every state. -/
theorem Reached.graph_induction (hempty : P PDG.empty)
    (hadd : ∀ g heap source target kind, P g → P (g.addDepEdge heap source target kind))
    {memory : Nat → DynValue ν} {initials : List (DynValue ν)} {s : SlicingState ν β}
    (h : Reached T memory initials s) : P s.graph := by
  have hdeps : ∀ (DV : Nat) (ps : List Nat) (kind : Edge) (s : SlicingState ν β), P s.graph →
      P (ps.foldl (SlicingState.addDep DV kind) s).graph := by
    intro DV ps kind
    induction ps with
    | nil => exact fun s hs => hs
    | cons p ps ih => exact fun s hs => ih _ (hadd s.graph s.heap DV p kind hs)
  have hdata : ∀ (s : SlicingState ν β) (DV : Nat), P s.graph → P (slicingDataDep T s DV).graph := by
    intro s DV hs
    exact hdeps DV _ .dataDep _ (by rw [SlicingState.graph_allocate]; exact hs)
  have hctrl : ∀ (s : SlicingState ν β) (DV : Nat), P s.graph → P (slicingCtrlDep T s DV).graph := by
    intro s DV hs
    rw [slicingCtrlDep]
    split
    · exact hs
    · split
      · exact hadd _ _ _ _ _ hs
      · exact hs
      · split
        · exact hs
        · exact hadd _ _ _ _ _ hs
        · exact hs
  induction h with
  | init => exact hempty
  | @start initials s initial _ _ ih =>
      have hstart : (s.start initial).graph = s.graph := s.graph_allocate [initial]
      rw [hstart]
      exact ih
  | @step initials s _ ih =>
      rw [slicingStep]
      split
      · exact ih
      · simp only
        split_ifs
        · exact ih
        · exact hdata _ _ (hctrl _ _ ih)

/-- The graph a program is sliced into. -/
theorem Reached.bounded {memory : Nat → DynValue ν} {initials : List (DynValue ν)} {s : SlicingState ν β}
    (h : Reached T memory initials s) : s.graph.Bounded := by
  apply h.graph_induction
  · exact ⟨fun d v hd => (by cases hd), fun e he => (by cases he)⟩
  · exact fun g heap source target kind hg => hg.addDepEdge heap source target kind

end Slicing

/-! ### The edges of a vertex -/

variable {I : SlicerInput ν}

/-- Edges of one kind were added at a vertex. -/
structure Extended (src : Nat) (kind : Edge) (g g' : PPDG ν) : Prop where
  vertices : g'.vertices = g.vertices
  map : g'.valToVtxMap = g.valToVtxMap
  edges : ∃ added, g'.edges = g.edges ++ added ∧
    ∀ e ∈ added, e.source = src ∧ e.kind = kind ∧ e.target < g.vertices.length

theorem Extended.refl (src : Nat) (kind : Edge) (g : PPDG ν) : Extended src kind g g :=
  ⟨rfl, rfl, [], (List.append_nil _).symm, by simp⟩

theorem Extended.trans {src : Nat} {kind : Edge} {g g' g'' : PPDG ν} (h : Extended src kind g g')
    (h' : Extended src kind g' g'') : Extended src kind g g'' := by
  obtain ⟨added, hadded, hnew⟩ := h.edges
  obtain ⟨added', hadded', hnew'⟩ := h'.edges
  refine ⟨h'.vertices.trans h.vertices, h'.map.trans h.map, added ++ added', ?_, ?_⟩
  · rw [hadded', hadded, List.append_assoc]
  · intro e he
    rcases List.mem_append.mp he with he | he
    · exact hnew e he
    · rw [← h.vertices]
      exact hnew' e he

theorem extended_foldl {src : Nat} {kind : Edge} (g : PPDG ν) {targets : List Nat}
    (h : ∀ v ∈ targets, v < g.vertices.length) :
    Extended src kind g (targets.foldl (PPDG.addDepEdge src kind) g) := by
  induction targets generalizing g with
  | nil => exact .refl src kind g
  | cons v targets ih =>
      have hstep : Extended src kind g (g.addDepEdge src kind v) := by
        refine ⟨rfl, rfl, [⟨src, v, kind⟩], rfl, ?_⟩
        intro e he
        rw [List.mem_singleton.mp he]
        exact ⟨rfl, rfl, h v List.mem_cons_self⟩
      exact hstep.trans (ih _ fun w hw => h w (List.mem_cons_of_mem v hw))

theorem PPDG.getVertices_lt (g : PPDG ν) (val : DynValue ν) : ∀ v ∈ g.getVertices val, v < g.vertices.length := by
  intro v hv
  rw [getVertices] at hv
  cases hget : g.valToVtxMap.get? val with
  | none =>
      rw [hget] at hv
      cases hv
  | some vs =>
      rw [hget] at hv
      exact g.map_lt val vs hget v hv

/-- Distinct vertices of the program dependence graph. -/
structure Processed (I : SlicerInput ν) (processed : List Nat) : Prop where
  nodup : processed.Nodup
  lt : ∀ v ∈ processed, v < I.pdg.vertices.length

omit [DecidableEq ν] in
theorem Processed.length_le {processed : List Nat} (h : Processed I processed) :
    processed.length ≤ I.pdg.vertices.length := by
  have hsub : processed ⊆ List.range I.pdg.vertices.length := fun v hv => List.mem_range.mpr (h.lt v hv)
  have hle := (List.subperm_of_subset h.nodup hsub).length_le
  rwa [List.length_range] at hle

/-- The search returns, and it adds edges of its kind at its vertex only. -/
theorem getDataEdges_spec (hpdg : I.pdg.Bounded) {ppdgV : Nat} (kind : Edge) (fuel : Nat) {pdgV : Nat} {g : PPDG ν}
    {processed : List Nat} (hv : ppdgV < g.vertices.length) (hpdgV : pdgV < I.pdg.vertices.length)
    (hnew : pdgV ∉ processed) (hprocessed : Processed I processed)
    (hfuel : I.pdg.vertices.length ≤ fuel + processed.length) :
    ∃ g' processed', getDataEdges I ppdgV kind fuel pdgV (g, processed) = some (g', processed') ∧
      Extended ppdgV kind g g' ∧ Processed I processed' ∧ processed.length < processed'.length := by
  induction fuel generalizing pdgV g processed with
  | zero =>
      have hadd : Processed I (pdgV :: processed) :=
        ⟨List.nodup_cons.mpr ⟨hnew, hprocessed.nodup⟩, List.forall_mem_cons.mpr ⟨hpdgV, hprocessed.lt⟩⟩
      have := hadd.length_le
      simp only [List.length_cons] at this
      omega
  | succ fuel ih =>
      have hadd : Processed I (pdgV :: processed) :=
        ⟨List.nodup_cons.mpr ⟨hnew, hprocessed.nodup⟩, List.forall_mem_cons.mpr ⟨hpdgV, hprocessed.lt⟩⟩
      have hpdgVal : I.pdg.getVertexValue I.heap pdgV = some (I.heap I.pdg.vertices[pdgV]) := by
        rw [PDG.getVertexValue, List.getElem?_eq_getElem hpdgV, Option.map_some]
      have hppdgVal : g.getVertexValue ppdgV = some g.vertices[ppdgV].1 := by
        rw [PPDG.getVertexValue, List.getElem?_eq_getElem hv, Option.map_some]
      simp only [getDataEdges, if_neg hnew, hpdgVal, hppdgVal]
      split_ifs with hother
      · exact ⟨_, _, rfl, extended_foldl g (g.getVertices_lt _), hadd, Nat.lt_succ_self _⟩
      · -- the loop over the data dependences: the set of processed vertices only grows
        suffices hloop : ∀ (out : List DepEdge) (g₁ : PPDG ν) (processed₁ : List Nat),
            (∀ e ∈ out, e.target < I.pdg.vertices.length) → Extended ppdgV kind g g₁ → Processed I processed₁ →
            processed.length < processed₁.length →
            ∃ g' processed', out.foldlM (fun s e =>
                if e.kind ≠ .dataDep ∨ e.target ∈ s.2 then some s
                else getDataEdges I ppdgV kind fuel e.target s) (g₁, processed₁) = some (g', processed') ∧
              Extended ppdgV kind g g' ∧ Processed I processed' ∧ processed.length < processed'.length from
          hloop _ g (pdgV :: processed) (fun e he => hpdg.target_lt e (List.mem_of_mem_filter he))
            (.refl ppdgV kind g) hadd (Nat.lt_succ_self _)
        intro out
        induction out with
        | nil => exact fun g₁ processed₁ _ hext hproc hlt => ⟨g₁, processed₁, rfl, hext, hproc, hlt⟩
        | cons e out ihout =>
            intro g₁ processed₁ htargets hext hproc hlt
            have htargets' : ∀ e ∈ out, e.target < I.pdg.vertices.length :=
              fun e' he' => htargets e' (List.mem_cons_of_mem e he')
            rw [List.foldlM_cons]
            by_cases hskip : e.kind ≠ .dataDep ∨ e.target ∈ processed₁
            · simp only [if_pos hskip]
              exact ihout g₁ processed₁ htargets' hext hproc hlt
            · have hnew' : e.target ∉ processed₁ := fun hmem => hskip (.inr hmem)
              obtain ⟨g₂, processed₂, hrun, hext₂, hproc₂, hlt₂⟩ := ih (g := g₁) (by rw [hext.vertices]; exact hv)
                (htargets e List.mem_cons_self) hnew' hproc (by omega)
              simp only [if_neg hskip, hrun]
              exact ihout g₂ processed₂ htargets' (hext.trans hext₂) hproc₂ (by omega)

/-- A search that has seen no vertex yet. -/
theorem getDataEdges_nil (hpdg : I.pdg.Bounded) {ppdgV : Nat} (kind : Edge) {pdgV : Nat} {g : PPDG ν}
    (hv : ppdgV < g.vertices.length) (hpdgV : pdgV < I.pdg.vertices.length) :
    ∃ g' processed', getDataEdges I ppdgV kind I.pdg.vertices.length pdgV (g, []) = some (g', processed') ∧
      Extended ppdgV kind g g' := by
  obtain ⟨g', processed', hrun, hext, -, -⟩ := getDataEdges_spec hpdg kind I.pdg.vertices.length hv hpdgV List.not_mem_nil
    ⟨List.nodup_nil, by simp⟩ (by simp)
  exact ⟨g', processed', hrun, hext⟩

theorem getCtrlEdges_spec (hpdg : I.pdg.Bounded) (pdgV : Nat) {ppdgV : Nat} {g : PPDG ν}
    (hv : ppdgV < g.vertices.length) :
    ∃ g', getCtrlEdges I pdgV ppdgV g = some g' ∧ Extended ppdgV .ctrlDep g g' := by
  suffices hloop : ∀ (out : List DepEdge) (g₁ : PPDG ν), (∀ e ∈ out, e.target < I.pdg.vertices.length) →
      Extended ppdgV .ctrlDep g g₁ → ∃ g', out.foldlM (fun g e => if e.kind ≠ .ctrlDep then some g
        else (getDataEdges I ppdgV .ctrlDep I.pdg.vertices.length e.target (g, [])).map Prod.fst) g₁ = some g' ∧
        Extended ppdgV .ctrlDep g g' from
    hloop _ g (fun e he => hpdg.target_lt e (List.mem_of_mem_filter he)) (.refl ppdgV .ctrlDep g)
  intro out
  induction out with
  | nil => exact fun g₁ _ hext => ⟨g₁, rfl, hext⟩
  | cons e out ih =>
      intro g₁ htargets hext
      have htargets' : ∀ e ∈ out, e.target < I.pdg.vertices.length :=
        fun e' he' => htargets e' (List.mem_cons_of_mem e he')
      rw [List.foldlM_cons]
      by_cases hskip : e.kind ≠ .ctrlDep
      · simp only [if_pos hskip]
        exact ih g₁ htargets' hext
      · obtain ⟨g₂, processed, hrun, hext₂⟩ := getDataEdges_nil hpdg .ctrlDep (g := g₁) (by rw [hext.vertices]; exact hv)
          (htargets e List.mem_cons_self)
        simp only [if_neg hskip, hrun]
        exact ih g₂ htargets' (hext.trans hext₂)

/-! ### All edges -/

/-- No data edge of a vertex comes after a control edge of it. -/
def DataFirst (edges : List DepEdge) : Prop :=
  edges.Pairwise fun e e' => e.source = e'.source → e.kind = .ctrlDep → e'.kind = .ctrlDep

/-- The edges of the first vertices, in order. -/
structure Generated (k : Nat) (g g' : PPDG ν) : Prop where
  vertices : g'.vertices = g.vertices
  dataFirst : DataFirst g'.edges
  source_lt : ∀ e ∈ g'.edges, e.source < k
  target_lt : ∀ e ∈ g'.edges, e.target < g.vertices.length

theorem Generated.vertex {k : Nat} {g g₁ g₂ g₃ : PPDG ν} (h : Generated k g g₁) (hdata : Extended k .dataDep g₁ g₂)
    (hctrl : Extended k .ctrlDep g₂ g₃) : Generated (k + 1) g g₃ := by
  obtain ⟨data, hedges₂, hdata'⟩ := hdata.edges
  obtain ⟨ctrl, hedges₃, hctrl'⟩ := hctrl.edges
  rw [hedges₂] at hedges₃
  have hmem : ∀ e ∈ g₃.edges, e ∈ g₁.edges ∨ e ∈ data ∨ e ∈ ctrl := by
    intro e he
    rw [hedges₃, List.append_assoc, List.mem_append, List.mem_append] at he
    exact he
  refine ⟨hctrl.vertices.trans (hdata.vertices.trans h.vertices), ?_, ?_, ?_⟩
  · rw [hedges₃, DataFirst, List.pairwise_append, List.pairwise_append]
    refine ⟨⟨h.dataFirst, ?_, ?_⟩, ?_, ?_⟩
    · refine List.pairwise_of_forall_mem_list ?_
      intro e he e' _ _ hkind
      rw [(hdata' e he).2.1] at hkind
      cases hkind
    · intro e he e' he' hsource
      have hlt := h.source_lt e he
      rw [hsource, (hdata' e' he').1] at hlt
      omega
    · exact List.pairwise_of_forall_mem_list fun e _ e' he' _ _ => (hctrl' e' he').2.1
    · exact fun e _ e' he' _ _ => (hctrl' e' he').2.1
  · intro e he
    rcases hmem e he with he | he | he
    · exact Nat.lt_succ_of_lt (h.source_lt e he)
    · rw [(hdata' e he).1]
      exact Nat.lt_succ_self k
    · rw [(hctrl' e he).1]
      exact Nat.lt_succ_self k
  · intro e he
    rcases hmem e he with he | he | he
    · exact h.target_lt e he
    · rw [← h.vertices]
      exact (hdata' e he).2.2
    · rw [← h.vertices, ← hdata.vertices]
      exact (hctrl' e he).2.2

/-- The loop over the vertices returns if every vertex is one of the program dependence graph. -/
theorem generaeteEdges_spec (hpdg : I.pdg.Bounded) {g : PPDG ν} (hedges : g.edges = [])
    (hcontains : ∀ v ∈ g.vertices, I.pdg.contains v.1) :
    ∃ g', generaeteEdges I g = some g' ∧ Generated g.vertices.length g g' := by
  suffices hloop : ∀ k ≤ g.vertices.length, ∃ g', (List.range k).foldlM (generaeteEdgesOf I) g = some g' ∧
      Generated k g g' from hloop g.vertices.length (le_refl _)
  intro k
  induction k with
  | zero =>
      intro _
      refine ⟨g, rfl, rfl, ?_, ?_, ?_⟩ <;> simp [hedges, DataFirst]
  | succ k ih =>
      intro hk
      obtain ⟨g₁, hrun, hgen⟩ := ih (by omega)
      have hk' : k < g₁.vertices.length := by
        rw [hgen.vertices]
        exact hk
      have hval : g₁.getVertexValue k = some g₁.vertices[k].1 := by
        rw [PPDG.getVertexValue, List.getElem?_eq_getElem hk', Option.map_some]
      have hin : I.pdg.contains g₁.vertices[k].1 := by
        apply hcontains
        rw [← hgen.vertices]
        exact List.getElem_mem hk'
      obtain ⟨pdgV, hpdgV⟩ := Option.isSome_iff_exists.mp hin
      obtain ⟨g₂, processed, hdata, hext₂⟩ := getDataEdges_nil hpdg .dataDep hk' (hpdg.map_lt _ pdgV hpdgV)
      obtain ⟨g₃, hctrl, hext₃⟩ := getCtrlEdges_spec hpdg pdgV (g := g₂) (by rw [hext₂.vertices]; exact hk')
      refine ⟨g₃, ?_, hgen.vertex hext₂ hext₃⟩
      rw [List.range_succ, List.foldlM_append, hrun]
      simp only [Option.bind_eq_bind, Option.bind_some, List.foldlM_cons, List.foldlM_nil, generaeteEdgesOf, hval,
        PDG.vertexOf, hpdgV, hdata, hctrl]
      rfl

/-! ### All vertices -/

/-- A vertex is a persistent load or store of the program dependence graph. -/
def PersistentVertex (I : SlicerInput ν) (v : DynValue ν × TraceInfo) : Prop :=
  I.pdg.contains v.1 ∧ (v.2.traceEntry.type = .stType ∨ v.2.traceEntry.type = .ldType) ∧
    I.pmAddrRange.isInRange v.2.traceEntry.address

theorem createVertex_cases {g g' : PPDG ν} {val : DynValue ν} {info : TraceInfo} (h : g.createVertex val info = some g') :
    g'.vertices = g.vertices ++ [(val, info)] ∧ g'.edges = g.edges := by
  rw [PPDG.createVertex] at h
  split at h
  · cases h
    exact ⟨rfl, rfl⟩
  · cases h
  · cases h
    exact ⟨rfl, rfl⟩

theorem generateVertex_cases {g g' : PPDG ν} {entry : Entry × Nat} (h : generateVertex I g entry = some g') :
    g' = g ∨ ∃ v, PersistentVertex I v ∧ g.createVertex v.1 v.2 = some g' := by
  rw [generateVertex] at h
  split_ifs at h with htype hrange
  · cases h
    exact .inl rfl
  · cases h
    exact .inl rfl
  · split at h
    · cases h
    · rename_i dynValue hdyn
      split_ifs at h with hin
      · cases h
        exact .inl rfl
      · refine .inr ⟨(dynValue, _),
          ⟨by simpa using hin, ?_, (by simpa using hrange : I.pmAddrRange.isInRange entry.1.address)⟩, h⟩
        by_contra hne
        exact htype (not_or.mp hne)

/-- What every new vertex preserves holds of all vertices. -/
theorem generateVertices_induction {P : PPDG ν → Prop} (hempty : P PPDG.empty)
    (hcreate : ∀ g g' v, P g → PersistentVertex I v → g.createVertex v.1 v.2 = some g' → P g') {trace : List Entry}
    {g : PPDG ν} (h : generateVertices I trace = some g) : P g := by
  suffices hloop : ∀ (entries : List (Entry × Nat)) (g₀ : PPDG ν),
      P g₀ → entries.foldlM (generateVertex I) g₀ = some g → P g from
    hloop trace.zipIdx PPDG.empty hempty h
  intro entries
  induction entries with
  | nil =>
      intro g₀ h₀ hrun
      cases hrun
      exact h₀
  | cons e entries ih =>
      intro g₀ h₀ hrun
      rw [List.foldlM_cons, Option.bind_eq_bind, Option.bind_eq_some_iff] at hrun
      obtain ⟨g₁, hstep, hrun⟩ := hrun
      refine ih g₁ ?_ hrun
      rcases generateVertex_cases hstep with rfl | ⟨v, hv, hnew⟩
      · exact h₀
      · exact hcreate g₀ g₁ v h₀ hv hnew

theorem generateVertices_spec {trace : List Entry} {g : PPDG ν} (h : generateVertices I trace = some g) :
    g.edges = [] ∧ ∀ v ∈ g.vertices, PersistentVertex I v := by
  refine generateVertices_induction (P := fun g => g.edges = [] ∧ ∀ v ∈ g.vertices, PersistentVertex I v)
    ⟨rfl, fun v hv => (by cases hv)⟩ ?_ h
  rintro g₀ g₁ v ⟨hedges₀, hvertices₀⟩ hv hnew
  obtain ⟨hvertices, hedges⟩ := createVertex_cases hnew
  rw [hvertices, hedges]
  refine ⟨hedges₀, ?_⟩
  intro w hw
  rcases List.mem_append.mp hw with hw | hw
  · exact hvertices₀ w hw
  · rw [List.mem_singleton.mp hw]
    exact hv

/-- Once the vertices are made the edges are found, data edges first. -/
theorem generatePPDG_spec (hpdg : I.pdg.Bounded) {trace : List Entry} {g₀ : PPDG ν}
    (h : generateVertices I trace = some g₀) :
    ∃ g, generatePPDG I trace = some g ∧ Generated g₀.vertices.length g₀ g := by
  obtain ⟨hedges, hvertices⟩ := generateVertices_spec h
  obtain ⟨g, hrun, hgen⟩ := generaeteEdges_spec hpdg hedges fun v hv => (hvertices v hv).1
  refine ⟨g, ?_, hgen⟩
  rw [generatePPDG, h]
  exact hrun

end Model

/-! ### The graphs as they are loaded -/

def TraceInfo.nodeType (info : TraceInfo) : NodeType := if info.traceEntry.type = .ldType then .load else .store

/-- The nodes that are printed for the vertices. -/
def PPDG.graphNodes {ν : Type} [DecidableEq ν] (g : PPDG ν) : List WitcherGraphNode :=
  g.vertices.mapIdx fun i v =>
    ⟨i, v.2.nodeType, v.2.traceEntry.address.toNat, v.2.traceEntry.length.toNat⟩

/-- The edges that are printed, in the order they were added. -/
def PPDG.graphEdges {ν : Type} [DecidableEq ν] (g : PPDG ν) : List WitcherGraphEdge :=
  g.edges.map fun e => ⟨e.kind, e.source, e.target⟩

namespace WitcherBeliefDatabase

variable {nodes : List WitcherGraphNode} {edges : List WitcherGraphEdge}

def multiEdges (edges : List WitcherGraphEdge) : List ((Int × Int) × Edge) :=
  edges.map fun edge => ((edge.srcId, edge.tgtId), edge.type)

/-- The graph with all its parallel edges; a predecessor is listed once. -/
def multiView (nodes : List WitcherGraphNode) (edges : List WitcherGraphEdge) : GraphView where
  node := (WitcherGraph.initNodes nodes).node
  predecessors v := DiGraph.appendNew [] ((((multiEdges edges).map Prod.fst).filter fun k => k.2 = v).map Prod.fst)
  numberOfNodes := (WitcherGraph.initNodes nodes).nodes.keys.length

/-- The inference rules applied to every edge of the graphs with parallel edges. -/
def newMulti (ppdgs : List (List WitcherGraphNode × List WitcherGraphEdge)) :
    Except ReplayError WitcherBeliefDatabase := do
  let list ← initPmObjectList (ppdgs.map fun p => WitcherGraph.initNodes p.1)
  build list (ppdgs.map fun p => (multiView p.1 p.2, multiEdges p.2))

theorem view_new (h : WitcherGraph.Closed nodes edges) : view (WitcherGraph.new nodes edges) = multiView nodes edges := by
  have hnodes := WitcherGraph.nodes_new h
  have hnode : (WitcherGraph.new nodes edges).node = (WitcherGraph.initNodes nodes).node := by
    funext k
    rw [WitcherGraph.node, WitcherGraph.node, hnodes]
  have hpred : (WitcherGraph.new nodes edges).predecessors = (multiView nodes edges).predecessors := by
    funext v
    have hinit : WitcherGraph.initNodes nodes = ⟨(WitcherGraph.initNodes nodes).nodes, Dict.empty⟩ := by
      rw [← WitcherGraph.edges_initNodes nodes]
    rw [WitcherGraph.new, WitcherGraph.initEdges, hinit, DiGraph.predecessors_addEdges]
    rfl
  rw [view, hnode, hpred, hnodes]
  rfl

/-- The edge a pair keeps is the last one. -/
theorem get?_new (k : Int × Int) : (WitcherGraph.new nodes edges).edges.get? k =
    ((multiEdges edges).filter fun e => e.1 = k).getLast?.map Prod.snd := by
  rw [WitcherGraph.new, WitcherGraph.initEdges, DiGraph.get?_addEdges, WitcherGraph.edges_initNodes]
  exact Option.or_none

/-- No data edge comes after a control edge from the same node. -/
def DataFirstEdges (edges : List WitcherGraphEdge) : Prop :=
  (multiEdges edges).Pairwise fun e e' => e.1.1 = e'.1.1 → e.2 = .ctrlDep → e'.2 = .ctrlDep

/-- The bounds of the facts of the kept edges are those of the facts of all edges. -/
theorem edgeList_facts_iff {list : List PMObject} (hfirst : DataFirstEdges edges)
    (hv : Readable list (view (WitcherGraph.new nodes edges)))
    (hjoined : Joined (view (WitcherGraph.new nodes edges), multiEdges edges)) (G : Facts) :
    (∀ e ∈ (WitcherGraph.new nodes edges).edgeList, edgeFacts (view (WitcherGraph.new nodes edges)) list e ≤ G) ↔
      ∀ e ∈ multiEdges edges, edgeFacts (view (WitcherGraph.new nodes edges)) list e ≤ G := by
  constructor
  · rintro hkept ⟨k, type⟩ he
    obtain ⟨hsrc, htgt⟩ := hjoined (k, type) he
    have hmem : (k, type) ∈ (multiEdges edges).filter fun e => e.1 = k := List.mem_filter.mpr ⟨he, by simp⟩
    -- the last edge of the pair
    obtain ⟨last, hlast⟩ : ∃ last, ((multiEdges edges).filter fun e => e.1 = k).getLast? = some last :=
      Option.isSome_iff_exists.mp (by rw [List.getLast?_isSome]; exact List.ne_nil_of_mem hmem)
    obtain ⟨front, hfront⟩ := List.getLast?_eq_some_iff.mp hlast
    have hkept' : (k, last.2) ∈ (WitcherGraph.new nodes edges).edgeList := by
      obtain ⟨src, hsrc⟩ := hsrc
      exact (DiGraph.mem_edgeList _ _ _ _).mpr ⟨WitcherGraph.mem_of_node hsrc, by rw [get?_new, hlast]; rfl⟩
    refine le_trans ?_ (hkept _ hkept')
    have hctrl : type = .ctrlDep → last.2 = .ctrlDep := by
      intro htype
      have hpair := hfirst.filter (fun e => decide (e.1 = k))
      rw [hfront] at hpair hmem
      rcases List.mem_append.mp hmem with hmem | hmem
      · have hlast' : last ∈ (multiEdges edges).filter fun e => e.1 = k := List.mem_of_getLast? hlast
        have hk : last.1 = k := of_decide_eq_true (List.mem_filter.mp hlast').2
        exact (List.pairwise_append.mp hpair).2.2 _ hmem last List.mem_cons_self (by rw [hk]) htype
      · rw [← List.mem_singleton.mp hmem]
        exact htype
    cases hkind : last.2 with
    | ctrlDep => exact (edgeFacts_spec hv hsrc htgt).1 type
    | dataDep =>
        cases type with
        | dataDep => exact le_refl _
        | ctrlDep =>
            rw [hctrl rfl] at hkind
            cases hkind
  · rintro hall ⟨k, type⟩ he
    apply hall
    obtain ⟨_, hget⟩ := (DiGraph.mem_edgeList _ k.1 k.2 type).mp he
    rw [get?_new] at hget
    obtain ⟨last, hlast, rfl⟩ := Option.map_eq_some_iff.mp hget
    have hmem := List.mem_filter.mp (List.mem_of_getLast? hlast)
    have hk : last.1 = k := of_decide_eq_true hmem.2
    rw [← hk]
    exact hmem.1

theorem initPmObjectList_nodes (graphs : List WitcherGraph) : initPmObjectList graphs =
    (graphs.map (·.nodes)).foldlM (fun list nodes => nodes.values.foldlM insertNode list) [] := by
  rw [List.foldlM_map]
  rfl

/-- The two databases have the same facts. -/
theorem newMulti_facts (ppdgs : List (List WitcherGraphNode × List WitcherGraphEdge))
    (hclosed : ∀ p ∈ ppdgs, WitcherGraph.Closed p.1 p.2) (hsize : ∀ p ∈ ppdgs, ∀ n ∈ p.1, 0 ≤ n.size)
    (hfirst : ∀ p ∈ ppdgs, DataFirstEdges p.2) :
    ∃ db mdb, new (ppdgs.map fun p => WitcherGraph.new p.1 p.2) = .ok db ∧ newMulti ppdgs = .ok mdb ∧
      db.beliefs.facts = mdb.beliefs.facts := by
  have hvalid : ∀ p ∈ ppdgs, (WitcherGraph.new p.1 p.2).Valid :=
    fun p hp => WitcherGraph.valid_new (hclosed p hp) (hsize p hp)
  have hvalid' : ∀ g ∈ ppdgs.map fun p => WitcherGraph.new p.1 p.2, g.Valid := by
    intro g hg
    obtain ⟨p, hp, rfl⟩ := List.mem_map.mp hg
    exact hvalid p hp
  obtain ⟨list, hlist, _, hreadable, _⟩ := initPmObjectList_readable _ hvalid'
  have hreadable' : ∀ p ∈ ppdgs, Readable (enumerate list) (view (WitcherGraph.new p.1 p.2)) :=
    fun p hp => hreadable _ (List.mem_map_of_mem hp)
  have hjoined : ∀ p ∈ ppdgs, Joined (view (WitcherGraph.new p.1 p.2), multiEdges p.2) := by
    intro p hp
    apply joined_of_subset (hvalid p hp)
    intro e he
    obtain ⟨edge, hedge, rfl⟩ := List.mem_map.mp he
    exact WitcherGraph.mem_edges_new.mpr ⟨edge, hedge, rfl⟩
  have hlist' : initPmObjectList (ppdgs.map fun p => WitcherGraph.initNodes p.1) = .ok list := by
    have hnodes : (ppdgs.map fun p => WitcherGraph.initNodes p.1).map (·.nodes) =
        (ppdgs.map fun p => WitcherGraph.new p.1 p.2).map (·.nodes) := by
      rw [List.map_map, List.map_map]
      exact List.map_congr_left fun p hp => (WitcherGraph.nodes_new (hclosed p hp)).symm
    rw [initPmObjectList_nodes, hnodes, ← initPmObjectList_nodes, hlist]
  have hviews : (ppdgs.map fun p => (multiView p.1 p.2, multiEdges p.2)) =
      ppdgs.map fun p => (view (WitcherGraph.new p.1 p.2), multiEdges p.2) :=
    List.map_congr_left fun p hp => by rw [view_new (hclosed p hp)]
  obtain ⟨db, hdb, _, _, hfacts, _⟩ := build_spec list
    (ppdgs.map fun p => (view (WitcherGraph.new p.1 p.2), (WitcherGraph.new p.1 p.2).edgeList))
    (List.forall_mem_map.mpr hreadable')
    (List.forall_mem_map.mpr fun p hp => joined_of_subset (hvalid p hp) fun e => mem_edges_of_mem_edgeList)
  obtain ⟨mdb, hmdb, _, _, hmfacts, _⟩ := build_spec list
    (ppdgs.map fun p => (view (WitcherGraph.new p.1 p.2), multiEdges p.2))
    (List.forall_mem_map.mpr hreadable') (List.forall_mem_map.mpr hjoined)
  refine ⟨db, mdb, ?_, ?_, ?_⟩
  · rw [new, hlist, Loops.ok_bind, List.map_map]
    exact hdb
  · rw [newMulti, hlist', Loops.ok_bind, hviews, hmdb]
  · apply eq_of_forall_ge_iff
    intro G
    rw [hfacts, hmfacts, List.forall_mem_map, List.forall_mem_map]
    apply forall₂_congr
    intro p hp
    exact edgeList_facts_iff (hfirst p hp) (hreadable' p hp) (hjoined p hp) G

end WitcherBeliefDatabase

/-! ### Generated graphs -/

/-- A graph that the pass generates, for some trace. -/
def PPDG.IsGenerated {ν : Type} [DecidableEq ν] (g : PPDG ν) : Prop :=
  ∃ (I : SlicerInput ν) (trace : List Entry), I.pdg.Bounded ∧ generatePPDG I trace = some g

section Model

variable {ν : Type} [DecidableEq ν]

theorem PPDG.IsGenerated.generated {g : PPDG ν} (h : g.IsGenerated) : Generated g.vertices.length g g := by
  obtain ⟨I, trace, hpdg, hrun⟩ := h
  rw [generatePPDG, Option.bind_eq_bind, Option.bind_eq_some_iff] at hrun
  obtain ⟨g₀, hvertices, hedges⟩ := hrun
  obtain ⟨g', hrun, hgen⟩ := generatePPDG_spec hpdg hvertices
  rw [generatePPDG, hvertices, Option.bind_eq_bind, Option.bind_some, hedges] at hrun
  cases hrun
  rw [← hgen.vertices] at hgen
  exact ⟨rfl, hgen.dataFirst, hgen.source_lt, fun e he => hgen.vertices ▸ hgen.target_lt e he⟩

theorem PPDG.mem_graphNodes_id (g : PPDG ν) {v : Nat} (h : v < g.vertices.length) :
    ∃ n ∈ g.graphNodes, n.id = v := by
  have h' : v < g.graphNodes.length := by simpa [graphNodes] using h
  exact ⟨g.graphNodes[v], List.getElem_mem h', by simp [graphNodes]⟩

theorem PPDG.IsGenerated.closed {g : PPDG ν} (h : g.IsGenerated) : WitcherGraph.Closed g.graphNodes g.graphEdges := by
  have hgen := h.generated
  intro e he
  obtain ⟨edge, hedge, rfl⟩ := List.mem_map.mp he
  exact ⟨g.mem_graphNodes_id (hgen.source_lt edge hedge), g.mem_graphNodes_id (hgen.target_lt edge hedge)⟩

theorem PPDG.IsGenerated.dataFirstEdges {g : PPDG ν} (h : g.IsGenerated) :
    WitcherBeliefDatabase.DataFirstEdges g.graphEdges := by
  rw [WitcherBeliefDatabase.DataFirstEdges, WitcherBeliefDatabase.multiEdges, graphEdges, List.map_map,
    List.pairwise_map]
  apply h.generated.dataFirst.imp
  intro e e' himp hsource hkind
  exact himp (Int.ofNat_inj.mp hsource) hkind

/-- Loading generated graphs into directed graphs with one edge for each pair loses no belief, no
critical read and no edge of the belief graph. -/
theorem collapse_exact (ppdgs : List (PPDG ν)) (h : ∀ g ∈ ppdgs, g.IsGenerated) :
    ∃ db mdb, WitcherBeliefDatabase.new (ppdgs.map fun g => .new g.graphNodes g.graphEdges) = .ok db ∧
      WitcherBeliefDatabase.newMulti (ppdgs.map fun g => (g.graphNodes, g.graphEdges)) = .ok mdb ∧
      db.beliefs.beliefGraph.edges.keys.toFinset = mdb.beliefs.beliefGraph.edges.keys.toFinset ∧
      db.beliefs.beliefSet = mdb.beliefs.beliefSet ∧ db.beliefs.criticalReadSet = mdb.beliefs.criticalReadSet := by
  obtain ⟨db, mdb, hdb, hmdb, hfacts⟩ := WitcherBeliefDatabase.newMulti_facts
    (ppdgs.map fun g => (g.graphNodes, g.graphEdges))
    (List.forall_mem_map.mpr fun g hg => (h g hg).closed)
    (List.forall_mem_map.mpr fun g _ n hn => by
      obtain ⟨i, hi, rfl⟩ := List.mem_mapIdx.mp hn
      exact Int.natCast_nonneg _)
    (List.forall_mem_map.mpr fun g hg => (h g hg).dataFirstEdges)
  rw [List.map_map] at hdb
  obtain ⟨hbeliefs, hreads, hedges⟩ : _ = _ ∧ _ = _ ∧ _ = _ := by
    simpa only [BeliefSets.facts, Prod.mk.injEq] using hfacts
  exact ⟨db, mdb, hdb, hmdb, hedges, hbeliefs, hreads⟩

end Model

/-- A store that depends on a load both by its value and by a branch. -/
def guardedStore : SlicerInput Nat where
  pdg := ⟨[0, 1], (Dict.empty.set ⟨0, 1⟩ 0).set ⟨1, 2⟩ 1, [⟨1, 0, .dataDep⟩, ⟨1, 0, .ctrlDep⟩]⟩
  heap p := if p = 0 then ⟨0, 1⟩ else ⟨1, 2⟩
  getDynValueFromIndex _ index := if index = 0 then some ⟨0, 1⟩ else some ⟨1, 2⟩
  locateSrcInfo _ := ""
  pmAddrRange := ⟨64, 128⟩

def guardedStoreTrace : List Entry := [⟨.ldType, 1, 0, 64, 8⟩, ⟨.stType, 2, 0, 72, 8⟩]

/-- The two edges from the store to the load are loaded as one. -/
theorem collapse_exact_guarded_store : ∃ g, generatePPDG guardedStore guardedStoreTrace = some g ∧
    g.edges = [⟨1, 0, .dataDep⟩, ⟨1, 0, .ctrlDep⟩] ∧
    ∃ db mdb, WitcherBeliefDatabase.new [.new g.graphNodes g.graphEdges] = .ok db ∧
      WitcherBeliefDatabase.newMulti [(g.graphNodes, g.graphEdges)] = .ok mdb ∧
      db.beliefs.beliefGraph.edges.keys.toFinset = mdb.beliefs.beliefGraph.edges.keys.toFinset ∧
      db.beliefs.beliefSet = mdb.beliefs.beliefSet ∧ db.beliefs.criticalReadSet = mdb.beliefs.criticalReadSet := by
  have hbounded : guardedStore.pdg.Bounded := by
    constructor
    · intro d v hd
      simp only [guardedStore, PDG.vertexOf, Dict.get?_set, Dict.get?_empty] at hd
      split_ifs at hd <;> cases hd <;> decide
    · decide
  obtain ⟨g, hg⟩ : ∃ g, generatePPDG guardedStore guardedStoreTrace = some g := ⟨_, rfl⟩
  refine ⟨g, hg, ?_, collapse_exact [g] ?_⟩
  · cases hg
    rfl
  · intro g' hg'
    rw [List.mem_singleton.mp hg']
    exact ⟨guardedStore, guardedStoreTrace, hbounded, hg⟩

end Witcher
