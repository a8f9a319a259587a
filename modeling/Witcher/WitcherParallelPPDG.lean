import Witcher.DependenceGraph
import Witcher.Runtime

/-! The persistent dependence graph of a transaction (`PPDG` of `ProgramDependenceGraph.cpp`,
`WitcherParallelPPDG.cpp`). Its vertices are the loads and stores to persistent memory that the program
dependence graph contains; its edges are found by searching the program dependence graph from a vertex
until other persistent values are reached. -/

namespace Witcher

/-! ### The graph -/

/-- A vertex has a value and its own trace entry; a load and a store of one `memcpy` are two vertices
of one value. Edges are listed in the order they were added. -/
structure PPDG (ν : Type) [DecidableEq ν] where
  vertices : List (DynValue ν × TraceInfo)
  valToVtxMap : Dict (DynValue ν) (List Nat)
  edges : List DepEdge
  map_lt : ∀ d vs, valToVtxMap.get? d = some vs → ∀ v ∈ vs, v < vertices.length

section Model

variable {ν : Type} [DecidableEq ν]

namespace PPDG

def empty : PPDG ν := ⟨[], Dict.empty, [], fun _ _ h => by cases h⟩

theorem map_lt_append (g : PPDG ν) (vertex : DynValue ν × TraceInfo) {d : DynValue ν} {vs : List Nat}
    (h : g.valToVtxMap.get? d = some vs) : ∀ v ∈ vs, v < (g.vertices ++ [vertex]).length := by
  intro v hv
  have := g.map_lt d vs h v hv
  rw [List.length_append]
  omega

/-- A value seen before gets a second vertex; a third one fails the assertion. -/
def createVertex (g : PPDG ν) (val : DynValue ν) (traceInfo : TraceInfo) : Option (PPDG ν) :=
  let v := g.vertices.length
  match h : g.valToVtxMap.get? val with
  | some [vInplace] => some
      { g with
        vertices := g.vertices ++ [(val, traceInfo)]
        valToVtxMap := (g.valToVtxMap.erase val).set val [vInplace, v]
        map_lt := by
          intro d vs hd w hw
          rw [Dict.get?_set] at hd
          split_ifs at hd with hval
          · cases hd
            have hin := g.map_lt_append (val, traceInfo) h vInplace List.mem_cons_self
            rcases List.mem_cons.mp hw with rfl | hw
            · exact hin
            · rw [List.mem_singleton.mp hw, List.length_append]
              exact Nat.lt_succ_self _
          · rw [Dict.get?_erase, if_neg hval] at hd
            exact g.map_lt_append (val, traceInfo) hd w hw }
  | some _ => none
  | none => some
      { g with
        vertices := g.vertices ++ [(val, traceInfo)]
        valToVtxMap := g.valToVtxMap.set val [v]
        map_lt := by
          intro d vs hd w hw
          rw [Dict.get?_set] at hd
          split_ifs at hd with hval
          · cases hd
            rw [List.mem_singleton.mp hw, List.length_append]
            exact Nat.lt_succ_self _
          · exact g.map_lt_append (val, traceInfo) hd w hw }

def contains (g : PPDG ν) (val : DynValue ν) : Bool := (g.valToVtxMap.get? val).isSome

/-- The vertices of a value, in ascending order. -/
def getVertices (g : PPDG ν) (val : DynValue ν) : List Nat := (g.valToVtxMap.get? val).getD []

def getVertexValue (g : PPDG ν) (v : Nat) : Option (DynValue ν) := g.vertices[v]?.map Prod.fst

def addDepEdge (srcVtx : Nat) (kind : Edge) (g : PPDG ν) (targetVtx : Nat) : PPDG ν :=
  { g with edges := g.edges ++ [⟨srcVtx, targetVtx, kind⟩] }

end PPDG

namespace PDG

def contains (g : PDG ν) (val : DynValue ν) : Bool := (g.valToVtxMap.get? val).isSome

/-- The value a vertex points at. -/
def getVertexValue (g : PDG ν) (heap : Nat → DynValue ν) (v : Nat) : Option (DynValue ν) := g.vertices[v]?.map heap

def outEdges (g : PDG ν) (v : Nat) : List DepEdge := g.edges.filter fun e => e.source = v

end PDG

/-! ### Vertices -/

/-- The inputs of the pass: the finished program dependence graph, the executions and source lines of
instructions, and the persistent range. -/
structure SlicerInput (ν : Type) where
  pdg : PDG ν
  heap : Nat → DynValue ν
  getDynValueFromIndex : UInt32 → Nat → Option (DynValue ν)
  locateSrcInfo : UInt32 → String
  pmAddrRange : Range

variable (I : SlicerInput ν)

/-- One iteration of the loop over the trace. An execution that cannot be found is dereferenced. -/
def generateVertex (g : PPDG ν) (entry : Entry × Nat) : Option (PPDG ν) :=
  let (entry, index) := entry
  if entry.type ≠ .stType ∧ entry.type ≠ .ldType then some g
  else if !I.pmAddrRange.isInRange entry.address then some g
  else
    match I.getDynValueFromIndex entry.id index with
    | none => none
    | some dynValue =>
        if !I.pdg.contains dynValue then some g
        else g.createVertex dynValue ⟨index, entry, I.locateSrcInfo entry.id⟩

def generateVertices (trace : List Entry) : Option (PPDG ν) := trace.zipIdx.foldlM (generateVertex I) PPDG.empty

/-! ### Edges -/

/-- The depth-first search along data dependences, from a vertex of the program dependence graph that
was not processed yet. Every call processes one more vertex, so their number bounds the depth. -/
def getDataEdges (ppdgV : Nat) (kind : Edge) : Nat → Nat → PPDG ν × List Nat → Option (PPDG ν × List Nat)
  | 0, _, _ => none
  | fuel + 1, pdgV, (g, processed) =>
      if pdgV ∈ processed then none
      else
        match I.pdg.getVertexValue I.heap pdgV, g.getVertexValue ppdgV with
        | some pdgVal, some ppdgVal =>
            if g.contains pdgVal ∧ pdgVal ≠ ppdgVal then
              some ((g.getVertices pdgVal).foldl (PPDG.addDepEdge ppdgV kind) g, pdgV :: processed)
            else (I.pdg.outEdges pdgV).foldlM (fun s e =>
              if e.kind ≠ .dataDep ∨ e.target ∈ s.2 then some s
              else getDataEdges ppdgV kind fuel e.target s) (g, pdgV :: processed)
        | _, _ => none

/-- The search from every control dependence of the vertex. -/
def getCtrlEdges (pdgV ppdgV : Nat) (g : PPDG ν) : Option (PPDG ν) :=
  (I.pdg.outEdges pdgV).foldlM (fun g e =>
    if e.kind ≠ .ctrlDep then some g
    else (getDataEdges I ppdgV .ctrlDep I.pdg.vertices.length e.target (g, [])).map Prod.fst) g

def generaeteEdgesOf (g : PPDG ν) (ppdgV : Nat) : Option (PPDG ν) := do
  let val ← g.getVertexValue ppdgV
  let pdgV ← I.pdg.vertexOf val
  let (g, _) ← getDataEdges I ppdgV .dataDep I.pdg.vertices.length pdgV (g, [])
  getCtrlEdges I pdgV ppdgV g

def generaeteEdges (g : PPDG ν) : Option (PPDG ν) := (List.range g.vertices.length).foldlM (generaeteEdgesOf I) g

def generatePPDG (trace : List Entry) : Option (PPDG ν) := do
  let g ← generateVertices I trace
  generaeteEdges I g

end Model

end Witcher
