import Mathlib.Logic.Relation
import Witcher.Dict

/-! The dynamic program dependence graph (`ProgramDependenceGraph.cpp`, `WitcherParallelPDG.cpp`). A
worklist of pointers to dynamic values is processed value by value; a value is normalised in place
when it is taken from the worklist. The vertex of a value is found by a copy of the value made when an
edge to or from it is inserted, which for the target of an edge is before the normalisation. -/

namespace Witcher

/-- An LLVM value and the trace index of one of its executions. -/
structure DynValue (ν : Type) where
  V : ν
  index : Nat
  deriving DecidableEq, Repr

inductive Edge where
  | dataDep
  | ctrlDep
  deriving DecidableEq, Repr

/-- What the search for the block that forced the execution of a block finds. -/
inductive ExecForcer (ν : Type) where
  | notFound
  | entryOnly
  | terminator (t : DynValue ν)

/-- The queries to the trace. Normalisation moves a value to an index of its own execution. A value
has a block to search a forcer for unless it has none or its block is an entry block. -/
structure TraceFile (ν β : Type) where
  getSourcesFor : DynValue ν → List (DynValue ν)
  normalize : DynValue ν → DynValue ν
  basicBlock : DynValue ν → Option β
  execForcer : β → ExecForcer ν
  normalize_V : ∀ d, (normalize d).V = d.V
  normalize_idem : ∀ d, normalize (normalize d) = normalize d

/-! ### The graph -/

structure DepEdge where
  source : Nat
  target : Nat
  kind : Edge
  deriving DecidableEq, Repr

/-- `vertices` holds the pointer stored at each vertex. -/
structure PDG (ν : Type) where
  vertices : List Nat
  valToVtxMap : Dict (DynValue ν) Nat
  edges : List DepEdge

section Model

variable {ν β : Type} [DecidableEq ν] [DecidableEq β]

namespace PDG

def empty : PDG ν := ⟨[], Dict.empty, []⟩

def getVertexOrCreate (g : PDG ν) (heap : Nat → DynValue ν) (val : Nat) : Nat × PDG ν :=
  match g.valToVtxMap.get? (heap val) with
  | some v => (v, g)
  | none =>
      let v := g.vertices.length
      (v, { g with vertices := g.vertices ++ [val], valToVtxMap := g.valToVtxMap.set (heap val) v })

def addDepEdge (g : PDG ν) (heap : Nat → DynValue ν) (source target : Nat) (kind : Edge) : PDG ν :=
  let (srcVtx, g) := g.getVertexOrCreate heap source
  let (targetVtx, g) := g.getVertexOrCreate heap target
  { g with edges := g.edges ++ [⟨srcVtx, targetVtx, kind⟩] }

/-- The vertex a value is found at. -/
def vertexOf (g : PDG ν) (d : DynValue ν) : Option Nat := g.valToVtxMap.get? d

end PDG

/-! ### Slicing -/

/-- `heap` are the objects behind the pointers below `next`; `toProcess` and the null pointer of
`processedBBs` are as in the source. -/
structure SlicingState (ν β : Type) where
  heap : Nat → DynValue ν
  next : Nat
  graph : PDG ν
  processedValues : List (DynValue ν)
  processedBBs : Dict β (Option Nat)
  toProcess : List Nat

namespace SlicingState

/-- `memory` is what the heap holds before anything is allocated. -/
def init (memory : Nat → DynValue ν) : SlicingState ν β := ⟨memory, 0, PDG.empty, [], Dict.empty, []⟩

/-- `new DynValue(..)` for each value of a list. -/
def allocate (s : SlicingState ν β) : List (DynValue ν) → SlicingState ν β × List Nat
  | [] => (s, [])
  | e :: es =>
      let (s', ps) := allocate { s with heap := Function.update s.heap s.next e, next := s.next + 1 } es
      (s', s.next :: ps)

/-- An edge from one object to another. -/
def addEdge (s : SlicingState ν β) (source target : Nat) (kind : Edge) : SlicingState ν β :=
  { s with graph := s.graph.addDepEdge s.heap source target kind }

/-- An edge to a dependence found for the first time, which is then to be processed. -/
def addDep (DV : Nat) (kind : Edge) (s : SlicingState ν β) (dep : Nat) : SlicingState ν β :=
  { s.addEdge DV dep kind with toProcess := dep :: s.toProcess }

end SlicingState

variable (T : TraceFile ν β)

def slicingDataDep (s : SlicingState ν β) (DV : Nat) : SlicingState ν β :=
  let (s, dataDeps) := s.allocate (T.getSourcesFor (s.heap DV))
  dataDeps.foldl (SlicingState.addDep DV .dataDep) s

/-- The forcer of a block is searched once; a search that finds nothing is not recorded. -/
def slicingCtrlDep (s : SlicingState ν β) (DV : Nat) : SlicingState ν β :=
  match T.basicBlock (s.heap DV) with
  | none => s
  | some b =>
      match s.processedBBs.get? b with
      | some (some ctrlDep) => s.addEdge DV ctrlDep .ctrlDep
      | some none => s
      | none =>
          match T.execForcer b with
          | .notFound => s
          | .terminator t =>
              let (s, ctrlDeps) := s.allocate [t]
              ctrlDeps.foldl (fun s ctrlDep =>
                SlicingState.addDep DV .ctrlDep { s with processedBBs := s.processedBBs.set b (some ctrlDep) } ctrlDep) s
          | .entryOnly => { s with processedBBs := s.processedBBs.set b none }

/-- One iteration of the loop of `slicing`. -/
def slicingStep (s : SlicingState ν β) : SlicingState ν β :=
  match s.toProcess with
  | [] => s
  | DV :: toProcess =>
      let s := { s with toProcess := toProcess, heap := Function.update s.heap DV (T.normalize (s.heap DV)) }
      if s.heap DV ∈ s.processedValues then s
      else
        let s := { s with processedValues := s.heap DV :: s.processedValues }
        slicingDataDep T (slicingCtrlDep T s DV) DV

/-- The loop of `slicing`, with a bound on the number of iterations. -/
def slicingLoop : Nat → SlicingState ν β → Option (SlicingState ν β)
  | 0, s => if s.toProcess = [] then some s else none
  | fuel + 1, s => if s.toProcess = [] then some s else slicingLoop fuel (slicingStep T s)

/-- A load or store is allocated and its slicing begins. -/
def SlicingState.start (s : SlicingState ν β) (initial : DynValue ν) : SlicingState ν β :=
  let (s, ps) := s.allocate [initial]
  { s with toProcess := ps }

def slicing (fuel : Nat) (s : SlicingState ν β) (initial : DynValue ν) : Option (SlicingState ν β) :=
  slicingLoop T fuel (s.start initial)

def generatePDG (fuel : Nat) (memory : Nat → DynValue ν) (initials : List (DynValue ν)) :
    Option (SlicingState ν β) :=
  initials.foldlM (slicing T fuel) (.init memory)

/-- The states of a run: `initials` are the loads and stores sliced so far, the last one maybe not to
its end. -/
inductive Reached (memory : Nat → DynValue ν) : List (DynValue ν) → SlicingState ν β → Prop
  | init : Reached memory [] (.init memory)
  | start {initials : List (DynValue ν)} {s : SlicingState ν β} (initial : DynValue ν) :
      Reached memory initials s → s.toProcess = [] → Reached memory (initials ++ [initial]) (s.start initial)
  | step {initials : List (DynValue ν)} {s : SlicingState ν β} :
      Reached memory initials s → Reached memory initials (slicingStep T s)

variable {T}

theorem slicingLoop_reached {memory : Nat → DynValue ν} {initials : List (DynValue ν)} {fuel : Nat}
    {s t : SlicingState ν β} (hs : Reached T memory initials s) (h : slicingLoop T fuel s = some t) :
    Reached T memory initials t ∧ t.toProcess = [] := by
  induction fuel generalizing s with
  | zero =>
      rw [slicingLoop] at h
      split_ifs at h with hempty
      cases h
      exact ⟨hs, hempty⟩
  | succ fuel ih =>
      rw [slicingLoop] at h
      split_ifs at h with hempty
      · cases h
        exact ⟨hs, hempty⟩
      · exact ih hs.step h

/-- What `generatePDG` returns is the end of a run. -/
theorem generatePDG_reached {memory : Nat → DynValue ν} {initials : List (DynValue ν)} {fuel : Nat}
    {s : SlicingState ν β} (h : generatePDG T fuel memory initials = some s) :
    Reached T memory initials s ∧ s.toProcess = [] := by
  suffices hrun : ∀ (rest done : List (DynValue ν)) (s t : SlicingState ν β), Reached T memory done s →
      s.toProcess = [] → rest.foldlM (slicing T fuel) s = some t →
      Reached T memory (done ++ rest) t ∧ t.toProcess = [] by
    exact hrun initials [] _ s .init rfl h
  intro rest
  induction rest with
  | nil =>
      intro done s t hs hempty ht
      cases ht
      exact ⟨by rwa [List.append_nil], hempty⟩
  | cons initial rest ih =>
      intro done s t hs hempty ht
      rw [List.foldlM_cons, Option.bind_eq_bind, Option.bind_eq_some_iff] at ht
      obtain ⟨s', hs', ht⟩ := ht
      obtain ⟨hreached, hempty'⟩ := slicingLoop_reached (.start initial hs hempty) hs'
      have hrest := ih (done ++ [initial]) s' t hreached hempty' ht
      rwa [List.append_assoc] at hrest

end Model

end Witcher
