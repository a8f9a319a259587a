import Mathlib.Data.Finset.Basic
import Witcher.PMObjectList
import Witcher.WitcherPPDG

/-! The belief database (`engines/witcher/witcherbeliefdatabase.py`). The objects are the merged ranges
of all graph nodes; every dependence edge is turned into ordering beliefs between the objects of its
two nodes. The stores of a trace are then classified by the object their range is looked up at. -/

namespace Witcher

/-- `P(hb_src) -hb-> W(hb_tgt)`. -/
structure WitcherBelief where
  hbSrc : PMObject
  hbTgt : PMObject
  deriving DecidableEq, Repr

/-- What the analysis of an edge reads of a graph. -/
structure GraphView where
  node : Int → Option WitcherGraphNode
  predecessors : Int → List Int
  numberOfNodes : Nat

/-- The results of the analysis. An edge of the graph carries the count of its beliefs. -/
structure BeliefSets where
  beliefGraph : DiGraph Int Unit Nat
  beliefSet : Finset WitcherBelief
  criticalReadSet : Finset Int

namespace WitcherBeliefDatabase

/-! ### Objects -/

def insertNode (list : List PMObject) (node : Option WitcherGraphNode) : Except ReplayError (List PMObject) :=
  match node with
  | none => .error .keyError
  | some node => if node.size > 0 then PMObjectList.insert list (.new node.address node.size) else .ok list

def initPmObjectListFromGraph (list : List PMObject) (graph : WitcherGraph) : Except ReplayError (List PMObject) :=
  graph.nodes.values.foldlM insertNode list

def initPmObjectList (graphs : List WitcherGraph) : Except ReplayError (List PMObject) :=
  graphs.foldlM initPmObjectListFromGraph []

/-- The objects get their positions as ids. -/
def enumerate (list : List PMObject) : List PMObject := list.mapIdx fun i o => { o with id := i }

def initBeliefGraph (list : List PMObject) : DiGraph Int Unit Nat :=
  (enumerate list).foldl (fun g o => g.addNode o.id ()) DiGraph.empty

/-! ### Beliefs of an edge -/

def addBeliefGraphEdge (g : DiGraph Int Unit Nat) (prevId succId : Int) : DiGraph Int Unit Nat :=
  match g.edges.get? (prevId, succId) with
  | some count => { g with edges := g.edges.set (prevId, succId) (count + 1) }
  | none => g.addEdge () prevId succId 1

/-- Reading the id of a missing object raises. -/
def require (o : Option PMObject) : Except ReplayError PMObject :=
  match o with
  | some o => .ok o
  | none => .error .attributeError

/-- `src -hb-> tgt`. -/
def addBelief (b : BeliefSets) (hbSrc hbTgt : PMObject) : BeliefSets :=
  { b with
    beliefGraph := addBeliefGraphEdge b.beliefGraph hbSrc.id hbTgt.id
    beliefSet := insert ⟨hbSrc, hbTgt⟩ b.beliefSet }

def addCriticalRead (b : BeliefSets) (o : PMObject) : BeliefSets :=
  { b with criticalReadSet := insert o.id b.criticalReadSet }

def analyzeDataEdge (b : BeliefSets) (srcType : NodeType) (srcObj : Option PMObject) (tgtType : NodeType)
    (tgtObj : Option PMObject) : Except ReplayError BeliefSets :=
  if srcType = .store ∧ tgtType = .load then do
    let tgt ← require tgtObj
    let src ← require srcObj
    .ok (addBelief (addCriticalRead b tgt) tgt src)
  else .ok b

/-- The local variables of `get_ctrl_succesors`. -/
structure CtrlState where
  queue : List Int
  processedId : List Int
  ctrlSuccesors : List (Option PMObject)

def visitPredecessor (view : GraphView) (list : List PMObject) (s : CtrlState) (succId : Int) :
    Except ReplayError CtrlState := do
  if succId ∈ s.processedId then .ok s
  else
    let s := { s with processedId := succId :: s.processedId }
    match view.node succId with
    | none => .error .keyError
    | some succNode =>
        if succNode.type = .store then .ok s
        else
          let s := { s with queue := s.queue ++ [succId] }
          if succNode.size = 0 then .ok s
          else
            let succObj ← PMObjectList.find list succNode.address succNode.size
            .ok { s with ctrlSuccesors := s.ctrlSuccesors.insert succObj }

def ctrlLoop (view : GraphView) (list : List PMObject) : Nat → CtrlState → Except ReplayError CtrlState
  | 0, s => .ok s
  | fuel + 1, s =>
      match s.queue with
      | [] => .ok s
      | nodeId :: queue => do
          let s ← (view.predecessors nodeId).foldlM (visitPredecessor view list) { s with queue := queue }
          ctrlLoop view list fuel s

/-- The nodes that reach `src_id` through loads. A node is queued once when it is first seen, and
`src_id` once more at the beginning, so the number of nodes and one more iteration are enough. -/
def getCtrlSuccesors (view : GraphView) (list : List PMObject) (srcId : Int) :
    Except ReplayError (List (Option PMObject)) := do
  let s ← ctrlLoop view list (view.numberOfNodes + 1) ⟨[srcId], [], []⟩
  .ok s.ctrlSuccesors

def analyzeCtrlEdge (view : GraphView) (list : List PMObject) (b : BeliefSets) (srcId : Int) (srcType : NodeType)
    (srcObj : Option PMObject) (tgtType : NodeType) (tgtObj : Option PMObject) : Except ReplayError BeliefSets := do
  let b ←
    if srcType = .store ∧ tgtType = .load then do
      let tgt ← require tgtObj
      let src ← require srcObj
      Except.ok (addBelief (addCriticalRead b tgt) tgt src)
    else .ok b
  if srcType = .load ∧ tgtType = .load then
    let tgt ← require tgtObj
    let src ← require srcObj
    let b := addBelief (addCriticalRead b tgt) src tgt
    let ctrlSuccesors ← getCtrlSuccesors view list srcId
    ctrlSuccesors.foldlM (fun b pmObj => do
      let o ← require pmObj
      .ok (addBelief b o tgt)) b
  else .ok b

/-- A graph node as an edge refers to it. -/
def edgeNode (view : GraphView) (k : Int) : Except ReplayError WitcherGraphNode :=
  match view.node k with
  | none => .error .keyError
  | some node => do
      assert (k = node.id)
      .ok node

def initFromEdge (view : GraphView) (list : List PMObject) (b : BeliefSets) (edge : (Int × Int) × Edge) :
    Except ReplayError BeliefSets := do
  let srcNode ← edgeNode view edge.1.1
  if srcNode.size = 0 then .ok b
  else
    let srcObj ← PMObjectList.find list srcNode.address srcNode.size
    let tgtNode ← edgeNode view edge.1.2
    if tgtNode.size = 0 then .ok b
    else
      let tgtObj ← PMObjectList.find list tgtNode.address tgtNode.size
      match edge.2 with
      | .dataDep => analyzeDataEdge b srcNode.type srcObj tgtNode.type tgtObj
      | .ctrlDep => analyzeCtrlEdge view list b edge.1.1 srcNode.type srcObj tgtNode.type tgtObj

/-- The loop over the edges of one graph. -/
def initFromGraph (list : List PMObject) (b : BeliefSets) (graph : GraphView × List ((Int × Int) × Edge)) :
    Except ReplayError BeliefSets :=
  graph.2.foldlM (initFromEdge graph.1 list) b

def view (graph : WitcherGraph) : GraphView := ⟨graph.node, graph.predecessors, graph.nodes.keys.length⟩

end WitcherBeliefDatabase

/-- `dictStoreToObj` caches the object of a store by the store's id. -/
structure WitcherBeliefDatabase where
  pmObjectList : List PMObject
  beliefs : BeliefSets
  dictStoreToObj : Dict Nat (Option PMObject)

namespace WitcherBeliefDatabase

/-- The database from its objects and, for each graph, the edges to analyse. -/
def build (list : List PMObject) (graphs : List (GraphView × List ((Int × Int) × Edge))) :
    Except ReplayError WitcherBeliefDatabase := do
  let beliefs ← graphs.foldlM (initFromGraph (enumerate list)) ⟨initBeliefGraph list, ∅, ∅⟩
  .ok ⟨enumerate list, beliefs, Dict.empty⟩

/-- `WitcherBeliefDatabase(witcher_ppdgs)`. -/
def new (graphs : List WitcherGraph) : Except ReplayError WitcherBeliefDatabase := do
  let list ← initPmObjectList graphs
  build list (graphs.map fun graph => (view graph, graph.edgeList))

/-! ### Classification of stores -/

def getPmObject (db : WitcherBeliefDatabase) (store : Store) :
    Except ReplayError (Option PMObject × WitcherBeliefDatabase) :=
  match db.dictStoreToObj.get? store.id with
  | some o => .ok (o, db)
  | none => do
      let storeObj ← PMObjectList.find db.pmObjectList store.address store.size
      .ok (storeObj, { db with dictStoreToObj := db.dictStoreToObj.set store.id storeObj })

def isCriticalStore (db : WitcherBeliefDatabase) (store : Store) : Except ReplayError (Bool × WitcherBeliefDatabase) := do
  let (storeObj, db) ← db.getPmObject store
  match storeObj with
  | none => .ok (false, db)
  | some o => .ok (o.id ∈ db.beliefs.criticalReadSet, db)

/-- Asking for the successors of an id that is no node raises. -/
def violateOrderingBelief (db : WitcherBeliefDatabase) (pSt vSt : Store) :
    Except ReplayError (Bool × WitcherBeliefDatabase) := do
  let (pStObj, db) ← db.getPmObject pSt
  let (vStObj, db) ← db.getPmObject vSt
  match pStObj, vStObj with
  | some p, some v =>
      if db.beliefs.beliefGraph.hasNode v.id then .ok (p.id ∈ db.beliefs.beliefGraph.successors v.id, db)
      else .error .keyError
  | _, _ => .ok (false, db)

end WitcherBeliefDatabase

end Witcher
