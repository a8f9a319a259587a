import Witcher.MemoryOperations
import Witcher.TextLines
import Witcher.TextSearch
import Witcher.WitcherPPDG
import Witcher.WitcherParallelPPDG

/-! The text of the persistent dependence graphs: written in the dot format by `PPDG::write_graphviz`
(`ProgramDependenceGraph.cpp`), and read by searching each line for its delimiters
(`engines/witcher/witcherppdg.py`). -/

namespace Witcher

open PythonText TextSearch

/-! ### Writing -/

namespace PPDG

variable {ν : Type} [DecidableEq ν]

def edgeType : Edge → List Char
  | .dataDep => "data".toList
  | .ctrlDep => "ctrl".toList

def writeEdge (kind : Edge) : List Char := "[label=\"".toList ++ edgeType kind ++ "\"]".toList

/-- The type of an access; any other entry fails the assertion. -/
def accessType : RecordType → Option (List Char)
  | .ldType => some "Load,".toList
  | .stType => some "Store,".toList
  | _ => none

def writeVertex (traceInfo : TraceInfo) : Option (List Char) :=
  (accessType traceInfo.traceEntry.type).map fun type =>
    "[label=\"".toList ++ "TI:".toList ++ print 10 traceInfo.traceIndex ++ ":::Src:".toList ++ traceInfo.srcInfo.toList ++
      ":::TraceEntry:".toList ++ type ++ print 16 traceInfo.traceEntry.address.toNat ++ [','] ++
      print 10 traceInfo.traceEntry.length.toNat ++ "\"]".toList

def writeVertexLine (vertex : (DynValue ν × TraceInfo) × Nat) : Option (List Char) :=
  (writeVertex vertex.1.2).map fun attributes => print 10 vertex.2 ++ attributes ++ ";\n".toList

def writeEdgeLine (e : DepEdge) : List Char :=
  print 10 e.source ++ "->".toList ++ print 10 e.target ++ " ".toList ++ writeEdge e.kind ++ ";\n".toList

def writeGraphviz (g : PPDG ν) : Option (List Char) := do
  let vertices ← g.vertices.zipIdx.mapM writeVertexLine
  some ("digraph G \x7b\n".toList ++ vertices.flatten ++ g.edges.flatMap writeEdgeLine ++ "\x7d\n".toList)

end PPDG

/-! ### Reading -/

def parseInt (table : CharTable) (base : Nat) (text : List Char) : Except ReplayError Int :=
  match int table base text with
  | some n => .ok n
  | none => .error .valueError

def readItem (items : List (List Char)) (i : Nat) : Except ReplayError (List Char) :=
  match items[i]? with
  | some item => .ok item
  | none => .error .indexError

/-- `WitcherGraphNode(node_id, node_type, node_address, node_size)`. -/
def newNode (nodeId : Int) (nodeType : List Char) (nodeAddress nodeSize : Int) : Except ReplayError WitcherGraphNode :=
  if nodeType = "Store".toList then .ok ⟨nodeId, .store, nodeAddress, nodeSize⟩
  else if nodeType = "Load".toList then .ok ⟨nodeId, .load, nodeAddress, nodeSize⟩
  else .error .assertion

/-- `WitcherGraphEdge(edge_type, src_id, tgt_id)`. -/
def newEdge (edgeType : List Char) (srcId tgtId : Int) : Except ReplayError WitcherGraphEdge :=
  if edgeType = "data".toList then .ok ⟨.dataDep, srcId, tgtId⟩
  else if edgeType = "ctrl".toList then .ok ⟨.ctrlDep, srcId, tgtId⟩
  else .error .assertion

def generateNode (table : CharTable) (nodeStr : List Char) : Except ReplayError WitcherGraphNode := do
  let nodeId ← parseInt table 10 (slice nodeStr 0 (find ['['] nodeStr))
  let entry := slice nodeStr (find "TraceEntry".toList nodeStr + "TraceEntry".toList.length + 1) (-3)
  let items := entry.splitOn ','
  let nodeType ← readItem items 0
  let address ← readItem items 1
  let nodeAddress ← parseInt table 16 address
  let size ← readItem items 2
  let nodeSize ← parseInt table 10 size
  newNode nodeId nodeType nodeAddress nodeSize

def generateEdge (table : CharTable) (edgeStr : List Char) : Except ReplayError WitcherGraphEdge := do
  let srcId ← parseInt table 10 (slice edgeStr 0 (find ['-'] edgeStr))
  let tgtId ← parseInt table 10 (slice edgeStr (find ['>'] edgeStr + 1) (find [' '] edgeStr))
  let edgeType := slice edgeStr (find ['\x22'] edgeStr + 1) (-3)
  newEdge edgeType srcId tgtId

/-- `WitcherPPDG(ppdg_str)`, up to its `WitcherGraph`. -/
def readPPDG (table : CharTable) (ppdgStr : List Char) :
    Except ReplayError (List WitcherGraphNode × List WitcherGraphEdge) := do
  let ppdgStrList := ((ppdgStr.splitOn '\n').filter (· ≠ [])).drop 1
  let nodes ← (ppdgStrList.filter fun item => !contains "->".toList item).mapM (generateNode table)
  let edges ← (ppdgStrList.filter fun item => contains "->".toList item).mapM (generateEdge table)
  .ok (nodes, edges)

/-- `WitcherPPDGs(file_name)` on the text of the file. -/
def readPPDGs (table : CharTable) (text : List Char) :
    Except ReplayError (List (List WitcherGraphNode × List WitcherGraphEdge)) :=
  ((TextLines.universalNewlines text).splitOn '\x7d').dropLast.mapM (readPPDG table)

end Witcher
