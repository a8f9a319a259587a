import Witcher.DependenceGraph
import Witcher.DiGraph

/-! The persistent dependence graphs as the replay loads them (`engines/witcher/witcherppdg.py`). A node
is a traced load or store, an edge a data or control dependence; the edges are loaded into a directed
graph with one edge for each pair of nodes. -/

namespace Witcher

inductive NodeType where
  | store
  | load
  deriving DecidableEq, Repr

structure WitcherGraphNode where
  id : Int
  type : NodeType
  address : Int
  size : Int
  deriving DecidableEq, Repr

structure WitcherGraphEdge where
  type : Edge
  srcId : Int
  tgtId : Int
  deriving DecidableEq, Repr

/-- A node that only an edge mentions has no attributes. -/
abbrev WitcherGraph := DiGraph Int (Option WitcherGraphNode) Edge

namespace WitcherGraph

def initNodes (nodes : List WitcherGraphNode) : WitcherGraph :=
  nodes.foldl (fun g node => g.addNode node.id (some node)) DiGraph.empty

def initEdges (g : WitcherGraph) (edges : List WitcherGraphEdge) : WitcherGraph :=
  g.addEdges none (edges.map fun edge => ((edge.srcId, edge.tgtId), edge.type))

/-- `WitcherGraph(nodes, edges)`. -/
def new (nodes : List WitcherGraphNode) (edges : List WitcherGraphEdge) : WitcherGraph :=
  initEdges (initNodes nodes) edges

/-- `graph.nodes[node_id]`. -/
def node (g : WitcherGraph) (k : Int) : Option WitcherGraphNode := (g.nodes.get? k).join

/-- Every node carries its attributes. -/
def Complete (g : WitcherGraph) : Prop := ∀ k ∈ g.nodes.keys, ∃ node, g.nodes.get? k = some (some node) ∧ node.id = k

variable {nodes : List WitcherGraphNode} {edges : List WitcherGraphEdge}

/-- Every edge joins two of the nodes. -/
def Closed (nodes : List WitcherGraphNode) (edges : List WitcherGraphEdge) : Prop :=
  ∀ e ∈ edges, (∃ n ∈ nodes, n.id = e.srcId) ∧ ∃ n ∈ nodes, n.id = e.tgtId

theorem edges_initNodes (nodes : List WitcherGraphNode) : (initNodes nodes).edges = Dict.empty := by
  suffices h : ∀ g : WitcherGraph, (nodes.foldl (fun g node => g.addNode node.id (some node)) g).edges = g.edges from
    h DiGraph.empty
  induction nodes with
  | nil => exact fun g => rfl
  | cons n nodes ih =>
      intro g
      rw [List.foldl_cons, ih]
      rfl

theorem mem_keys_initNodes (nodes : List WitcherGraphNode) (k : Int) :
    k ∈ (initNodes nodes).nodes.keys ↔ ∃ n ∈ nodes, n.id = k := by
  suffices h : ∀ g : WitcherGraph, k ∈ (nodes.foldl (fun g node => g.addNode node.id (some node)) g).nodes.keys ↔
      (∃ n ∈ nodes, n.id = k) ∨ k ∈ g.nodes.keys by
    rw [initNodes, h]
    simp [DiGraph.empty, Dict.empty, Dict.keys]
  induction nodes with
  | nil => simp
  | cons n nodes ih =>
      intro g
      rw [List.foldl_cons, ih, DiGraph.addNode, Dict.mem_keys_set, List.exists_mem_cons_iff, eq_comm, or_left_comm, or_assoc]

/-- A node that is looked up is one of the list. -/
theorem get?_initNodes {k : Int} {a : Option WitcherGraphNode} (h : (initNodes nodes).nodes.get? k = some a) :
    ∃ n ∈ nodes, a = some n ∧ n.id = k := by
  suffices hfold : ∀ g : WitcherGraph,
      (nodes.foldl (fun g node => g.addNode node.id (some node)) g).nodes.get? k = some a →
        (∃ n ∈ nodes, a = some n ∧ n.id = k) ∨ g.nodes.get? k = some a by
    rcases hfold DiGraph.empty h with hn | hnone
    · exact hn
    · cases hnone
  clear h
  induction nodes with
  | nil => exact fun g hg => .inr hg
  | cons n nodes ih =>
      intro g hg
      rcases ih _ hg with ⟨m, hm, hattr⟩ | hset
      · exact .inl ⟨m, List.mem_cons_of_mem n hm, hattr⟩
      · change (g.nodes.set n.id (some n)).get? k = some a at hset
        rw [Dict.get?_set] at hset
        split_ifs at hset with hk
        · cases hset
          exact .inl ⟨n, List.mem_cons_self, rfl, hk.symm⟩
        · exact .inr hset

theorem nodes_new (h : Closed nodes edges) : (new nodes edges).nodes = (initNodes nodes).nodes := by
  rw [new, initEdges, DiGraph.nodes_addEdges]
  intro e he
  obtain ⟨edge, hedge, rfl⟩ := List.mem_map.mp he
  obtain ⟨hsrc, htgt⟩ := h edge hedge
  exact ⟨(mem_keys_initNodes nodes _).mpr hsrc, (mem_keys_initNodes nodes _).mpr htgt⟩

theorem complete_new (h : Closed nodes edges) : Complete (new nodes edges) := by
  intro k hk
  rw [nodes_new h] at hk ⊢
  cases hget : (initNodes nodes).nodes.get? k with
  | none => exact absurd hk ((Dict.get?_eq_none_iff _ _).mp hget)
  | some a =>
      obtain ⟨n, _, rfl, hid⟩ := get?_initNodes hget
      exact ⟨n, rfl, hid⟩

end WitcherGraph

end Witcher
