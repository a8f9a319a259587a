import Witcher.Dict

/-! Directed graphs with attributes on nodes and edges, kept in order of insertion. There is one edge
from a node to another: adding it again overwrites its attribute and leaves its place. A graph with
parallel edges is a list of edges; loading it into a directed graph keeps the last attribute of each
pair of nodes and all neighbours. -/

namespace Witcher

namespace Dict

variable {κ ν : Type} [DecidableEq κ]

theorem keys_set (d : Dict κ ν) (k : κ) (v : ν) : (d.set k v).keys = if k ∈ d.keys then d.keys else d.keys ++ [k] := by
  by_cases h : k ∈ d.keys
  · rw [if_pos h, set, dif_pos h, keys, keys, List.map_map]
    apply List.map_congr_left
    intro e _
    by_cases he : e.1 = k <;> simp [he]
  · rw [if_neg h, set, dif_neg h, keys, keys, List.map_append]
    rfl

theorem mem_keys_set (d : Dict κ ν) (k a : κ) (v : ν) : a ∈ (d.set k v).keys ↔ a = k ∨ a ∈ d.keys := by
  rw [keys_set]
  split_ifs with h
  · exact ⟨.inr, fun ha => ha.elim (fun heq => heq ▸ h) id⟩
  · rw [List.mem_append, List.mem_singleton, or_comm]

end Dict

structure DiGraph (κ ν ε : Type) where
  nodes : Dict κ ν
  edges : Dict (κ × κ) ε

namespace DiGraph

variable {κ ν ε : Type}

def empty : DiGraph κ ν ε := ⟨Dict.empty, Dict.empty⟩

variable [DecidableEq κ]

def hasNode (g : DiGraph κ ν ε) (k : κ) : Bool := k ∈ g.nodes.keys

/-- Adds a node with its attribute, or overwrites the attribute. -/
def addNode (g : DiGraph κ ν ε) (k : κ) (attr : ν) : DiGraph κ ν ε := { g with nodes := g.nodes.set k attr }

/-- A node that an edge mentions and that is not there is added with the attribute `blank`. -/
def ensureNode (blank : ν) (g : DiGraph κ ν ε) (k : κ) : DiGraph κ ν ε := if g.hasNode k then g else g.addNode k blank

def addEdge (blank : ν) (g : DiGraph κ ν ε) (u v : κ) (attr : ε) : DiGraph κ ν ε :=
  let g := (g.ensureNode blank u).ensureNode blank v
  { g with edges := g.edges.set (u, v) attr }

/-- `for edge in graph.edges`: node by node, the edges of a node in the order they were added. -/
def edgeList (g : DiGraph κ ν ε) : List ((κ × κ) × ε) :=
  g.nodes.keys.flatMap fun u => g.edges.entries.filter fun e => e.1.1 = u

def successors (g : DiGraph κ ν ε) (u : κ) : List κ := (g.edges.keys.filter fun k => k.1 = u).map Prod.snd

def predecessors (g : DiGraph κ ν ε) (v : κ) : List κ := (g.edges.keys.filter fun k => k.2 = v).map Prod.fst

theorem mem_edgeList (g : DiGraph κ ν ε) (u v : κ) (e : ε) :
    ((u, v), e) ∈ g.edgeList ↔ u ∈ g.nodes.keys ∧ g.edges.get? (u, v) = some e := by
  rw [edgeList, List.mem_flatMap, ← Dict.mem_entries_iff]
  constructor
  · rintro ⟨w, hw, he⟩
    obtain ⟨hmem, hu⟩ := List.mem_filter.mp he
    have hw' : u = w := of_decide_eq_true hu
    rw [hw'] at hmem ⊢
    exact ⟨hw, hmem⟩
  · rintro ⟨hu, he⟩
    exact ⟨u, hu, List.mem_filter.mpr ⟨he, by simp⟩⟩

theorem mem_successors (g : DiGraph κ ν ε) (u v : κ) : v ∈ g.successors u ↔ (u, v) ∈ g.edges.keys := by
  simp [successors]

@[simp] theorem edges_ensureNode (blank : ν) (g : DiGraph κ ν ε) (k : κ) : (g.ensureNode blank k).edges = g.edges := by
  rw [ensureNode]
  split_ifs <;> rfl

theorem ensureNode_of_mem (blank : ν) {g : DiGraph κ ν ε} {k : κ} (h : k ∈ g.nodes.keys) : g.ensureNode blank k = g := by
  rw [ensureNode, hasNode, if_pos (decide_eq_true h)]

@[simp] theorem edges_addEdge (blank : ν) (g : DiGraph κ ν ε) (u v : κ) (attr : ε) :
    (g.addEdge blank u v attr).edges = g.edges.set (u, v) attr := by
  simp [addEdge]

theorem nodes_addEdge (blank : ν) {g : DiGraph κ ν ε} {u v : κ} (hu : u ∈ g.nodes.keys) (hv : v ∈ g.nodes.keys)
    (attr : ε) : (g.addEdge blank u v attr).nodes = g.nodes := by
  rw [addEdge, ensureNode_of_mem blank hu, ensureNode_of_mem blank hv]

/-! ### Loading a list of edges -/

/-- The edges added one after another. -/
def addEdges (blank : ν) (g : DiGraph κ ν ε) (edges : List ((κ × κ) × ε)) : DiGraph κ ν ε :=
  edges.foldl (fun g e => g.addEdge blank e.1.1 e.1.2 e.2) g

theorem nodes_addEdges (blank : ν) (g : DiGraph κ ν ε) (edges : List ((κ × κ) × ε))
    (h : ∀ e ∈ edges, e.1.1 ∈ g.nodes.keys ∧ e.1.2 ∈ g.nodes.keys) : (g.addEdges blank edges).nodes = g.nodes := by
  induction edges generalizing g with
  | nil => rfl
  | cons e edges ih =>
      obtain ⟨hu, hv⟩ := h e List.mem_cons_self
      have hnodes := nodes_addEdge blank hu hv e.2
      rw [addEdges, List.foldl_cons, ← addEdges, ih]
      · exact hnodes
      · intro e' he'
        rw [hnodes]
        exact h e' (List.mem_cons_of_mem e he')

/-- The attribute of a pair is the last one loaded. -/
theorem get?_addEdges (blank : ν) (g : DiGraph κ ν ε) (edges : List ((κ × κ) × ε)) (k : κ × κ) :
    (g.addEdges blank edges).edges.get? k =
      ((edges.filter fun e => e.1 = k).getLast?.map Prod.snd).or (g.edges.get? k) := by
  induction edges generalizing g with
  | nil => rfl
  | cons e edges ih =>
      rw [addEdges, List.foldl_cons, ← addEdges, ih, edges_addEdge, Dict.get?_set]
      by_cases hk : e.1 = k
      · rw [List.filter_cons_of_pos (by simp [hk]), if_pos hk.symm]
        cases hrest : (edges.filter fun e => e.1 = k) with
        | nil => rfl
        | cons e' rest =>
            rw [List.getLast?_cons_cons]
            simp [List.getLast?_eq_some_getLast]
      · rw [List.filter_cons_of_neg (by simp [hk]), if_neg (Ne.symm hk)]

/-- The first occurrences in a list, behind those in `seen`. -/
def appendNew (seen : List κ) (l : List κ) : List κ := l.foldl (fun seen k => if k ∈ seen then seen else seen ++ [k]) seen

theorem mem_appendNew (seen l : List κ) (k : κ) : k ∈ appendNew seen l ↔ k ∈ seen ∨ k ∈ l := by
  induction l generalizing seen with
  | nil => simp [appendNew]
  | cons a l ih =>
      rw [appendNew, List.foldl_cons, ← appendNew, ih, List.mem_cons]
      split_ifs with h
      · exact ⟨fun hk => hk.imp_right .inr, fun hk => hk.elim .inl fun hk => hk.elim (fun hk => .inl (hk ▸ h)) .inr⟩
      · rw [List.mem_append, List.mem_singleton, or_assoc]

theorem keys_addEdges (blank : ν) (g : DiGraph κ ν ε) (edges : List ((κ × κ) × ε)) :
    (g.addEdges blank edges).edges.keys = appendNew g.edges.keys (edges.map Prod.fst) := by
  induction edges generalizing g with
  | nil => rfl
  | cons e edges ih =>
      obtain ⟨⟨u, v⟩, attr⟩ := e
      rw [addEdges, List.foldl_cons, ← addEdges, ih, edges_addEdge, Dict.keys_set, List.map_cons]
      rfl

/-- The sources among the first occurrences of pairs into `v` are the first occurrences of sources. -/
theorem appendNew_sources (v : κ) (pairs seen : List (κ × κ)) :
    ((appendNew seen pairs).filter fun k => k.2 = v).map Prod.fst =
      appendNew ((seen.filter fun k => k.2 = v).map Prod.fst) ((pairs.filter fun k => k.2 = v).map Prod.fst) := by
  induction pairs generalizing seen with
  | nil => rfl
  | cons k pairs ih =>
      obtain ⟨u, w⟩ := k
      rw [appendNew, List.foldl_cons, ← appendNew, ih]
      by_cases hw : w = v
      · subst hw
        have hmem : u ∈ (seen.filter fun k => k.2 = w).map Prod.fst ↔ (u, w) ∈ seen := by simp
        rw [List.filter_cons_of_pos (by simp), List.map_cons, appendNew, appendNew, List.foldl_cons]
        simp only [hmem]
        split_ifs
        · rfl
        · simp
      · rw [List.filter_cons_of_neg (by simp [hw])]
        split_ifs
        · rfl
        · rw [List.filter_append, List.filter_cons_of_neg (by simp [hw]), List.filter_nil, List.append_nil]

theorem predecessors_addEdges (blank : ν) (nodes : Dict κ ν) (edges : List ((κ × κ) × ε)) (v : κ) :
    ((⟨nodes, Dict.empty⟩ : DiGraph κ ν ε).addEdges blank edges).predecessors v =
      appendNew [] (((edges.map Prod.fst).filter fun k => k.2 = v).map Prod.fst) := by
  rw [predecessors, keys_addEdges, appendNew_sources]
  rfl

end DiGraph

end Witcher
