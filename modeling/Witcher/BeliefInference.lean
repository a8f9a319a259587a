import Mathlib.Data.Finset.Lattice.Lemmas
import Mathlib.Order.Lattice
import Witcher.ObjectLookup

/-! The inference of beliefs from dependence edges. Every node of the loaded graphs lies in an object,
so no lookup fails and no object is missing; an edge adds facts that depend only on the edge and its
graph, and the database ends with the least upper bound of the facts of all edges. -/

namespace Witcher

open Intervals

/-- Nodes with their attributes and sizes, and edges between nodes. -/
structure WitcherGraph.Valid (g : WitcherGraph) : Prop where
  complete : Complete g
  closed : ∀ k ∈ g.edges.keys, k.1 ∈ g.nodes.keys ∧ k.2 ∈ g.nodes.keys
  size_nonneg : ∀ k node, g.node k = some node → 0 ≤ node.size

theorem WitcherGraph.Complete.node_of_mem {g : WitcherGraph} (h : Complete g) {k : Int} (hk : k ∈ g.nodes.keys) :
    ∃ node, g.node k = some node ∧ node.id = k := by
  obtain ⟨node, hget, hid⟩ := h k hk
  exact ⟨node, by rw [WitcherGraph.node, hget, Option.join_some], hid⟩

theorem WitcherGraph.mem_of_node {g : WitcherGraph} {k : Int} {node : WitcherGraphNode} (h : g.node k = some node) :
    k ∈ g.nodes.keys := by
  have hget : g.nodes.get? k = some (some node) := Option.join_eq_some_iff.mp h
  exact (Dict.mem_keys_iff _ _).mpr ⟨_, hget⟩

theorem WitcherGraph.mem_edges_new {nodes : List WitcherGraphNode} {edges : List WitcherGraphEdge} {k : Int × Int} :
    k ∈ (new nodes edges).edges.keys ↔ ∃ e ∈ edges, (e.srcId, e.tgtId) = k := by
  rw [new, initEdges, DiGraph.keys_addEdges, edges_initNodes, DiGraph.mem_appendNew]
  simp [Dict.empty, Dict.keys]

theorem WitcherGraph.valid_new {nodes : List WitcherGraphNode} {edges : List WitcherGraphEdge} (h : Closed nodes edges)
    (hsize : ∀ n ∈ nodes, 0 ≤ n.size) : (new nodes edges).Valid where
  complete := complete_new h
  closed k hk := by
    obtain ⟨e, he, rfl⟩ := mem_edges_new.mp hk
    rw [nodes_new h]
    exact ⟨(mem_keys_initNodes nodes _).mpr (h e he).1, (mem_keys_initNodes nodes _).mpr (h e he).2⟩
  size_nonneg k node hnode := by
    rw [WitcherGraph.node, nodes_new h] at hnode
    obtain ⟨n, hn, heq, _⟩ := get?_initNodes (Option.join_eq_some_iff.mp hnode)
    cases heq
    exact hsize node hn

/-- Beliefs, critical reads and the edges of the belief graph. -/
abbrev Facts := Finset WitcherBelief × Finset Int × Finset (Int × Int)

def BeliefSets.facts (b : BeliefSets) : Facts :=
  (b.beliefSet, b.criticalReadSet, b.beliefGraph.edges.keys.toFinset)

namespace WitcherBeliefDatabase

open PMObjectList

/-! ### Objects with their positions -/

theorem mem_enumerate {list : List PMObject} {o : PMObject} (h : o ∈ list) : ∃ p ∈ enumerate list, p.span = o.span := by
  obtain ⟨i, hi, rfl⟩ := List.mem_iff_getElem.mp h
  have hi' : i < (enumerate list).length := by simpa [enumerate] using hi
  refine ⟨(enumerate list)[i], List.getElem_mem hi', ?_⟩
  simp [enumerate, PMObject.span, PMObject.getBaseAddress, PMObject.getMaxAddress]

theorem map_span_enumerate (list : List PMObject) : (enumerate list).map PMObject.span = list.map PMObject.span := by
  apply List.ext_getElem
  · simp [enumerate]
  · intro i _ _
    simp [enumerate, PMObject.span, PMObject.getBaseAddress, PMObject.getMaxAddress]

theorem sorted_enumerate {list : List PMObject} (h : Sorted list) : Sorted (enumerate list) := by
  have hspans := map_span_enumerate list
  constructor
  · intro o ho
    have hmem : o.span ∈ list.map PMObject.span := by
      rw [← hspans]
      exact List.mem_map_of_mem ho
    obtain ⟨p, hp, hspan⟩ := List.mem_map.mp hmem
    exact hspan ▸ h.proper p hp
  · have hsorted : (list.map PMObject.span).Pairwise fun s t => s.hi ≤ t.lo := List.pairwise_map.mpr h.sorted
    rw [← hspans] at hsorted
    exact List.pairwise_map.mp hsorted

/-! ### Facts of an edge -/

def beliefFacts (hbSrc hbTgt : PMObject) : Facts := ({⟨hbSrc, hbTgt⟩}, ∅, {(hbSrc.id, hbTgt.id)})

def readFacts (o : PMObject) : Facts := (∅, {o.id}, ∅)

/-- The step adds the facts and keeps the nodes of the belief graph. -/
structure Adds (b b' : BeliefSets) (F : Facts) : Prop where
  facts : b'.facts = b.facts ⊔ F
  nodes : b.beliefGraph.nodes.keys ⊆ b'.beliefGraph.nodes.keys

theorem Adds.refl (b : BeliefSets) : Adds b b ⊥ := ⟨sup_bot_eq _ |>.symm, List.Subset.refl _⟩

theorem Adds.trans {b c d : BeliefSets} {F G : Facts} (h : Adds b c F) (h' : Adds c d G) : Adds b d (F ⊔ G) where
  facts := by rw [h'.facts, h.facts, sup_assoc]
  nodes := List.Subset.trans h.nodes h'.nodes

theorem keys_addBeliefGraphEdge (g : DiGraph Int Unit Nat) (u v : Int) :
    (addBeliefGraphEdge g u v).edges.keys.toFinset = insert (u, v) g.edges.keys.toFinset := by
  ext k
  rw [addBeliefGraphEdge]
  cases g.edges.get? (u, v) with
  | none => simp [Dict.mem_keys_set]
  | some count => simp [Dict.mem_keys_set]

theorem nodes_addBeliefGraphEdge (g : DiGraph Int Unit Nat) (u v : Int) :
    g.nodes.keys ⊆ (addBeliefGraphEdge g u v).nodes.keys := by
  rw [addBeliefGraphEdge]
  cases g.edges.get? (u, v) with
  | none =>
      intro k hk
      simp only [DiGraph.addEdge, DiGraph.ensureNode, DiGraph.addNode]
      split_ifs <;> simp [Dict.mem_keys_set, hk]
  | some count => exact List.Subset.refl _

theorem adds_addBelief (b : BeliefSets) (hbSrc hbTgt : PMObject) :
    Adds b (addBelief b hbSrc hbTgt) (beliefFacts hbSrc hbTgt) where
  facts := by
    apply Prod.ext
    · exact Finset.insert_eq _ _ |>.trans (Finset.union_comm _ _)
    · apply Prod.ext
      · exact (Finset.union_empty _).symm
      · show (addBeliefGraphEdge _ _ _).edges.keys.toFinset = _ ∪ _
        rw [keys_addBeliefGraphEdge, Finset.insert_eq, Finset.union_comm]
        rfl
  nodes := nodes_addBeliefGraphEdge _ _ _

theorem adds_addCriticalRead (b : BeliefSets) (o : PMObject) : Adds b (addCriticalRead b o) (readFacts o) where
  facts := by
    apply Prod.ext
    · exact (Finset.union_empty _).symm
    · apply Prod.ext
      · exact Finset.insert_eq _ _ |>.trans (Finset.union_comm _ _)
      · exact (Finset.union_empty _).symm
  nodes := List.Subset.refl _

/-! ### The search for control successors -/

/-- What the analysis relies on: every node of nonzero size is found, and predecessors are nodes. -/
structure Readable (list : List PMObject) (v : GraphView) : Prop where
  ids : ∀ k node, v.node k = some node → node.id = k
  objects : ∀ k node, v.node k = some node → node.size ≠ 0 →
    ∃ o ∈ list, find list node.address node.size = .ok (some o)
  predecessors : ∀ k, ∀ p ∈ v.predecessors k, ∃ node, v.node p = some node
  count : ∃ keys : List Int, keys.length = v.numberOfNodes ∧ ∀ k node, v.node k = some node → k ∈ keys

variable {list : List PMObject} {v : GraphView}

/-- The nodes seen are distinct nodes of the graph, and the objects collected are objects. -/
structure CtrlInv (list : List PMObject) (v : GraphView) (s : CtrlState) : Prop where
  nodup : s.processedId.Nodup
  known : ∀ k ∈ s.processedId, ∃ node, v.node k = some node
  objects : ∀ o ∈ s.ctrlSuccesors, ∃ p ∈ list, o = some p

/-- An upper bound on the iterations left: each pops one node, and pushes only nodes not yet seen. -/
def pending (v : GraphView) (s : CtrlState) : Nat := s.queue.length + (v.numberOfNodes - s.processedId.length)

theorem CtrlInv.length_le (hv : Readable list v) {s : CtrlState} (h : CtrlInv list v s) :
    s.processedId.length ≤ v.numberOfNodes := by
  obtain ⟨keys, hlen, hkeys⟩ := hv.count
  rw [← hlen]
  apply (List.subperm_of_subset h.nodup _).length_le
  intro k hk
  obtain ⟨node, hnode⟩ := h.known k hk
  exact hkeys k node hnode

theorem visitPredecessor_spec (hv : Readable list v) {s : CtrlState} (h : CtrlInv list v s) {p : Int}
    (hp : ∃ node, v.node p = some node) :
    ∃ s', visitPredecessor v list s p = .ok s' ∧ CtrlInv list v s' ∧ pending v s' ≤ pending v s := by
  obtain ⟨node, hnode⟩ := hp
  by_cases hseen : p ∈ s.processedId
  · exact ⟨s, by rw [visitPredecessor, if_pos hseen], h, le_refl _⟩
  · have hadd : ∀ (queue : List Int) (objs : List (Option PMObject)), (∀ o ∈ objs, ∃ q ∈ list, o = some q) →
        CtrlInv list v ⟨queue, p :: s.processedId, objs⟩ := by
      intro queue objs hobjs
      refine ⟨List.nodup_cons.mpr ⟨hseen, h.nodup⟩, ?_, hobjs⟩
      intro k hk
      rcases List.mem_cons.mp hk with rfl | hk
      · exact ⟨node, hnode⟩
      · exact h.known k hk
    have hlen := (hadd [] [] (by simp)).length_le hv
    rw [List.length_cons] at hlen
    simp only [visitPredecessor, if_neg hseen, hnode]
    by_cases hstore : node.type = .store
    · refine ⟨_, if_pos hstore, hadd _ _ h.objects, ?_⟩
      simp only [pending, List.length_cons]
      omega
    · rw [if_neg hstore]
      by_cases hzero : node.size = 0
      · refine ⟨_, if_pos hzero, hadd _ _ h.objects, ?_⟩
        simp only [pending, List.length_cons, List.length_append, List.length_nil]
        omega
      · obtain ⟨o, ho, hfind⟩ := hv.objects p node hnode hzero
        rw [if_neg hzero, hfind]
        refine ⟨_, rfl, hadd _ _ ?_, ?_⟩
        · intro o' ho'
          rcases List.mem_insert_iff.mp ho' with rfl | ho'
          · exact ⟨o, ho, rfl⟩
          · exact h.objects o' ho'
        · simp only [pending, List.length_cons, List.length_append, List.length_nil]
          omega

theorem ctrlLoop_spec (hv : Readable list v) (fuel : Nat) {s : CtrlState} (h : CtrlInv list v s)
    (hfuel : pending v s ≤ fuel) : ∃ s', ctrlLoop v list fuel s = .ok s' ∧ s'.queue = [] ∧ CtrlInv list v s' := by
  induction fuel generalizing s with
  | zero =>
      refine ⟨s, rfl, List.eq_nil_of_length_eq_zero ?_, h⟩
      simp only [pending] at hfuel
      omega
  | succ fuel ih =>
      rw [ctrlLoop]
      cases hq : s.queue with
      | nil => exact ⟨s, rfl, hq, h⟩
      | cons nodeId queue =>
          have hpop : CtrlInv list v { s with queue := queue } := ⟨h.nodup, h.known, h.objects⟩
          have hless : pending v { s with queue := queue } ≤ fuel := by
            simp only [pending, hq, List.length_cons] at hfuel ⊢
            omega
          obtain ⟨t, hloop, ht, hpending⟩ := Loops.foldlM_induction
            (motive := fun _ t => CtrlInv list v t ∧ pending v t ≤ fuel)
            (v.predecessors nodeId) { s with queue := queue } ⟨hpop, hless⟩ (by
              rintro done p rest t hpred ⟨ht, hle⟩
              have hp := hv.predecessors nodeId p (by rw [hpred]; simp)
              obtain ⟨t', hvisit, ht', hle'⟩ := visitPredecessor_spec hv ht hp
              exact ⟨t', hvisit, ht', le_trans hle' hle⟩)
          simp only [hloop, Loops.ok_bind]
          exact ih ht hpending

/-- The search ends with an empty queue, and every object it collected is one of the list. -/
theorem getCtrlSuccesors_spec (hv : Readable list v) (srcId : Int) :
    ∃ succs : List PMObject, getCtrlSuccesors v list srcId = .ok (succs.map some) ∧ ∀ o ∈ succs, o ∈ list := by
  obtain ⟨s, hloop, _, hs⟩ := ctrlLoop_spec hv (v.numberOfNodes + 1) (s := ⟨[srcId], [], []⟩)
    ⟨List.nodup_nil, by simp, by simp⟩ (by simp only [pending, List.length_cons, List.length_nil]; omega)
  have hmap : ∀ l : List (Option PMObject), (∀ o ∈ l, ∃ p ∈ list, o = some p) →
      ∃ succs : List PMObject, l = succs.map some ∧ ∀ o ∈ succs, o ∈ list := by
    intro l
    induction l with
    | nil => exact fun _ => ⟨[], rfl, by simp⟩
    | cons o l ih =>
        intro hl
        obtain ⟨succs, rfl, hsuccs⟩ := ih fun o' ho' => hl o' (List.mem_cons_of_mem o ho')
        obtain ⟨p, hp, rfl⟩ := hl o List.mem_cons_self
        refine ⟨p :: succs, rfl, ?_⟩
        intro o' ho'
        rcases List.mem_cons.mp ho' with rfl | ho'
        · exact hp
        · exact hsuccs o' ho'
  obtain ⟨succs, heq, hsuccs⟩ := hmap s.ctrlSuccesors hs.objects
  refine ⟨succs, ?_, hsuccs⟩
  rw [getCtrlSuccesors, hloop, Loops.ok_bind, heq]

/-! ### Facts of an edge -/

/-- A store that depends on a load, in either way: what was read is to be persisted first. -/
def storeLoadFacts (srcType tgtType : NodeType) (src tgt : PMObject) : Facts :=
  if srcType = .store ∧ tgtType = .load then readFacts tgt ⊔ beliefFacts tgt src else ⊥

/-- A load that is guarded by a load. -/
def loadLoadFacts (srcType tgtType : NodeType) (src tgt : PMObject) (succs : List PMObject) : Facts :=
  if srcType = .load ∧ tgtType = .load then
    readFacts tgt ⊔ beliefFacts src tgt ⊔ succs.foldr (fun o F => beliefFacts o tgt ⊔ F) ⊥
  else ⊥

theorem analyzeDataEdge_spec (b : BeliefSets) (srcType tgtType : NodeType) (src tgt : PMObject) :
    ∃ b', analyzeDataEdge b srcType (some src) tgtType (some tgt) = .ok b' ∧
      Adds b b' (storeLoadFacts srcType tgtType src tgt) := by
  rw [analyzeDataEdge, storeLoadFacts]
  split_ifs with h
  · exact ⟨_, rfl, (adds_addCriticalRead b tgt).trans (adds_addBelief _ tgt src)⟩
  · exact ⟨b, rfl, .refl b⟩

theorem foldlM_beliefs_spec (tgt : PMObject) (succs : List PMObject) (b : BeliefSets) :
    ∃ b', (succs.map some).foldlM (fun b pmObj => require pmObj >>= fun o => Except.ok (addBelief b o tgt)) b = .ok b' ∧
      Adds b b' (succs.foldr (fun o F => beliefFacts o tgt ⊔ F) ⊥) := by
  induction succs generalizing b with
  | nil => exact ⟨b, rfl, .refl b⟩
  | cons o succs ih =>
      obtain ⟨b', hloop, hb'⟩ := ih (addBelief b o tgt)
      exact ⟨b', hloop, (adds_addBelief b o tgt).trans hb'⟩

theorem analyzeCtrlEdge_spec {srcId : Int} {succs : List PMObject}
    (hsuccs : getCtrlSuccesors v list srcId = .ok (succs.map some)) (b : BeliefSets) (srcType tgtType : NodeType)
    (src tgt : PMObject) :
    ∃ b', analyzeCtrlEdge v list b srcId srcType (some src) tgtType (some tgt) = .ok b' ∧
      Adds b b' (storeLoadFacts srcType tgtType src tgt ⊔ loadLoadFacts srcType tgtType src tgt succs) := by
  obtain ⟨c, hdata, hc⟩ := analyzeDataEdge_spec b srcType tgtType src tgt
  have hctrl : analyzeCtrlEdge v list b srcId srcType (some src) tgtType (some tgt) =
      analyzeDataEdge b srcType (some src) tgtType (some tgt) >>= fun c =>
        if srcType = .load ∧ tgtType = .load then
          getCtrlSuccesors v list srcId >>= fun ctrlSuccesors =>
            ctrlSuccesors.foldlM (fun b pmObj => require pmObj >>= fun o => Except.ok (addBelief b o tgt))
              (addBelief (addCriticalRead c tgt) src tgt)
        else .ok c := by
    rw [analyzeCtrlEdge, analyzeDataEdge]
    split_ifs <;> rfl
  rw [hctrl, hdata, Loops.ok_bind, loadLoadFacts]
  split_ifs with h
  · rw [hsuccs, Loops.ok_bind]
    obtain ⟨b', hloop, hb'⟩ := foldlM_beliefs_spec tgt succs (addBelief (addCriticalRead c tgt) src tgt)
    exact ⟨b', hloop, hc.trans (((adds_addCriticalRead c tgt).trans (adds_addBelief _ src tgt)).trans hb')⟩
  · exact ⟨c, rfl, hc.trans (.refl c)⟩

theorem edgeNode_ok (hv : Readable list v) {k : Int} {node : WitcherGraphNode} (h : v.node k = some node) :
    edgeNode v k = .ok node := by
  rw [edgeNode, h]
  simp only [hv.ids k node h, decide_true, assert_true, Loops.ok_bind]

/-- The facts of an edge of each type, where a control edge has those of a data edge and more. -/
def typeFacts (data ctrl : Facts) : Edge → Facts
  | .dataDep => data
  | .ctrlDep => data ⊔ ctrl

/-- An edge from or to a node of no bytes adds nothing. -/
theorem initFromEdge_zero (hv : Readable list v) {k : Int × Int} {srcNode tgtNode : WitcherGraphNode}
    (hsrc : v.node k.1 = some srcNode) (htgt : v.node k.2 = some tgtNode) (hzero : srcNode.size = 0 ∨ tgtNode.size = 0)
    (type : Edge) (b : BeliefSets) : initFromEdge v list b (k, type) = .ok b := by
  simp only [initFromEdge, edgeNode_ok hv hsrc, edgeNode_ok hv htgt, Loops.ok_bind]
  by_cases hsrcZero : srcNode.size = 0
  · rw [if_pos hsrcZero]
  · obtain ⟨src, _, hfindSrc⟩ := hv.objects k.1 srcNode hsrc hsrcZero
    rw [if_neg hsrcZero, hfindSrc, Loops.ok_bind, if_pos (hzero.resolve_left hsrcZero)]

/-- The facts of an edge between two nodes with objects. -/
theorem initFromEdge_objects (hv : Readable list v) {k : Int × Int} {srcNode tgtNode : WitcherGraphNode} {src tgt : PMObject}
    {succs : List PMObject} (hsrc : v.node k.1 = some srcNode) (htgt : v.node k.2 = some tgtNode) (hsrcSize : srcNode.size ≠ 0)
    (htgtSize : tgtNode.size ≠ 0) (hfindSrc : find list srcNode.address srcNode.size = .ok (some src))
    (hfindTgt : find list tgtNode.address tgtNode.size = .ok (some tgt))
    (hsuccs : getCtrlSuccesors v list k.1 = .ok (succs.map some)) (type : Edge) (b : BeliefSets) :
    ∃ b', initFromEdge v list b (k, type) = .ok b' ∧
      Adds b b' (typeFacts (storeLoadFacts srcNode.type tgtNode.type src tgt)
        (loadLoadFacts srcNode.type tgtNode.type src tgt succs) type) := by
  simp only [initFromEdge, edgeNode_ok hv hsrc, edgeNode_ok hv htgt, Loops.ok_bind, if_neg hsrcSize, if_neg htgtSize,
    hfindSrc, hfindTgt]
  cases type with
  | dataDep => exact analyzeDataEdge_spec b srcNode.type tgtNode.type src tgt
  | ctrlDep => exact analyzeCtrlEdge_spec hsuccs b srcNode.type tgtNode.type src tgt

/-- The facts of an edge between two nodes; those of a control edge include those of a data edge. -/
theorem initFromEdge_spec (hv : Readable list v) {k : Int × Int} (hsrc : ∃ node, v.node k.1 = some node)
    (htgt : ∃ node, v.node k.2 = some node) :
    ∃ F : Edge → Facts, F .dataDep ≤ F .ctrlDep ∧
      ∀ type b, ∃ b', initFromEdge v list b (k, type) = .ok b' ∧ Adds b b' (F type) := by
  obtain ⟨srcNode, hsrc⟩ := hsrc
  obtain ⟨tgtNode, htgt⟩ := htgt
  by_cases hzero : srcNode.size = 0 ∨ tgtNode.size = 0
  · exact ⟨fun _ => ⊥, le_refl _, fun type b => ⟨b, initFromEdge_zero hv hsrc htgt hzero type b, .refl b⟩⟩
  · rw [not_or] at hzero
    obtain ⟨src, _, hfindSrc⟩ := hv.objects k.1 srcNode hsrc hzero.1
    obtain ⟨tgt, _, hfindTgt⟩ := hv.objects k.2 tgtNode htgt hzero.2
    obtain ⟨succs, hsuccs, _⟩ := getCtrlSuccesors_spec hv k.1
    exact ⟨_, le_sup_left, initFromEdge_objects hv hsrc htgt hzero.1 hzero.2 hfindSrc hfindTgt hsuccs⟩

/-- What an edge adds to empty sets. -/
def edgeFacts (v : GraphView) (list : List PMObject) (edge : (Int × Int) × Edge) : Facts :=
  match initFromEdge v list ⟨DiGraph.empty, ∅, ∅⟩ edge with
  | .ok b => b.facts
  | .error _ => ⊥

/-- An edge adds its facts to any sets, and a control edge adds at least what a data edge adds. -/
theorem edgeFacts_spec (hv : Readable list v) {k : Int × Int} (hsrc : ∃ node, v.node k.1 = some node)
    (htgt : ∃ node, v.node k.2 = some node) :
    (∀ type, edgeFacts v list (k, type) ≤ edgeFacts v list (k, .ctrlDep)) ∧
      ∀ type b, ∃ b', initFromEdge v list b (k, type) = .ok b' ∧ Adds b b' (edgeFacts v list (k, type)) := by
  obtain ⟨F, hle, hF⟩ := initFromEdge_spec hv hsrc htgt
  have hfacts : ∀ type, edgeFacts v list (k, type) = F type := by
    intro type
    obtain ⟨e, hempty, he⟩ := hF type ⟨DiGraph.empty, ∅, ∅⟩
    rw [edgeFacts, hempty]
    exact he.facts.trans (bot_sup_eq (F type))
  simp only [hfacts]
  refine ⟨?_, hF⟩
  intro type
  cases type with
  | dataDep => exact hle
  | ctrlDep => exact le_refl _

/-! ### The loops over edges and graphs -/

/-- A loop whose iterations add facts ends with their least upper bound. -/
theorem foldlM_adds {α : Type} {body : BeliefSets → α → Except ReplayError BeliefSets} {F : α → Facts} (l : List α)
    (h : ∀ a ∈ l, ∀ b, ∃ b', body b a = .ok b' ∧ Adds b b' (F a)) (b : BeliefSets) :
    ∃ b', l.foldlM body b = .ok b' ∧ Adds b b' (l.foldr (fun a G => F a ⊔ G) ⊥) := by
  induction l generalizing b with
  | nil => exact ⟨b, rfl, .refl b⟩
  | cons a l ih =>
      obtain ⟨c, hbody, hc⟩ := h a List.mem_cons_self b
      obtain ⟨b', hloop, hb'⟩ := ih (fun a' ha' => h a' (List.mem_cons_of_mem a ha')) c
      exact ⟨b', by rw [Loops.foldlM_cons_ok hbody, hloop], hc.trans hb'⟩

theorem foldr_sup_le_iff {α : Type} {F : α → Facts} (l : List α) (G : Facts) :
    l.foldr (fun a H => F a ⊔ H) ⊥ ≤ G ↔ ∀ a ∈ l, F a ≤ G := by
  induction l with
  | nil => simp
  | cons a l ih => rw [List.foldr_cons, sup_le_iff, ih, List.forall_mem_cons]

/-- The edges of a graph join nodes of it. -/
def Joined (graph : GraphView × List ((Int × Int) × Edge)) : Prop :=
  ∀ e ∈ graph.2, (∃ node, graph.1.node e.1.1 = some node) ∧ ∃ node, graph.1.node e.1.2 = some node

def graphFacts (list : List PMObject) (graph : GraphView × List ((Int × Int) × Edge)) : Facts :=
  graph.2.foldr (fun e G => edgeFacts graph.1 list e ⊔ G) ⊥

theorem initFromGraph_spec {graph : GraphView × List ((Int × Int) × Edge)} (hv : Readable list graph.1)
    (hjoined : Joined graph) (b : BeliefSets) :
    ∃ b', initFromGraph list b graph = .ok b' ∧ Adds b b' (graphFacts list graph) := by
  apply foldlM_adds
  intro e he b
  obtain ⟨hsrc, htgt⟩ := hjoined e he
  exact (edgeFacts_spec hv hsrc htgt).2 e.2 b

theorem initBeliefGraph_spec (list : List PMObject) :
    (initBeliefGraph list).edges = Dict.empty ∧
      ∀ o ∈ enumerate list, o.id ∈ (initBeliefGraph list).nodes.keys := by
  rw [initBeliefGraph]
  suffices h : ∀ (objs : List PMObject) (g : DiGraph Int Unit Nat),
      (objs.foldl (fun g o => g.addNode o.id ()) g).edges = g.edges ∧
        ∀ k, k ∈ g.nodes.keys ∨ (∃ o ∈ objs, o.id = k) →
          k ∈ (objs.foldl (fun g o => g.addNode o.id ()) g).nodes.keys by
    obtain ⟨hedges, hnodes⟩ := h (enumerate list) DiGraph.empty
    exact ⟨hedges, fun o ho => hnodes o.id (.inr ⟨o, ho, rfl⟩)⟩
  intro objs
  induction objs with
  | nil => exact fun g => ⟨rfl, by simp⟩
  | cons o objs ih =>
      intro g
      obtain ⟨hedges, hnodes⟩ := ih (g.addNode o.id ())
      refine ⟨hedges, ?_⟩
      intro k hk
      apply hnodes
      rw [DiGraph.addNode, Dict.mem_keys_set]
      rcases hk with hk | ⟨p, hp, rfl⟩
      · exact .inl (.inr hk)
      · rcases List.mem_cons.mp hp with rfl | hp
        · exact .inl (.inl rfl)
        · exact .inr ⟨p, hp, rfl⟩

/-- The database is built, its facts are the least upper bound of the facts of all edges, and every
object is a node of the belief graph. -/
theorem build_spec (list : List PMObject) (graphs : List (GraphView × List ((Int × Int) × Edge)))
    (hv : ∀ g ∈ graphs, Readable (enumerate list) g.1) (hjoined : ∀ g ∈ graphs, Joined g) :
    ∃ db, build list graphs = .ok db ∧ db.pmObjectList = enumerate list ∧ db.dictStoreToObj = Dict.empty ∧
      (∀ G, db.beliefs.facts ≤ G ↔ ∀ g ∈ graphs, ∀ e ∈ g.2, edgeFacts g.1 (enumerate list) e ≤ G) ∧
      ∀ o ∈ enumerate list, db.beliefs.beliefGraph.hasNode o.id := by
  obtain ⟨b, hloop, hb⟩ := foldlM_adds (F := graphFacts (enumerate list)) graphs
    (fun g hg b => initFromGraph_spec (hv g hg) (hjoined g hg) b) ⟨initBeliefGraph list, ∅, ∅⟩
  obtain ⟨hedges, hnodes⟩ := initBeliefGraph_spec list
  refine ⟨⟨enumerate list, b, Dict.empty⟩, ?_, rfl, rfl, ?_, ?_⟩
  · rw [build, hloop, Loops.ok_bind]
  · intro G
    have hempty : (⟨initBeliefGraph list, ∅, ∅⟩ : BeliefSets).facts = ⊥ := by
      rw [BeliefSets.facts, hedges]
      rfl
    rw [hb.facts, hempty, bot_sup_eq, foldr_sup_le_iff]
    simp only [graphFacts, foldr_sup_le_iff]
  · intro o ho
    exact decide_eq_true (hb.nodes (hnodes o ho))

/-! ### Loaded graphs -/

theorem readable_view {list : List PMObject} (hlist : Sorted list) {g : WitcherGraph} (hg : g.Valid)
    (hinside : ∀ k node, g.node k = some node → 0 < node.size →
      ∃ o ∈ list, (PMObject.new node.address node.size).span.Inside o.span) : Readable (enumerate list) (view g) where
  ids k node hnode := by
    obtain ⟨node', hnode', hid⟩ := hg.complete.node_of_mem (WitcherGraph.mem_of_node hnode)
    cases hnode'.symm.trans hnode
    exact hid
  objects k node hnode hsize := by
    have hpos : 0 < node.size := lt_of_le_of_ne (hg.size_nonneg k node hnode) (Ne.symm hsize)
    obtain ⟨o, ho, hin⟩ := hinside k node hnode hpos
    obtain ⟨p, hp, hspan⟩ := mem_enumerate ho
    exact ⟨p, hp, find_of_inside (sorted_enumerate hlist) hpos hp (hspan ▸ hin)⟩
  predecessors k p hp := by
    obtain ⟨e, he, rfl⟩ := List.mem_map.mp hp
    obtain ⟨node, hnode, _⟩ := hg.complete.node_of_mem (hg.closed e (List.mem_of_mem_filter he)).1
    exact ⟨node, hnode⟩
  count := ⟨g.nodes.keys, rfl, fun _ _ hnode => WitcherGraph.mem_of_node hnode⟩

theorem joined_of_subset {g : WitcherGraph} (hg : g.Valid) {edges : List ((Int × Int) × Edge)}
    (h : ∀ e ∈ edges, e.1 ∈ g.edges.keys) : Joined (view g, edges) := by
  intro e he
  obtain ⟨hsrc, htgt⟩ := hg.closed e.1 (h e he)
  obtain ⟨src, hsrc, _⟩ := hg.complete.node_of_mem hsrc
  obtain ⟨tgt, htgt, _⟩ := hg.complete.node_of_mem htgt
  exact ⟨⟨src, hsrc⟩, tgt, htgt⟩

theorem mem_edges_of_mem_edgeList {g : WitcherGraph} {e : (Int × Int) × Edge} (h : e ∈ g.edgeList) :
    e.1 ∈ g.edges.keys := by
  obtain ⟨_, hget⟩ := (g.mem_edgeList e.1.1 e.1.2 e.2).mp h
  exact (Dict.mem_keys_iff _ _).mpr ⟨_, hget⟩

/-- The objects of valid graphs are found for all their nodes, and any of their edges can be analysed. -/
theorem initPmObjectList_readable (graphs : List WitcherGraph) (hvalid : ∀ g ∈ graphs, g.Valid) :
    ∃ list, initPmObjectList graphs = .ok list ∧ Sorted list ∧ (∀ g ∈ graphs, Readable (enumerate list) (view g)) ∧
      ∀ g ∈ graphs, ∀ k node, g.node k = some node → 0 < node.size → list ≠ [] := by
  obtain ⟨list, hrun, hsorted, hinside⟩ := initPmObjectList_ok graphs fun g hg => (hvalid g hg).complete
  refine ⟨list, hrun, hsorted, fun g hg => readable_view hsorted (hvalid g hg) (hinside g hg), ?_⟩
  intro g hg k node hnode hsize
  obtain ⟨o, ho, _⟩ := hinside g hg k node hnode hsize
  exact List.ne_nil_of_mem ho

theorem new_spec (graphs : List WitcherGraph) (hvalid : ∀ g ∈ graphs, g.Valid)
    (hpos : ∃ g ∈ graphs, ∃ k node, g.node k = some node ∧ 0 < node.size) :
    ∃ db, new graphs = .ok db ∧ Sorted db.pmObjectList ∧ 0 < db.pmObjectList.length ∧
      db.dictStoreToObj = Dict.empty ∧ ∀ o ∈ db.pmObjectList, db.beliefs.beliefGraph.hasNode o.id := by
  obtain ⟨list, hrun, hsorted, hreadable, hne⟩ := initPmObjectList_readable graphs hvalid
  obtain ⟨g, hg, k, node, hnode, hsize⟩ := hpos
  obtain ⟨db, hbuild, hlist, hdict, _, hnodes⟩ := build_spec list (graphs.map fun graph => (view graph, graph.edgeList))
    (by
      intro p hp
      obtain ⟨g, hg, rfl⟩ := List.mem_map.mp hp
      exact hreadable g hg)
    (by
      intro p hp
      obtain ⟨g, hg, rfl⟩ := List.mem_map.mp hp
      exact joined_of_subset (hvalid g hg) fun e => mem_edges_of_mem_edgeList)
  refine ⟨db, ?_, ?_, ?_, hdict, ?_⟩
  · rw [new, hrun, Loops.ok_bind, hbuild]
  · rw [hlist]
    exact sorted_enumerate hsorted
  · rw [hlist, enumerate, List.length_mapIdx]
    exact List.length_pos_of_ne_nil (hne g hg k node hnode hsize)
  · rw [hlist]
    exact hnodes

end WitcherBeliefDatabase

end Witcher
