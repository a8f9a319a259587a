import Witcher.BeliefInference
import Witcher.Search

/-! The rules of belief inference. The search for control successors collects the objects of the loads from
which its start can be reached through loads; the beliefs of all edges are then those that the rules give, and
the critical reads are the loads the rules read. -/

namespace Witcher

open Relation

namespace WitcherBeliefDatabase

/-! ### The search for control successors -/

section Search

variable {list : List PMObject} {v : GraphView} {srcId : Int}

def IsLoad (v : GraphView) (k : Int) : Prop := ∃ node, v.node k = some node ∧ node.type = .load

/-- The search goes from a node to a load before it. -/
def BackStep (v : GraphView) (k p : Int) : Prop := p ∈ v.predecessors k ∧ IsLoad v p

/-- The object that is collected for a node. -/
def CollectedAt (list : List PMObject) (v : GraphView) (k : Int) (o : Option PMObject) : Prop :=
  ∃ node, v.node k = some node ∧ node.type = .load ∧ node.size ≠ 0 ∧ PMObjectList.find list node.address node.size = .ok o

/-- The start, and the loads seen. -/
def Visited (v : GraphView) (srcId : Int) (s : CtrlState) (k : Int) : Prop := k = srcId ∨ (k ∈ s.processedId ∧ IsLoad v k)

/-- The search from `srcId`: the loads seen reach it, the nodes before those that are no longer queued were seen,
the opened ones apart, and the objects are those of the loads seen. -/
structure CtrlSearch (list : List PMObject) (v : GraphView) (srcId : Int) (opened : List Int) (s : CtrlState) : Prop where
  reached : ∀ k ∈ s.processedId, IsLoad v k → TransGen (BackStep v) srcId k
  queued : ∀ k ∈ s.queue, Visited v srcId s k
  closed : ∀ k, Visited v srcId s k → k ∈ s.queue ∨ k ∈ opened ∨ ∀ p ∈ v.predecessors k, p ∈ s.processedId
  objects : ∀ o, o ∈ s.ctrlSuccesors ↔ ∃ k ∈ s.processedId, CollectedAt list v k o

theorem visitPredecessor_cases {s s' : CtrlState} {p : Int} (h : visitPredecessor v list s p = .ok s') :
    (p ∈ s.processedId ∧ s' = s) ∨ (p ∉ s.processedId ∧ ∃ node, v.node p = some node ∧
      ((node.type = .store ∧ s' = ⟨s.queue, p :: s.processedId, s.ctrlSuccesors⟩) ∨
        (node.type = .load ∧ node.size = 0 ∧ s' = ⟨s.queue ++ [p], p :: s.processedId, s.ctrlSuccesors⟩) ∨
        (node.type = .load ∧ node.size ≠ 0 ∧ ∃ o, PMObjectList.find list node.address node.size = .ok o ∧
          s' = ⟨s.queue ++ [p], p :: s.processedId, s.ctrlSuccesors.insert o⟩))) := by
  rw [visitPredecessor] at h
  split_ifs at h with hseen
  · cases h
    exact .inl ⟨hseen, rfl⟩
  · refine .inr ⟨hseen, ?_⟩
    cases hnode : v.node p with
    | none =>
        simp only [hnode] at h
        cases h
    | some node =>
        refine ⟨node, rfl, ?_⟩
        simp only [hnode] at h
        cases htype : node.type with
        | store =>
            rw [htype, if_pos rfl] at h
            cases h
            exact .inl ⟨rfl, rfl⟩
        | load =>
            rw [htype, if_neg (by decide)] at h
            split_ifs at h with hsize
            · cases h
              exact .inr (.inl ⟨rfl, hsize, rfl⟩)
            · obtain ⟨o, hfind, h⟩ := Loops.bind_ok h
              cases h
              exact .inr (.inr ⟨rfl, hsize, o, hfind, rfl⟩)

/-- What visiting a node changes, whatever its type. -/
structure Visits (list : List PMObject) (v : GraphView) (p : Int) (s s' : CtrlState) : Prop where
  processedId : ∀ k, k ∈ s'.processedId ↔ k ∈ s.processedId ∨ k = p
  queue : ∀ k, k ∈ s'.queue ↔ k ∈ s.queue ∨ (k = p ∧ p ∉ s.processedId ∧ IsLoad v p)
  objects : ∀ o, o ∈ s'.ctrlSuccesors ↔ o ∈ s.ctrlSuccesors ∨ (p ∉ s.processedId ∧ CollectedAt list v p o)

theorem visitPredecessor_visits {s s' : CtrlState} {p : Int} (h : visitPredecessor v list s p = .ok s') :
    Visits list v p s s' := by
  obtain ⟨hseen, rfl⟩ | ⟨hnew, node, hnode, h⟩ := visitPredecessor_cases h
  · refine ⟨fun k => ⟨Or.inl, ?_⟩, fun k => ⟨Or.inl, ?_⟩, fun o => ⟨Or.inl, ?_⟩⟩
    · rintro (hk | rfl)
      · exact hk
      · exact hseen
    · rintro (hk | ⟨_, hnot, _⟩)
      · exact hk
      · exact absurd hseen hnot
    · rintro (ho | ⟨hnot, _⟩)
      · exact ho
      · exact absurd hseen hnot
  · have hcons : ∀ k, k ∈ p :: s.processedId ↔ k ∈ s.processedId ∨ k = p := fun k => List.mem_cons.trans or_comm
    have hload : IsLoad v p ↔ node.type = .load := by simp [IsLoad, hnode]
    have hobject : ∀ o, CollectedAt list v p o ↔ node.type = .load ∧ node.size ≠ 0 ∧
        PMObjectList.find list node.address node.size = .ok o := by simp [CollectedAt, hnode]
    obtain ⟨htype, rfl⟩ | ⟨htype, hsize, rfl⟩ | ⟨htype, hsize, o, hfind, rfl⟩ := h
    · refine ⟨hcons, fun k => ?_, fun o => ?_⟩
      · simp [hload, htype]
      · simp [hobject, htype]
    · refine ⟨hcons, fun k => ?_, fun o => ?_⟩
      · simp [hload, htype, hnew]
      · simp [hobject, hsize]
    · refine ⟨hcons, fun k => ?_, fun o' => ?_⟩
      · simp [hload, htype, hnew]
      · simp only [hobject, htype, hfind, hnew, hsize, List.mem_insert_iff, not_false_eq_true, ne_eq, true_and, Except.ok.injEq]
        rw [or_comm, eq_comm]

theorem CtrlSearch.reachable {opened : List Int} {s : CtrlState} (h : CtrlSearch list v srcId opened s) {k : Int}
    (hk : Visited v srcId s k) : ReflTransGen (BackStep v) srcId k := by
  rcases hk with rfl | ⟨hk, hload⟩
  · exact .refl
  · exact (h.reached k hk hload).to_reflTransGen

theorem Visits.visited {p : Int} {s s' : CtrlState} (h : Visits list v p s s') {k : Int} (hk : Visited v srcId s k) :
    Visited v srcId s' k := by
  rcases hk with rfl | ⟨hk, hload⟩
  · exact .inl rfl
  · exact .inr ⟨(h.processedId k).mpr (.inl hk), hload⟩

/-- Visiting a node before a visited one. -/
theorem CtrlSearch.visit {opened : List Int} {s s' : CtrlState} (h : CtrlSearch list v srcId opened s) {k p : Int}
    (hk : Visited v srcId s k) (hp : p ∈ v.predecessors k) (hvisits : Visits list v p s s') :
    CtrlSearch list v srcId opened s' := by
  constructor
  · intro w hw hload
    rcases (hvisits.processedId w).mp hw with hw | rfl
    · exact h.reached w hw hload
    · exact .tail' (h.reachable hk) ⟨hp, hload⟩
  · intro w hw
    rcases (hvisits.queue w).mp hw with hw | ⟨rfl, -, hload⟩
    · exact hvisits.visited (h.queued w hw)
    · exact .inr ⟨(hvisits.processedId w).mpr (.inr rfl), hload⟩
  · intro w hw
    have hold : Visited v srcId s w ∨ w ∈ s'.queue := by
      rcases hw with rfl | ⟨hw, hload⟩
      · exact .inl (.inl rfl)
      · by_cases hseen : w ∈ s.processedId
        · exact .inl (.inr ⟨hseen, hload⟩)
        · obtain rfl := ((hvisits.processedId w).mp hw).resolve_left hseen
          exact .inr ((hvisits.queue w).mpr (.inr ⟨rfl, hseen, hload⟩))
    rcases hold with hold | hqueue
    · rcases h.closed w hold with hqueue | hopen | hall
      · exact .inl ((hvisits.queue w).mpr (.inl hqueue))
      · exact .inr (.inl hopen)
      · exact .inr (.inr fun q hq => (hvisits.processedId q).mpr (.inl (hall q hq)))
    · exact .inl hqueue
  · intro o
    rw [hvisits.objects, h.objects]
    constructor
    · rintro (⟨w, hw, hcollected⟩ | ⟨-, hcollected⟩)
      · exact ⟨w, (hvisits.processedId w).mpr (.inl hw), hcollected⟩
      · exact ⟨p, (hvisits.processedId p).mpr (.inr rfl), hcollected⟩
    · rintro ⟨w, hw, hcollected⟩
      by_cases hseen : w ∈ s.processedId
      · exact .inl ⟨w, hseen, hcollected⟩
      · obtain rfl := ((hvisits.processedId w).mp hw).resolve_left hseen
        exact .inr ⟨hseen, hcollected⟩

theorem CtrlSearch.pop {s : CtrlState} {nodeId : Int} {queue : List Int} (h : CtrlSearch list v srcId [] s)
    (hqueue : s.queue = nodeId :: queue) : CtrlSearch list v srcId [nodeId] { s with queue := queue } := by
  refine ⟨h.reached, fun k hk => h.queued k (hqueue ▸ List.mem_cons_of_mem nodeId hk), ?_, h.objects⟩
  intro k hk
  rcases h.closed k hk with hk | hk | hall
  · rw [hqueue] at hk
    rcases List.mem_cons.mp hk with rfl | hk
    · exact .inr (.inl List.mem_cons_self)
    · exact .inl hk
  · cases hk
  · exact .inr (.inr hall)

/-- A node is closed when the nodes before it were seen. -/
theorem CtrlSearch.close {s : CtrlState} {nodeId : Int} (h : CtrlSearch list v srcId [nodeId] s)
    (hall : ∀ p ∈ v.predecessors nodeId, p ∈ s.processedId) : CtrlSearch list v srcId [] s := by
  refine ⟨h.reached, h.queued, ?_, h.objects⟩
  intro k hk
  rcases h.closed k hk with hk | hk | hclosed
  · exact .inl hk
  · rw [List.mem_singleton.mp hk]
    exact .inr (.inr hall)
  · exact .inr (.inr hclosed)

theorem ctrlLoop_search (fuel : Nat) {s s' : CtrlState} (h : CtrlSearch list v srcId [] s)
    (hrun : ctrlLoop v list fuel s = .ok s') : CtrlSearch list v srcId [] s' := by
  induction fuel generalizing s with
  | zero =>
      cases hrun
      exact h
  | succ fuel ih =>
      rw [ctrlLoop] at hrun
      cases hqueue : s.queue with
      | nil =>
          rw [hqueue] at hrun
          cases hrun
          exact h
      | cons nodeId queue =>
          rw [hqueue] at hrun
          obtain ⟨t, hloop, hrest⟩ := Loops.bind_ok hrun
          refine ih ?_ hrest
          obtain ⟨hsearch, -, hall⟩ := Loops.foldlM_ok_induction (motive := fun done t =>
            CtrlSearch list v srcId [nodeId] t ∧ Visited v srcId t nodeId ∧ ∀ p ∈ done, p ∈ t.processedId) hloop
            ⟨h.pop hqueue, h.queued nodeId (hqueue ▸ List.mem_cons_self), by simp⟩ (by
              rintro done p rest s s' hsplit ⟨hs, hvisited, hdone⟩ hvisit
              have hp : p ∈ v.predecessors nodeId := by simp [hsplit]
              have hvisits := visitPredecessor_visits hvisit
              refine ⟨hs.visit hvisited hp hvisits, hvisits.visited hvisited, ?_⟩
              intro q hq
              rcases List.mem_append.mp hq with hq | hq
              · exact (hvisits.processedId q).mpr (.inl (hdone q hq))
              · exact (hvisits.processedId q).mpr (.inr (List.mem_singleton.mp hq)))
          exact hsearch.close hall

/-- When the queue is empty the loads seen are those that reach the start. -/
theorem CtrlSearch.seen_iff {s : CtrlState} (h : CtrlSearch list v srcId [] s) (hqueue : s.queue = []) (k : Int) :
    (k ∈ s.processedId ∧ IsLoad v k) ↔ TransGen (BackStep v) srcId k := by
  have hclosed : ∀ w p, Visited v srcId s w → p ∈ v.predecessors w → p ∈ s.processedId := by
    intro w p hw hp
    rcases h.closed w hw with hmem | hmem | hall
    · rw [hqueue] at hmem
      cases hmem
    · cases hmem
    · exact hall p hp
  have hvisited : ∀ w, Visited v srcId s w ↔ ReflTransGen (BackStep v) srcId w :=
    Search.visited_iff_reachable (.inl rfl) (fun w hw => h.reachable hw) fun w u hw hu => .inr ⟨hclosed w u hw hu.1, hu.2⟩
  constructor
  · rintro ⟨hk, hload⟩
    exact h.reached k hk hload
  · intro hreach
    obtain ⟨w, hw, hstep⟩ := TransGen.tail'_iff.mp hreach
    exact ⟨hclosed w k ((hvisited w).mpr hw) hstep.1, hstep.2⟩

/-- The search ends with an empty queue, on every graph, with the objects of the loads that reach its start
through loads. -/
theorem ctrlLoop_exact (hv : Readable list v) (srcId : Int) :
    ∃ s, ctrlLoop v list (v.numberOfNodes + 1) ⟨[srcId], [], []⟩ = .ok s ∧ s.queue = [] ∧
      ∀ o, o ∈ s.ctrlSuccesors ↔ ∃ k, TransGen (BackStep v) srcId k ∧ CollectedAt list v k o := by
  obtain ⟨s, hloop, hqueue, -⟩ := ctrlLoop_spec hv (v.numberOfNodes + 1) (s := ⟨[srcId], [], []⟩)
    ⟨List.nodup_nil, by simp, by simp⟩ (by simp only [pending, List.length_cons, List.length_nil]; omega)
  have hinit : CtrlSearch list v srcId [] ⟨[srcId], [], []⟩ := by
    refine ⟨by simp, ?_, ?_, by simp⟩
    · intro k hk
      exact .inl (List.mem_singleton.mp hk)
    · rintro k (rfl | ⟨hk, -⟩)
      · exact .inl List.mem_cons_self
      · cases hk
  have hsearch := ctrlLoop_search _ hinit hloop
  refine ⟨s, hloop, hqueue, ?_⟩
  intro o
  rw [hsearch.objects]
  simp only [← hsearch.seen_iff hqueue]
  constructor
  · rintro ⟨k, hk, node, hnode, hload, hcollected⟩
    exact ⟨k, ⟨hk, node, hnode, hload⟩, node, hnode, hload, hcollected⟩
  · rintro ⟨k, ⟨hk, -⟩, hcollected⟩
    exact ⟨k, hk, hcollected⟩

end Search

/-! ### The facts of all edges -/

/-- One element of the three sets. -/
inductive Fact where
  | belief (b : WitcherBelief)
  | read (i : Int)
  | edge (k : Int × Int)
  deriving DecidableEq

def Has (F : Facts) : Fact → Prop
  | .belief b => b ∈ F.1
  | .read i => i ∈ F.2.1
  | .edge k => k ∈ F.2.2

/-- The facts but one. -/
def without (F : Facts) : Fact → Facts
  | .belief b => (F.1.erase b, F.2.1, F.2.2)
  | .read i => (F.1, F.2.1.erase i, F.2.2)
  | .edge k => (F.1, F.2.1, F.2.2.erase k)

theorem has_without (F : Facts) (x y : Fact) : Has (without F x) y ↔ Has F y ∧ y ≠ x := by
  cases x <;> cases y <;> simp [Has, without, and_comm]

theorem le_iff_has (F G : Facts) : F ≤ G ↔ ∀ x, Has F x → Has G x := by
  constructor
  · rintro ⟨hbelief, hread, hedge⟩ x hx
    cases x with
    | belief b => exact hbelief hx
    | read i => exact hread hx
    | edge k => exact hedge hx
  · intro h
    exact ⟨fun b hb => h (.belief b) hb, fun i hi => h (.read i) hi, fun k hk => h (.edge k) hk⟩

theorem has_sup (F G : Facts) (x : Fact) : Has (F ⊔ G) x ↔ Has F x ∨ Has G x := by
  cases x with
  | belief b => exact Finset.mem_union
  | read i => exact Finset.mem_union
  | edge k => exact Finset.mem_union

theorem not_has_bot (x : Fact) : ¬Has ⊥ x := by
  cases x with
  | belief b => exact Finset.notMem_empty b
  | read i => exact Finset.notMem_empty i
  | edge k => exact Finset.notMem_empty k

/-- The least upper bound of facts has the facts of each, and no other. -/
theorem has_of_lub {ι : Type} {S : ι → Prop} {F : ι → Facts} {X : Facts} (h : ∀ G, X ≤ G ↔ ∀ i, S i → F i ≤ G) (x : Fact) :
    Has X x ↔ ∃ i, S i ∧ Has (F i) x := by
  have hle := (h X).mp (le_refl X)
  constructor
  · intro hx
    by_contra hnone
    have hbound : X ≤ without X x := by
      rw [h]
      intro i hi
      rw [le_iff_has]
      intro y hy
      rw [has_without]
      refine ⟨(le_iff_has _ _).mp (hle i hi) y hy, ?_⟩
      rintro rfl
      exact hnone ⟨i, hi, hy⟩
    exact ((has_without X x x).mp ((le_iff_has _ _).mp hbound x hx)).2 rfl
  · rintro ⟨i, hi, hx⟩
    exact (le_iff_has _ _).mp (hle i hi) x hx

theorem has_beliefFacts (a b : PMObject) (x : Fact) :
    Has (beliefFacts a b) x ↔ x = .belief ⟨a, b⟩ ∨ x = .edge (a.id, b.id) := by
  cases x <;> simp [Has, beliefFacts]

theorem has_readFacts (o : PMObject) (x : Fact) : Has (readFacts o) x ↔ x = .read o.id := by
  cases x <;> simp [Has, readFacts]

theorem has_foldr_beliefFacts (tgt : PMObject) (succs : List PMObject) (x : Fact) :
    Has (succs.foldr (fun o F => beliefFacts o tgt ⊔ F) ⊥) x ↔ ∃ o ∈ succs, Has (beliefFacts o tgt) x := by
  induction succs with
  | nil => simp [not_has_bot]
  | cons o succs ih => simp [has_sup, ih]

/-! ### The rules -/

/-- The object that the bytes of a node of the given type lie in. -/
def ObjectOf (list : List PMObject) (g : WitcherGraph) (type : NodeType) (k : Int) (o : PMObject) : Prop :=
  ∃ node, g.node k = some node ∧ node.type = type ∧ 0 < node.size ∧
    o ∈ list ∧ (PMObject.new node.address node.size).span.Inside o.span

/-- An edge between loads, of any size. -/
def LoadEdge (g : WitcherGraph) (p k : Int) : Prop := (p, k) ∈ g.edges.keys ∧ IsLoad (view g) p ∧ IsLoad (view g) k

/-- `a` is to be persisted before `b` is written. -/
inductive Believed (list : List PMObject) (g : WitcherGraph) : PMObject → PMObject → Prop where
  | storeLoad {s t : Int} {a b : PMObject} : (s, t) ∈ g.edges.keys → ObjectOf list g .store s b → ObjectOf list g .load t a →
      Believed list g a b
  | loadLoad {s t : Int} {a b : PMObject} : g.edges.get? (s, t) = some .ctrlDep → ObjectOf list g .load s a →
      ObjectOf list g .load t b → Believed list g a b
  | reaching {r s t : Int} {a b src : PMObject} : g.edges.get? (s, t) = some .ctrlDep → ObjectOf list g .load s src →
      ObjectOf list g .load t b → TransGen (LoadEdge g) r s → ObjectOf list g .load r a → Believed list g a b

/-- `o` is read by a load that a store or the control of a load depends on. -/
inductive CriticallyRead (list : List PMObject) (g : WitcherGraph) : PMObject → Prop where
  | storeLoad {s t : Int} {o src : PMObject} : (s, t) ∈ g.edges.keys → ObjectOf list g .store s src →
      ObjectOf list g .load t o → CriticallyRead list g o
  | loadLoad {s t : Int} {o src : PMObject} : g.edges.get? (s, t) = some .ctrlDep → ObjectOf list g .load s src →
      ObjectOf list g .load t o → CriticallyRead list g o

section Graph

variable {list : List PMObject} {g : WitcherGraph}

/-- The bytes of every node lie in an object. -/
structure Covers (list : List PMObject) (g : WitcherGraph) : Prop where
  sorted : PMObjectList.Sorted list
  inside : ∀ k node, g.node k = some node → 0 < node.size →
    ∃ o ∈ list, (PMObject.new node.address node.size).span.Inside o.span

/-- A node of nonzero size has one object, which is found. -/
theorem Covers.object (h : Covers list g) {k : Int} {node : WitcherGraphNode} (hnode : g.node k = some node)
    (hsize : 0 < node.size) : ∃ o, PMObjectList.find list node.address node.size = .ok (some o) ∧
      ∀ type o', ObjectOf list g type k o' ↔ node.type = type ∧ o' = o := by
  obtain ⟨o, ho, hin⟩ := h.inside k node hnode hsize
  have hfind := PMObjectList.find_of_inside h.sorted hsize ho hin
  refine ⟨o, hfind, ?_⟩
  intro type o'
  constructor
  · rintro ⟨node', hnode', htype, -, ho', hin'⟩
    cases hnode.symm.trans hnode'
    have hfind' := PMObjectList.find_of_inside h.sorted hsize ho' hin'
    rw [hfind] at hfind'
    cases hfind'
    exact ⟨htype, rfl⟩
  · rintro ⟨htype, rfl⟩
    exact ⟨node, hnode, htype, hsize, ho, hin⟩

theorem collectedAt_iff (hg : g.Valid) (h : Covers list g) (k : Int) (o : PMObject) :
    CollectedAt list (view g) k (some o) ↔ ObjectOf list g .load k o := by
  constructor
  · rintro ⟨node, hnode, htype, hsize, hfind⟩
    have hpos : 0 < node.size := lt_of_le_of_ne (hg.size_nonneg k node hnode) (Ne.symm hsize)
    obtain ⟨o', hfind', hobject⟩ := h.object hnode hpos
    rw [hfind] at hfind'
    cases hfind'
    exact (hobject .load o).mpr ⟨htype, rfl⟩
  · rintro ⟨node, hnode, htype, hsize, ho, hin⟩
    exact ⟨node, hnode, htype, hsize.ne', PMObjectList.find_of_inside h.sorted hsize ho hin⟩

theorem mem_predecessors (g : WitcherGraph) (p k : Int) : p ∈ g.predecessors k ↔ (p, k) ∈ g.edges.keys := by
  rw [DiGraph.predecessors, List.mem_map]
  constructor
  · rintro ⟨⟨p', k'⟩, he, rfl⟩
    obtain ⟨he, hk⟩ := List.mem_filter.mp he
    have hk : k' = k := of_decide_eq_true hk
    exact hk ▸ he
  · intro he
    exact ⟨(p, k), List.mem_filter.mpr ⟨he, decide_eq_true rfl⟩, rfl⟩

/-- From a load, searching backwards through loads is being reached through loads. -/
theorem backStep_iff_loadEdge {s : Int} (hs : IsLoad (view g) s) (r : Int) :
    TransGen (BackStep (view g)) s r ↔ TransGen (LoadEdge g) r s := by
  refine Iff.trans ?_ transGen_swap
  have hstep : ∀ k p, IsLoad (view g) k → (BackStep (view g) k p ↔ Function.swap (LoadEdge g) k p) := by
    intro k p hk
    show p ∈ g.predecessors k ∧ IsLoad (view g) p ↔ LoadEdge g p k
    rw [mem_predecessors, LoadEdge, and_iff_left hk]
  constructor
  · intro h
    induction h with
    | single h => exact .single ((hstep _ _ hs).mp h)
    | tail hpath h ih =>
        obtain ⟨_, _, hlast⟩ := TransGen.tail'_iff.mp hpath
        exact ih.tail ((hstep _ _ hlast.2).mp h)
  · intro h
    induction h with
    | single h => exact .single ((hstep _ _ hs).mpr h)
    | tail _ h ih => exact ih.tail ((hstep _ _ h.2.2).mpr h)

/-- The control successors of a load are the objects of the loads that reach it. -/
theorem getCtrlSuccesors_exact (hg : g.Valid) (h : Covers list g) (hv : Readable list (view g)) {s : Int}
    (hs : IsLoad (view g) s) :
    ∃ succs : List PMObject, getCtrlSuccesors (view g) list s = .ok (succs.map some) ∧
      ∀ o, o ∈ succs ↔ ∃ r, TransGen (LoadEdge g) r s ∧ ObjectOf list g .load r o := by
  obtain ⟨state, hloop, -, hobjects⟩ := ctrlLoop_exact hv s
  obtain ⟨succs, hsuccs, -⟩ := getCtrlSuccesors_spec hv s
  refine ⟨succs, hsuccs, ?_⟩
  intro o
  rw [getCtrlSuccesors, hloop, Loops.ok_bind] at hsuccs
  have hmem : o ∈ succs ↔ some o ∈ state.ctrlSuccesors := by
    rw [Except.ok.inj hsuccs]
    simp
  simp only [hmem, hobjects, backStep_iff_loadEdge hs, collectedAt_iff hg h]

/-- What an edge adds, by the rule for the types of its nodes. -/
def EdgeRule (list : List PMObject) (g : WitcherGraph) (s t : Int) (type : Edge) (x : Fact) : Prop :=
  (∃ a b, ObjectOf list g .store s b ∧ ObjectOf list g .load t a ∧ (x = .read a.id ∨ Has (beliefFacts a b) x)) ∨
    (type = .ctrlDep ∧ ∃ a b, ObjectOf list g .load s a ∧ ObjectOf list g .load t b ∧
      (x = .read b.id ∨ ∃ o, (o = a ∨ ∃ r, TransGen (LoadEdge g) r s ∧ ObjectOf list g .load r o) ∧ Has (beliefFacts o b) x))

theorem has_storeLoadFacts (srcType tgtType : NodeType) (src tgt : PMObject) (x : Fact) :
    Has (storeLoadFacts srcType tgtType src tgt) x ↔
      srcType = .store ∧ tgtType = .load ∧ (x = .read tgt.id ∨ Has (beliefFacts tgt src) x) := by
  rw [storeLoadFacts]
  split_ifs with h
  · simp [h, has_sup, has_readFacts]
  · simp only [not_has_bot, false_iff]
    exact fun hx => h ⟨hx.1, hx.2.1⟩

theorem has_loadLoadFacts (srcType tgtType : NodeType) (src tgt : PMObject) (succs : List PMObject) (x : Fact) :
    Has (loadLoadFacts srcType tgtType src tgt succs) x ↔ srcType = .load ∧ tgtType = .load ∧
      (x = .read tgt.id ∨ ∃ o, (o = src ∨ o ∈ succs) ∧ Has (beliefFacts o tgt) x) := by
  rw [loadLoadFacts]
  split_ifs with h
  · simp [h, has_sup, has_readFacts, has_foldr_beliefFacts, or_assoc, or_and_right, exists_or]
  · simp only [not_has_bot, false_iff]
    exact fun hx => h ⟨hx.1, hx.2.1⟩

theorem has_typeFacts (data ctrl : Facts) (type : Edge) (x : Fact) :
    Has (typeFacts data ctrl type) x ↔ Has data x ∨ (type = .ctrlDep ∧ Has ctrl x) := by
  cases type <;> simp [typeFacts, has_sup]

/-- The facts of an edge, from what the analysis of the edge adds to any sets. -/
theorem edgeFacts_of_adds {v : GraphView} {e : (Int × Int) × Edge} {F : Facts}
    (h : ∀ b, ∃ b', initFromEdge v list b e = .ok b' ∧ Adds b b' F) : edgeFacts v list e = F := by
  obtain ⟨b', hrun, hadds⟩ := h ⟨DiGraph.empty, ∅, ∅⟩
  rw [edgeFacts, hrun]
  exact hadds.facts.trans (bot_sup_eq F)

/-- No rule applies to an edge with a node of no bytes, which has no object. -/
theorem not_edgeRule_of_zero {s t : Int} {srcNode tgtNode : WitcherGraphNode} (hsrc : (view g).node s = some srcNode)
    (htgt : (view g).node t = some tgtNode) (hzero : srcNode.size = 0 ∨ tgtNode.size = 0) (type : Edge) (x : Fact) :
    ¬EdgeRule list g s t type x := by
  have hboth : ∀ {type₁ type₂ : NodeType} {a b : PMObject}, ObjectOf list g type₁ s a → ObjectOf list g type₂ t b → False := by
    rintro type₁ type₂ a b ⟨node, hnode, -, hsize, -⟩ ⟨node', hnode', -, hsize', -⟩
    cases hsrc.symm.trans hnode
    cases htgt.symm.trans hnode'
    omega
  rintro (⟨a, b, ha, hb, -⟩ | ⟨-, a, b, ha, hb, -⟩)
  · exact hboth ha hb
  · exact hboth ha hb

theorem has_edgeFacts (hg : g.Valid) (h : Covers list g) (hv : Readable list (view g)) {s t : Int}
    (hedge : (s, t) ∈ g.edges.keys) (type : Edge) (x : Fact) :
    Has (edgeFacts (view g) list ((s, t), type)) x ↔ EdgeRule list g s t type x := by
  obtain ⟨srcNode, hsrc, -⟩ := hg.complete.node_of_mem (hg.closed _ hedge).1
  obtain ⟨tgtNode, htgt, -⟩ := hg.complete.node_of_mem (hg.closed _ hedge).2
  by_cases hzero : srcNode.size = 0 ∨ tgtNode.size = 0
  · have hnone : edgeFacts (view g) list ((s, t), type) = ⊥ :=
      edgeFacts_of_adds fun b => ⟨b, initFromEdge_zero hv hsrc htgt hzero type b, .refl b⟩
    rw [hnone]
    exact iff_of_false (not_has_bot x) (not_edgeRule_of_zero hsrc htgt hzero type x)
  · rw [not_or] at hzero
    obtain ⟨src, hfindSrc, hobjectSrc⟩ := h.object hsrc (lt_of_le_of_ne (hg.size_nonneg s srcNode hsrc) (Ne.symm hzero.1))
    obtain ⟨tgt, hfindTgt, hobjectTgt⟩ := h.object htgt (lt_of_le_of_ne (hg.size_nonneg t tgtNode htgt) (Ne.symm hzero.2))
    obtain ⟨succs, hsuccs, -⟩ := getCtrlSuccesors_spec hv s
    rw [edgeFacts_of_adds (initFromEdge_objects hv hsrc htgt hzero.1 hzero.2 hfindSrc hfindTgt hsuccs type), has_typeFacts,
      has_storeLoadFacts, has_loadLoadFacts, EdgeRule]
    simp only [hobjectSrc, hobjectTgt]
    apply or_congr
    · constructor
      · rintro ⟨hstore, hload, hx⟩
        exact ⟨tgt, src, ⟨hstore, rfl⟩, ⟨hload, rfl⟩, hx⟩
      · rintro ⟨a, b, ⟨hstore, rfl⟩, ⟨hload, rfl⟩, hx⟩
        exact ⟨hstore, hload, hx⟩
    · apply and_congr_right
      rintro -
      by_cases hload : srcNode.type = .load
      · obtain ⟨succs', hsuccs', hmem⟩ := getCtrlSuccesors_exact hg h hv ⟨srcNode, hsrc, hload⟩
        rw [hsuccs] at hsuccs'
        have hsame : succs = succs' := List.map_injective_iff.mpr (Option.some_injective _) (Except.ok.inj hsuccs')
        simp only [hsame, hmem]
        constructor
        · rintro ⟨hload, hload', hx⟩
          exact ⟨src, tgt, ⟨hload, rfl⟩, ⟨hload', rfl⟩, hx⟩
        · rintro ⟨a, b, ⟨hload, rfl⟩, ⟨hload', rfl⟩, hx⟩
          exact ⟨hload, hload', hx⟩
      · refine iff_of_false (fun hx => hload hx.1) ?_
        rintro ⟨a, b, ⟨hload', -⟩, -⟩
        exact hload hload'

theorem edgeRule_belief_iff (a b : PMObject) :
    (∃ s t type, g.edges.get? (s, t) = some type ∧ EdgeRule list g s t type (.belief ⟨a, b⟩)) ↔ Believed list g a b := by
  simp only [EdgeRule, has_beliefFacts, reduceCtorEq, false_or, or_false, Fact.belief.injEq, WitcherBelief.mk.injEq]
  constructor
  · rintro ⟨s, t, type, hget, ⟨a', b', hb, ha, rfl, rfl⟩ | ⟨rfl, a', b', ha, hb, o, ho, rfl, rfl⟩⟩
    · exact .storeLoad ((Dict.mem_keys_iff _ _).mpr ⟨type, hget⟩) hb ha
    · rcases ho with rfl | ⟨r, hr, ho⟩
      · exact .loadLoad hget ha hb
      · exact .reaching hget ha hb hr ho
  · rintro (⟨hedge, hb, ha⟩ | ⟨hget, ha, hb⟩ | ⟨hget, hsrc, hb, hr, ha⟩)
    · obtain ⟨type, hget⟩ := (Dict.mem_keys_iff _ _).mp hedge
      exact ⟨_, _, type, hget, .inl ⟨a, b, hb, ha, rfl, rfl⟩⟩
    · exact ⟨_, _, _, hget, .inr ⟨rfl, a, b, ha, hb, a, .inl rfl, rfl, rfl⟩⟩
    · exact ⟨_, _, _, hget, .inr ⟨rfl, _, b, hsrc, hb, a, .inr ⟨_, hr, ha⟩, rfl, rfl⟩⟩

/-- An edge of the belief graph comes with its belief. -/
theorem edgeRule_edge_iff (s t : Int) (type : Edge) (k : Int × Int) :
    EdgeRule list g s t type (.edge k) ↔ ∃ a b, (a.id, b.id) = k ∧ EdgeRule list g s t type (.belief ⟨a, b⟩) := by
  simp only [EdgeRule, has_beliefFacts, reduceCtorEq, false_or, or_false, Fact.belief.injEq, Fact.edge.injEq,
    WitcherBelief.mk.injEq]
  constructor
  · rintro (⟨a, b, hb, ha, rfl⟩ | ⟨htype, a, b, ha, hb, o, ho, rfl⟩)
    · exact ⟨a, b, rfl, .inl ⟨a, b, hb, ha, rfl, rfl⟩⟩
    · exact ⟨o, b, rfl, .inr ⟨htype, a, b, ha, hb, o, ho, rfl, rfl⟩⟩
  · rintro ⟨_, _, rfl, ⟨a, b, hb, ha, rfl, rfl⟩ | ⟨htype, a, b, ha, hb, o, ho, rfl, rfl⟩⟩
    · exact .inl ⟨_, _, hb, ha, rfl⟩
    · exact .inr ⟨htype, a, _, ha, hb, _, ho, rfl⟩

theorem edgeRule_read_iff (i : Int) :
    (∃ s t type, g.edges.get? (s, t) = some type ∧ EdgeRule list g s t type (.read i)) ↔
      ∃ o, CriticallyRead list g o ∧ o.id = i := by
  simp only [EdgeRule, has_beliefFacts, reduceCtorEq, or_false, and_false, exists_false, Fact.read.injEq]
  constructor
  · rintro ⟨s, t, type, hget, ⟨a, b, hb, ha, rfl⟩ | ⟨rfl, a, b, ha, hb, rfl⟩⟩
    · exact ⟨a, .storeLoad ((Dict.mem_keys_iff _ _).mpr ⟨type, hget⟩) hb ha, rfl⟩
    · exact ⟨b, .loadLoad hget ha hb, rfl⟩
  · rintro ⟨o, ⟨hedge, hsrc, ho⟩ | ⟨hget, hsrc, ho⟩, rfl⟩
    · obtain ⟨type, hget⟩ := (Dict.mem_keys_iff _ _).mp hedge
      exact ⟨_, _, type, hget, .inl ⟨o, _, hsrc, ho, rfl⟩⟩
    · exact ⟨_, _, _, hget, .inr ⟨rfl, _, o, hsrc, ho, rfl⟩⟩

end Graph

theorem id_enumerate_inj {list : List PMObject} {a b : PMObject} (ha : a ∈ enumerate list) (hb : b ∈ enumerate list)
    (h : a.id = b.id) : a = b := by
  obtain ⟨i, hi, rfl⟩ := List.mem_mapIdx.mp ha
  obtain ⟨j, hj, rfl⟩ := List.mem_mapIdx.mp hb
  have hij : i = j := Int.ofNat_inj.mp h
  subst hij
  rfl

theorem Believed.mem {list : List PMObject} {g : WitcherGraph} {a b : PMObject} (h : Believed list g a b) :
    a ∈ list ∧ b ∈ list := by
  have hmem : ∀ {type : NodeType} {k : Int} {o : PMObject}, ObjectOf list g type k o → o ∈ list := by
    rintro type k o ⟨_, _, _, _, ho, _⟩
    exact ho
  cases h with
  | storeLoad _ hb ha => exact ⟨hmem ha, hmem hb⟩
  | loadLoad _ ha hb => exact ⟨hmem ha, hmem hb⟩
  | reaching _ _ hb _ ha => exact ⟨hmem ha, hmem hb⟩

/-- The database of valid graphs has the facts of the rules, at each edge of each graph. -/
theorem new_facts (graphs : List WitcherGraph) (hvalid : ∀ g ∈ graphs, g.Valid) :
    ∃ list db, new graphs = .ok db ∧ db.pmObjectList = enumerate list ∧
      (∀ g ∈ graphs, Readable (enumerate list) (view g)) ∧
      ∀ x, Has db.beliefs.facts x ↔ ∃ g ∈ graphs, ∃ s t type, g.edges.get? (s, t) = some type ∧
        EdgeRule (enumerate list) g s t type x := by
  obtain ⟨list, hrun, hsorted, hinside⟩ := initPmObjectList_ok graphs fun g hg => (hvalid g hg).complete
  have hreadable : ∀ g ∈ graphs, Readable (enumerate list) (view g) :=
    fun g hg => readable_view hsorted (hvalid g hg) (hinside g hg)
  have hcovers : ∀ g ∈ graphs, Covers (enumerate list) g := by
    intro g hg
    refine ⟨sorted_enumerate hsorted, ?_⟩
    intro k node hnode hsize
    obtain ⟨o, ho, hin⟩ := hinside g hg k node hnode hsize
    obtain ⟨p, hp, hspan⟩ := mem_enumerate ho
    exact ⟨p, hp, hspan ▸ hin⟩
  obtain ⟨db, hbuild, hlist, -, hfacts, -⟩ := build_spec list (graphs.map fun g => (view g, g.edgeList))
    (List.forall_mem_map.mpr hreadable)
    (List.forall_mem_map.mpr fun g hg => joined_of_subset (hvalid g hg) fun e => mem_edges_of_mem_edgeList)
  refine ⟨list, db, ?_, hlist, hreadable, ?_⟩
  · rw [new, hrun, Loops.ok_bind, hbuild]
  · intro x
    have hlub : ∀ G, db.beliefs.facts ≤ G ↔ ∀ p : WitcherGraph × ((Int × Int) × Edge), p.1 ∈ graphs ∧ p.2 ∈ p.1.edgeList →
        edgeFacts (view p.1) (enumerate list) p.2 ≤ G := by
      intro G
      rw [hfacts, List.forall_mem_map]
      exact ⟨fun h p hp => h p.1 hp.1 p.2 hp.2, fun h g hg e he => h (g, e) ⟨hg, he⟩⟩
    rw [has_of_lub hlub]
    constructor
    · rintro ⟨⟨g, ⟨s, t⟩, type⟩, ⟨hg, he⟩, hx⟩
      rw [has_edgeFacts (hvalid g hg) (hcovers g hg) (hreadable g hg) (mem_edges_of_mem_edgeList he)] at hx
      exact ⟨g, hg, s, t, type, ((g.mem_edgeList s t type).mp he).2, hx⟩
    · rintro ⟨g, hg, s, t, type, hget, hx⟩
      have hkey : (s, t) ∈ g.edges.keys := (Dict.mem_keys_iff _ _).mpr ⟨type, hget⟩
      refine ⟨(g, (s, t), type), ⟨hg, ?_⟩, ?_⟩
      · exact (g.mem_edgeList s t type).mpr ⟨((hvalid g hg).closed _ hkey).1, hget⟩
      · rw [has_edgeFacts (hvalid g hg) (hcovers g hg) (hreadable g hg) hkey]
        exact hx

/-- The belief graph, the critical reads and the beliefs are those of the rules, and the search for control
successors ends on every graph. -/
theorem beliefs_exact (graphs : List WitcherGraph) (hvalid : ∀ g ∈ graphs, g.Valid) :
    ∃ db, new graphs = .ok db ∧
      (∀ i j, (i, j) ∈ db.beliefs.beliefGraph.edges.keys ↔
        ∃ a b, (∃ g ∈ graphs, Believed db.pmObjectList g a b) ∧ a.id = i ∧ b.id = j) ∧
      (∀ i, i ∈ db.beliefs.criticalReadSet ↔ ∃ o, (∃ g ∈ graphs, CriticallyRead db.pmObjectList g o) ∧ o.id = i) ∧
      (∀ a b, ⟨a, b⟩ ∈ db.beliefs.beliefSet ↔
        a ∈ db.pmObjectList ∧ b ∈ db.pmObjectList ∧ (a.id, b.id) ∈ db.beliefs.beliefGraph.edges.keys) ∧
      ∀ g ∈ graphs, ∀ srcId, ∃ s, ctrlLoop (view g) db.pmObjectList ((view g).numberOfNodes + 1) ⟨[srcId], [], []⟩ = .ok s ∧
        s.queue = [] := by
  obtain ⟨list, db, hnew, hlist, hreadable, hfacts⟩ := new_facts graphs hvalid
  have hbelief : ∀ a b, ⟨a, b⟩ ∈ db.beliefs.beliefSet ↔ ∃ g ∈ graphs, Believed (enumerate list) g a b := by
    intro a b
    refine (hfacts (.belief ⟨a, b⟩)).trans ?_
    simp only [edgeRule_belief_iff]
  have hedge : ∀ i j, (i, j) ∈ db.beliefs.beliefGraph.edges.keys ↔
      ∃ a b, (∃ g ∈ graphs, Believed (enumerate list) g a b) ∧ a.id = i ∧ b.id = j := by
    intro i j
    rw [← List.mem_toFinset]
    refine (hfacts (.edge (i, j))).trans ?_
    simp only [edgeRule_edge_iff, ← edgeRule_belief_iff, Prod.mk.injEq]
    constructor
    · rintro ⟨g, hg, s, t, type, hget, a, b, hids, hx⟩
      exact ⟨a, b, ⟨g, hg, s, t, type, hget, hx⟩, hids⟩
    · rintro ⟨a, b, ⟨g, hg, s, t, type, hget, hx⟩, hids⟩
      exact ⟨g, hg, s, t, type, hget, a, b, hids, hx⟩
  refine ⟨db, hnew, ?_, ?_, ?_, ?_⟩
  · rw [hlist]
    exact hedge
  · rw [hlist]
    intro i
    refine (hfacts (.read i)).trans ?_
    simp only [edgeRule_read_iff]
    constructor
    · rintro ⟨g, hg, o, ho, hi⟩
      exact ⟨o, ⟨g, hg, ho⟩, hi⟩
    · rintro ⟨o, ⟨g, hg, ho⟩, hi⟩
      exact ⟨g, hg, o, ho, hi⟩
  · rw [hlist]
    intro a b
    rw [hbelief, hedge]
    constructor
    · rintro ⟨g, hg, h⟩
      exact ⟨h.mem.1, h.mem.2, a, b, ⟨g, hg, h⟩, rfl, rfl⟩
    · rintro ⟨ha, hb, a', b', ⟨g, hg, h⟩, hida, hidb⟩
      rw [id_enumerate_inj ha h.mem.1 hida.symm, id_enumerate_inj hb h.mem.2 hidb.symm]
      exact ⟨g, hg, h⟩
  · rw [hlist]
    intro g hg srcId
    obtain ⟨s, hloop, hqueue, -⟩ := ctrlLoop_exact (hreadable g hg) srcId
    exact ⟨s, hloop, hqueue⟩

/-- A cycle of loads with one of no bytes, which closes by a control edge, and a store that depends on its end. -/
def loadCycle : WitcherGraph :=
  .new [⟨0, .load, 64, 8⟩, ⟨1, .load, 0, 0⟩, ⟨2, .load, 128, 8⟩, ⟨3, .store, 192, 8⟩]
    [⟨.dataDep, 0, 1⟩, ⟨.dataDep, 1, 2⟩, ⟨.ctrlDep, 2, 0⟩, ⟨.dataDep, 3, 0⟩]

/-- The load at the end of the cycle reaches the source of the control edge through the load of no bytes. -/
theorem beliefs_exact_loadCycle : ∃ db, new [loadCycle] = .ok db ∧
    db.beliefs.beliefGraph.edges.keys = [(1, 0), (0, 0), (0, 2)] ∧ db.beliefs.criticalReadSet = {0} ∧
    ∀ i j, (i, j) ∈ db.beliefs.beliefGraph.edges.keys ↔
      ∃ a b, (∃ g ∈ [loadCycle], Believed db.pmObjectList g a b) ∧ a.id = i ∧ b.id = j := by
  have hvalid : ∀ g ∈ [loadCycle], g.Valid := by
    rw [List.forall_mem_singleton]
    exact WitcherGraph.valid_new (by unfold WitcherGraph.Closed; decide) (by decide)
  obtain ⟨db, hnew, hedges, -⟩ := beliefs_exact [loadCycle] hvalid
  refine ⟨db, hnew, ?_, ?_, hedges⟩
  · cases hnew
    rfl
  · cases hnew
    rfl

end WitcherBeliefDatabase

end Witcher
