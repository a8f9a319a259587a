import Witcher.ExecForcers

/-! The post-dominance frontiers (`PostDominatorFrontier.cpp`), which are computed up the post-dominator tree: the frontier of
a block comes from its predecessors and from the frontiers of the blocks that it immediately post-dominates. -/

namespace Witcher

/-- A node of a post-dominator tree. A root that stands for several exits has no block. -/
inductive DomTree (β : Type) where
  | node (block : Option β) (children : List (DomTree β))

namespace DomTree

variable {β : Type}

def block : DomTree β → Option β
  | node block _ => block

def children : DomTree β → List (DomTree β)
  | node _ children => children

mutual

def blocks : DomTree β → List β
  | node block children => block.toList ++ blocksOf children

def blocksOf : List (DomTree β) → List β
  | [] => []
  | t :: ts => blocks t ++ blocksOf ts

end

/-- The blocks that the node properly dominates. -/
def dominated (t : DomTree β) : List β := blocksOf t.children

inductive Subtree : DomTree β → DomTree β → Prop
  | refl (t : DomTree β) : Subtree t t
  | child {u c t : DomTree β} (hc : c ∈ t.children) (h : Subtree u c) : Subtree u t

theorem Subtree.trans {u s t : DomTree β} (h : Subtree u s) (h' : Subtree s t) : Subtree u t := by
  induction h' with
  | refl => exact h
  | child hc _ ih => exact .child hc ih

/-- What passes from the children of a node to the node holds of every tree. -/
theorem induction {C : DomTree β → Prop} (h : ∀ t, (∀ c ∈ t.children, C c) → C t) (t : DomTree β) : C t :=
  @DomTree.rec β C (fun ts => ∀ c ∈ ts, C c) (fun _ _ hchildren => h _ hchildren) (fun _ hmem => nomatch hmem)
    (fun _ _ ht hts => List.forall_mem_cons.mpr ⟨ht, hts⟩) t

mutual

/-- The node and those below it. -/
def nodes : DomTree β → List (DomTree β)
  | node block children => node block children :: nodesOf children

def nodesOf : List (DomTree β) → List (DomTree β)
  | [] => []
  | t :: ts => nodes t ++ nodesOf ts

end

theorem mem_blocksOf {ts : List (DomTree β)} {b : β} : b ∈ blocksOf ts ↔ ∃ t ∈ ts, b ∈ t.blocks := by
  induction ts with
  | nil => exact iff_of_false (fun hmem => nomatch hmem) fun ⟨_, hmem, _⟩ => nomatch hmem
  | cons t ts ih => rw [blocksOf, List.mem_append, ih, List.exists_mem_cons_iff]

theorem mem_blocks {t : DomTree β} {b : β} : b ∈ t.blocks ↔ t.block = some b ∨ b ∈ t.dominated := by
  obtain ⟨block, children⟩ := t
  rw [blocks, List.mem_append, Option.mem_toList]
  rfl

theorem mem_nodesOf {ts : List (DomTree β)} {u : DomTree β} : u ∈ nodesOf ts ↔ ∃ t ∈ ts, u ∈ t.nodes := by
  induction ts with
  | nil => exact iff_of_false (fun hmem => nomatch hmem) fun ⟨_, hmem, _⟩ => nomatch hmem
  | cons t ts ih => rw [nodesOf, List.mem_append, ih, List.exists_mem_cons_iff]

theorem mem_nodes {t u : DomTree β} : u ∈ t.nodes ↔ u.Subtree t := by
  induction t using induction with
  | h t ih =>
      obtain ⟨block, children⟩ := t
      rw [nodes, List.mem_cons, mem_nodesOf]
      constructor
      · rintro (rfl | ⟨c, hc, hu⟩)
        · exact .refl _
        · exact .child hc ((ih c hc).mp hu)
      · rintro (_ | ⟨hc, h⟩)
        · exact .inl rfl
        · exact .inr ⟨_, hc, (ih _ hc).mpr h⟩

theorem exists_node {t : DomTree β} {b : β} (h : b ∈ t.blocks) : ∃ u : DomTree β, u.Subtree t ∧ u.block = some b := by
  induction t using induction with
  | h t ih =>
      rcases mem_blocks.mp h with hself | hbelow
      · exact ⟨t, .refl t, hself⟩
      · obtain ⟨c, hc, hmem⟩ := mem_blocksOf.mp hbelow
        obtain ⟨u, hu, hb⟩ := ih c hc hmem
        exact ⟨u, .child hc hu, hb⟩

theorem mem_dominated {t : DomTree β} {b : β} : b ∈ t.dominated ↔ ∃ c ∈ t.children, b ∈ c.blocks := mem_blocksOf

end DomTree

section Model

variable {β : Type} [DecidableEq β]

/-- The frontiers of the nodes that were visited. -/
abbrev Frontiers (β : Type) := Dict (Option β) (List β)

def FlowGraph.preds (F : FlowGraph β) (BB : β) : List β := F.blocks.filter fun P => BB ∈ F.succs P

/-- The predecessors with a node of the tree `DT` that the node does not immediately post-dominate. -/
def dfLocal (F : FlowGraph β) (DT Node : DomTree β) : List β :=
  match Node.block with
  | none => []
  | some BB => (F.preds BB).filter fun P => P ∈ DT.blocks ∧ some P ∉ Node.children.map DomTree.block

mutual

def calculate (F : FlowGraph β) (DT : DomTree β) : DomTree β → Frontiers β → List β × Frontiers β
  | .node block children, frontiers =>
      if F.exits = [] then ([], frontiers.set block [])
      else
        let S := dfLocal F DT (.node block children)
        let (S, frontiers) := calculateChildren F DT (DomTree.blocksOf children) children S frontiers
        (S, frontiers.set block S)

/-- The loop over the children of a node that properly post-dominates the blocks `below`. -/
def calculateChildren (F : FlowGraph β) (DT : DomTree β) (below : List β) :
    List (DomTree β) → List β → Frontiers β → List β × Frontiers β
  | [], S, frontiers => (S, frontiers)
  | IDominee :: children, S, frontiers =>
      let (ChildDF, frontiers) := calculate F DT IDominee frontiers
      calculateChildren F DT below children (S ++ ChildDF.filter fun a => a ∉ below) frontiers

end

/-- The node `DT[BB]`. -/
def DomTree.nodeOf (DT : DomTree β) (BB : β) : Option (DomTree β) := DT.nodes.find? fun u => u.block = some BB

def DomTree.properlyDominates (DT : DomTree β) (b a : β) : Bool :=
  match DT.nodeOf b with
  | some u => decide (a ∈ u.dominated)
  | none => false

def runOnFunction (F : FlowGraph β) (DT : DomTree β) : Frontiers β := (calculate F DT DT Dict.empty).2

/-- What the tree and the frontiers computed from it answer. -/
def treePasses (F : FlowGraph β) (DT : DomTree β) (getID : β → Nat) : ForcerPasses β where
  postDominanceFrontier := fun BB => (runOnFunction F DT).get? (some BB)
  properlyDominates := DT.properlyDominates
  getID := getID

end Model

/-- The tree says which blocks of the function post-dominate which. Only its root may have no block. -/
structure FlowGraph.IsPostDominatorTree {β : Type} (F : FlowGraph β) (DT : DomTree β) : Prop where
  mem : ∀ b ∈ F.blocks, b ∈ DT.blocks
  block_mem : ∀ (u : DomTree β) (b : β), u.Subtree DT → u.block = some b → b ∈ F.blocks
  child_block : ∀ u : DomTree β, u.Subtree DT → ∀ c ∈ u.children, ∃ b, c.block = some b
  dominated_iff : ∀ (u : DomTree β) (b : β), u.Subtree DT → u.block = some b →
    ∀ a, a ∈ u.dominated ↔ a ∈ F.blocks ∧ F.ProperlyPostDominates b a
  succs_mem : ∀ a ∈ F.blocks, ∀ c ∈ F.succs a, c ∈ F.blocks

/-- Whether a tree is the post-dominator tree can be checked node by node. -/
theorem FlowGraph.isPostDominatorTree_of_nodes {β : Type} {F : FlowGraph β} {DT : DomTree β}
    (hmem : ∀ b ∈ F.blocks, b ∈ DT.blocks) (hblock : ∀ u ∈ DT.nodes, ∀ b ∈ u.block, b ∈ F.blocks)
    (hchild : ∀ u ∈ DT.nodes, ∀ c ∈ u.children, c.block.isSome)
    (hdominated : ∀ u ∈ DT.nodes, ∀ b ∈ u.block, ∀ a ∈ F.blocks, a ∈ u.dominated ↔ F.ProperlyPostDominates b a)
    (hsuccs : ∀ a ∈ F.blocks, ∀ c ∈ F.succs a, c ∈ F.blocks) : F.IsPostDominatorTree DT where
  mem := hmem
  block_mem u b hu hb := hblock u (DomTree.mem_nodes.mpr hu) b hb
  child_block u hu c hc := Option.isSome_iff_exists.mp (hchild u (DomTree.mem_nodes.mpr hu) c hc)
  dominated_iff u b hu hb a := by
    constructor
    · intro ha
      obtain ⟨c, hc, hac⟩ := DomTree.mem_dominated.mp ha
      obtain ⟨v, hv, hva⟩ := DomTree.exists_node hac
      have ha' := hblock v (DomTree.mem_nodes.mpr (hv.trans (.child hc (.refl c)) |>.trans hu)) a hva
      exact ⟨ha', (hdominated u (DomTree.mem_nodes.mpr hu) b hb a ha').mp ha⟩
    · rintro ⟨ha, hproper⟩
      exact (hdominated u (DomTree.mem_nodes.mpr hu) b hb a ha).mpr hproper
  succs_mem := hsuccs

section Frontier

variable {β : Type} {F : FlowGraph β} {DT u : DomTree β} {a b c d : β}

theorem FlowGraph.postDominates_iff : F.PostDominates b a ↔ b = a ∨ F.ProperlyPostDominates b a := by
  constructor
  · intro h
    by_cases hba : b = a
    · exact .inl hba
    · exact .inr ⟨hba, h⟩
  · rintro (rfl | h)
    · exact fun hescapes => (FlowGraph.escapes_iff.mp hescapes).1 rfl
    · exact h.2

/-- What post-dominates a block also post-dominates its successors, unless it is the block. -/
theorem FlowGraph.ProperlyPostDominates.succ (h : F.ProperlyPostDominates d a) (hb : b ∈ F.succs a) : F.PostDominates d b :=
  fun hescapes => h.2 (.step h.1.symm hb hescapes)

variable (hDT : F.IsPostDominatorTree DT) (hu : u.Subtree DT) (hb : u.block = some b)
include hDT hu hb

theorem FlowGraph.IsPostDominatorTree.blocks_iff : c ∈ u.blocks ↔ c ∈ F.blocks ∧ F.PostDominates b c := by
  rw [DomTree.mem_blocks, hDT.dominated_iff u b hu hb, FlowGraph.postDominates_iff, and_or_left, hb, Option.some_inj]
  refine or_congr_left ⟨?_, And.right⟩
  rintro rfl
  exact ⟨hDT.block_mem u b hu hb, rfl⟩

/-- A predecessor is properly post-dominated only by way of the tree's edge to it. -/
theorem FlowGraph.IsPostDominatorTree.child_iff (ha : a ∈ F.blocks) (hsucc : b ∈ F.succs a) :
    some a ∈ u.children.map DomTree.block ↔ F.ProperlyPostDominates b a := by
  have hself : b ∉ u.dominated := fun hmem => ((hDT.dominated_iff u b hu hb b).mp hmem).2.1 rfl
  constructor
  · intro hmem
    obtain ⟨c, hc, hblock⟩ := List.mem_map.mp hmem
    exact ((hDT.dominated_iff u b hu hb a).mp (DomTree.mem_dominated.mpr ⟨c, hc, DomTree.mem_blocks.mpr (.inl hblock)⟩)).2
  · intro hproper
    obtain ⟨c, hc, hac⟩ := DomTree.mem_dominated.mp ((hDT.dominated_iff u b hu hb a).mpr ⟨ha, hproper⟩)
    obtain ⟨d, hd⟩ := hDT.child_block u hu c hc
    have hsub : c.Subtree DT := (DomTree.Subtree.child hc (.refl c)).trans hu
    rcases DomTree.mem_blocks.mp hac with hblock | hbelow
    · exact List.mem_map.mpr ⟨c, hc, hblock⟩
    · -- Its child post-dominates the block too, which is then below itself.
      have hda := ((hDT.dominated_iff c d hsub hd a).mp hbelow).2
      have hbc : b ∈ c.blocks := (hDT.blocks_iff hsub hd).mpr ⟨hDT.block_mem u b hu hb, hda.succ hsucc⟩
      exact (hself (DomTree.mem_dominated.mpr ⟨c, hc, hbc⟩)).elim

/-- The frontier of a block comes from its predecessors and from the frontiers of the children. -/
theorem FlowGraph.IsPostDominatorTree.inFrontier_iff :
    F.InFrontier b a ↔ (a ∈ F.blocks ∧ b ∈ F.succs a ∧ some a ∉ u.children.map DomTree.block) ∨
      ∃ c ∈ u.children, ∃ d, c.block = some d ∧ F.InFrontier d a ∧ a ∉ u.dominated := by
  constructor
  · rintro ⟨ha, ⟨c', hsucc, hpost⟩, hproper⟩
    rcases DomTree.mem_blocks.mp ((hDT.blocks_iff hu hb).mpr ⟨hDT.succs_mem a ha c' hsucc, hpost⟩) with hself | hbelow
    · obtain rfl := Option.some.inj (hb.symm.trans hself)
      exact .inl ⟨ha, hsucc, mt (hDT.child_iff hu hb ha hsucc).mp hproper⟩
    · obtain ⟨c, hc, hmem⟩ := DomTree.mem_dominated.mp hbelow
      obtain ⟨d, hd⟩ := hDT.child_block u hu c hc
      have hsub : c.Subtree DT := (DomTree.Subtree.child hc (.refl c)).trans hu
      have hdominated : a ∉ u.dominated := fun hmem => hproper ((hDT.dominated_iff u b hu hb a).mp hmem).2
      refine .inr ⟨c, hc, d, hd, ⟨ha, ⟨c', hsucc, ((hDT.blocks_iff hsub hd).mp hmem).2⟩, fun hda => hdominated ?_⟩, hdominated⟩
      exact DomTree.mem_dominated.mpr ⟨c, hc, DomTree.mem_blocks.mpr (.inr ((hDT.dominated_iff c d hsub hd a).mpr ⟨ha, hda⟩))⟩
  · rintro (⟨ha, hsucc, hchild⟩ | ⟨c, hc, d, hd, ⟨ha, ⟨c', hsucc, hpost⟩, -⟩, hdominated⟩)
    · exact ⟨ha, ⟨b, hsucc, FlowGraph.postDominates_iff.mpr (.inl rfl)⟩, mt (hDT.child_iff hu hb ha hsucc).mpr hchild⟩
    · have hsub : c.Subtree DT := (DomTree.Subtree.child hc (.refl c)).trans hu
      have hmem := (hDT.blocks_iff hsub hd).mpr ⟨hDT.succs_mem a ha c' hsucc, hpost⟩
      have hbelow := DomTree.mem_blocks.mpr (.inr (DomTree.mem_dominated.mpr ⟨c, hc, hmem⟩))
      exact ⟨ha, ⟨c', hsucc, ((hDT.blocks_iff hu hb).mp hbelow).2⟩,
        fun hproper => hdominated ((hDT.dominated_iff u b hu hb a).mpr ⟨ha, hproper⟩)⟩

end Frontier

/-! ### The frontiers of all nodes -/

section Calculation

variable {β : Type} [DecidableEq β] {F : FlowGraph β} {DT u : DomTree β} {a b : β} {S : List β}
    {frontiers frontiers' : Frontiers β}
  {children : List (DomTree β)}

/-- The sets that are stored are the frontiers of the blocks they are stored for. -/
def Frontiers.Right (F : FlowGraph β) (frontiers : Frontiers β) : Prop :=
  ∀ b S, frontiers.get? (some b) = some S → ∀ a, a ∈ S ↔ F.InFrontier b a

theorem Frontiers.Right.set (h : frontiers.Right F) (hS : ∀ b, u.block = some b → ∀ a, a ∈ S ↔ F.InFrontier b a) :
    Frontiers.Right F (frontiers.set u.block S) := by
  intro b S' hget
  rw [Dict.get?_set] at hget
  split_ifs at hget with hblock
  · cases hget
    exact hS b hblock.symm
  · exact h b S' hget

/-- After a visit of a node with these blocks: they have sets too, no others were added, and all sets are right. -/
structure Visited (F : FlowGraph β) (blocks : List β) (frontiers frontiers' : Frontiers β) : Prop where
  right : frontiers'.Right F
  stored_iff : ∀ b, frontiers'.get? (some b) = none ↔ frontiers.get? (some b) = none ∧ b ∉ blocks

theorem mem_dfLocal (hDT : F.IsPostDominatorTree DT) (hb : u.block = some b) :
    a ∈ dfLocal F DT u ↔ a ∈ F.blocks ∧ b ∈ F.succs a ∧ some a ∉ u.children.map DomTree.block := by
  rw [dfLocal, hb]
  simp only [List.mem_filter, FlowGraph.preds, decide_eq_true_eq]
  constructor
  · rintro ⟨⟨ha, hsucc⟩, -, hchild⟩
    exact ⟨ha, hsucc, hchild⟩
  · rintro ⟨ha, hsucc, hchild⟩
    exact ⟨⟨ha, hsucc⟩, hDT.mem a ha, hchild⟩

/-- What a visit of the node does. -/
structure VisitSpec (F : FlowGraph β) (DT u : DomTree β) : Prop where
  visited : ∀ frontiers : Frontiers β, frontiers.Right F → Visited F u.blocks frontiers (calculate F DT u frontiers).2
  mem_iff : ∀ frontiers : Frontiers β, frontiers.Right F → ∀ b, u.block = some b →
    ∀ a, a ∈ (calculate F DT u frontiers).1 ↔ F.InFrontier b a

theorem calculateChildren_spec {below : List β} (hchildren : ∀ c ∈ children, VisitSpec F DT c ∧ ∃ d, c.block = some d)
    (hright : frontiers.Right F) :
    Visited F (DomTree.blocksOf children) frontiers (calculateChildren F DT below children S frontiers).2 ∧
      ∀ a, a ∈ (calculateChildren F DT below children S frontiers).1 ↔
        a ∈ S ∨ ∃ c ∈ children, ∃ d, c.block = some d ∧ F.InFrontier d a ∧ a ∉ below := by
  induction children generalizing S frontiers with
  | nil =>
      refine ⟨⟨hright, fun b => (and_iff_left List.not_mem_nil).symm⟩, fun a => ?_⟩
      exact (or_iff_left fun ⟨_, hmem, _⟩ => nomatch hmem).symm
  | cons c children ih =>
      obtain ⟨⟨hc, d, hd⟩, hchildren⟩ := List.forall_mem_cons.mp hchildren
      have hfirst := hc.visited frontiers hright
      obtain ⟨hrest, hmem⟩ := ih (S := S ++ (calculate F DT c frontiers).1.filter fun a => a ∉ below) hchildren hfirst.right
      refine ⟨⟨hrest.right, fun b => (hrest.stored_iff b).trans ?_⟩, fun a => ?_⟩
      · rw [hfirst.stored_iff, DomTree.blocksOf, List.mem_append, not_or, and_assoc]
      · refine (hmem a).trans ?_
        rw [List.mem_append, List.mem_filter, hc.mem_iff frontiers hright d hd, decide_eq_true_eq, or_assoc,
          List.exists_mem_cons_iff]
        refine or_congr_right (or_congr_left ⟨fun h => ⟨d, hd, h⟩, ?_⟩)
        rintro ⟨d', hd', h⟩
        obtain rfl := Option.some.inj (hd.symm.trans hd')
        exact h

theorem visitSpec (hDT : F.IsPostDominatorTree DT) (hexits : F.exits ≠ []) (hu : u.Subtree DT) : VisitSpec F DT u := by
  induction u using DomTree.induction with
  | h u ih =>
      obtain ⟨block, children⟩ := u
      have hchildren : ∀ c ∈ children, VisitSpec F DT c ∧ ∃ d, c.block = some d := fun c hc =>
        ⟨ih c hc ((DomTree.Subtree.child hc (.refl c)).trans hu), hDT.child_block _ hu c hc⟩
      have hset : ∀ frontiers : Frontiers β, frontiers.Right F → ∀ b, block = some b →
          ∀ a, a ∈ (calculate F DT (.node block children) frontiers).1 ↔ F.InFrontier b a := by
        intro frontiers hright b hb a
        rw [calculate, if_neg hexits]
        refine ((calculateChildren_spec hchildren hright).2 a).trans ?_
        have hlocal := mem_dfLocal (u := .node block children) (a := a) hDT hb
        rw [hlocal, hDT.inFrontier_iff hu hb]
        rfl
      refine ⟨fun frontiers hright => ?_, hset⟩
      have hright' : Visited F (DomTree.blocksOf children) frontiers
        (calculateChildren F DT (DomTree.blocksOf children) children
        (dfLocal F DT (.node block children)) frontiers).2 := (calculateChildren_spec hchildren hright).1
      have hset := hset frontiers hright
      rw [calculate, if_neg hexits] at hset ⊢
      refine ⟨hright'.right.set (u := .node block children) hset, fun b => ?_⟩
      have hmem : b ∈ (DomTree.node block children).blocks ↔ block = some b ∨ b ∈ DomTree.blocksOf children :=
        DomTree.mem_blocks
      rw [Dict.get?_set, hmem, not_or]
      split_ifs with hblock
      · exact iff_of_false id fun h => h.2.1 hblock.symm
      · exact (hright'.stored_iff b).trans (and_congr_right' (and_iff_right (Ne.symm hblock)).symm)

theorem visited_runOnFunction (hDT : F.IsPostDominatorTree DT) (hexits : F.exits ≠ []) :
    Visited F DT.blocks Dict.empty (runOnFunction F DT) :=
  (visitSpec hDT hexits (.refl DT)).visited Dict.empty fun _ _ hget => nomatch hget

theorem Visited.exists_set {blocks : List β} (h : Visited F blocks frontiers frontiers') (hb : b ∈ blocks) :
    ∃ S, frontiers'.get? (some b) = some S ∧ ∀ a, a ∈ S ↔ F.InFrontier b a := by
  obtain ⟨S, hS⟩ := Option.ne_none_iff_exists'.mp fun hnone => ((h.stored_iff b).mp hnone).2 hb
  exact ⟨S, hS, h.right b S hS⟩

/-- Every block of the function gets its post-dominance frontier, and nothing else gets one. -/
theorem runOnFunction_frontiers (hDT : F.IsPostDominatorTree DT) (hexits : F.exits ≠ []) (b : β) :
    (b ∈ F.blocks → ∃ S, (runOnFunction F DT).get? (some b) = some S ∧ ∀ a, a ∈ S ↔ F.InFrontier b a) ∧
      (b ∉ F.blocks → (runOnFunction F DT).get? (some b) = none) := by
  have hvisited := visited_runOnFunction hDT hexits
  refine ⟨fun hb => hvisited.exists_set (hDT.mem b hb), fun hb => (hvisited.stored_iff b).mpr ⟨rfl, fun hmem => ?_⟩⟩
  obtain ⟨u, hu, hblock⟩ := DomTree.exists_node hmem
  exact hb (hDT.block_mem u b hu hblock)

/-- Of the branch with a body: control leaves by the last block, and neither of the others must be run for the other. -/
def ifThenTree : DomTree (Fin 3) := .node (some ifThen.last) (ifThen.blocks.dropLast.map fun b => .node (some b) [])

theorem ifThen_isPostDominatorTree : ifThen.IsPostDominatorTree ifThenTree := by
  refine FlowGraph.isPostDominatorTree_of_nodes (by decide) (by decide) (by decide) (fun u hu b hb a ha => ?_) (by decide)
  rw [FlowGraph.ProperlyPostDominates, FlowGraph.PostDominates, ifThen_escapes]
  revert u b a
  decide

/-- The body and its frontier. -/
theorem runOnFunction_frontiers_ifThen :
    ((1 : Fin 3) ∈ ifThen.blocks →
        ∃ S, (runOnFunction ifThen ifThenTree).get? (some 1) = some S ∧ ∀ a, a ∈ S ↔ ifThen.InFrontier 1 a) ∧
      ((1 : Fin 3) ∉ ifThen.blocks → (runOnFunction ifThen ifThenTree).get? (some 1) = none) :=
  runOnFunction_frontiers ifThen_isPostDominatorTree (by decide) 1

theorem properlyDominates_iff (hDT : F.IsPostDominatorTree DT) (ha : a ∈ F.blocks) (hb : b ∈ F.blocks) :
    DT.properlyDominates b a = true ↔ F.ProperlyPostDominates b a := by
  obtain ⟨u, hu, hblock⟩ := DomTree.exists_node (hDT.mem b hb)
  cases hfind : DT.nodes.find? fun v => v.block = some b with
  | none => exact (List.find?_eq_none.mp hfind u (DomTree.mem_nodes.mpr hu) (decide_eq_true hblock)).elim
  | some v =>
      have hv := DomTree.mem_nodes.mp (List.mem_of_find?_eq_some hfind)
      have hvb : v.block = some b := by simpa only [decide_eq_true_eq] using List.find?_some hfind
      simp only [DomTree.properlyDominates, DomTree.nodeOf, hfind]
      rw [decide_eq_true_iff, hDT.dominated_iff v b hv hvb, and_iff_right ha]

theorem treePasses_correct (hDT : F.IsPostDominatorTree DT) (hexits : F.exits ≠ []) (getID : β → Nat) :
    (treePasses F DT getID).Correct F where
  frontier b hb := (visited_runOnFunction hDT hexits).exists_set (hDT.mem b hb)
  tree _ hb := properlyDominates_iff hDT List.mem_cons_self hb

end Calculation

end Witcher
