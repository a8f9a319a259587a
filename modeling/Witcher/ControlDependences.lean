import Mathlib.Data.Finset.Sort
import Witcher.DynamicBlocks
import Witcher.PostDominanceFrontier

/-! Control dependences from the post-dominator tree to the trace: the frontiers, the caches of `findExecForcers`, and the
search for the execution that forced another one. -/

namespace Witcher.Instrumentation

open TraceScan Loops

variable {ν β φ : Type} [DecidableEq φ] [DecidableEq β] {P : Program} {T : LoadedTrace ν β φ} {address : φ → UInt64}
  {R : RecordedRun P T.toRecording} {F : FlowGraph β} {Q : ForcerPasses β} {b b₀ : β} {s : ForcerCaches β} {qs : List β}

/-- Whatever was asked before, the numbers that a query returns are those of the forcing blocks. -/
theorem runQueries_last (hqs : ∀ c ∈ qs, c ∈ F.blocks) (hb : b ∈ F.blocks) (h : Queried F Q b₀ s) :
    ∃ answers found nums, runQueries F Q 2 (qs ++ [b]) s = some (answers ++ [(found, nums)]) ∧
      ∀ n, n ∈ nums ↔ ∃ a, Forces F b a ∧ Q.getID a = n := by
  induction qs generalizing s with
  | nil =>
      obtain ⟨s', nums, hfind, -, hnums⟩ := h.find hb 1
      refine ⟨[], returnedFlag F Q b₀ b, nums, ?_, hnums⟩
      simp only [List.nil_append, runQueries, hfind, Option.bind_eq_bind, Option.bind_some]
  | cons c qs ih =>
      obtain ⟨hc, hqs⟩ := List.forall_mem_cons.mp hqs
      obtain ⟨s', nums', hfind, hs', -⟩ := h.find hc 1
      obtain ⟨answers, found, nums, hrun, hnums⟩ := ih hqs hs'
      refine ⟨(returnedFlag F Q b₀ c, nums') :: answers, found, nums, ?_, hnums⟩
      simp only [List.cons_append, runQueries, hfind, hrun, Option.bind_eq_bind, Option.bind_some]

theorem runQueries_empty_last (hQ : Q.Correct F) (hqs : ∀ c ∈ qs, c ∈ F.blocks) (hb : b ∈ F.blocks) :
    ∃ answers found nums, runQueries F Q 2 (qs ++ [b]) ForcerCaches.empty = some (answers ++ [(found, nums)]) ∧
      ∀ n, n ∈ nums ↔ ∃ a, Forces F b a ∧ Q.getID a = n := by
  cases qs with
  | nil =>
      obtain ⟨s', nums, hfind, -, hnums⟩ := find_first hQ hb 0
      refine ⟨[], returnedFlag F Q b b, nums, ?_, hnums⟩
      simp only [List.nil_append, runQueries, hfind, Option.bind_eq_bind, Option.bind_some]
  | cons c qs =>
      obtain ⟨hc, hqs⟩ := List.forall_mem_cons.mp hqs
      obtain ⟨s', nums', hfind, hs', -⟩ := find_first hQ hc 0
      obtain ⟨answers, found, nums, hrun, hnums⟩ := runQueries_last hqs hb hs'
      refine ⟨(returnedFlag F Q c c, nums') :: answers, found, nums, ?_, hnums⟩
      simp only [List.cons_append, runQueries, hfind, hrun, Option.bind_eq_bind, Option.bind_some]

omit [DecidableEq β] in
theorem forcerNumbers_sort {nums : Finset Nat} (hnums : ∀ n, n ∈ nums ↔ ∃ a, Forces F b a ∧ (T.blockID a).toNat = n) :
    ForcerNumbers T F b (nums.sort.map UInt32.ofNat) := by
  intro id
  rw [List.mem_map]
  constructor
  · rintro ⟨n, hn, rfl⟩
    obtain ⟨a, ha, rfl⟩ := (hnums n).mp ((Finset.mem_sort _).mp hn)
    exact ⟨a, ha, UInt32.ofNat_toNat.symm⟩
  · rintro ⟨a, ha, rfl⟩
    exact ⟨_, (Finset.mem_sort _).mpr ((hnums _).mpr ⟨a, ha, rfl⟩), UInt32.ofNat_toNat⟩

/-- From the post-dominator tree to the trace: whatever blocks were queried before, the forcer that is found for an execution is
the last execution, in the same activation, of one of the blocks that decide whether its block is reached. -/
theorem getExecForcer_of_tree {DT : DomTree β} {y : Event} {j : Nat} {fn : φ} {buggy : BuggyValues ν β}
    (hDT : F.IsPostDominatorTree DT) (hexits : F.exits ≠ []) (hqs : ∀ c ∈ qs, c ∈ F.blocks) (hL : Linked P T address)
    (hF : FollowsGraph T R.events fn F) (hdirect : ¬P.indirect (address fn)) (hinverse : ∀ b, T.getBlock (T.blockID b) = b)
    (hy : R.events[j]? = some y) (htype : y.entry.type = .bbType) (hid : y.entry.id = T.blockID b) (hmem : b ∈ F.blocks)
    (hb : b ≠ F.entry) (hbuggy : b ∉ buggy.blocks) :
    ∃ answers found nums i x,
      runQueries F (treePasses F DT fun b => (T.blockID b).toNat) 2 (qs ++ [b]) ForcerCaches.empty =
        some (answers ++ [(found, nums)]) ∧
        LastBefore R.events (fun id => Forces F b (T.getBlock id)) i x j y ∧
          T.getExecForcer buggy ⟨b, j⟩ (nums.sort.map UInt32.ofNat) =
            .ok (if i = 0 ∧ j ≠ 1 then none else some ⟨T.getBlock x.entry.id, i⟩, buggy) := by
  obtain ⟨answers, found, nums, hrun, hnums⟩ :=
    runQueries_empty_last (treePasses_correct hDT hexits fun b => (T.blockID b).toNat) hqs hmem
  obtain ⟨i, x, hlast, hforcer⟩ := getExecForcer_eq hL hF hdirect hinverse hy htype hid (hF.function_eq b hmem) hb
    (forcerNumbers_sort hnums) hbuggy
  exact ⟨answers, found, nums, i, x, hrun, hlast, hforcer⟩

/-! ### The function that calls itself -/

/-- Block 3 comes last in every execution, and the other blocks decide nothing for each other. -/
def recursiveTree : DomTree UInt32 := .node (some 3) [.node (some 1) [], .node (some 2) []]

theorem recursive_isPostDominatorTree : recursiveGraph.IsPostDominatorTree recursiveTree := by
  refine FlowGraph.isPostDominatorTree_of_nodes ?_ ?_ (by decide) (fun u hu b hb a ha => ?_) ?_
  · simp [recursiveTree, mem_recursive_blocks, DomTree.blocks, DomTree.blocksOf]
  · simp [recursiveTree, mem_recursive_blocks, DomTree.nodes, DomTree.nodesOf, DomTree.block]
  · rw [FlowGraph.ProperlyPostDominates, FlowGraph.PostDominates, recursive_escapes ha]
    rw [mem_recursive_blocks] at ha
    simp only [recursiveTree, DomTree.nodes, DomTree.nodesOf, List.cons_append, List.nil_append, List.mem_cons,
      List.not_mem_nil, or_false] at hu
    rcases hu with rfl | rfl | rfl <;> cases hb <;> rcases ha with rfl | rfl | rfl <;> decide
  · intro a _ c hc
    rcases mem_recursive_succs.mp hc with ⟨-, rfl | rfl⟩ | ⟨-, rfl⟩ <;> decide

/-- The middle execution of block 2, after a query of block 3. -/
theorem getExecForcer_of_tree_recursive :
    ∃ answers found nums i x,
      runQueries recursiveGraph (treePasses recursiveGraph recursiveTree fun b => (recursiveTrace.blockID b).toNat) 2 [3, 2]
          ForcerCaches.empty = some (answers ++ [(found, nums)]) ∧
        LastBefore recursive.events (fun id => Forces recursiveGraph 2 (recursiveTrace.getBlock id)) i x 11
          (recursiveBlock 5 3 2) ∧
          recursiveTrace.getExecForcer ⟨[], []⟩ ⟨2, 11⟩ (nums.sort.map UInt32.ofNat) =
            .ok (if i = 0 ∧ 11 ≠ 1 then none else some ⟨recursiveTrace.getBlock x.entry.id, i⟩, ⟨[], []⟩) :=
  getExecForcer_of_tree recursive_isPostDominatorTree (by decide) (List.forall_mem_singleton.mpr (by decide)) linked_recursive
    followsGraph_recursive id (fun _ => rfl) (j := 11) rfl rfl rfl (by decide) (by decide) List.not_mem_nil

end Witcher.Instrumentation
