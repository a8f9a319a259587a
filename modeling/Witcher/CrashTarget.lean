import Witcher.DecimalText
import Witcher.ReplayAgreement

/-! Reproducing a reported crash state (`WitcherCrashManager.run_for_target`). A target
`tx_id-fence_id-crash_op_id` is replayed over the whole trace without candidates, up to its fence.
Every crash state a parallel worker tests is reproduced from its target byte for byte. -/

namespace Witcher

open Bytes Persistency PythonText WitcherCrashManager WitcherParallelCrashManager

/-! ### The third replay loop -/

namespace WitcherCrashManager

/-- `int(entries[i])`. -/
def readInt (table : CharTable) (entries : List (List Char)) (i : Nat) : Except ReplayError Int :=
  match entries[i]? with
  | none => .error .indexError
  | some text =>
      match int table 10 text with
      | none => .error .valueError
      | some n => .ok n

/-- The loop over the trace. It validates the target at its fence and returns; otherwise it writes
back as `run_before_target` does. -/
def targetLoop (firstTxStartId targetTxIndex : Nat) (targetFenceId : Int) (targetCrashOp : Op) :
    WitcherCache → List Op → Except ReplayError (List CrashState)
  | _, [] => .ok []
  | c, op :: ops => do
      let (isFence, c) ← c.accept op
      if isFence && (op.id : Int) = targetFenceId then
        let (_, states) ← WitcherCrashValidator.validate c targetTxIndex op.id [targetCrashOp]
        .ok states
      else
        let c ← if isFence then c.writeBackAllFlushingStores else .ok c
        let c ← if op.isTXEnd then c.writeBackAllStores else .ok c
        let c ← if (op.id : Int) = (firstTxStartId : Int) - 1 then c.writeBackAllStores else .ok c
        targetLoop firstTxStartId targetTxIndex targetFenceId targetCrashOp c ops

/-- The crash states given to the validator. The fields of a target are cut at `-`, so none of them
is negative. -/
def runForTarget (table : CharTable) (trace : WitcherTrace) (crashTarget : List Char) (c : WitcherCache) :
    Except ReplayError (List CrashState) := do
  let targetEntries := crashTarget.splitOn '-'
  let targetTxIndex ← readInt table targetEntries 0
  let targetFenceId ← readInt table targetEntries 1
  let targetCrashOpId ← readInt table targetEntries 2
  let some targetCrashOp := trace.atomicWriteOps[targetCrashOpId.toNat]? | .error .indexError
  assert (targetCrashOp.isStore || targetCrashOp.isFence)
  assert ((targetCrashOp.id : Int) = targetCrashOpId)
  let firstTxRange ← txRange trace 0
  targetLoop firstTxRange.1 targetTxIndex.toNat targetFenceId targetCrashOp c trace.atomicWriteOps

end WitcherCrashManager

/-- The target `tx_index-fence_index-crash_plan.id` in the name of a crash state's file. -/
def CrashState.target (state : CrashState) : List Char :=
  DecimalText.str state.txIndex ++ '-' ::
    (DecimalText.str state.fenceIndex ++ '-' :: DecimalText.str state.crashPlan.id)

/-! ### The loop up to the fence -/

/-- Until the target's fence the loop replays as `run_before_target` does. -/
theorem targetLoop_append (firstTxStartId targetTxIndex : Nat) (targetFenceId : Int) (targetCrashOp : Op)
    (c : WitcherCache) (front back : List Op) (hfront : ∀ op ∈ front, (op.id : Int) ≠ targetFenceId) :
    targetLoop firstTxStartId targetTxIndex targetFenceId targetCrashOp c (front ++ back) =
      front.foldlM (acceptBefore firstTxStartId) c >>= fun c' =>
        targetLoop firstTxStartId targetTxIndex targetFenceId targetCrashOp c' back := by
  induction front generalizing c with
  | nil => rfl
  | cons op front ih =>
      have hop := hfront op List.mem_cons_self
      have hrest := fun c' => ih c' fun o ho => hfront o (List.mem_cons_of_mem op ho)
      rw [List.cons_append, targetLoop, List.foldlM_cons, acceptBefore, WitcherCache.acceptAndWriteBack]
      cases c.accept op with
      | error e => rfl
      | ok r =>
          obtain ⟨isFence, c₁⟩ := r
          simp only [Loops.ok_bind, hop, decide_false, Bool.and_false, Bool.false_eq_true, if_false, hrest]
          split_ifs <;> simp only [bind_assoc, Loops.ok_bind]

/-- The fence with the target's id: the validator is called once and the loop returns. -/
theorem targetLoop_fence (firstTxStartId targetTxIndex : Nat) (targetCrashOp : Op) (c : WitcherCache)
    (b : BaseOperation) (back : List Op) :
    targetLoop firstTxStartId targetTxIndex b.id targetCrashOp c (.fence b :: back) =
      WitcherCrashValidator.validate c targetTxIndex b.id [targetCrashOp] >>= fun r => .ok r.2 := by
  rw [targetLoop]
  simp [WitcherCache.accept]

/-! ### Where tested states come from -/

/-- Every state the loop tests was found at a fence of the transaction. -/
theorem TxRun.tested_origin {f₀ : BinaryFile} {hist : List Store} {m : Memory Nat Store} {ops : List Op}
    {txIndex : Nat} {candidates : List CrashCandidate} {s : WitcherCrashManager}
    (hset : TxSetting f₀ hist ops candidates) (h : TxRun f₀ hist m ops txIndex candidates [] s) :
    ∃ s', ops.foldlM (acceptOp (some txIndex)) s = .ok s' ∧ TxRun f₀ hist m ops txIndex candidates ops s' ∧
      ∀ state ∈ s'.tested, state ∈ s.tested ∨ ∃ front b back s₁, ops = front ++ .fence b :: back ∧
        TxRun f₀ hist m ops txIndex candidates front s₁ ∧
        state ∈ crashStatesAt f₀.mapBase s₁.cache.heap (m.run (eventsOf front)) candidates txIndex (.fence b) := by
  refine Loops.foldlM_induction ops s ⟨h, fun state hstate => .inl hstate⟩ ?_
    (motive := fun (done : List Op) (s' : WitcherCrashManager) => TxRun f₀ hist m ops txIndex candidates done s' ∧
      ∀ state ∈ s'.tested, state ∈ s.tested ∨ ∃ front b back s₁, ops = front ++ .fence b :: back ∧
        TxRun f₀ hist m ops txIndex candidates front s₁ ∧
        state ∈ crashStatesAt f₀.mapBase s₁.cache.heap (m.run (eventsOf front)) candidates txIndex (.fence b))
  rintro done op rest s' hsplit ⟨hs', horigin⟩
  obtain ⟨s'', hstep, hs'', htested, _⟩ := hs'.step hset hsplit
  refine ⟨s'', hstep, hs'', ?_⟩
  intro state hstate
  rw [htested] at hstate
  rcases List.mem_append.mp hstate with hstate | hstate
  · exact horigin state hstate
  · cases op with
    | fence b => exact .inr ⟨done, b, rest, s', hsplit, hs', hstate⟩
    | _ => cases hstate

/-! ### Reproduction -/

theorem WitcherTrace.Valid.getElem?_id {mapBase length : Nat} {trace : WitcherTrace}
    (h : trace.Valid mapBase length) {op : Op} (hop : op ∈ trace.atomicWriteOps) :
    trace.atomicWriteOps[op.id]? = some op := by
  obtain ⟨i, hget⟩ := List.mem_iff_getElem?.mp hop
  rw [h.ids i op hget]
  exact hget

theorem readInt_target (table : CharTable) (state : CrashState) :
    readInt table (state.target.splitOn '-') 0 = .ok (state.txIndex : Int) ∧
      readInt table (state.target.splitOn '-') 1 = .ok (state.fenceIndex : Int) ∧
      readInt table (state.target.splitOn '-') 2 = .ok (state.crashPlan.id : Int) := by
  rw [CrashState.target, DecimalText.splitOn_three '-' (by decide)]
  refine ⟨?_, ?_, ?_⟩ <;> simp [readInt, DecimalText.int_str]

/-- The trace around a fence of a transaction. -/
theorem atomicWriteOps_at_fence {trace : WitcherTrace} {mapBase length t start stop : Nat}
    (hvalid : trace.Valid mapBase length) (hrange : txRange trace t = .ok (start, stop)) {front back : List Op}
    {b : BaseOperation} (hsplit : slice trace.atomicWriteOps start stop = front ++ .fence b :: back) :
    trace.atomicWriteOps =
      slice trace.atomicWriteOps 0 start ++ front ++ .fence b :: (back ++ trace.atomicWriteOps.drop stop) := by
  have htake := take_eq_slice_append trace.atomicWriteOps (start_le_stop hvalid hrange)
  rw [hsplit] at htake
  conv_lhs => rw [← List.take_append_drop stop trace.atomicWriteOps, htake]
  simp

/-- Inside the transaction the memory of the replay is that of the worker. -/
theorem memoryBefore_front {trace : WitcherTrace} {mapBase length t start stop : Nat} {first : Nat × Nat}
    (hvalid : trace.Valid mapBase length) (hfirst : txRange trace 0 = .ok first)
    (hrange : txRange trace t = .ok (start, stop)) {front rest : List Op}
    (hsplit : slice trace.atomicWriteOps start stop = front ++ rest) :
    memoryBefore first.1 (slice trace.atomicWriteOps 0 start ++ front) =
      (memoryBefore first.1 (slice trace.atomicWriteOps 0 start)).run (eventsOf front) := by
  have hmem : ∀ op ∈ front, op ∈ slice trace.atomicWriteOps start stop := by
    intro op hop
    rw [hsplit]
    exact List.mem_append_left _ hop
  apply memoryBefore_accept
  · intro op hop
    obtain ⟨init, segs, tail, _, hseg⟩ := hvalid.segmented
    obtain ⟨before, seg, after, hsegs, _, htx⟩ := hseg.txAt (txRange_ok.mp hrange)
    have hin := hmem op hop
    rw [htx.until_stop] at hin
    rcases List.mem_cons.mp hin with rfl | hin
    · rfl
    · exact (hseg.segs_plain seg (by rw [hsegs]; simp)).1.isTXEnd op hin
  · intro op hop
    exact (first_le_start hvalid hfirst hrange).trans (hvalid.le_id_of_mem_slice (hmem op hop))

/-- A plan of the worker at a fence, replayed from its target. -/
theorem runForTarget_of_plan (table : CharTable) {f₀ : BinaryFile} {trace : WitcherTrace} {t start stop : Nat}
    {first : Nat × Nat} {candidates : List CrashCandidate} {front back : List Op} {b : BaseOperation} {s : WitcherCrashManager}
    {state : CrashState} (hvalid : trace.Valid f₀.mapBase f₀.fileMap.length) (hfirst : txRange trace 0 = .ok first)
    (hrange : txRange trace t = .ok (start, stop))
    (hcand : TxCandidates (storesOf (slice trace.atomicWriteOps start (stop + 1))) candidates)
    (hsplit : slice trace.atomicWriteOps start stop = front ++ .fence b :: back)
    (hs : TxRun f₀ (storesOf (slice trace.atomicWriteOps 0 start))
      (memoryBefore first.1 (slice trace.atomicWriteOps 0 start)) (slice trace.atomicWriteOps start stop) t
      candidates front s)
    (hstate : state ∈ crashStatesAt f₀.mapBase s.cache.heap
      ((memoryBefore first.1 (slice trace.atomicWriteOps 0 start)).run (eventsOf front)) candidates t (.fence b)) :
    runForTarget table trace state.target (WitcherCache.new f₀) = .ok [state] := by
  obtain ⟨plan, hplan, rfl⟩ := List.mem_map.mp hstate
  have hset := txSetting hvalid hrange hcand
  -- the operations before the fence, and the memory they lead to
  have hops := atomicWriteOps_at_fence hvalid hrange hsplit
  have hmemory := memoryBefore_front hvalid hfirst hrange hsplit
  have hsub : (slice trace.atomicWriteOps 0 start ++ front).Sublist trace.atomicWriteOps := by
    conv_rhs => rw [hops]
    exact List.sublist_append_left _ _
  obtain ⟨c, hrun, href⟩ := Refines.acceptBefore first.1 hvalid hsub
  rw [hmemory, storesOf_append] at href
  have hvalidate := href.validate t b.id [plan] (by
    intro p hp
    rw [List.mem_singleton.mp hp]
    exact hs.plannable hset hsplit hplan)
  -- the target names the plan
  have hplanMem : plan ∈ trace.atomicWriteOps ∧ (plan.isStore || plan.isFence) = true := by
    obtain ⟨x, hx, _, ⟨_, _, _, rfl⟩ | ⟨_, _, rfl⟩⟩ := mem_naivePlans.mp hplan
    · exact ⟨(slice_sublist _ _ _).subset (mem_storesOf.mp (hcand.pStore x hx)), rfl⟩
    · exact ⟨by rw [hops]; simp, rfl⟩
  obtain ⟨hread₀, hread₁, hread₂⟩ := readInt_target table
    ⟨t, b.id, plan, planImage f₀.mapBase s.cache.heap.binaryFile.fileMap
      ((memoryBefore first.1 (slice trace.atomicWriteOps 0 start)).run (eventsOf front)) plan⟩
  have hbefore : ∀ op ∈ slice trace.atomicWriteOps 0 start ++ front, (op.id : Int) ≠ (b.id : Int) := by
    intro op hop
    have hids := hvalid.ids_lt (List.Sublist.refl _)
    rw [hops, List.map_append, List.map_cons, List.pairwise_append] at hids
    have hlt := hids.2.2 op.id (List.mem_map_of_mem hop) b.id List.mem_cons_self
    omega
  have hloop : targetLoop first.1 t b.id plan (WitcherCache.new f₀) trace.atomicWriteOps =
      .ok [⟨t, b.id, plan, planImage f₀.mapBase s.cache.heap.binaryFile.fileMap
        ((memoryBefore first.1 (slice trace.atomicWriteOps 0 start)).run (eventsOf front)) plan⟩] := by
    conv_lhs => rw [hops]
    rw [targetLoop_append _ _ _ _ _ _ _ hbefore, hrun, Loops.ok_bind, targetLoop_fence, hvalidate,
      href.file_unique hs.refines]
    rfl
  simp only [runForTarget, hread₀, hread₁, hread₂, Loops.ok_bind, Int.toNat_natCast, hvalid.getElem?_id hplanMem.1,
    hplanMem.2, assert_true, decide_true, hfirst, hloop]

/-- Reported plans are reproducible: a worker runs to its end, and for every crash state it hands to
the validator the target of that state reaches the fence, calls the validator once and builds the
same image. -/
theorem runForTarget_reproduces (table : CharTable) (mapBase : Nat) (bytes : List UInt8) (belief : BeliefDatabase)
    (crashMax : Int) {entries : List TraceEntry} {trace : WitcherTrace} {txId start stop : Nat}
    (hextract : extractOperations entries = .ok trace) (hmapped : ∀ e ∈ entries, e.Mapped mapBase bytes.length)
    (hrange : txRange trace txId = .ok (start, stop)) :
    ∃ states, WitcherParallelCrashManager.run trace belief crashMax (BinaryFile.new mapBase bytes) txId = .ok states ∧
      ∀ state ∈ states,
        runForTarget table trace state.target (WitcherCache.new (BinaryFile.new mapBase bytes)) = .ok [state] := by
  have hvalid := WitcherTrace.Valid.of_entries hextract hmapped
  have hcand : TxCandidates (storesOf (slice trace.atomicWriteOps start (stop + 1)))
      (crashCandidates trace belief (start, stop)) :=
    belief.getCrashCandidatesFromTx_spec _ (hvalid.store_ids_lt (slice_sublist _ _ _))
  simp only [WitcherParallelCrashManager.run, hrange, Loops.ok_bind]
  split_ifs
  · exact ⟨[], rfl, by simp⟩
  · exact ⟨[], rfl, by simp⟩
  · exact ⟨[], rfl, by simp⟩
  · have hset := txSetting hvalid hrange hcand
    obtain ⟨first, c, hfirst, hbefore, href⟩ := Refines.runBeforeTarget hvalid hrange
    have hinit : TxRun (BinaryFile.new mapBase bytes) _ _ (slice trace.atomicWriteOps start stop) txId
        (crashCandidates trace belief (start, stop)) []
        ⟨c, Dict.empty.set txId (crashCandidates trace belief (start, stop)), []⟩ :=
      TxRun.init hset href (by rw [Dict.get?_set, if_pos rfl])
    obtain ⟨s, hrun, hs, horigin⟩ := hinit.tested_origin hset
    obtain ⟨c', hback, _⟩ := hs.refines.writeBackAllStores
    refine ⟨s.tested, ?_, ?_⟩
    · simp only [hbefore, Loops.ok_bind, runTryTraget, hrange, hrun, WitcherCrashManager.writeBackAllStores, hback]
    · intro state hstate
      rcases horigin state hstate with hstate | ⟨front, b, back, s₁, hsplit, hs₁, hstate⟩
      · cases hstate
      · exact runForTarget_of_plan table hvalid hfirst hrange hcand hsplit hs₁ hstate

/-- The belief that the first store of `reorderEntries` is persisted before the second. -/
def reorderBelief : BeliefDatabase := ⟨fun _ => false, fun p v => p.id = 2 && v.id = 1⟩

theorem runForTarget_reproduces_reorder :
    ∃ states, WitcherParallelCrashManager.run reorderTrace reorderBelief 10
        (BinaryFile.new 0 (List.replicate 66 0)) 0 = .ok states ∧
      states.map CrashState.target = [['0', '-', '4', '-', '2'], ['0', '-', '5', '-', '5']] ∧
      ∀ state ∈ states,
        runForTarget asciiTable reorderTrace state.target (WitcherCache.new (BinaryFile.new 0 (List.replicate 66 0))) =
          .ok [state] := by
  have hextract : extractOperations reorderEntries = .ok reorderTrace := rfl
  have hrange : txRange reorderTrace 0 = .ok (0, 6) := rfl
  obtain ⟨states, hrun, htarget⟩ := runForTarget_reproduces asciiTable 0 (List.replicate 66 0) reorderBelief 10 hextract
    (by decide) hrange
  refine ⟨states, hrun, ?_, htarget⟩
  cases hrun
  decide

end Witcher
