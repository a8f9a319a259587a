import Witcher.CandidateRuns

/-! The parallel worker on an extracted trace. It reaches its transaction without raising, and there
every fence yields exactly the plans of the original candidate list, each with the crash image that
the plan stands for. -/

namespace Witcher

open Bytes Persistency WitcherCache WitcherCrashManager WitcherParallelCrashManager

/-! ### Up to the transaction -/

/-- One iteration of `run_before_target` as commands of the cache. -/
def beforeCommands (firstTxStartId : Nat) (op : Op) : List Command :=
  .accept op ::
    ((if op.isTXEnd then [.writeBackAllStores] else []) ++
      if (op.id : Int) = (firstTxStartId : Int) - 1 then [.writeBackAllStores] else [])

theorem acceptBefore_eq (firstTxStartId : Nat) (c : WitcherCache) (op : Op) :
    acceptBefore firstTxStartId c op = c.execAll (beforeCommands firstTxStartId op) := by
  simp only [acceptBefore, beforeCommands, WitcherCache.execAll, List.foldlM_cons, WitcherCache.exec]
  congr 1
  funext c₁
  split_ifs <;> simp [WitcherCache.exec, List.foldlM_cons, pure, Except.pure]

theorem execAll_append (c : WitcherCache) (front back : List Command) :
    c.execAll (front ++ back) = c.execAll front >>= fun c' => c'.execAll back :=
  List.foldlM_append

theorem foldlM_acceptBefore (firstTxStartId : Nat) (c : WitcherCache) (ops : List Op) :
    ops.foldlM (acceptBefore firstTxStartId) c = c.execAll (ops.flatMap (beforeCommands firstTxStartId)) := by
  induction ops generalizing c with
  | nil => rfl
  | cons op ops ih =>
      rw [List.foldlM_cons, List.flatMap_cons, execAll_append, acceptBefore_eq]
      congr 1
      funext c'
      exact ih c'

theorem commandStores_before (firstTxStartId : Nat) (ops : List Op) :
    commandStores (ops.flatMap (beforeCommands firstTxStartId)) = storesOf ops := by
  induction ops with
  | nil => rfl
  | cons op ops ih =>
      have hop : commandStores (beforeCommands firstTxStartId op) = storesOf [op] := by
        simp only [beforeCommands, commandStores]
        split_ifs <;> simp [Command.stores]
      rw [List.flatMap_cons, commandStores_append, ih, storesOf_cons, hop]

/-- The memory a worker reaches before its transaction. -/
def memoryBefore (firstTxStartId : Nat) (ops : List Op) : Memory Nat Store :=
  Memory.empty.run (commandEvents (ops.flatMap (beforeCommands firstTxStartId)))

/-- An extracted trace is valid for a new file it maps into. -/
theorem WitcherTrace.Valid.of_entries {mapBase : Nat} {bytes : List UInt8} {entries : List TraceEntry}
    {trace : WitcherTrace} (hextract : extractOperations entries = .ok trace)
    (hmapped : ∀ e ∈ entries, e.Mapped mapBase bytes.length) :
    trace.Valid (BinaryFile.new mapBase bytes).mapBase (BinaryFile.new mapBase bytes).fileMap.length :=
  extractOperations_valid hextract hmapped

/-- Replaying some first operations of a valid trace. -/
theorem Refines.acceptBefore {f₀ : BinaryFile} {trace : WitcherTrace} (firstTxStartId : Nat) {ops : List Op}
    (hvalid : trace.Valid f₀.mapBase f₀.fileMap.length) (hops : ops.Sublist trace.atomicWriteOps) :
    ∃ c, ops.foldlM (WitcherParallelCrashManager.acceptBefore firstTxStartId) (WitcherCache.new f₀) = .ok c ∧
      Refines f₀ (storesOf ops) (memoryBefore firstTxStartId ops) c := by
  obtain ⟨c, hrun, href⟩ := (Refines.new f₀).execAll (ops.flatMap (beforeCommands firstTxStartId)) (by
    intro cmd hcmd
    obtain ⟨op, hop, hcmd⟩ := List.mem_flatMap.mp hcmd
    have hreplay := hvalid.replayable op (hops.subset hop)
    rcases List.mem_cons.mp hcmd with rfl | hcmd
    · exact hreplay
    · have hdrain : cmd = .writeBackAllStores := by
        rcases List.mem_append.mp hcmd with hcmd | hcmd <;> split_ifs at hcmd <;> simp_all
      rw [hdrain]
      trivial) (by
    rw [List.nil_append, commandStores_before]
    exact hvalid.store_ids_nodup hops)
  rw [List.nil_append, commandStores_before] at href
  exact ⟨c, by rw [foldlM_acceptBefore, hrun], href⟩

theorem txRange_ok {trace : WitcherTrace} {t : Nat} {range : Nat × Nat} :
    txRange trace t = .ok range ↔ trace.atomicWriteOpsTxRanges[t]? = some range := by
  rw [txRange]
  cases trace.atomicWriteOpsTxRanges[t]? <;> simp

theorem txRange_first {trace : WitcherTrace} {t : Nat} {range : Nat × Nat} (h : txRange trace t = .ok range) :
    ∃ first, txRange trace 0 = .ok first := by
  rw [txRange_ok] at h
  have hlt := (List.getElem?_eq_some_iff.mp h).1
  exact ⟨trace.atomicWriteOpsTxRanges[0], txRange_ok.mpr (List.getElem?_eq_getElem (by omega))⟩

/-- `run_before_target` succeeds on every transaction of a valid trace. -/
theorem Refines.runBeforeTarget {f₀ : BinaryFile} {trace : WitcherTrace} {t start stop : Nat}
    (hvalid : trace.Valid f₀.mapBase f₀.fileMap.length) (hrange : txRange trace t = .ok (start, stop)) :
    ∃ first c, txRange trace 0 = .ok first ∧
      WitcherParallelCrashManager.runBeforeTarget trace t (WitcherCache.new f₀) = .ok c ∧
      Refines f₀ (storesOf (slice trace.atomicWriteOps 0 start))
        (memoryBefore first.1 (slice trace.atomicWriteOps 0 start)) c := by
  obtain ⟨first, hfirst⟩ := txRange_first hrange
  obtain ⟨c, hrun, href⟩ := Refines.acceptBefore first.1 hvalid (slice_sublist trace.atomicWriteOps 0 start)
  refine ⟨first, c, hfirst, ?_, href⟩
  simp only [WitcherParallelCrashManager.runBeforeTarget, hfirst, hrange, Loops.ok_bind, hrun]

/-! ### The transaction -/

/-- The stores of a transaction, with or without its `TXEnd`. -/
theorem storesOf_tx {mapBase length : Nat} {trace : WitcherTrace} {t start stop : Nat}
    (hvalid : trace.Valid mapBase length) (hrange : txRange trace t = .ok (start, stop)) :
    storesOf (slice trace.atomicWriteOps start (stop + 1)) = storesOf (slice trace.atomicWriteOps start stop) := by
  obtain ⟨init, segs, tail, _, hseg⟩ := hvalid.segmented
  obtain ⟨before, seg, after, _, _, htx⟩ := hseg.txAt (txRange_ok.mp hrange)
  rw [htx.whole, htx.until_stop, ← List.cons_append, storesOf_append]
  simp [storesOf]

theorem start_le_stop {mapBase length : Nat} {trace : WitcherTrace} {t start stop : Nat}
    (hvalid : trace.Valid mapBase length) (hrange : txRange trace t = .ok (start, stop)) : start ≤ stop := by
  obtain ⟨init, segs, tail, _, hseg⟩ := hvalid.segmented
  obtain ⟨before, seg, after, _, _, htx⟩ := hseg.txAt (txRange_ok.mp hrange)
  have := htx.stop_eq
  omega

theorem txSetting {f₀ : BinaryFile} {trace : WitcherTrace} {t start stop : Nat} {candidates : List CrashCandidate}
    (hvalid : trace.Valid f₀.mapBase f₀.fileMap.length) (hrange : txRange trace t = .ok (start, stop))
    (hcand : TxCandidates (storesOf (slice trace.atomicWriteOps start (stop + 1))) candidates) :
    TxSetting f₀ (storesOf (slice trace.atomicWriteOps 0 start)) (slice trace.atomicWriteOps start stop)
      candidates where
  ids := hvalid.ids_lt (slice_sublist _ _ _)
  replayable := fun op hop => hvalid.replayable op ((slice_sublist _ _ _).subset hop)
  nodup := by
    rw [← storesOf_append, ← take_eq_slice_append _ (start_le_stop hvalid hrange)]
    exact hvalid.store_ids_nodup (List.take_sublist _ _)
  candidates := by
    rw [← storesOf_tx hvalid hrange]
    exact hcand

/-- The loop over the operations before a position of the transaction. -/
theorem TxRun.run {f₀ : BinaryFile} {hist : List Store} {m : Memory Nat Store} {ops : List Op} {txIndex : Nat}
    {candidates : List CrashCandidate} {s : WitcherCrashManager} (hset : TxSetting f₀ hist ops candidates)
    (h : TxRun f₀ hist m ops txIndex candidates [] s) {done rest : List Op} (hsplit : ops = done ++ rest) :
    ∃ s', done.foldlM (acceptOp (some txIndex)) s = .ok s' ∧
      TxRun f₀ hist m ops txIndex candidates done s' ∧
      ∀ t, t ≠ txIndex → s'.crashCandidatesPerTx.get? t = s.crashCandidatesPerTx.get? t := by
  refine Loops.foldlM_induction done s ⟨h, fun _ _ => rfl⟩ ?_
    (motive := fun (traversed : List Op) (s' : WitcherCrashManager) =>
      TxRun f₀ hist m ops txIndex candidates traversed s' ∧
        ∀ t, t ≠ txIndex → s'.crashCandidatesPerTx.get? t = s.crashCandidatesPerTx.get? t)
  rintro traversed op todo s' hdone ⟨hs', hothers⟩
  have hops : ops = traversed ++ op :: (todo ++ rest) := by
    rw [hsplit, hdone, List.append_assoc, List.cons_append]
  obtain ⟨s'', hstep, hrun, _, hothers'⟩ := hs'.step hset hops
  exact ⟨s'', hstep, hrun, fun t ht => (hothers' t ht).trans (hothers t ht)⟩

/-- The worker at a fence of its transaction: the cache it started the transaction with and the
manager that reaches the fence. -/
theorem TxRun.worker {f₀ : BinaryFile} {trace : WitcherTrace} {t start stop : Nat}
    {candidates : List CrashCandidate} {front back : List Op}
    (hvalid : trace.Valid f₀.mapBase f₀.fileMap.length) (hrange : txRange trace t = .ok (start, stop))
    (hcand : TxCandidates (storesOf (slice trace.atomicWriteOps start (stop + 1))) candidates)
    (hsplit : slice trace.atomicWriteOps start stop = front ++ back) :
    ∃ first c s, txRange trace 0 = .ok first ∧
      WitcherParallelCrashManager.runBeforeTarget trace t (WitcherCache.new f₀) = .ok c ∧
      front.foldlM (acceptOp (some t)) ⟨c, Dict.empty.set t candidates, []⟩ = .ok s ∧
      TxRun f₀ (storesOf (slice trace.atomicWriteOps 0 start))
        (memoryBefore first.1 (slice trace.atomicWriteOps 0 start)) (slice trace.atomicWriteOps start stop) t
        candidates front s := by
  have hset := txSetting hvalid hrange hcand
  obtain ⟨first, c, hfirst, hbefore, href⟩ := Refines.runBeforeTarget hvalid hrange
  have hinit : TxRun f₀ (storesOf (slice trace.atomicWriteOps 0 start))
      (memoryBefore first.1 (slice trace.atomicWriteOps 0 start)) (slice trace.atomicWriteOps start stop) t
      candidates [] ⟨c, Dict.empty.set t candidates, []⟩ :=
    TxRun.init hset href (by rw [Dict.get?_set, if_pos rfl])
  obtain ⟨s, hrun, hs, _⟩ := hinit.run hset hsplit
  exact ⟨first, c, s, hfirst, hbefore, hrun, hs⟩

/-! ### Plans of a fence -/

/-- The plans a list of candidates calls for at fence `b`, read off the list as a whole. -/
def IsNaivePlan (isFenced : Store → Bool) (b : BaseOperation) (candidates : List CrashCandidate) (plan : Op) : Prop :=
  (∃ x ∈ candidates, x.pStore.id < b.id ∧ x.vStore.id < b.id ∧
    isFenced x.pStore = false ∧ isFenced x.vStore = false ∧
    (x.pStore.id < x.vStore.id ∨
      getCachelineAddress x.pStore.address ≠ getCachelineAddress x.vStore.address) ∧ plan = .store x.pStore) ∨
  (plan = .fence b ∧ ∃ x ∈ candidates, x.pStore.id < b.id ∧ x.vStore.id < b.id ∧
    isFenced x.pStore = true ∧ isFenced x.vStore = false)

theorem mem_naivePlans_iff (isFenced : Store → Bool) (b : BaseOperation) (candidates : List CrashCandidate)
    (plan : Op) :
    plan ∈ naivePlans isFenced b.id (.fence b) candidates ↔ IsNaivePlan isFenced b candidates plan := by
  rw [mem_naivePlans, IsNaivePlan]
  constructor
  · rintro ⟨x, hx, hlast, ⟨hp, hv, hline, rfl⟩ | ⟨hp, hv, rfl⟩⟩
    · exact .inl ⟨x, hx, lt_of_le_of_lt (le_max_left _ _) hlast, lt_of_le_of_lt (le_max_right _ _) hlast,
        hp, hv, hline, rfl⟩
    · exact .inr ⟨rfl, x, hx, lt_of_le_of_lt (le_max_left _ _) hlast, lt_of_le_of_lt (le_max_right _ _) hlast,
        hp, hv⟩
  · rintro (⟨x, hx, hpid, hvid, hp, hv, hline, rfl⟩ | ⟨rfl, x, hx, hpid, hvid, hp, hv⟩)
    · exact ⟨x, hx, max_lt hpid hvid, .inl ⟨hp, hv, hline, rfl⟩⟩
    · exact ⟨x, hx, max_lt hpid hvid, .inr ⟨hp, hv, rfl⟩⟩

/-- Soundness and completeness of the candidate queue: at every fence of every transaction, after all
the pops and put-backs of the earlier fences, `verify_crash_candidates` passes its assertions and
returns the plans of the original list. -/
theorem verifyCrashCandidates_iff_naive (mapBase : Nat) (bytes : List UInt8) {entries : List TraceEntry}
    {trace : WitcherTrace} {txId start stop : Nat} {candidates : List CrashCandidate} {front back : List Op}
    {b : BaseOperation} (hextract : extractOperations entries = .ok trace)
    (hmapped : ∀ e ∈ entries, e.Mapped mapBase bytes.length) (hrange : txRange trace txId = .ok (start, stop))
    (hcand : TxCandidates (storesOf (slice trace.atomicWriteOps start (stop + 1))) candidates)
    (hfence : slice trace.atomicWriteOps start stop = front ++ .fence b :: back) :
    ∃ c s, runBeforeTarget trace txId (WitcherCache.new (BinaryFile.new mapBase bytes)) = .ok c ∧
      front.foldlM (acceptOp (some txId)) ⟨c, Dict.empty.set txId candidates, []⟩ = .ok s ∧
      ∃ s' plans processed,
        s.verifyCrashCandidates txId b.id (.fence b) = .ok (s', plans, processed) ∧ plans.Nodup ∧
        ∀ plan, plan ∈ plans ↔ IsNaivePlan s.cache.heap.isFenced b candidates plan := by
  have hvalid := WitcherTrace.Valid.of_entries hextract hmapped
  obtain ⟨_, c, s, _, hbefore, hrun, hs⟩ := TxRun.worker hvalid hrange hcand hfence
  obtain ⟨queue, processed, hverify, _⟩ := hs.verify (txSetting hvalid hrange hcand) hfence
  exact ⟨c, s, hbefore, hrun, _, _, processed, hverify, nodup_naivePlans _ _ _ _, mem_naivePlans_iff _ _ _⟩

/-- A transaction whose second store is flushed and fenced while the first stays volatile. -/
def reorderEntries : List TraceEntry :=
  [.txStart 0 "", .store 0 0 2 [1, 2] "", .store 0 64 2 [3, 4] "", .flush 0 64 "", .fence 0 "", .fence 0 "",
    .txEnd 0 ""]

def reorderOps : List Op :=
  [.txStart ⟨0, 0, ""⟩, .store ⟨⟨1, 0, ""⟩, 0, 2, [1, 2]⟩, .store ⟨⟨2, 0, ""⟩, 64, 2, [3, 4]⟩,
    .flush ⟨⟨3, 0, ""⟩, 64⟩, .fence ⟨4, 0, ""⟩, .fence ⟨5, 0, ""⟩, .txEnd ⟨6, 0, ""⟩]

def reorderTrace : WitcherTrace := ⟨reorderOps, [(0, 6)], reorderOps, [(0, 6)]⟩

/-- Persist the second store and leave the first one volatile. -/
def reorderCandidates : List CrashCandidate :=
  [⟨⟨⟨2, 0, ""⟩, 64, 2, [3, 4]⟩, ⟨⟨1, 0, ""⟩, 0, 2, [1, 2]⟩⟩]

theorem reorderCandidates_spec :
    TxCandidates (storesOf (slice reorderTrace.atomicWriteOps 0 (6 + 1))) reorderCandidates :=
  ⟨by decide, by decide, by decide, List.pairwise_singleton _ _⟩

theorem verifyCrashCandidates_iff_naive_reorder :
    ∃ c s, runBeforeTarget reorderTrace 0 (WitcherCache.new (BinaryFile.new 0 (List.replicate 66 0))) = .ok c ∧
      (slice reorderOps 0 5).foldlM (acceptOp (some 0)) ⟨c, Dict.empty.set 0 reorderCandidates, []⟩ = .ok s ∧
      ∃ s' plans processed,
        s.verifyCrashCandidates 0 5 (.fence ⟨5, 0, ""⟩) = .ok (s', plans, processed) ∧
        Op.fence ⟨5, 0, ""⟩ ∈ plans := by
  have hextract : extractOperations reorderEntries = .ok reorderTrace := rfl
  have hrange : txRange reorderTrace 0 = .ok (0, 6) := rfl
  have hfence : slice reorderTrace.atomicWriteOps 0 6 = slice reorderOps 0 5 ++ .fence ⟨5, 0, ""⟩ :: [] := rfl
  obtain ⟨c, s, hbefore, hrun, s', plans, processed, hverify, _, hplans⟩ := verifyCrashCandidates_iff_naive 0
    (List.replicate 66 0) hextract (by decide) hrange reorderCandidates_spec hfence
  refine ⟨c, s, hbefore, hrun, s', plans, processed, hverify, (hplans _).mpr (.inr ⟨rfl, _, List.mem_singleton_self _,
    by decide, by decide, ?_⟩)⟩
  cases hbefore
  cases hrun
  decide

end Witcher
