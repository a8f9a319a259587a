import Witcher.WorkerReplay

/-! The serial manager on an extracted trace. It writes back everything after the initial operations,
after each transaction and after each gap between transactions, so it starts every transaction with
nothing pending. -/

namespace Witcher

open Bytes Persistency WitcherCrashManager

/-! ### Memories with nothing pending -/

/-- Every store of the history persisted. -/
def drainedMemory (hist : List Store) : Memory Nat Store := fun a => ⟨hist.filter fun st => st.line = a, [], []⟩

theorem drainedMemory_pending (hist : List Store) (a : Nat) : (drainedMemory hist a).pending = [] := rfl

theorem Refines.drained {f₀ : BinaryFile} {hist : List Store} {m : Memory Nat Store} {c : WitcherCache}
    (h : Refines f₀ hist m c) (hpend : ∀ a, (m a).pending = []) : m = drainedMemory hist := by
  funext a
  obtain ⟨hflushing, hclear⟩ := List.append_eq_nil_iff.mp (hpend a)
  have hstores := h.stores a
  rw [Line.stores, hpend a, List.append_nil] at hstores
  have hline : m a = ⟨(m a).persisted, (m a).flushing, (m a).clear⟩ := rfl
  rw [hline, hflushing, hclear, hstores, drainedMemory]

/-! ### Slices without a crash function -/

theorem acceptOp_none (s : WitcherCrashManager) (op : Op) :
    s.acceptOp none op = s.cache.acceptAndWriteBack op >>= fun c => .ok { s with cache := c } := by
  simp only [acceptOp, WitcherCache.acceptAndWriteBack]
  cases s.cache.accept op with
  | error e => rfl
  | ok r =>
      obtain ⟨isFence, c⟩ := r
      cases isFence <;> simp [writeBackAllFlushingStores]

/-- Operations accepted without crashing, and the write-back at the end. -/
theorem Refines.acceptTraceTx_none {f₀ : BinaryFile} {hist : List Store} {m : Memory Nat Store}
    {s : WitcherCrashManager} (h : Refines f₀ hist m s.cache) (ops : List Op)
    (hops : ∀ op ∈ ops, op.Replayable f₀.mapBase f₀.fileMap.length)
    (hnodup : ((hist ++ storesOf ops).map (·.id)).Nodup) :
    ∃ c, s.acceptTraceTx ops none = .ok { s with cache := c } ∧
      Refines f₀ (hist ++ storesOf ops) (drainedMemory (hist ++ storesOf ops)) c := by
  obtain ⟨c₁, hrun, href⟩ := h.execAll (ops.map .accept) (by
    intro cmd hcmd
    obtain ⟨op, hop, rfl⟩ := List.mem_map.mp hcmd
    exact hops op hop) (by rw [commandStores_accept]; exact hnodup)
  rw [commandStores_accept] at href
  obtain ⟨c, hback, href'⟩ := href.writeBackAllStores
  rw [href'.drained fun a => Memory.pending_step_drain _ a] at href'
  have hfold : ∀ (ops : List Op) (s : WitcherCrashManager),
      ops.foldlM (acceptOp none) s = s.cache.execAll (ops.map .accept) >>= fun c => .ok { s with cache := c } := by
    intro ops
    induction ops with
    | nil => exact fun s => rfl
    | cons op ops ih =>
        intro s
        rw [List.foldlM_cons, acceptOp_none, List.map_cons, WitcherCache.execAll, List.foldlM_cons]
        cases hop : s.cache.acceptAndWriteBack op with
        | error e => simp [WitcherCache.exec, hop, bind, Except.bind]
        | ok c => simp [WitcherCache.exec, hop, ih, WitcherCache.execAll]
  refine ⟨c, ?_, href'⟩
  simp only [acceptTraceTx, hfold, hrun, Loops.ok_bind, WitcherCrashManager.writeBackAllStores, hback]

/-! ### The order of the ranges -/

/-- Where the operations not accepted yet begin, after the transactions `done`. -/
def nextIndex (firstStart : Nat) (done : List (Nat × Nat)) : Nat :=
  match done.getLast? with
  | none => firstStart
  | some range => range.2 + 1

theorem nextIndex_concat (firstStart : Nat) (done : List (Nat × Nat)) (range : Nat × Nat) :
    nextIndex firstStart (done ++ [range]) = range.2 + 1 := by
  simp [nextIndex]

theorem segmentRanges_next {n : Nat} {segs : List TxSegment} {done rest : List (Nat × Nat)} {range : Nat × Nat}
    (h : segmentRanges n segs = done ++ range :: rest) :
    (done = [] → range.1 = n) ∧ nextIndex n done ≤ range.1 := by
  induction segs generalizing n done with
  | nil => simp [segmentRanges] at h
  | cons u segs ih =>
      have hlen := u.length_ops
      cases done with
      | nil =>
          simp only [segmentRanges, List.nil_append, List.cons.injEq] at h
          rw [← h.1]
          simp [nextIndex]
      | cons d done =>
          simp only [segmentRanges, List.cons_append, List.cons.injEq] at h
          obtain ⟨rfl, h⟩ := h
          obtain ⟨hfirst, hnext⟩ := ih h
          refine ⟨by simp, ?_⟩
          rcases List.eq_nil_or_concat done with rfl | ⟨done, last, rfl⟩
          · rw [hfirst rfl]
            simp only [nextIndex, List.getLast?_singleton]
            omega
          · rw [List.concat_eq_append, ← List.cons_append, nextIndex_concat]
            rw [List.concat_eq_append, nextIndex_concat] at hnext
            exact hnext

/-! ### From transaction to transaction -/

/-- The serial manager after the transactions `done`. -/
structure SerialInv (f₀ : BinaryFile) (trace : WitcherTrace) (firstStart : Nat)
    (perTx : Dict Nat (List CrashCandidate)) (done : List (Nat × Nat)) (x : TxLoop) : Prop where
  txIndex : x.txIndex = done.length
  lastIndex : x.lastIndex = done.getLast?.map fun range => range.2 + 1
  refines : Refines f₀ (storesOf (slice trace.atomicWriteOps 0 (nextIndex firstStart done)))
    (drainedMemory (storesOf (slice trace.atomicWriteOps 0 (nextIndex firstStart done)))) x.manager.cache
  candidates : ∀ t, done.length ≤ t → x.manager.crashCandidatesPerTx.get? t = perTx.get? t

/-- Candidates for every transaction of the trace. -/
def TraceCandidates (trace : WitcherTrace) (perTx : Dict Nat (List CrashCandidate)) : Prop :=
  ∀ t start stop, txRange trace t = .ok (start, stop) → ∃ candidates, perTx.get? t = some candidates ∧
    TxCandidates (storesOf (slice trace.atomicWriteOps start (stop + 1))) candidates

namespace SerialInv

variable {f₀ : BinaryFile} {trace : WitcherTrace} {firstStart : Nat} {perTx : Dict Nat (List CrashCandidate)}
  {done rest : List (Nat × Nat)} {range : Nat × Nat} {x : TxLoop}

/-- The gap before the next transaction, if there is one, is accepted and written back. -/
theorem acceptGap (h : SerialInv f₀ trace firstStart perTx done x)
    (hvalid : trace.Valid f₀.mapBase f₀.fileMap.length) (hfirst : done = [] → range.1 = firstStart)
    (hnext : nextIndex firstStart done ≤ range.1) :
    ∃ c, WitcherCrashManager.acceptGap trace x range = .ok { x.manager with cache := c } ∧
      Refines f₀ (storesOf (slice trace.atomicWriteOps 0 range.1))
        (drainedMemory (storesOf (slice trace.atomicWriteOps 0 range.1))) c := by
  have href := h.refines
  rcases List.eq_nil_or_concat done with rfl | ⟨done, last, rfl⟩
  · rw [show nextIndex firstStart [] = range.1 from (hfirst rfl).symm] at href
    refine ⟨x.manager.cache, ?_, href⟩
    simp [WitcherCrashManager.acceptGap, h.lastIndex]
  · rw [List.concat_eq_append, nextIndex_concat] at href hnext
    have hlast : x.lastIndex = some (last.2 + 1) := by
      rw [h.lastIndex, List.concat_eq_append]
      simp
    by_cases hgap : range.1 > last.2 + 1
    · have hstores := congrArg storesOf (take_eq_slice_append trace.atomicWriteOps hnext)
      rw [storesOf_append, ← slice_zero] at hstores
      obtain ⟨c, hrun, href'⟩ := href.acceptTraceTx_none (slice trace.atomicWriteOps (last.2 + 1) range.1)
        (fun op hop => hvalid.replayable op ((slice_sublist _ _ _).subset hop))
        (by rw [← hstores]; exact hvalid.store_ids_nodup (slice_sublist _ _ _))
      rw [← hstores] at href'
      refine ⟨c, ?_, href'⟩
      simp only [WitcherCrashManager.acceptGap, hlast, if_pos hgap, hrun]
    · have heq : last.2 + 1 = range.1 := by omega
      rw [heq] at href
      refine ⟨x.manager.cache, ?_, href⟩
      simp only [WitcherCrashManager.acceptGap, hlast, if_neg hgap]

/-- The stores up to the end of a transaction are those before it and those of its body. -/
theorem storesOf_until_stop {mapBase length : Nat} {t start stop : Nat} (hvalid : trace.Valid mapBase length)
    (hrange : txRange trace t = .ok (start, stop)) :
    storesOf (slice trace.atomicWriteOps 0 (stop + 1)) =
      storesOf (slice trace.atomicWriteOps 0 start) ++ storesOf (slice trace.atomicWriteOps (start + 1) stop) := by
  obtain ⟨init, segs, tail, _, hseg⟩ := hvalid.segmented
  obtain ⟨before, seg, after, _, _, htx⟩ := hseg.txAt (txRange_ok.mp hrange)
  have hle : start ≤ stop + 1 := by
    have := htx.stop_eq
    omega
  rw [slice_zero, take_eq_slice_append trace.atomicWriteOps hle, storesOf_append, htx.whole, htx.body]
  simp [storesOf, storesOf_append]

/-- The setting of a transaction as the serial manager slices it, without its `TXStart`. -/
theorem bodySetting {t start stop : Nat} {candidates : List CrashCandidate}
    (hvalid : trace.Valid f₀.mapBase f₀.fileMap.length) (hrange : txRange trace t = .ok (start, stop))
    (hcand : TxCandidates (storesOf (slice trace.atomicWriteOps start (stop + 1))) candidates) :
    TxSetting f₀ (storesOf (slice trace.atomicWriteOps 0 start)) (slice trace.atomicWriteOps (start + 1) stop)
      candidates where
  ids := hvalid.ids_lt (slice_sublist _ _ _)
  replayable := fun op hop => hvalid.replayable op ((slice_sublist _ _ _).subset hop)
  nodup := by
    rw [← storesOf_until_stop hvalid hrange]
    exact hvalid.store_ids_nodup (slice_sublist _ _ _)
  candidates := by
    obtain ⟨init, segs, tail, _, hseg⟩ := hvalid.segmented
    obtain ⟨before, seg, after, _, _, htx⟩ := hseg.txAt (txRange_ok.mp hrange)
    rw [htx.body]
    rw [htx.whole] at hcand
    simpa [storesOf, storesOf_append] using hcand

/-- One transaction with the gap before it. -/
theorem acceptTx (h : SerialInv f₀ trace firstStart perTx done x) (hvalid : trace.Valid f₀.mapBase f₀.fileMap.length)
    (hcands : TraceCandidates trace perTx) (hranges : trace.atomicWriteOpsTxRanges = done ++ range :: rest)
    (hfirst : done = [] → range.1 = firstStart) (hnext : nextIndex firstStart done ≤ range.1) :
    ∃ x', WitcherCrashManager.acceptTx trace x range = .ok x' ∧
      SerialInv f₀ trace firstStart perTx (done ++ [range]) x' := by
  obtain ⟨start, stop⟩ := range
  have hrange : txRange trace done.length = .ok (start, stop) := by
    rw [txRange_ok, hranges]
    simp
  obtain ⟨candidates, hget, hcand⟩ := hcands _ start stop hrange
  obtain ⟨c, hgap, href⟩ := h.acceptGap hvalid hfirst hnext
  have hset := bodySetting hvalid hrange hcand
  have hinit : TxRun f₀ _ _ (slice trace.atomicWriteOps (start + 1) stop) done.length candidates []
      { x.manager with cache := c } :=
    TxRun.init hset href (by rw [← hget]; exact h.candidates _ le_rfl)
  obtain ⟨s, hrun, hs, hothers⟩ := hinit.run hset (List.append_nil _).symm
  obtain ⟨c', hback, href'⟩ := hs.refines.writeBackAllStores
  rw [href'.drained fun a => Memory.pending_step_drain _ a, ← storesOf_until_stop hvalid hrange] at href'
  refine ⟨⟨{ s with cache := c' }, done.length + 1, some (stop + 1)⟩, ?_, ?_⟩
  · simp only [WitcherCrashManager.acceptTx, hgap, Loops.ok_bind, acceptTraceTx, h.txIndex, hrun,
      WitcherCrashManager.writeBackAllStores, hback]
  · refine ⟨by simp, by simp, ?_, ?_⟩
    · rw [nextIndex_concat]
      exact href'
    · intro t ht
      rw [List.length_append, List.length_singleton] at ht
      simp only
      rw [hothers t (by omega)]
      exact h.candidates t (by omega)

/-- The transactions before position `t`. -/
theorem acceptTxs (h : SerialInv f₀ trace firstStart perTx [] x) (hvalid : trace.Valid f₀.mapBase f₀.fileMap.length)
    (hcands : TraceCandidates trace perTx) {init tail : List Op} {segs : List TxSegment}
    (hseg : Segmented trace.atomicWriteOps trace.atomicWriteOpsTxRanges init segs tail)
    (hstart : firstStart = init.length) (t : Nat) :
    ∃ x', (trace.atomicWriteOpsTxRanges.take t).foldlM (WitcherCrashManager.acceptTx trace) x = .ok x' ∧
      SerialInv f₀ trace firstStart perTx (trace.atomicWriteOpsTxRanges.take t) x' := by
  refine Loops.foldlM_induction _ x h ?_
    (motive := fun (done : List (Nat × Nat)) (x' : TxLoop) => SerialInv f₀ trace firstStart perTx done x')
  intro done range todo x' hsplit hx'
  have hranges : trace.atomicWriteOpsTxRanges =
      done ++ range :: (todo ++ trace.atomicWriteOpsTxRanges.drop t) := by
    rw [← List.cons_append, ← List.append_assoc, ← hsplit, List.take_append_drop]
  have horder := hseg.ranges_eq.symm.trans hranges
  rw [← hstart] at horder
  obtain ⟨hfirst, hnext⟩ := segmentRanges_next horder
  exact hx'.acceptTx hvalid hcands hranges hfirst hnext

end SerialInv

/-- The serial manager just before it replays transaction `t`: the initial operations, the
transactions before `t` and the gap before `t`. -/
def WitcherCrashManager.runBeforeTx (trace : WitcherTrace) (t : Nat) (s : WitcherCrashManager) :
    Except ReplayError WitcherCrashManager := do
  let s ← acceptTraceInitOps trace s
  let x ← (trace.atomicWriteOpsTxRanges.take t).foldlM (acceptTx trace) ⟨s, 0, none⟩
  let range ← txRange trace t
  acceptGap trace x range

/-- The serial manager starts every transaction with nothing pending. -/
theorem Refines.runBeforeTx {f₀ : BinaryFile} {trace : WitcherTrace} {t start stop : Nat}
    {perTx : Dict Nat (List CrashCandidate)} (hvalid : trace.Valid f₀.mapBase f₀.fileMap.length)
    (hrange : txRange trace t = .ok (start, stop)) (hcands : TraceCandidates trace perTx) :
    ∃ s, WitcherCrashManager.runBeforeTx trace t ⟨WitcherCache.new f₀, perTx, []⟩ = .ok s ∧
      Refines f₀ (storesOf (slice trace.atomicWriteOps 0 start))
        (drainedMemory (storesOf (slice trace.atomicWriteOps 0 start))) s.cache ∧
      s.crashCandidatesPerTx.get? t = perTx.get? t := by
  obtain ⟨init, segs, tail, _, hseg⟩ := hvalid.segmented
  obtain ⟨⟨firstStart, firstStop⟩, hfirst⟩ := txRange_first hrange
  have hstart : firstStart = init.length := hseg.start_first (txRange_ok.mp hfirst)
  obtain ⟨c, hinit, href⟩ := (Refines.new f₀).acceptTraceTx_none (s := ⟨WitcherCache.new f₀, perTx, []⟩)
    (slice trace.atomicWriteOps 0 firstStart)
    (fun op hop => hvalid.replayable op ((slice_sublist _ _ _).subset hop))
    (hvalid.store_ids_nodup (slice_sublist _ _ _))
  rw [List.nil_append] at href
  have hinv : SerialInv f₀ trace firstStart perTx [] ⟨⟨c, perTx, []⟩, 0, none⟩ :=
    ⟨rfl, rfl, href, fun _ _ => rfl⟩
  obtain ⟨x, hrun, hx⟩ := hinv.acceptTxs hvalid hcands hseg hstart t
  -- the range of `t` comes right after those already traversed
  have hlt := (List.getElem?_eq_some_iff.mp (txRange_ok.mp hrange)).1
  have hranges : trace.atomicWriteOpsTxRanges =
      trace.atomicWriteOpsTxRanges.take t ++ (start, stop) :: trace.atomicWriteOpsTxRanges.drop (t + 1) := by
    have hget := (List.getElem?_eq_some_iff.mp (txRange_ok.mp hrange)).2
    rw [← hget, List.getElem_cons_drop, List.take_append_drop]
  have horder := hseg.ranges_eq.symm.trans hranges
  rw [← hstart] at horder
  obtain ⟨hfirstRange, hnext⟩ := segmentRanges_next horder
  obtain ⟨c', hgap, href'⟩ := hx.acceptGap hvalid hfirstRange hnext
  refine ⟨{ x.manager with cache := c' }, ?_, href', ?_⟩
  · simp only [WitcherCrashManager.runBeforeTx, acceptTraceInitOps, hfirst, hinit, Loops.ok_bind, hrun, hrange, hgap]
  · exact hx.candidates t (by rw [List.length_take]; omega)

end Witcher
