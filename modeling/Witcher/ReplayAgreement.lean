import Witcher.SerialReplay

/-! The serial manager and the parallel worker side by side. The serial manager writes back
everything at the end of the gap before a transaction, the worker does not. They start a transaction
in the same state exactly when the gap leaves nothing pending. -/

namespace Witcher

open Bytes Persistency WitcherCache WitcherCrashManager WitcherParallelCrashManager

/-! ### Gaps -/

def hasFence : List Op → Bool
  | [] => false
  | .fence _ :: _ => true
  | _ :: ops => hasFence ops

/-- A flush of the line and a fence after it. -/
def hasFlushFence (line : Nat) : List Op → Bool
  | [] => false
  | .flush f :: ops => (f.address = line && hasFence ops) || hasFlushFence line ops
  | _ :: ops => hasFlushFence line ops

/-- Every store is followed by a flush of its line and then a fence. -/
def gapPersisted : List Op → Bool
  | [] => true
  | .store st :: ops => hasFlushFence st.line ops && gapPersisted ops
  | _ :: ops => gapPersisted ops

/-- The operations between a transaction and the one before it. -/
def gapBefore (trace : WitcherTrace) : Nat → List Op
  | 0 => []
  | t + 1 =>
      match trace.atomicWriteOpsTxRanges[t]?, trace.atomicWriteOpsTxRanges[t + 1]? with
      | some last, some range => slice trace.atomicWriteOps (last.2 + 1) range.1
      | _, _ => []

theorem hasFence_iff (ops : List Op) : hasFence ops = true ↔ HasFence (eventsOf ops) := by
  induction ops with
  | nil => simp [hasFence, eventsOf, HasFence]
  | cons op ops ih =>
      cases op with
      | fence b => exact ⟨fun _ => trivial, fun _ => rfl⟩
      | _ => exact ih

theorem hasFlushFence_iff (line : Nat) (ops : List Op) :
    hasFlushFence line ops = true ↔ HasFlushFence line (eventsOf ops) := by
  induction ops with
  | nil => simp [hasFlushFence, eventsOf, HasFlushFence]
  | cons op ops ih =>
      cases op with
      | flush f =>
          change _ ↔ (f.address = line ∧ HasFence (eventsOf ops)) ∨ HasFlushFence line (eventsOf ops)
          rw [hasFlushFence, Bool.or_eq_true, Bool.and_eq_true, decide_eq_true_eq, hasFence_iff, ih]
      | _ => exact ih

theorem gapPersisted_iff (ops : List Op) :
    gapPersisted ops = true ↔ ∀ line, Covered line (eventsOf ops) := by
  induction ops with
  | nil => simp [gapPersisted, eventsOf, Covered]
  | cons op ops ih =>
      cases op with
      | store st =>
          change _ ↔ ∀ line, (st.line = line → HasFlushFence line (eventsOf ops)) ∧ Covered line (eventsOf ops)
          rw [gapPersisted, Bool.and_eq_true, hasFlushFence_iff, ih]
          constructor
          · rintro ⟨hst, hrest⟩ line
            exact ⟨fun hline => hline ▸ hst, hrest line⟩
          · exact fun h => ⟨(h st.line).1 rfl, fun line => (h line).2⟩
      | _ => exact ih

theorem eventsOf_no_drain (ops : List Op) : ∀ e ∈ eventsOf ops, e ≠ .drain := by
  intro e he
  obtain ⟨op, _, he⟩ := List.mem_flatMap.mp he
  cases op <;> simp [Op.events] at he <;> simp [he]

/-- Starting with nothing pending, a gap leaves nothing pending exactly when its stores are flushed
and fenced in it. -/
theorem pending_gap_eq_nil_iff {m : Memory Nat Store} (hm : ∀ a, (m a).pending = []) (gap : List Op) :
    (∀ a, (m.run (eventsOf gap) a).pending = []) ↔ gapPersisted gap = true := by
  rw [gapPersisted_iff]
  apply forall_congr'
  intro a
  obtain ⟨hflushing, hclear⟩ := List.append_eq_nil_iff.mp (hm a)
  rw [Memory.pending_run_eq_nil_iff m _ a (eventsOf_no_drain gap)]
  simp [hflushing, hclear]

/-! ### The worker's memory -/

theorem memoryBefore_append (firstTxStartId : Nat) (front back : List Op) :
    memoryBefore firstTxStartId (front ++ back) =
      (memoryBefore firstTxStartId front).run (commandEvents (back.flatMap (beforeCommands firstTxStartId))) := by
  rw [memoryBefore, List.flatMap_append, commandEvents_append, Memory.run_append, memoryBefore]

/-- After a `TXEnd`, or the operation before the first `TXStart`, nothing is pending. -/
theorem memoryBefore_drained (firstTxStartId : Nat) (ops : List Op) (op : Op)
    (hop : op.isTXEnd = true ∨ (op.id : Int) = (firstTxStartId : Int) - 1) (a : Nat) :
    (memoryBefore firstTxStartId (ops ++ [op]) a).pending = [] := by
  have hdrain : ∃ events, commandEvents (beforeCommands firstTxStartId op) = events ++ [.drain] := by
    simp only [commandEvents, beforeCommands, List.flatMap_cons, List.flatMap_append]
    rcases hop with hop | hop
    · split_ifs with hid
      · exact ⟨Command.events (.accept op) ++ [.drain], by simp [Command.events]⟩
      · exact ⟨Command.events (.accept op), by simp [Command.events]⟩
    · rw [if_pos hop]
      exact ⟨_, by rw [← List.append_assoc]; rfl⟩
  obtain ⟨events, hevents⟩ := hdrain
  rw [memoryBefore_append, List.flatMap_singleton, hevents, Memory.run_append]
  rfl

/-- After the first `TXStart`, operations other than `TXEnd` are only accepted. -/
theorem memoryBefore_accept (firstTxStartId : Nat) (ops more : List Op) (hend : ∀ op ∈ more, op.isTXEnd = false)
    (hids : ∀ op ∈ more, firstTxStartId ≤ op.id) :
    memoryBefore firstTxStartId (ops ++ more) = (memoryBefore firstTxStartId ops).run (eventsOf more) := by
  rw [memoryBefore_append]
  congr 1
  induction more with
  | nil => rfl
  | cons op more ih =>
      have hrest := ih (fun o ho => hend o (List.mem_cons_of_mem op ho))
        fun o ho => hids o (List.mem_cons_of_mem op ho)
      have hid : ¬(op.id : Int) = (firstTxStartId : Int) - 1 := by
        have := hids op List.mem_cons_self
        omega
      have hone : beforeCommands firstTxStartId op = [.accept op] := by
        simp [beforeCommands, hend op List.mem_cons_self, hid]
      rw [List.flatMap_cons, commandEvents_append, hrest, hone]
      simp [commandEvents, Command.events, eventsOf]

theorem Plain.isTXEnd {ops : List Op} (h : Plain ops) : ∀ op ∈ ops, op.isTXEnd = false := by
  intro op hop
  have hplain := h op hop
  cases op with
  | txEnd b => cases hplain
  | _ => rfl

/-- Transactions start no earlier than the first one. -/
theorem first_le_start {mapBase length : Nat} {trace : WitcherTrace} {t : Nat} {first range : Nat × Nat}
    (hvalid : trace.Valid mapBase length) (hfirst : txRange trace 0 = .ok first)
    (hrange : txRange trace t = .ok range) : first.1 ≤ range.1 := by
  obtain ⟨init, segs, tail, _, hseg⟩ := hvalid.segmented
  obtain ⟨before, seg, after, _, _, htx⟩ := hseg.txAt (txRange_ok.mp hrange)
  rw [hseg.start_first (txRange_ok.mp hfirst), htx.start_eq, List.length_append]
  exact Nat.le_add_right _ _

/-- The worker starts its transaction from a memory with nothing pending, replayed through the gap. -/
theorem worker_memory {mapBase length : Nat} {trace : WitcherTrace} {t start stop : Nat} {first : Nat × Nat}
    (hvalid : trace.Valid mapBase length) (hfirst : txRange trace 0 = .ok first)
    (hrange : txRange trace t = .ok (start, stop)) :
    ∃ m : Memory Nat Store, (∀ a, (m a).pending = []) ∧
      memoryBefore first.1 (slice trace.atomicWriteOps 0 start) = m.run (eventsOf (gapBefore trace t)) := by
  obtain ⟨init, segs, tail, _, hseg⟩ := hvalid.segmented
  cases t with
  | zero =>
      rw [hfirst] at hrange
      cases hrange
      refine ⟨memoryBefore start (slice trace.atomicWriteOps 0 start), ?_, rfl⟩
      intro a
      rcases List.eq_nil_or_concat (slice trace.atomicWriteOps 0 start) with hnil | ⟨ops, op, hops⟩
      · rw [hnil]
        rfl
      · rw [List.concat_eq_append] at hops
        rw [hops]
        apply memoryBefore_drained
        right
        obtain ⟨before, seg, after, _, _, htx⟩ := hseg.txAt (txRange_ok.mp hfirst)
        have hlen : start = ops.length + 1 := by
          rw [htx.start_eq, ← htx.until_start, hops]
          simp
        have hget : trace.atomicWriteOps[ops.length]? = some op := by
          have h1 : (slice trace.atomicWriteOps 0 start)[ops.length]? = some op := by
            rw [hops]
            simp
          rw [slice_zero, List.getElem?_take, if_pos (by omega)] at h1
          exact h1
        rw [hvalid.ids _ op hget, hlen]
        omega
  | succ t =>
      have hlt := (List.getElem?_eq_some_iff.mp (txRange_ok.mp hrange)).1
      obtain ⟨⟨lastStart, lastStop⟩, hlast⟩ : ∃ last, trace.atomicWriteOpsTxRanges[t]? = some last :=
        ⟨_, List.getElem?_eq_getElem (by omega)⟩
      obtain ⟨hle, seg, hmem, hgap⟩ := hseg.gapAt hlast (txRange_ok.mp hrange)
      obtain ⟨before, seg', after, _, _, htx⟩ := hseg.txAt hlast
      have hgapBefore : gapBefore trace (t + 1) = slice trace.atomicWriteOps (lastStop + 1) start := by
        simp only [gapBefore, hlast, txRange_ok.mp hrange]
      refine ⟨memoryBefore first.1 (slice trace.atomicWriteOps 0 (lastStop + 1)), ?_, ?_⟩
      · -- the slice ends with the `TXEnd` of the transaction before
        intro a
        have hend : slice trace.atomicWriteOps 0 (lastStop + 1) =
            slice trace.atomicWriteOps 0 lastStart ++ (.txStart seg'.start :: seg'.body) ++ [.txEnd seg'.stop] := by
          rw [slice_zero, take_eq_slice_append trace.atomicWriteOps (by have := htx.stop_eq; omega : lastStart ≤ lastStop + 1),
            htx.whole]
          simp
        rw [hend]
        exact memoryBefore_drained _ _ _ (.inl rfl) a
      · rw [hgapBefore, slice_zero, take_eq_slice_append trace.atomicWriteOps hle]
        refine memoryBefore_accept _ _ _ (by rw [hgap]; exact (hseg.segs_plain seg hmem).2.isTXEnd) ?_
        intro op hop
        have hid := hvalid.le_id_of_mem_slice hop
        have hfirstLe := first_le_start hvalid hfirst (txRange_ok.mpr hlast)
        have := htx.stop_eq
        simp only at hfirstLe
        omega

/-! ### Agreement -/

/-- The same file, the same pending stores on each line and the same flush state of these. -/
structure WitcherCache.Agree (c c' : WitcherCache) : Prop where
  file : c.heap.binaryFile.fileMap = c'.heap.binaryFile.fileMap
  pending : ∀ a, c.pending a = c'.pending a
  flushed : ∀ a, ∀ st ∈ c.pending a, c.heap.flushed st.id = c'.heap.flushed st.id

theorem Refines.agree {f₀ : BinaryFile} {hist : List Store} {m : Memory Nat Store} {c c' : WitcherCache}
    (h : Refines f₀ hist m c) (h' : Refines f₀ hist m c') : c.Agree c' where
  file := h.file_unique h'
  pending := fun a => by rw [h.pending_eq, h'.pending_eq]
  flushed := fun _ _ _ => congrFun (h.flushed_unique h') _

/-- Two managers that refine one memory and hold the same candidates test the same crash states. -/
theorem TxRun.run_same {f₀ : BinaryFile} {hist : List Store} {m : Memory Nat Store} {ops : List Op} {txIndex : Nat}
    {candidates : List CrashCandidate} (hset : TxSetting f₀ hist ops candidates) (rest : List Op)
    {done : List Op} {s s' : WitcherCrashManager} (hsplit : ops = done ++ rest)
    (h : TxRun f₀ hist m ops txIndex candidates done s) (h' : TxRun f₀ hist m ops txIndex candidates done s') :
    ∃ r r' states, rest.foldlM (acceptOp (some txIndex)) s = .ok r ∧
      rest.foldlM (acceptOp (some txIndex)) s' = .ok r' ∧
      r.tested = s.tested ++ states ∧ r'.tested = s'.tested ++ states := by
  induction rest generalizing done s s' with
  | nil => exact ⟨s, s', [], rfl, rfl, (List.append_nil _).symm, (List.append_nil _).symm⟩
  | cons op rest ih =>
      obtain ⟨s₁, hstep, hs₁, htested, _⟩ := h.step hset hsplit
      obtain ⟨s₁', hstep', hs₁', htested', _⟩ := h'.step hset hsplit
      have hsame : crashStatesAt f₀.mapBase s'.cache.heap (m.run (eventsOf done)) candidates txIndex op =
          crashStatesAt f₀.mapBase s.cache.heap (m.run (eventsOf done)) candidates txIndex op := by
        have hfenced : s'.cache.heap.isFenced = s.cache.heap.isFenced := by
          funext st
          rw [Heap.isFenced, Heap.isFenced, h.refines.flushed_unique h'.refines]
        cases op with
        | fence b => simp only [crashStatesAt, hfenced, h.refines.file_unique h'.refines]
        | _ => rfl
      obtain ⟨r, r', states, hr, hr', hrt, hrt'⟩ := ih (by rw [hsplit]; simp) hs₁ hs₁'
      refine ⟨r, r', crashStatesAt f₀.mapBase s.cache.heap (m.run (eventsOf done)) candidates txIndex op ++ states,
        by rw [Loops.foldlM_cons_ok hstep, hr], by rw [Loops.foldlM_cons_ok hstep', hr'], ?_, ?_⟩
      · rw [hrt, htested, List.append_assoc]
      · rw [hrt', htested', hsame, List.append_assoc]

/-- The worker and the serial manager reach transaction `t` in the same state, and test the same
crash states at its fences. -/
def WorkerAgrees (trace : WitcherTrace) (file : BinaryFile) (perTx : Dict Nat (List CrashCandidate)) (t : Nat) :
    Prop :=
  ∃ range candidates c s, txRange trace t = .ok range ∧ perTx.get? t = some candidates ∧
    runBeforeTarget trace t (WitcherCache.new file) = .ok c ∧
    runBeforeTx trace t ⟨WitcherCache.new file, perTx, []⟩ = .ok s ∧ c.Agree s.cache ∧
    ∃ worker serial states,
      (slice trace.atomicWriteOps range.1 range.2).foldlM (acceptOp (some t))
        ⟨c, Dict.empty.set t candidates, []⟩ = .ok worker ∧
      (slice trace.atomicWriteOps (range.1 + 1) range.2).foldlM (acceptOp (some t)) s = .ok serial ∧
      worker.tested = states ∧ serial.tested = s.tested ++ states

/-- The worker agrees with the serial manager exactly when every store in the gap before the
transaction is flushed and then fenced inside the gap. -/
theorem workerAgrees_iff (mapBase : Nat) (bytes : List UInt8) {entries : List TraceEntry} {trace : WitcherTrace}
    {perTx : Dict Nat (List CrashCandidate)} {t start stop : Nat}
    (hextract : extractOperations entries = .ok trace) (hmapped : ∀ e ∈ entries, e.Mapped mapBase bytes.length)
    (hrange : txRange trace t = .ok (start, stop)) (hcands : TraceCandidates trace perTx) :
    WorkerAgrees trace (BinaryFile.new mapBase bytes) perTx t ↔ gapPersisted (gapBefore trace t) = true := by
  have hvalid := WitcherTrace.Valid.of_entries hextract hmapped
  obtain ⟨first, c, hfirst, hworker, href⟩ := Refines.runBeforeTarget hvalid hrange
  obtain ⟨s, hserial, href', hqueue⟩ := Refines.runBeforeTx hvalid hrange hcands
  obtain ⟨m, hm, hmemory⟩ := worker_memory hvalid hfirst hrange
  rw [hmemory] at href
  rw [← pending_gap_eq_nil_iff hm]
  constructor
  · rintro ⟨range, candidates, c₁, s₁, _, _, hc₁, hs₁, hagree, _⟩ a
    rw [hworker] at hc₁
    rw [hserial] at hs₁
    cases hc₁
    cases hs₁
    rw [← href.pending_eq, hagree.pending a, href'.pending_eq, drainedMemory_pending]
  · intro hpend
    rw [href.drained hpend] at href
    obtain ⟨candidates, hget, hcand⟩ := hcands t start stop hrange
    have hset := SerialInv.bodySetting hvalid hrange hcand
    have hinit : TxRun (BinaryFile.new mapBase bytes) _ _ (slice trace.atomicWriteOps (start + 1) stop) t candidates []
        ⟨c, Dict.empty.set t candidates, []⟩ :=
      TxRun.init hset href (by rw [Dict.get?_set, if_pos rfl])
    have hinit' : TxRun (BinaryFile.new mapBase bytes) _ _ (slice trace.atomicWriteOps (start + 1) stop) t candidates []
        s :=
      TxRun.init hset href' (by rw [hqueue, hget])
    obtain ⟨worker, serial, states, hrun, hrun', htested, htested'⟩ :=
      hinit.run_same hset (slice trace.atomicWriteOps (start + 1) stop) rfl hinit'
    refine ⟨(start, stop), candidates, c, s, hrange, hget, hworker, hserial, href.agree href', worker, serial, states,
      ?_, hrun', by simpa using htested, htested'⟩
    -- the worker's slice also holds the `TXStart`, which changes nothing
    obtain ⟨init, segs, tail, _, hseg⟩ := hvalid.segmented
    obtain ⟨before, seg, after, _, _, htx⟩ := hseg.txAt (txRange_ok.mp hrange)
    rw [htx.body] at hrun
    rw [htx.until_stop, Loops.foldlM_cons_ok rfl]
    exact hrun

theorem reorderTrace_candidates : TraceCandidates reorderTrace (Dict.empty.set 0 reorderCandidates) := by
  intro t start stop hrange
  cases t with
  | zero =>
      cases hrange
      exact ⟨reorderCandidates, rfl, reorderCandidates_spec⟩
  | succ t => cases hrange

theorem workerAgrees_iff_reorder :
    WorkerAgrees reorderTrace (BinaryFile.new 0 (List.replicate 66 0)) (Dict.empty.set 0 reorderCandidates) 0 := by
  have hextract : extractOperations reorderEntries = .ok reorderTrace := rfl
  have hrange : txRange reorderTrace 0 = .ok (0, 6) := rfl
  exact (workerAgrees_iff 0 (List.replicate 66 0) hextract (by decide) hrange reorderTrace_candidates).mpr rfl

/-- Two empty transactions with an unflushed store between them. -/
def gapEntries : List TraceEntry :=
  [.txStart 0 "", .txEnd 0 "", .store 0 0 1 [7] "", .txStart 0 "", .fence 0 "", .txEnd 0 ""]

def gapOps : List Op :=
  [.txStart ⟨0, 0, ""⟩, .txEnd ⟨1, 0, ""⟩, .store ⟨⟨2, 0, ""⟩, 0, 1, [7]⟩, .txStart ⟨3, 0, ""⟩, .fence ⟨4, 0, ""⟩,
    .txEnd ⟨5, 0, ""⟩]

def gapTrace : WitcherTrace := ⟨gapOps, [(0, 1), (3, 5)], gapOps, [(0, 1), (3, 5)]⟩

def noCandidates : Dict Nat (List CrashCandidate) := (Dict.empty.set 0 []).set 1 []

theorem gapTrace_candidates : TraceCandidates gapTrace noCandidates := by
  intro t start stop hrange
  match t, hrange with
  | 0, _ => exact ⟨[], rfl, TxCandidates.nil _⟩
  | 1, _ => exact ⟨[], rfl, TxCandidates.nil _⟩
  | _ + 2, hrange => cases hrange

/-- The store of the gap is in the file for the serial manager and only in the cache for the worker. -/
theorem workerAgrees_fails_at_gap :
    extractOperations gapEntries = .ok gapTrace ∧ (∀ e ∈ gapEntries, e.Mapped 0 [0].length) ∧
      TraceCandidates gapTrace noCandidates ∧ txRange gapTrace 1 = .ok (3, 5) ∧
      ¬WorkerAgrees gapTrace (BinaryFile.new 0 [0]) noCandidates 1 := by
  refine ⟨rfl, by decide, gapTrace_candidates, rfl, ?_⟩
  rintro ⟨range, candidates, c, s, _, _, hworker, hserial, hagree, _⟩
  cases hworker
  cases hserial
  exact absurd hagree.file (by decide)

end Witcher
