import Witcher.OpenSpans
import Witcher.UnflushedStores

/-! The report of unlogged stores. A store of a PMDK transaction is to be covered by the ranges that the
outermost enclosing transaction has logged before it. The checker asks each range in turn whether it
overlaps the store, so a store that is logged in part only passes. -/

namespace Witcher.WitcherTCEngine

open PythonText TraceText

/-! ### Nesting, read off the operations -/

/-- By how much an operation changes the number of open PMDK transactions. -/
def txDelta (op : TraceOp) : Int :=
  match op.body with
  | .pmdkCall funcName note => if isTxBegin funcName note then 1 else if isTxEnd funcName note then -1 else 0
  | _ => 0

/-- By how much an operation changes the number of calls that have not returned. -/
def callDelta (op : TraceOp) : Int :=
  match op.body with
  | .pmdkCall _ note => if note = "start".toList then 1 else -1
  | _ => 0

def txDepth (ops : List TraceOp) : Int := OpenSpans.depth txDelta ops

def callDepth (ops : List TraceOp) : Int := OpenSpans.depth callDelta ops

def logOf (op : TraceOp) : Option RangedOp :=
  match op.body with
  | .pmdkTXAdd address size => some ⟨op, address, size⟩
  | .pmdkTXAlloc address size => some ⟨op, address, size⟩
  | _ => none

/-- The range was logged by the outermost transaction that is open after the operations. -/
def Recorded (ops : List TraceOp) (log : RangedOp) : Prop := OpenSpans.Outer txDelta logOf ops log

theorem txDepth_concat (ops : List TraceOp) (op : TraceOp) : txDepth (ops ++ [op]) = txDepth ops + txDelta op :=
  OpenSpans.depth_concat txDelta ops op

theorem callDepth_concat (ops : List TraceOp) (op : TraceOp) : callDepth (ops ++ [op]) = callDepth ops + callDelta op :=
  OpenSpans.depth_concat callDelta ops op

theorem recorded_concat {ops : List TraceOp} {op : TraceOp} {log : RangedOp} :
    Recorded (ops ++ [op]) log ↔ 0 < txDepth (ops ++ [op]) ∧ (Recorded ops log ∨ logOf op = some log) :=
  OpenSpans.outer_concat

/-! ### The checker follows the nesting -/

/-- The number of open transactions. -/
def Nesting.level (n : Nesting) : Int := if n.inPMDKTX then n.pmdkTxStack.length + 1 else 0

/-- Nothing is stacked outside of a transaction. -/
def Nesting.Sound (n : Nesting) : Prop := n.inPMDKTX = false → n.pmdkTxStack = []

theorem Nesting.acceptNote_ok {n n' : Nesting} {op : TraceOp} {funcName note : List Char}
    (hop : op.body = .pmdkCall funcName note) (h : n.acceptNote funcName note = .ok n') :
    n'.inPMDKTX = n.inPMDKTX ∧ n'.pmdkTxStack = n.pmdkTxStack ∧
      (n'.pmdkCallStack.length : Int) = n.pmdkCallStack.length + callDelta op := by
  unfold callDelta
  rw [hop]
  unfold acceptNote at h
  split_ifs at h with hstart
  · cases h
    refine ⟨rfl, rfl, ?_⟩
    simp only [hstart, if_true, List.length_cons, Nat.cast_add, Nat.cast_one]
  · obtain ⟨_, -, h⟩ := Loops.bind_ok h
    cases hstack : n.pmdkCallStack with
    | nil =>
        rw [hstack] at h
        cases h
    | cons popped rest =>
        rw [hstack] at h
        obtain ⟨_, -, h⟩ := Loops.bind_ok h
        cases h
        refine ⟨rfl, rfl, ?_⟩
        simp only [hstart, if_false, List.length_cons, Nat.cast_add, Nat.cast_one]
        omega

theorem Nesting.acceptTxBegin_level {n : Nesting} (hn : n.Sound) (op : TraceOp) :
    (n.acceptTxBegin op).Sound ∧ (n.acceptTxBegin op).level = n.level + 1 ∧
      (n.acceptTxBegin op).pmdkCallStack = n.pmdkCallStack := by
  unfold acceptTxBegin
  cases hin : n.inPMDKTX with
  | false =>
      rw [if_pos rfl]
      refine ⟨fun h => (by cases h), ?_, rfl⟩
      simp [level, hin, hn hin]
  | true =>
      rw [if_neg (by decide)]
      refine ⟨fun h => (by cases h), ?_, rfl⟩
      simp only [level, hin, if_true, List.length_cons, Nat.cast_add, Nat.cast_one]

theorem Nesting.acceptTxEnd_level {n n' : Nesting} (h : n.acceptTxEnd = .ok n') :
    n'.Sound ∧ n'.level = n.level - 1 ∧ n'.pmdkCallStack = n.pmdkCallStack := by
  obtain ⟨_, hassert, h⟩ := Loops.bind_ok h
  have hin : n.inPMDKTX = true := assert_ok hassert
  cases hstack : n.pmdkTxStack with
  | nil =>
      rw [hstack] at h
      cases h
      refine ⟨fun _ => rfl, ?_, rfl⟩
      simp [level, hin, hstack]
  | cons op rest =>
      rw [hstack] at h
      cases h
      refine ⟨fun h => absurd (hin.symm.trans h) (by decide), ?_, rfl⟩
      simp only [level, hin, hstack, if_true, List.length_cons, Nat.cast_add, Nat.cast_one]
      omega

theorem isTxBegin_not_isTxEnd {funcName note : List Char} (h : isTxBegin funcName note = true) :
    isTxEnd funcName note = false := by
  simp only [isTxBegin, Bool.and_eq_true, decide_eq_true_eq] at h
  have hname : "pmemobj_tx_begin".toList ≠ "pmemobj_tx_end".toList := by decide +kernel
  rw [isTxEnd, h.1, decide_eq_false hname, Bool.false_and]

theorem Nesting.acceptCall_ok {n n' : Nesting} {op : TraceOp} {funcName note : List Char}
    (hop : op.body = .pmdkCall funcName note) (hn : n.Sound) (h : n.acceptCall op funcName note = .ok n') :
    n'.Sound ∧ n'.level = n.level + txDelta op ∧ (n'.pmdkCallStack.length : Int) = n.pmdkCallStack.length + callDelta op := by
  have hdelta : txDelta op = if isTxBegin funcName note then 1 else if isTxEnd funcName note then -1 else 0 := by
    rw [txDelta, hop]
  obtain ⟨n₁, hnote, h⟩ := Loops.bind_ok h
  obtain ⟨hin, hstack, hcalls⟩ := acceptNote_ok hop hnote
  have hn₁ : n₁.Sound := by
    intro hfalse
    rw [hstack]
    exact hn (hin ▸ hfalse)
  have hlevel : n₁.level = n.level := by rw [level, level, hin, hstack]
  rw [hdelta, ← hlevel, ← hcalls]
  cases hbegin : isTxBegin funcName note with
  | true =>
      rw [hbegin, isTxBegin_not_isTxEnd hbegin] at h
      cases h
      obtain ⟨hsound, hlevel', hstack'⟩ := acceptTxBegin_level hn₁ op
      exact ⟨hsound, by simpa using hlevel', by simpa using congrArg List.length hstack'⟩
  | false =>
      rw [hbegin] at h
      cases hend : isTxEnd funcName note with
      | true =>
          rw [hend] at h
          have hn' : n₁.acceptTxEnd = .ok n' := h
          obtain ⟨hsound, hlevel', hstack'⟩ := acceptTxEnd_level hn'
          refine ⟨hsound, ?_, by rw [hstack']⟩
          rw [hlevel']
          rfl
      | false =>
          rw [hend] at h
          cases h
          exact ⟨hn₁, by simp, rfl⟩

/-- The checker's state after the operations. -/
structure Follows (ops : List TraceOp) (s : TCState) : Prop where
  sound : s.nesting.Sound
  level : s.nesting.level = txDepth ops
  calls : (s.nesting.pmdkCallStack.length : Int) = callDepth ops
  logs : ∀ log, log ∈ s.pmdkLogs ↔ Recorded ops log

theorem Nesting.level_pos_iff {n : Nesting} : 0 < n.level ↔ n.inPMDKTX = true := by
  unfold level
  cases n.inPMDKTX with
  | true =>
      simp only [if_true, iff_true]
      omega
  | false => simp

theorem Nesting.level_nonneg (n : Nesting) : 0 ≤ n.level := by
  unfold level
  split_ifs <;> omega

theorem follows_init : Follows [] TCState.init where
  sound _ := rfl
  level := rfl
  calls := rfl
  logs log := iff_of_false List.not_mem_nil (OpenSpans.not_outer rfl log)

/-- An operation that neither is a call nor logs a range leaves the nesting and the logs alone. -/
theorem Follows.same {ops : List TraceOp} {s s' : TCState} (h : Follows ops s) {op : TraceOp} (htx : txDelta op = 0)
    (hcall : callDelta op = 0) (hlog : logOf op = none) (hnesting : s'.nesting = s.nesting) (hlogs : s'.pmdkLogs = s.pmdkLogs) :
    Follows (ops ++ [op]) s' where
  sound := hnesting ▸ h.sound
  level := by rw [hnesting, h.level, txDepth_concat, htx, Int.add_zero]
  calls := by rw [hnesting, h.calls, callDepth_concat, hcall, Int.add_zero]
  logs log := by
    rw [hlogs, h.logs log, recorded_concat, hlog, txDepth_concat, htx, Int.add_zero]
    simp only [reduceCtorEq, or_false]
    exact ⟨fun hrec => ⟨OpenSpans.Outer.depth_pos hrec, hrec⟩, fun hrec => hrec.2⟩

theorem Follows.acceptLog {ops : List TraceOp} {s s' : TCState} (h : Follows ops s) {op : TraceOp} {log : RangedOp}
    (hop : logOf op = some log) (htx : txDelta op = 0) (hcall : callDelta op = 0) (hstep : acceptLog s log = .ok s') :
    Follows (ops ++ [op]) s' := by
  obtain ⟨hin, -, hnesting, hlogs, -, -⟩ := acceptLog_ok hstep
  have hpos : 0 < txDepth ops := h.level ▸ Nesting.level_pos_iff.mpr hin
  constructor
  · exact hnesting ▸ h.sound
  · rw [hnesting, h.level, txDepth_concat, htx, Int.add_zero]
  · rw [hnesting, h.calls, callDepth_concat, hcall, Int.add_zero]
  · intro log'
    rw [hlogs, List.mem_append, List.mem_singleton, h.logs log', recorded_concat, hop, txDepth_concat, htx, Int.add_zero,
      Option.some_inj, eq_comm]
    exact ⟨fun hrec => ⟨hpos, hrec⟩, fun hrec => hrec.2⟩

theorem Follows.acceptCall {ops : List TraceOp} {s s' : TCState} (h : Follows ops s) {op : TraceOp} {funcName note : List Char}
    (hop : op.body = .pmdkCall funcName note) (hstep : acceptCall s op funcName note = .ok s') : Follows (ops ++ [op]) s' := by
  obtain ⟨nesting, hnesting, hstep⟩ := Loops.bind_ok hstep
  cases hstep
  obtain ⟨hsound, hlevel, hcalls⟩ := Nesting.acceptCall_ok hop h.sound hnesting
  have hdepth : nesting.level = txDepth (ops ++ [op]) := by rw [hlevel, h.level, txDepth_concat]
  have hnolog : logOf op = none := by rw [logOf, hop]
  refine ⟨hsound, hdepth, by rw [callDepth_concat, ← h.calls]; exact hcalls, ?_⟩
  intro log
  rw [recorded_concat, hnolog]
  simp only [reduceCtorEq, or_false]
  by_cases hpos : 0 < txDepth (ops ++ [op])
  · -- still inside: nothing is cleared
    have hin : nesting.inPMDKTX = true := Nesting.level_pos_iff.mp (hdepth ▸ hpos)
    simp only [hin, Bool.not_true, Bool.and_false, Bool.false_eq_true, if_false, hpos, true_and]
    exact h.logs log
  · have hout : nesting.inPMDKTX = false := by
      cases hin : nesting.inPMDKTX with
      | false => rfl
      | true => exact absurd (hdepth ▸ Nesting.level_pos_iff.mpr hin) hpos
    simp only [hpos, false_and, iff_false, hout, Bool.not_false, Bool.and_true]
    -- outside: either the outermost end has just cleared the logs or there were none
    split_ifs with hend
    · simp
    · rw [h.logs log]
      refine OpenSpans.not_outer (show txDepth ops = 0 from ?_) log
      have hnonneg := Nesting.level_nonneg s.nesting
      have hnonneg' := Nesting.level_nonneg nesting
      have hdelta : 0 ≤ txDelta op := by
        rw [txDelta, hop]
        dsimp only
        split_ifs <;> omega
      rw [h.level] at hnonneg
      rw [txDepth_concat] at hpos
      omega

theorem Follows.concat {ops : List TraceOp} {s s' : TCState} (h : Follows ops s) {op : TraceOp} (hstep : step s op = .ok s') :
    Follows (ops ++ [op]) s' := by
  unfold WitcherTCEngine.step at hstep
  cases hbody : op.body with
  | pmdkCall funcName note =>
      rw [hbody] at hstep
      exact h.acceptCall hbody hstep
  | pmdkTXAdd address size =>
      rw [hbody] at hstep
      exact h.acceptLog (by rw [logOf, hbody]) (by rw [txDelta, hbody]) (by rw [callDelta, hbody]) hstep
  | pmdkTXAlloc address size =>
      rw [hbody] at hstep
      exact h.acceptLog (by rw [logOf, hbody]) (by rw [txDelta, hbody]) (by rw [callDelta, hbody]) hstep
  | _ =>
      rw [hbody] at hstep
      cases hstep
      exact h.same (by rw [txDelta, hbody]) (by rw [callDelta, hbody]) (by rw [logOf, hbody]) rfl rfl

theorem Follows.run {done ops : List TraceOp} {s s' : TCState} (h : Follows done s) (hrun : ops.foldlM step s = .ok s') :
    Follows (done ++ ops) s' := by
  induction ops generalizing done s with
  | nil =>
      cases hrun
      rw [List.append_nil]
      exact h
  | cons op ops ih =>
      rw [List.foldlM_cons] at hrun
      obtain ⟨s₁, hstep, hrun⟩ := Loops.bind_ok hrun
      rw [List.append_cons]
      exact ih (h.concat hstep) hrun

/-! ### When a store is reported -/

/-- The store is checked and no range of the current logs overlaps it. -/
def Unlogged (s : TCState) (op : TraceOp) : Prop :=
  ∃ st, op.body = .store st ∧ s.nesting.checksLogs = true ∧ ∀ log ∈ s.pmdkLogs,
    RangedOp.rangeCmp ⟨op, st.address, st.size⟩ log ≠ 0

theorem acceptStore_unlogged {s : TCState} {op : TraceOp} {st : StoreBody} (hop : op.body = .store st) (x : TraceOp) :
    x ∈ (acceptStore s ⟨op, st.address, st.size⟩).res.unloggedStores ↔
      x ∈ s.res.unloggedStores ∨ (x = op ∧ Unlogged s op) := by
  have hlogged : (s.pmdkLogs.any fun log => decide (RangedOp.rangeCmp ⟨op, st.address, st.size⟩ log = 0)) = false ↔
      ∀ log ∈ s.pmdkLogs, RangedOp.rangeCmp ⟨op, st.address, st.size⟩ log ≠ 0 := by
    simp
  have hunlogged : Unlogged s op ↔ s.nesting.checksLogs = true ∧
      (s.pmdkLogs.any fun log => decide (RangedOp.rangeCmp ⟨op, st.address, st.size⟩ log = 0)) = false := by
    rw [hlogged]
    constructor
    · rintro ⟨st', hst', h⟩
      rw [hop] at hst'
      cases hst'
      exact h
    · exact fun h => ⟨st, hop, h⟩
  rw [hunlogged]
  simp only [acceptStore]
  cases s.nesting.checksLogs with
  | false => simp
  | true =>
      cases s.pmdkLogs.any fun log => decide (RangedOp.rangeCmp ⟨op, st.address, st.size⟩ log = 0) with
      | true => simp
      | false =>
          simp only [Bool.not_false, Bool.and_true, if_true, List.mem_insert_iff, and_true]
          exact or_comm

theorem step_unlogged {s s' : TCState} {op : TraceOp} (h : step s op = .ok s') (x : TraceOp) :
    x ∈ s'.res.unloggedStores ↔ x ∈ s.res.unloggedStores ∨ (x = op ∧ Unlogged s op) := by
  have hother : (∀ st, op.body ≠ .store st) → ¬(x = op ∧ Unlogged s op) := by
    rintro hno ⟨-, st, hst, -⟩
    exact hno st hst
  unfold step at h
  cases hbody : op.body with
  | store st =>
      rw [hbody] at h
      cases h
      exact acceptStore_unlogged hbody x
  | pmdkTXAdd address size =>
      rw [hbody] at h
      rw [(acceptLog_ok h).2.2.2.2.2, or_iff_left (hother (by simp [hbody]))]
  | pmdkTXAlloc address size =>
      rw [hbody] at h
      rw [(acceptLog_ok h).2.2.2.2.2, or_iff_left (hother (by simp [hbody]))]
  | pmdkCall funcName note =>
      rw [hbody] at h
      obtain ⟨nesting, -, h⟩ := Loops.bind_ok h
      cases h
      rw [or_iff_left (hother (by simp [hbody]))]
  | flush unaligned address =>
      rw [hbody] at h
      cases h
      rw [or_iff_left (hother (by simp [hbody]))]
      simp only [acceptFlush]
      split_ifs <;> rfl
  | fence =>
      rw [hbody] at h
      cases h
      rw [or_iff_left (hother (by simp [hbody]))]
      simp only [acceptFence]
      split_ifs <;> rfl
  | _ =>
      rw [hbody] at h
      cases h
      rw [or_iff_left (hother (by simp [hbody]))]
      rfl

theorem unlogged_other {ops : List TraceOp} {s s' : TCState} (hrun : ops.foldlM step s = .ok s') {x : TraceOp} (hx : x ∉ ops) :
    x ∈ s'.res.unloggedStores ↔ x ∈ s.res.unloggedStores := by
  induction ops generalizing s with
  | nil =>
      cases hrun
      rfl
  | cons op ops ih =>
      rw [List.foldlM_cons] at hrun
      obtain ⟨s₁, hstep, hrun⟩ := Loops.bind_ok hrun
      rw [ih hrun fun hmem => hx (List.mem_cons_of_mem op hmem), step_unlogged hstep, or_iff_left]
      rintro ⟨rfl, -⟩
      exact hx List.mem_cons_self

/-- A store is reported or not when it is met. -/
theorem unlogged_iff {pre rest : List TraceOp} {x : TraceOp} {s : TCState}
    (hrun : (pre ++ x :: rest).foldlM step TCState.init = .ok s) (hnodup : (pre ++ x :: rest).Nodup) :
    ∃ s₁, Follows pre s₁ ∧ (x ∈ s.res.unloggedStores ↔ Unlogged s₁ x) := by
  obtain ⟨-, hnodup', hdisjoint⟩ := List.nodup_append.mp hnodup
  have hpre : x ∉ pre := fun h => hdisjoint x h x List.mem_cons_self rfl
  have hrest : x ∉ rest := (List.nodup_cons.mp hnodup').1
  rw [List.foldlM_append] at hrun
  obtain ⟨s₁, hrun₁, hrun⟩ := Loops.bind_ok hrun
  rw [List.foldlM_cons] at hrun
  obtain ⟨s₂, hstep, hrun⟩ := Loops.bind_ok hrun
  refine ⟨s₁, follows_init.run hrun₁, ?_⟩
  have hnone : x ∉ s₁.res.unloggedStores := by
    rw [unlogged_other hrun₁ hpre]
    simp [TCState.init, CTRes.init]
  rw [unlogged_other hrun hrest, step_unlogged hstep, or_iff_right hnone]
  exact ⟨fun h => h.2, fun h => ⟨rfl, h⟩⟩

/-! ### Coverage -/

/-- Every byte of the store lies in a range that the enclosing outermost transaction has logged. -/
def Covered (ops : List TraceOp) (st : StoreBody) : Prop :=
  ∀ b : Int, st.address ≤ b → b < st.address + st.size → ∃ log, Recorded ops log ∧ log.address ≤ b ∧ b < log.address + log.size

/-- One of these ranges overlaps the store. -/
def Overlapped (ops : List TraceOp) (st : StoreBody) : Prop :=
  ∃ log, Recorded ops log ∧ log.address < st.address + st.size ∧ st.address < log.address + log.size

/-- The store at position `k` of the operations that are looked at, inside of a PMDK transaction and outside
of any PMDK call. -/
structure InTransaction (t : Trace) (k : Nat) (x : TraceOp) (st : StoreBody) : Prop where
  position : (txOps t).flatten[k]? = some x
  store : x.body = .store st
  inside : 0 < txDepth ((txOps t).flatten.take k)
  outside : callDepth ((txOps t).flatten.take k) = 0

/-- The stores of PMDK transactions that are not reported are the ones that are fully logged. -/
def LoggedExactly (t : Trace) (res : CTRes) : Prop :=
  ∀ k x st, InTransaction t k x st → (x ∉ res.unloggedStores ↔ Covered ((txOps t).flatten.take k) st)

theorem Covered.overlapped {ops : List TraceOp} {st : StoreBody} (h : Covered ops st) (hsize : 0 < st.size) :
    Overlapped ops st := by
  obtain ⟨log, hlog, hlow, hhigh⟩ := h st.address (le_refl _) (by omega)
  exact ⟨log, hlog, by omega, hhigh⟩

/-- What is reported: the checked stores that no logged range overlaps. -/
theorem reported_iff_not_overlapped {t : Trace} {s : TCState} (hindexed : Indexed t) (hpass : firstPass t = .ok s) {k : Nat}
    {x : TraceOp} {st : StoreBody} (h : InTransaction t k x st) :
    x ∉ s.res.unloggedStores ↔ Overlapped ((txOps t).flatten.take k) st := by
  obtain ⟨s₀, hrun, hpass⟩ := Loops.bind_ok hpass
  cases hpass
  rw [Loops.foldlM_flatten] at hrun
  have hnodup := txOps_nodup hindexed
  obtain ⟨hk, hget⟩ := List.getElem?_eq_some_iff.mp h.position
  have hsplit : (txOps t).flatten = (txOps t).flatten.take k ++ x :: (txOps t).flatten.drop (k + 1) := by
    conv_lhs => rw [← List.take_append_drop k (txOps t).flatten, List.drop_eq_getElem_cons hk, hget]
  rw [hsplit] at hrun hnodup
  obtain ⟨s₁, hfollows, hreported⟩ := unlogged_iff hrun hnodup
  have hin : s₁.nesting.inPMDKTX = true := Nesting.level_pos_iff.mp (hfollows.level ▸ h.inside)
  have hcalls : s₁.nesting.pmdkCallStack.length = 0 := by
    have hlength := hfollows.calls
    rw [h.outside] at hlength
    omega
  have hchecks : s₁.nesting.checksLogs = true := by
    rw [Nesting.checksLogs, hin, hcalls]
    rfl
  change x ∉ s₀.res.unloggedStores ↔ _
  rw [hreported]
  constructor
  · intro hnot
    by_contra hno
    refine hnot ⟨st, h.store, hchecks, fun log hlog hcmp => hno ⟨log, (hfollows.logs log).mp hlog, ?_⟩⟩
    exact rangeCmp_eq_zero_iff.mp hcmp
  · rintro ⟨log, hlog, hoverlap⟩ ⟨st', hst', -, hnone⟩
    rw [h.store] at hst'
    cases hst'
    exact hnone log ((hfollows.logs log).mpr hlog) (rangeCmp_eq_zero_iff.mpr hoverlap)

/-- The second pass only reports stores outside of transactions. -/
theorem secondStep_reports {u u' : Nesting × CTRes} {op : TraceOp} (h : secondStep u op = .ok u') :
    u'.2.unflushedStores = u.2.unflushedStores ∧ u'.2.unloggedStores = u.2.unloggedStores := by
  unfold secondStep at h
  split at h
  · obtain ⟨_, -, h⟩ := Loops.bind_ok h
    cases h
    exact ⟨rfl, rfl⟩
  · split_ifs at h
    · cases h
      exact ⟨rfl, rfl⟩
    · cases h
      exact ⟨rfl, rfl⟩
  · cases h
    exact ⟨rfl, rfl⟩

/-- The report of `run` is the one of the first pass, as far as these stores go. -/
theorem run_reports {t : Trace} {res : CTRes} (h : run t = .ok res) :
    ∃ s, firstPass t = .ok s ∧ res.unflushedStores = s.res.unflushedStores ∧ res.unloggedStores = s.res.unloggedStores := by
  obtain ⟨s, hpass, h⟩ := Loops.bind_ok h
  refine ⟨s, hpass, ?_⟩
  cases huse : s.usePMDKTX with
  | false =>
      rw [huse] at h
      cases h
      exact ⟨rfl, rfl⟩
  | true =>
      rw [huse] at h
      obtain ⟨_, -, h⟩ := Loops.bind_ok h
      obtain ⟨_, -, h⟩ := Loops.bind_ok h
      obtain ⟨_, -, h⟩ := Loops.bind_ok h
      obtain ⟨⟨n, res'⟩, hloop, h⟩ := Loops.bind_ok h
      cases h
      rw [Loops.foldlM_flatten] at hloop
      refine Loops.foldlM_invariant (P := fun u : Nesting × CTRes =>
        u.2.unflushedStores = s.res.unflushedStores ∧ u.2.unloggedStores = s.res.unloggedStores) ?_ ⟨rfl, rfl⟩ hloop
      intro u op _ u' hu hstep
      obtain ⟨hunflushed, hunlogged⟩ := secondStep_reports hstep
      exact ⟨hunflushed.trans hu.1, hunlogged.trans hu.2⟩

/-- The report is right exactly on the traces without partly logged stores: whenever a logged range overlaps a
store of its transaction, the logged ranges cover the store (and a store of no bytes is overlapped). -/
theorem loggedExactly_iff (table : CharTable) (text : List Char) (t : Trace) (res : CTRes)
    (htrace : witcherTrace table text = .ok t) (hrun : run t = .ok res) :
    LoggedExactly t res ↔ ∀ k x st, InTransaction t k x st →
      (Overlapped ((txOps t).flatten.take k) st → Covered ((txOps t).flatten.take k) st) ∧
        (st.size ≤ 0 → Overlapped ((txOps t).flatten.take k) st) := by
  have hindexed := witcherTrace_indexed table text t htrace
  obtain ⟨s, hpass, -, hunlogged⟩ := run_reports hrun
  rw [LoggedExactly, hunlogged]
  constructor
  · intro h k x st hx
    have hreport := reported_iff_not_overlapped hindexed hpass hx
    have hexact := h k x st hx
    refine ⟨fun hover => hexact.mp (hreport.mpr hover), fun hempty => hreport.mp (hexact.mpr ?_)⟩
    intro b hlow hhigh
    omega
  · intro h k x st hx
    obtain ⟨hfull, hempty⟩ := h k x st hx
    rw [reported_iff_not_overlapped hindexed hpass hx]
    refine ⟨hfull, fun hcovered => ?_⟩
    by_cases hsize : 0 < st.size
    · exact hcovered.overlapped hsize
    · exact hempty (by omega)

/-- A PMDK transaction that logs `size` bytes at `0x1000` and stores eight bytes there. -/
def loggedTrace (size : String) : List Char :=
  ["TXStart,7,a.c:1".toList, "pmemobj_tx_begin,7,a.c:2,start".toList, "pmemobj_tx_begin,7,a.c:2,end".toList,
    "TXAdd,7,1000,".toList ++ size.toList ++ ",a.c:3".toList, "Store,7,1000,8,00 01 02 03 04 05 06 07,a.c:4".toList,
    "pmemobj_tx_end,7,a.c:5,start".toList, "pmemobj_tx_end,7,a.c:5,end".toList, "TXEnd,7,a.c:6".toList].flatMap (· ++ ['\n'])

def loggedStore : TraceOp :=
  ⟨4, 7, "a.c:4".toList, .store ⟨0x1000, 8, ["00".toList, "01".toList, "02".toList, "03".toList, "04".toList, "05".toList,
    "06".toList, "07".toList], [0, 1, 2, 3, 4, 5, 6, 7]⟩⟩

def loggedOps (size : Int) : Trace :=
  let ops : List TraceOp :=
    [⟨0, 7, "a.c:1".toList, .txStart⟩,
      ⟨1, 7, "a.c:2".toList, .pmdkCall "pmemobj_tx_begin".toList "start".toList⟩,
      ⟨2, 7, "a.c:2".toList, .pmdkCall "pmemobj_tx_begin".toList "end".toList⟩,
      ⟨3, 7, "a.c:3".toList, .pmdkTXAdd 0x1000 size⟩,
      loggedStore,
      ⟨5, 7, "a.c:5".toList, .pmdkCall "pmemobj_tx_end".toList "start".toList⟩,
      ⟨6, 7, "a.c:5".toList, .pmdkCall "pmemobj_tx_end".toList "end".toList⟩,
      ⟨7, 7, "a.c:6".toList, .txEnd⟩]
  ⟨ops, [(0, 7)], ops, [(0, 7)]⟩

theorem txOps_loggedOps (size : Int) : (txOps (loggedOps size)).flatten = (loggedOps size).atomicWriteOps.take 7 := rfl

/-- The only range that is ever logged in the trace. -/
theorem recorded_loggedOps {size : Int} {k : Nat} {log : RangedOp}
    (h : Recorded ((txOps (loggedOps size)).flatten.take k) log) :
    log.address = 0x1000 ∧ log.size = size := by
  obtain ⟨front, op, hat, hlog, -⟩ := h
  rw [txOps_loggedOps] at hat
  have hmem : op ∈ (loggedOps size).atomicWriteOps := List.mem_of_mem_take (List.mem_of_mem_take hat.mem)
  simp only [loggedOps, List.mem_cons, List.not_mem_nil, or_false] at hmem
  rcases hmem with rfl | rfl | rfl | rfl | rfl | rfl | rfl | rfl
  all_goals cases hlog
  exact ⟨rfl, rfl⟩

/-- The only store of the trace is the fifth operation. -/
theorem store_loggedOps {size : Int} {k : Nat} {x : TraceOp} {st : StoreBody} (h : InTransaction (loggedOps size) k x st) :
    k = 4 ∧ st.address = 0x1000 ∧ st.size = 8 := by
  have hk := h.position
  have hst := h.store
  rw [txOps_loggedOps] at hk
  have hlt : k < 7 := (List.getElem?_eq_some_iff.mp hk).choose
  interval_cases k
  all_goals
    cases hk
    cases hst
  exact ⟨rfl, rfl, rfl⟩

def loggedRange : RangedOp := ⟨⟨3, 7, "a.c:3".toList, .pmdkTXAdd 0x1000 8⟩, 0x1000, 8⟩

theorem loggedExactly_iff_full :
    ∃ res, witcherTrace ⟨id, fun _ _ => rfl⟩ (loggedTrace "8") = .ok (loggedOps 8) ∧ run (loggedOps 8) = .ok res ∧
      LoggedExactly (loggedOps 8) res := by
  have hread : witcherTrace ⟨id, fun _ _ => rfl⟩ (loggedTrace "8") = .ok (loggedOps 8) := by decide +kernel
  obtain ⟨res, hres⟩ : ∃ res, run (loggedOps 8) = .ok res := ⟨_, rfl⟩
  refine ⟨res, hread, hres, (loggedExactly_iff ⟨id, fun _ _ => rfl⟩ (loggedTrace "8") (loggedOps 8) res hread hres).mpr ?_⟩
  intro k x st hx
  obtain ⟨rfl, haddress, hsize⟩ := store_loggedOps hx
  refine ⟨fun _ b hlow hhigh => ?_, fun hempty => by omega⟩
  have hrecorded : Recorded ((txOps (loggedOps 8)).flatten.take 3 ++ [loggedRange.op]) loggedRange :=
    recorded_concat.mpr ⟨by decide +kernel, .inr rfl⟩
  refine ⟨loggedRange, hrecorded, ?_, ?_⟩
  · change 0x1000 ≤ b
    omega
  · change b < 0x1000 + 8
    omega

/-- Four bytes are logged and eight are stored, and nothing is reported. -/
theorem not_loggedExactly_partial :
    ∃ res, witcherTrace ⟨id, fun _ _ => rfl⟩ (loggedTrace "4") = .ok (loggedOps 4) ∧ run (loggedOps 4) = .ok res ∧
      res.unloggedStores = [] ∧ ¬LoggedExactly (loggedOps 4) res := by
  have hread : witcherTrace ⟨id, fun _ _ => rfl⟩ (loggedTrace "4") = .ok (loggedOps 4) := by decide +kernel
  obtain ⟨res, hres⟩ : ∃ res, run (loggedOps 4) = .ok res := ⟨_, rfl⟩
  have hnone : res.unloggedStores = [] := by
    cases hres
    decide +kernel
  refine ⟨res, hread, hres, hnone, ?_⟩
  intro h
  have hx : InTransaction (loggedOps 4) 4 loggedStore _ := ⟨rfl, rfl, by decide +kernel, by decide +kernel⟩
  have hcovered := (h 4 loggedStore _ hx).mp (by rw [hnone]; simp)
  obtain ⟨log, hlog, -, hhigh⟩ := hcovered 0x1004 (by decide) (by decide)
  obtain ⟨haddress, hsize⟩ := recorded_loggedOps hlog
  omega

end Witcher.WitcherTCEngine
