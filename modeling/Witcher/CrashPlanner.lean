import Witcher.FullCrashStates
import Witcher.ReplayAgreement
import Witcher.YatRefinement

/-! The planner of the exhaustive engine (`WitcherParallelFullEngine.run`). It counts the crash states
of each transaction with the counting cache, dropping everything at both ends of a transaction and
ignoring what lies between two of them. The worker keeps what the gap before its transaction left
pending, so the two counts agree exactly when there is no fence to count it at or nothing is left. -/

namespace Witcher

open Bytes Persistency WitcherCrashManager WitcherParallelFullCrashManager

/-! ### The counting loop -/

namespace WitcherParallelFullEngine

structure PlannerState where
  cache : YatCache
  permutationCountList : List Nat
  permutationCount : Nat
  inTX : Bool

def PlannerState.init : PlannerState := ⟨YatCache.new, [], 0, false⟩

/-- One iteration of the loop over the operations. -/
def runOp (s : PlannerState) : Op → Except ReplayError PlannerState
  | .txStart _ => do
      assert (s.inTX = false)
      .ok { s with inTX := true, permutationCount := 0, cache := s.cache.flushAll }
  | .txEnd _ => do
      assert (s.inTX = true)
      .ok { s with
        inTX := false
        permutationCountList := s.permutationCountList ++ [s.permutationCount]
        cache := s.cache.flushAll }
  | op =>
      if s.inTX then do
        let (isFence, c) ← s.cache.accept op
        if isFence then
          .ok { s with cache := c.flush, permutationCount := s.permutationCount + YatPermutator.run c }
        else .ok { s with cache := c }
      else .ok s

/-- The counts of all transactions. The loop starts at the first one. -/
def permutationCountList (trace : WitcherTrace) : Except ReplayError (List Nat) := do
  let first ← txRange trace 0
  let s ← (trace.atomicWriteOps.drop first.1).foldlM runOp PlannerState.init
  .ok s.permutationCountList

end WitcherParallelFullEngine

open WitcherParallelFullEngine

/-- A `PMDKTXAdd` or a `PMDKTXAlloc`. -/
def Op.isLoggedRange : Op → Bool
  | .pmdkTXAdd _ | .pmdkTXAlloc _ => true
  | _ => false

/-- What the planner needs of an operation inside a transaction. -/
structure Op.Countable (op : Op) : Prop where
  notBoundary : op.isBoundary = false
  notLogged : op.isLoggedRange = false
  atomic : ∀ st, op = .store st → st.Atomic ∧ st.OverlapsWord

/-! ### The planner's counts -/

theorem YatRefines.extend {hist : List Store} {m : Memory Nat Store} {c : YatCache} (h : YatRefines hist m c)
    {more : List Store} (hids : ((hist ++ more).map (·.id)).Nodup) : YatRefines (hist ++ more) m c where
  ids := hids
  pending_hist a st hst := ⟨List.mem_append_left _ (h.pending_hist a st hst).1, (h.pending_hist a st hst).2⟩
  nodup := h.nodup
  shape := h.shape
  line := h.line
  absent := h.absent
  flushing := h.flushing
  clear := h.clear
  fresh i hi := h.fresh i fun st hst => hi st (List.mem_append_left _ hst)

section Planner

variable {keys : List Nat} (hkeys : keys.Nodup)

include hkeys

/-- One operation of a transaction. -/
theorem YatRefines.runOp {hist : List Store} {m : Memory Nat Store} {s : PlannerState}
    (h : YatRefines hist m s.cache) (hin : s.inTX = true) {op : Op} (hop : op.Countable)
    (hfresh : ∀ st ∈ storesOf [op], ∀ s ∈ hist, s.id ≠ st.id) (hcover : ∀ st ∈ hist, st.line ∈ keys) :
    ∃ c, WitcherParallelFullEngine.runOp s op = .ok { s with
        cache := c
        permutationCount := s.permutationCount + choiceSum keys m op.events } ∧
      YatRefines (hist ++ storesOf [op]) (m.run op.events) c := by
  cases op with
  | txStart b => cases hop.notBoundary
  | txEnd b => cases hop.notBoundary
  | pmdkTXAdd r => cases hop.notLogged
  | pmdkTXAlloc r => cases hop.notLogged
  | pmdkCall b =>
      refine ⟨s.cache, ?_, by simpa [storesOf, Op.events] using h⟩
      simp only [WitcherParallelFullEngine.runOp, hin, if_true, YatCache.accept, Loops.ok_bind]
      rfl
  | store st =>
      obtain ⟨hatomic, hoverlap⟩ := hop.atomic st rfl
      obtain ⟨c, hc, href⟩ := h.acceptStore hatomic hoverlap (hfresh st (List.mem_singleton_self st))
      refine ⟨c, ?_, href⟩
      simp only [WitcherParallelFullEngine.runOp, hin, if_true, YatCache.accept, hc, Loops.ok_bind]
      rfl
  | flush f =>
      refine ⟨s.cache.acceptFlush f, ?_, by simpa [storesOf, Op.events] using h.acceptFlush f⟩
      simp only [WitcherParallelFullEngine.runOp, hin, if_true, YatCache.accept, Loops.ok_bind]
      rfl
  | fence b =>
      refine ⟨s.cache.flush, ?_, by simpa [storesOf, Op.events] using h.flush⟩
      simp only [WitcherParallelFullEngine.runOp, hin, if_true, YatCache.accept, Loops.ok_bind, h.permutator hkeys hcover]
      rfl

/-- The operations of a transaction add up the choices at its fences. -/
theorem YatRefines.runBody (ops : List Op) {hist : List Store} {m : Memory Nat Store} {s : PlannerState}
    (h : YatRefines hist m s.cache) (hin : s.inTX = true) (hops : ∀ op ∈ ops, op.Countable)
    (hids : ((hist ++ storesOf ops).map (·.id)).Nodup) (hcover : ∀ st ∈ hist ++ storesOf ops, st.line ∈ keys) :
    ∃ c, ops.foldlM WitcherParallelFullEngine.runOp s = .ok { s with
        cache := c
        permutationCount := s.permutationCount + choiceSum keys m (eventsOf ops) } ∧
      YatRefines (hist ++ storesOf ops) (m.run (eventsOf ops)) c := by
  induction ops generalizing hist m s with
  | nil => exact ⟨s.cache, rfl, by simpa [storesOf, eventsOf] using h⟩
  | cons op ops ih =>
      obtain ⟨hfresh, hids⟩ := fresh_of_nodup hids
      rw [storesOf_cons, ← List.append_assoc] at hcover
      obtain ⟨c, hc, href⟩ := h.runOp hkeys hin (hops op List.mem_cons_self) hfresh
        fun st hst => hcover st (List.mem_append_left _ (List.mem_append_left _ hst))
      obtain ⟨c', hc', href'⟩ := ih (s := { s with
          cache := c
          permutationCount := s.permutationCount + choiceSum keys m op.events })
        href hin (fun o ho => hops o (List.mem_cons_of_mem op ho)) hids hcover
      refine ⟨c', ?_, ?_⟩
      · rw [Loops.foldlM_cons_ok hc, hc', eventsOf_cons, choiceSum_append, Nat.add_assoc]
      · rw [storesOf_cons, eventsOf_cons, Memory.run_append, ← List.append_assoc]
        exact href'

/-- A whole transaction and the gap after it add its count to the list. -/
theorem YatRefines.runSegment (seg : TxSegment) {hist : List Store} {m : Memory Nat Store} {s : PlannerState}
    (h : YatRefines hist m s.cache) (hin : s.inTX = false) (hbody : ∀ op ∈ seg.body, op.Countable)
    (hgap : Plain seg.gap) (hids : ((hist ++ storesOf seg.ops).map (·.id)).Nodup)
    (hcover : ∀ st ∈ hist ++ storesOf seg.ops, st.line ∈ keys) :
    ∃ s', seg.ops.foldlM WitcherParallelFullEngine.runOp s = .ok s' ∧ s'.inTX = false ∧
      s'.permutationCountList = s.permutationCountList ++ [choiceSum keys Memory.empty (eventsOf seg.body)] ∧
      YatRefines (hist ++ storesOf seg.ops) Memory.empty s'.cache := by
  have hstores : storesOf seg.ops = storesOf seg.body ++ storesOf seg.gap := by
    change storesOf (seg.body ++ ([.txEnd seg.stop] ++ seg.gap)) = _
    rw [storesOf_append, storesOf_append]
    rfl
  rw [hstores, ← List.append_assoc] at hids hcover ⊢
  have hsub : ((hist ++ storesOf seg.body).map (·.id)).Nodup :=
    hids.sublist ((List.sublist_append_left _ _).map _)
  obtain ⟨c, hc, href⟩ := YatRefines.runBody hkeys seg.body
    (s := { s with inTX := true, permutationCount := 0, cache := s.cache.flushAll }) h.flushAll rfl hbody hsub
    fun st hst => hcover st (List.mem_append_left _ hst)
  have hstart : WitcherParallelFullEngine.runOp s (.txStart seg.start) =
      .ok { s with inTX := true, permutationCount := 0, cache := s.cache.flushAll } := by
    simp only [WitcherParallelFullEngine.runOp, hin, decide_true, assert_true, Loops.ok_bind]
  refine ⟨{ s with
      inTX := false
      permutationCountList := s.permutationCountList ++ [choiceSum keys Memory.empty (eventsOf seg.body)]
      permutationCount := choiceSum keys Memory.empty (eventsOf seg.body)
      cache := c.flushAll }, ?_, rfl, rfl, href.flushAll.extend hids⟩
  rw [TxSegment.ops, Loops.foldlM_cons_ok hstart, Loops.foldlM_append_ok hc, Loops.foldlM_cons_ok rfl,
    Loops.foldlM_skip]
  · simp only [Nat.zero_add]
  · -- outside a transaction nothing is counted
    intro op hop
    have hplain := hgap op hop
    cases op with
    | txStart b => cases hplain
    | txEnd b => cases hplain
    | _ => rfl

theorem YatRefines.runSegments (segs : List TxSegment) {hist : List Store} {m : Memory Nat Store} {s : PlannerState}
    (h : YatRefines hist m s.cache) (hin : s.inTX = false)
    (hsegs : ∀ seg ∈ segs, (∀ op ∈ seg.body, op.Countable) ∧ Plain seg.gap)
    (hids : ((hist ++ storesOf (segs.flatMap TxSegment.ops)).map (·.id)).Nodup)
    (hcover : ∀ st ∈ hist ++ storesOf (segs.flatMap TxSegment.ops), st.line ∈ keys) :
    ∃ s' m', (segs.flatMap TxSegment.ops).foldlM WitcherParallelFullEngine.runOp s = .ok s' ∧ s'.inTX = false ∧
      s'.permutationCountList =
        s.permutationCountList ++ segs.map (fun seg => choiceSum keys Memory.empty (eventsOf seg.body)) ∧
      YatRefines (hist ++ storesOf (segs.flatMap TxSegment.ops)) m' s'.cache := by
  induction segs generalizing hist m s with
  | nil => exact ⟨s, m, rfl, hin, by simp, by simpa [storesOf] using h⟩
  | cons seg segs ih =>
      rw [List.flatMap_cons, storesOf_append, ← List.append_assoc] at hids hcover ⊢
      obtain ⟨hbody, hgap⟩ := hsegs seg List.mem_cons_self
      obtain ⟨s₁, hs₁, hin₁, hlist₁, href₁⟩ := h.runSegment hkeys seg hin hbody hgap
        (hids.sublist ((List.sublist_append_left _ _).map _)) fun st hst => hcover st (List.mem_append_left _ hst)
      obtain ⟨s₂, m₂, hs₂, hin₂, hlist₂, href₂⟩ :=
        ih href₁ hin₁ (fun k hk => hsegs k (List.mem_cons_of_mem seg hk)) hids hcover
      refine ⟨s₂, m₂, by rw [Loops.foldlM_append_ok hs₁, hs₂], hin₂, ?_, href₂⟩
      rw [hlist₂, hlist₁, List.map_cons, List.append_assoc]
      rfl

end Planner

/-- The planner counts, for each transaction, the choices at its fences starting from nothing. -/
theorem permutationCountList_eq {mapBase length : Nat} {trace : WitcherTrace} (hvalid : trace.Valid mapBase length)
    (hlogged : ∀ op ∈ trace.atomicWriteOps, op.isLoggedRange = false) {keys : List Nat} (hkeys : keys.Nodup)
    (hcover : ∀ st ∈ storesOf trace.atomicWriteOps, st.line ∈ keys) {t start stop : Nat}
    (hrange : txRange trace t = .ok (start, stop)) :
    ∃ counts, permutationCountList trace = .ok counts ∧
      counts[t]? = some (choiceSum keys Memory.empty (eventsOf (slice trace.atomicWriteOps start stop))) := by
  obtain ⟨first, hfirst⟩ := txRange_first hrange
  obtain ⟨init, segs, tail, htail, hseg⟩ := hvalid.segmented
  obtain ⟨before, seg, after, hsegs, hlen, htx⟩ := hseg.txAt (txRange_ok.mp hrange)
  have hdrop : trace.atomicWriteOps.drop first.1 = segs.flatMap TxSegment.ops ++ tail := by
    rw [hseg.start_first (txRange_ok.mp hfirst), hseg.ops_eq, List.append_assoc, List.drop_left]
  have hsub : (segs.flatMap TxSegment.ops ++ tail).Sublist trace.atomicWriteOps := by
    rw [← hdrop]
    exact List.drop_sublist _ _
  have hcountable : ∀ ops : List Op, ops.Sublist trace.atomicWriteOps → Plain ops → ∀ op ∈ ops, op.Countable := by
    intro ops hops hplain op hop
    have hmem := hops.subset hop
    refine ⟨hplain op hop, hlogged op hmem, ?_⟩
    rintro st rfl
    exact ⟨(hvalid.replayable _ hmem).1, hvalid.overlap st hmem⟩
  have hids := hvalid.store_ids_nodup hsub
  have hlines : ∀ st ∈ storesOf (segs.flatMap TxSegment.ops ++ tail), st.line ∈ keys := by
    intro st hst
    exact hcover st (mem_storesOf.mpr (hsub.subset (mem_storesOf.mp hst)))
  rw [storesOf_append] at hids hlines
  obtain ⟨s, m, hs, hin, hlist, href⟩ := YatRefines.new.runSegments hkeys segs (s := PlannerState.init) rfl
    (by
      intro k hk
      obtain ⟨hbody, hgap⟩ := hseg.segs_plain k hk
      refine ⟨hcountable k.body ?_ hbody, hgap⟩
      have hin : k.ops.Sublist (segs.flatMap TxSegment.ops) := List.sublist_flatten_of_mem (List.mem_map_of_mem hk)
      have hpart : k.body.Sublist k.ops := ((List.sublist_append_left _ _).cons _)
      exact hpart.trans (hin.trans ((List.sublist_append_left _ _).trans hsub)))
    (by simpa using hids.sublist ((List.sublist_append_left _ _).map _))
    (by simpa using fun st hst => hlines st (List.mem_append_left _ hst))
  -- a transaction left open is counted but not recorded
  obtain ⟨s', hs', hlist'⟩ : ∃ s', tail.foldlM runOp s = .ok s' ∧ s'.permutationCountList = s.permutationCountList := by
    rcases htail with rfl | ⟨open_, body, hbody, rfl⟩
    · exact ⟨s, rfl, rfl⟩
    · obtain ⟨c, hc, _⟩ := YatRefines.runBody hkeys body
        (s := { s with inTX := true, permutationCount := 0, cache := s.cache.flushAll }) href.flushAll rfl
        (hcountable body (((List.sublist_cons_self _ _).trans (List.sublist_append_right _ _)).trans hsub) hbody)
        hids hlines
      have hstart : runOp s (.txStart open_) =
          .ok { s with inTX := true, permutationCount := 0, cache := s.cache.flushAll } := by
        simp only [runOp, hin, decide_true, assert_true, Loops.ok_bind]
      exact ⟨_, (Loops.foldlM_cons_ok hstart).trans hc, rfl⟩
  refine ⟨s'.permutationCountList, ?_, ?_⟩
  · simp only [permutationCountList, hfirst, Loops.ok_bind, hdrop, Loops.foldlM_append_ok hs, hs']
  · rw [hlist', hlist, htx.until_stop, hsegs, ← hlen]
    simp [PlannerState.init]
    rfl

/-! ### The worker's counts -/

section Worker

variable {f₀ : BinaryFile} {keys : List Nat} (hkeys : keys.Nodup)

include hkeys

theorem Refines.permutationCount {hist : List Store} {m : Memory Nat Store} {c : WitcherCache}
    (h : Refines f₀ hist m c) (hcover : ∀ st ∈ hist, st.line ∈ keys) :
    WitcherParallelFullCrashManager.permutationCount c = choices keys m - 1 := by
  have hprod : (radices (c.getCachelines.map (·.storesList))).prod = choices c.cachelineDict.keys m := by
    rw [h.map_storesList, radices, List.map_map]
    rfl
  rw [permutationCount_eq, hprod, choices_eq_of_covers c.cachelineDict.nodup_keys hkeys]
  · intro a ha
    by_contra hnot
    exact ha (h.absent a ((c.cachelineDict.get?_eq_none_iff a).mpr hnot))
  · intro a ha
    obtain ⟨st, hst⟩ := List.exists_mem_of_ne_nil _ ha
    obtain ⟨hhist, hline⟩ := h.pending_hist hst
    exact hline ▸ hcover st hhist

/-- The worker adds up the choices at the fences starting from the memory it has reached. -/
theorem Refines.totalCount (ops : List Op) {hist : List Store} {m : Memory Nat Store} {c : WitcherCache}
    (h : Refines f₀ hist m c) (hops : ∀ op ∈ ops, op.Replayable f₀.mapBase f₀.fileMap.length)
    (hids : ((hist ++ storesOf ops).map (·.id)).Nodup) (hcover : ∀ st ∈ hist ++ storesOf ops, st.line ∈ keys) :
    ∃ fences, fenceCaches c ops = .ok fences ∧ Witcher.totalCount fences = choiceSum keys m (eventsOf ops) := by
  induction ops generalizing hist m c with
  | nil => exact ⟨[], rfl, rfl⟩
  | cons op ops ih =>
      obtain ⟨hfresh, hids⟩ := fresh_of_nodup hids
      rw [storesOf_cons, ← List.append_assoc] at hcover
      obtain ⟨c', hc', href⟩ := h.acceptAndWriteBack op (hops op List.mem_cons_self) hfresh
      obtain ⟨fences, hfences, hcount⟩ := ih href (fun o ho => hops o (List.mem_cons_of_mem op ho)) hids hcover
      rw [eventsOf_cons, choiceSum_append, ← hcount]
      by_cases hcase : ∃ b, op = .fence b
      · obtain ⟨b, rfl⟩ := hcase
        have hwrite : c.writeBackAllFlushingStores = .ok c' := hc'
        have hhere := h.permutationCount hkeys fun st hst =>
          hcover st (List.mem_append_left _ (List.mem_append_left _ hst))
        refine ⟨(b, c) :: fences, fenceCaches_fence b hwrite hfences, ?_⟩
        rw [totalCount_cons, hhere]
        rfl
      · have hop : ∀ b, op ≠ .fence b := fun b hb => hcase ⟨b, hb⟩
        have haccept := WitcherCache.accept_of_not_fence hop hc'
        have hzero : choiceSum keys m op.events = 0 := by
          cases op with
          | fence b => exact absurd rfl (hop b)
          | _ => rfl
        exact ⟨fences, (fenceCaches_accept haccept ops).trans hfences, by rw [hzero, Nat.zero_add]⟩

end Worker

/-- As long as a target is left, the worker's loop sums up the counts of all fences. -/
theorem tryLoop_permutationCount (txId : Nat) {n : Nat} {ops : List Op} {c : WitcherCache}
    {fences : List (BaseOperation × WitcherCache)} (hfences : fenceCaches c ops = .ok fences) {low : Nat}
    (hn : low + totalCount fences ≤ n) (validated : List FullCrashState) :
    ∃ s, tryLoop txId [n] ⟨c, 0, low, validated⟩ ops = .ok s ∧ s.permutationCount = low + totalCount fences := by
  induction ops generalizing c fences low validated with
  | nil =>
      cases hfences
      exact ⟨_, rfl, rfl⟩
  | cons op ops ih =>
      rw [fenceCaches] at hfences
      obtain ⟨⟨isFence, c₁⟩, haccept, hfences⟩ := Loops.bind_ok hfences
      cases isFence with
      | false =>
          obtain ⟨s, hs, hcount⟩ := ih hfences hn validated
          exact ⟨s, (tryLoop_accept haccept txId [n] 0 low validated ops).trans hs, hcount⟩
      | true =>
          simp only [if_true] at hfences
          obtain ⟨c₂, hwrite, hfences⟩ := Loops.bind_ok hfences
          obtain ⟨rest, hrest, hfences⟩ := Loops.bind_ok hfences
          cases hfences
          rw [totalCount_cons, ← Nat.add_assoc] at hn ⊢
          obtain ⟨s, hs, hcount⟩ := ih hrest hn (validated ++ [])
          have hnone : (List.takeWhile (fun target => decide (low + permutationCount c₁ > target)) [n]) = [] := by
            rw [List.takeWhile_cons_of_neg (by simpa using hn.trans' (Nat.le_add_right _ _))]
          have hvalidate : WitcherFullCrashValidator.validate c₁ txId op.id [] = .ok (c₁, []) := rfl
          refine ⟨s, ?_, hcount⟩
          simp only [tryLoop, haccept, Loops.ok_bind, if_true, List.drop_zero, hnone, List.mapM_nil, pure, Except.pure,
            hvalidate, hwrite, List.length_nil, Nat.add_zero, List.length_singleton, Nat.zero_ne_one, if_false, hs]

/-! ### Agreement of the counts -/

theorem exists_inInterval {fences : List (BaseOperation × WitcherCache)} {target : Nat}
    (h : target < totalCount fences) : ∃ k, InInterval fences k target := by
  induction fences generalizing target with
  | nil => exact absurd h (Nat.not_lt_zero _)
  | cons e fences ih =>
      by_cases hhere : target < WitcherParallelFullCrashManager.permutationCount e.2
      · exact ⟨0, e, rfl, Nat.zero_le _, by simpa [lowCount] using hhere⟩
      · rw [totalCount_cons] at h
        obtain ⟨k, e', hget, hlow, hhigh⟩ :=
          ih (show target - WitcherParallelFullCrashManager.permutationCount e.2 < totalCount fences by omega)
        refine ⟨k + 1, e', hget, ?_, ?_⟩ <;> rw [lowCount_cons_succ] <;> omega

theorem InInterval.lt_totalCount {fences : List (BaseOperation × WitcherCache)} {k target : Nat}
    (h : InInterval fences k target) : target < totalCount fences := by
  obtain ⟨e, hget, hlow, hhigh⟩ := h
  have hle := lowCount_add_le hget (List.getElem?_eq_some_iff.mp hget).1
  have htotal : lowCount fences fences.length = totalCount fences := by
    rw [lowCount, List.take_length, totalCount]
  omega

/-- The planner's count for transaction `t` is the worker's, the sum that its loop reaches while a
target is left; so the targets below it go to one fence each and no other index does. -/
def PlannerAgrees (trace : WitcherTrace) (file : BinaryFile) (t : Nat) : Prop :=
  ∃ counts total range c fences, permutationCountList trace = .ok counts ∧ counts[t]? = some total ∧
    txRange trace t = .ok range ∧
    WitcherParallelFullCrashManager.runBeforeTarget trace t (WitcherCache.new file) = .ok c ∧
    fenceCaches c (slice trace.atomicWriteOps range.1 range.2) = .ok fences ∧ total = totalCount fences ∧
    (∀ n, total ≤ n → ∃ s, runTryTraget trace t [n] c = .ok s ∧ s.permutationCount = total) ∧
    (∀ target < total, ∃! k, InInterval fences k target) ∧ ∀ k target, InInterval fences k target → target < total

/-- The planner and the worker count the same crash states exactly when the transaction has no fence
or every store in the gap before it is flushed and then fenced inside the gap. -/
theorem plannerAgrees_iff (mapBase : Nat) (bytes : List UInt8) {entries : List TraceEntry} {trace : WitcherTrace}
    {t start stop : Nat} (hextract : extractOperations entries = .ok trace)
    (hmapped : ∀ e ∈ entries, e.Mapped mapBase bytes.length)
    (hlogged : ∀ op ∈ trace.atomicWriteOps, op.isLoggedRange = false)
    (hrange : txRange trace t = .ok (start, stop)) :
    PlannerAgrees trace (BinaryFile.new mapBase bytes) t ↔
      hasFence (slice trace.atomicWriteOps start stop) = false ∨ gapPersisted (gapBefore trace t) = true := by
  have hvalid := WitcherTrace.Valid.of_entries hextract hmapped
  have hset := txSetting hvalid hrange (TxCandidates.nil _)
  obtain ⟨first, c, hfirst, hworker, href⟩ := Refines.runBeforeTarget hvalid hrange
  obtain ⟨m, hm, hmemory⟩ := worker_memory hvalid hfirst hrange
  have hkeys := List.nodup_dedup ((storesOf trace.atomicWriteOps).map Store.line)
  have hlines : ∀ st ∈ storesOf trace.atomicWriteOps,
      st.line ∈ ((storesOf trace.atomicWriteOps).map Store.line).dedup := fun st hst =>
    List.mem_dedup.mpr (List.mem_map_of_mem hst)
  obtain ⟨counts, hcounts, hcount⟩ := permutationCountList_eq hvalid hlogged hkeys hlines hrange
  have hbefore : ∀ st ∈ storesOf (slice trace.atomicWriteOps 0 start) ++
      storesOf (slice trace.atomicWriteOps start stop), st ∈ storesOf trace.atomicWriteOps := by
    intro st hst
    rw [mem_storesOf]
    rcases List.mem_append.mp hst with hst | hst
    · exact (slice_sublist _ _ _).subset (mem_storesOf.mp hst)
    · exact (slice_sublist _ _ _).subset (mem_storesOf.mp hst)
  obtain ⟨fences, hfences, htotal⟩ := href.totalCount hkeys (slice trace.atomicWriteOps start stop) hset.replayable
    hset.nodup fun st hst => hlines st (hbefore st hst)
  have hcover : ∀ a, (memoryBefore first.1 (slice trace.atomicWriteOps 0 start) a).pending ≠ [] →
      a ∈ ((storesOf trace.atomicWriteOps).map Store.line).dedup := by
    intro a ha
    obtain ⟨st, hst⟩ := List.exists_mem_of_ne_nil _ ha
    obtain ⟨hhist, hline⟩ := href.pending_hist hst
    exact hline ▸ hlines st (hbefore st (List.mem_append_left _ hhist))
  have hiff := choiceSum_eq_iff hcover (eventsOf_no_drain (slice trace.atomicWriteOps start stop))
  rw [← htotal, ← hasFence_iff, Bool.not_eq_true, hmemory, pending_gap_eq_nil_iff hm] at hiff
  rw [← hiff]
  constructor
  · rintro ⟨counts', total, range, c', fences', hcounts', htotal', hrange', hc', hfences', heq, _⟩
    rw [hcounts] at hcounts'
    cases hcounts'
    rw [hrange] at hrange'
    cases hrange'
    rw [WitcherParallelFullCrashManager.runBeforeTarget, hworker] at hc'
    cases hc'
    rw [hfences] at hfences'
    cases hfences'
    rw [hcount] at htotal'
    cases htotal'
    exact heq
  · intro heq
    refine ⟨counts, _, (start, stop), c, fences, hcounts, hcount, hrange, hworker, hfences, heq, ?_, ?_, ?_⟩
    · intro n hn
      rw [heq] at hn ⊢
      have hsum := tryLoop_permutationCount t hfences ((Nat.zero_add _).trans_le hn) []
      rw [Nat.zero_add] at hsum
      simpa only [runTryTraget, hrange, Loops.ok_bind] using hsum
    · intro target htarget
      rw [heq] at htarget
      obtain ⟨k, hk⟩ := exists_inInterval htarget
      exact ⟨k, hk, fun k' hk' => hk.unique hk'⟩
    · intro k target hk
      rw [heq]
      exact hk.lt_totalCount

theorem plannerAgrees_iff_reorder :
    PlannerAgrees reorderTrace (BinaryFile.new 0 (List.replicate 66 0)) 0 := by
  have hextract : extractOperations reorderEntries = .ok reorderTrace := rfl
  have hrange : txRange reorderTrace 0 = .ok (0, 6) := rfl
  exact (plannerAgrees_iff 0 (List.replicate 66 0) hextract (by decide) (by decide) hrange).mpr (.inr rfl)

/-- The planner ignores the store of the gap, the worker counts it at the fence after it. -/
theorem plannerAgrees_fails_at_gap :
    extractOperations gapEntries = .ok gapTrace ∧ (∀ e ∈ gapEntries, e.Mapped 0 [0].length) ∧
      (∀ op ∈ gapTrace.atomicWriteOps, op.isLoggedRange = false) ∧ txRange gapTrace 1 = .ok (3, 5) ∧
      ¬PlannerAgrees gapTrace (BinaryFile.new 0 [0]) 1 := by
  refine ⟨rfl, by decide, by decide, rfl, ?_⟩
  rintro ⟨counts, total, range, c, fences, hcounts, htotal, hrange, hc, hfences, heq, _⟩
  cases hcounts
  cases htotal
  cases hrange
  cases hc
  cases hfences
  revert heq
  decide

end Witcher
