import Witcher.CrashValidator
import Witcher.TraceSegments

/-! The crash managers (`engines/witcher/witchercrashmanager.py`,
`engines/witcherparallel/witcherparallelcrashmanager.py`). Both replay a trace through the cache and,
at the fences of a transaction, turn the crash candidates of that transaction into crash plans. The
serial manager goes through all transactions; a parallel worker replays up to its own transaction
and tries candidates only there. -/

namespace Witcher

/-! ### Crash candidates -/

/-- A candidate `[p_store, v_store]`: persist `pStore` and leave `vStore` volatile. -/
structure CrashCandidate where
  pStore : Store
  vStore : Store
  deriving DecidableEq, Repr

def CrashCandidate.last (x : CrashCandidate) : Nat := max x.pStore.id x.vStore.id

/-- What the candidates read of the belief database. -/
structure BeliefDatabase where
  isCriticalStore : Store → Bool
  violateOrderingBelief : Store → Store → Bool

def BeliefDatabase.violateAtomicityBelief (belief : BeliefDatabase) (preSt sucSt : Store) : Bool :=
  belief.isCriticalStore preSt && belief.isCriticalStore sucSt

/-- The candidates of one pair of stores. -/
def BeliefDatabase.candidates (belief : BeliefDatabase) (preSt sucSt : Store) : List CrashCandidate :=
  if belief.violateAtomicityBelief preSt sucSt then [⟨preSt, sucSt⟩, ⟨sucSt, preSt⟩]
  else
    (if belief.violateOrderingBelief preSt sucSt then [⟨preSt, sucSt⟩] else []) ++
      (if belief.violateOrderingBelief sucSt preSt then [⟨sucSt, preSt⟩] else [])

/-- The two loops over a transaction's stores: each store with every store before it. -/
def BeliefDatabase.candidatesAfter (belief : BeliefDatabase) (seen : List Store) : List Store → List CrashCandidate
  | [] => []
  | sucSt :: rest =>
      (seen.flatMap fun preSt => belief.candidates preSt sucSt) ++ belief.candidatesAfter (seen ++ [sucSt]) rest

def BeliefDatabase.getCrashCandidatesFromTx (belief : BeliefDatabase) (stores : List Store) : List CrashCandidate :=
  if stores.length > 100000 then [] else belief.candidatesAfter [] stores

/-! ### The candidate queue -/

/-- The plan a candidate adds to the set: its `pStore`, the fence itself, or none. -/
def addPlan (isFenced : Store → Bool) (fenceOp : Op) (plans : List Op) (x : CrashCandidate) : List Op :=
  let plans :=
    if !isFenced x.pStore && !isFenced x.vStore then
      if x.pStore.id < x.vStore.id then plans.insert (.store x.pStore)
      else if getCachelineAddress x.pStore.address ≠ getCachelineAddress x.vStore.address then
        plans.insert (.store x.pStore)
      else plans
    else plans
  if isFenced x.pStore then plans.insert fenceOp else plans

/-- The loop of `verify_crash_candidates`: pops candidates until one lies after the fence. Returns the
remaining queue, the plans and the popped candidates. -/
def verifyLoop (isFenced : Store → Bool) (fenceIndex : Nat) (fenceOp : Op) :
    List CrashCandidate → List Op → List CrashCandidate →
      Except ReplayError (List CrashCandidate × List Op × List CrashCandidate)
  | [], plans, processed => .ok ([], plans, processed)
  | x :: queue, plans, processed => do
      assert (x.pStore.id ≠ x.vStore.id)
      assert (x.pStore.id ≠ fenceIndex)
      assert (x.vStore.id ≠ fenceIndex)
      if max x.pStore.id x.vStore.id > fenceIndex then .ok (x :: queue, plans, processed)
      else
        assert (!isFenced x.pStore || !isFenced x.vStore)
        verifyLoop isFenced fenceIndex fenceOp queue (addPlan isFenced fenceOp plans x) (processed ++ [x])

/-- One iteration of `bring_back_potential_candidates`. -/
def bringBack (isFenced : Store → Bool) (queue : List CrashCandidate) (x : CrashCandidate) : List CrashCandidate :=
  if (!isFenced x.pStore && !isFenced x.vStore) || (isFenced x.pStore && !isFenced x.vStore) then x :: queue
  else queue

/-! ### The serial manager -/

/-- `tested` is what the validator was given. The candidate lists are found by transaction index. -/
structure WitcherCrashManager where
  cache : WitcherCache
  crashCandidatesPerTx : Dict Nat (List CrashCandidate)
  tested : List CrashState

namespace WitcherCrashManager

def verifyCrashCandidates (s : WitcherCrashManager) (txIndex fenceIndex : Nat) (fenceOp : Op) :
    Except ReplayError (WitcherCrashManager × List Op × List CrashCandidate) := do
  let some queue := s.crashCandidatesPerTx.get? txIndex | .error .keyError
  let (queue, plans, processed) ← verifyLoop s.cache.heap.isFenced fenceIndex fenceOp queue [] []
  .ok ({ s with crashCandidatesPerTx := s.crashCandidatesPerTx.set txIndex queue }, plans, processed)

def bringBackPotentialCandidates (s : WitcherCrashManager) (processed : List CrashCandidate) (txIndex : Nat) :
    Except ReplayError WitcherCrashManager := do
  let some queue := s.crashCandidatesPerTx.get? txIndex | .error .keyError
  let queue := processed.reverse.foldl (bringBack s.cache.heap.isFenced) queue
  .ok { s with crashCandidatesPerTx := s.crashCandidatesPerTx.set txIndex queue }

def tryCrashCandidates (s : WitcherCrashManager) (txIndex fenceIndex : Nat) (fenceOp : Op) :
    Except ReplayError (WitcherCrashManager × List CrashCandidate) := do
  let (s, plans, processed) ← s.verifyCrashCandidates txIndex fenceIndex fenceOp
  let (c, states) ← WitcherCrashValidator.validate s.cache txIndex fenceIndex plans
  .ok ({ s with cache := c, tested := s.tested ++ states }, processed)

def writeBackAllFlushingStores (s : WitcherCrashManager) : Except ReplayError WitcherCrashManager := do
  let c ← s.cache.writeBackAllFlushingStores
  .ok { s with cache := c }

def writeBackAllStores (s : WitcherCrashManager) : Except ReplayError WitcherCrashManager := do
  let c ← s.cache.writeBackAllStores
  .ok { s with cache := c }

/-- One iteration of `accept_trace_tx` and of `run_try_traget`; `crash` is the transaction whose
candidates are tried, `none` where the source passes no crash function. -/
def acceptOp (crash : Option Nat) (s : WitcherCrashManager) (op : Op) : Except ReplayError WitcherCrashManager := do
  let (isFence, c) ← s.cache.accept op
  let s := { s with cache := c }
  if isFence then
    match crash with
    | none => s.writeBackAllFlushingStores
    | some txIndex =>
        let (s, processed) ← s.tryCrashCandidates txIndex op.id op
        let s ← s.writeBackAllFlushingStores
        s.bringBackPotentialCandidates processed txIndex
  else .ok s

/-- Stores that were never flushed are written back at the end. -/
def acceptTraceTx (s : WitcherCrashManager) (ops : List Op) (crash : Option Nat) :
    Except ReplayError WitcherCrashManager := do
  let s ← ops.foldlM (acceptOp crash) s
  s.writeBackAllStores

/-- `atomic_write_ops_tx_ranges[txIndex]`. -/
def txRange (trace : WitcherTrace) (txIndex : Nat) : Except ReplayError (Nat × Nat) :=
  match trace.atomicWriteOpsTxRanges[txIndex]? with
  | some range => .ok range
  | none => .error .indexError

def acceptTraceInitOps (trace : WitcherTrace) (s : WitcherCrashManager) : Except ReplayError WitcherCrashManager := do
  let firstTxRange ← txRange trace 0
  s.acceptTraceTx (slice trace.atomicWriteOps 0 firstTxRange.1) none

/-- The local variables of `accept_trace_txs`; `lastIndex` is `none` where the source has `-1`. -/
structure TxLoop where
  manager : WitcherCrashManager
  txIndex : Nat
  lastIndex : Option Nat

/-- The operations between the last transaction and this one, accepted without crashing. -/
def acceptGap (trace : WitcherTrace) (x : TxLoop) (range : Nat × Nat) : Except ReplayError WitcherCrashManager :=
  match x.lastIndex with
  | none => .ok x.manager
  | some lastIndex =>
      if range.1 > lastIndex then x.manager.acceptTraceTx (slice trace.atomicWriteOps lastIndex range.1) none
      else .ok x.manager

/-- One iteration of `accept_trace_txs`. -/
def acceptTx (trace : WitcherTrace) (x : TxLoop) (range : Nat × Nat) : Except ReplayError TxLoop := do
  let s ← acceptGap trace x range
  let s ← s.acceptTraceTx (slice trace.atomicWriteOps (range.1 + 1) range.2) (some x.txIndex)
  .ok ⟨s, x.txIndex + 1, some (range.2 + 1)⟩

def acceptTraceTxs (trace : WitcherTrace) (s : WitcherCrashManager) : Except ReplayError WitcherCrashManager := do
  let x ← trace.atomicWriteOpsTxRanges.foldlM (acceptTx trace) ⟨s, 0, none⟩
  .ok x.manager

def run (trace : WitcherTrace) (s : WitcherCrashManager) : Except ReplayError WitcherCrashManager := do
  let s ← acceptTraceInitOps trace s
  acceptTraceTxs trace s

end WitcherCrashManager

/-! ### The parallel worker -/

namespace WitcherParallelCrashManager

open WitcherCrashManager

/-- One iteration of `run_before_target`: everything is written back after a `TXEnd` and after the
operation right before the first `TXStart`. -/
def acceptBefore (firstTxStartId : Nat) (c : WitcherCache) (op : Op) : Except ReplayError WitcherCache := do
  let c ← c.acceptAndWriteBack op
  let c ← if op.isTXEnd then c.writeBackAllStores else .ok c
  if (op.id : Int) = (firstTxStartId : Int) - 1 then c.writeBackAllStores else .ok c

def runBeforeTarget (trace : WitcherTrace) (txId : Nat) (c : WitcherCache) : Except ReplayError WitcherCache := do
  let firstTxRange ← txRange trace 0
  let targetTxRange ← txRange trace txId
  (slice trace.atomicWriteOps 0 targetTxRange.1).foldlM (acceptBefore firstTxRange.1) c

def runTryTraget (trace : WitcherTrace) (txId : Nat) (s : WitcherCrashManager) :
    Except ReplayError WitcherCrashManager := do
  let targetTxRange ← txRange trace txId
  let s ← (slice trace.atomicWriteOps targetTxRange.1 targetTxRange.2).foldlM (acceptOp (some txId)) s
  s.writeBackAllStores

/-- `CrashCandidatesParallel`: the candidates of the worker's own transaction. -/
def crashCandidates (trace : WitcherTrace) (belief : BeliefDatabase) (range : Nat × Nat) : List CrashCandidate :=
  belief.getCrashCandidatesFromTx (storesOf (slice trace.atomicWriteOps range.1 (range.2 + 1)))

/-- A worker on a fresh cache: the crash states it gives to the validator. Too long a transaction, no
candidates or too many, and it does nothing. -/
def run (trace : WitcherTrace) (belief : BeliefDatabase) (crashMax : Int) (file : BinaryFile) (txId : Nat) :
    Except ReplayError (List CrashState) := do
  let range ← txRange trace txId
  if range.2 - range.1 > 90000 then .ok []
  else
    let candidates := crashCandidates trace belief range
    if candidates.length = 0 then .ok []
    else if (candidates.length : Int) > crashMax then .ok []
    else
      let c ← runBeforeTarget trace txId (WitcherCache.new file)
      let s ← runTryTraget trace txId ⟨c, Dict.empty.set txId candidates, []⟩
      .ok s.tested

end WitcherParallelCrashManager

end Witcher
