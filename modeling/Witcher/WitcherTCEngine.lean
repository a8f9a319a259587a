import Mathlib.Data.List.Basic
import Witcher.Loops
import Witcher.MemoryOperations
import Witcher.TraceText

/-! The transaction checker (`engines/witchertc/witchertcengine.py`). It goes once over the operations of
the recorded transactions and reports the stores that are not persisted in time, the stores of a PMDK
transaction that are not logged, and what is flushed, fenced or logged without need. A second pass reports
the stores outside of PMDK transactions. -/

namespace Witcher.WitcherTCEngine

open PythonText TraceText

inductive TCError where
  | assertion
  | indexError
  deriving DecidableEq, Repr

def assert (b : Bool) : Except TCError Unit := if b then .ok () else .error .assertion

/-! ### Ranges -/

/-- A `Rangeable` operation with its range `[address, address + size)`. -/
structure RangedOp where
  op : TraceOp
  address : Int
  size : Int
  deriving DecidableEq, Repr

def RangedOp.getBaseAddress (r : RangedOp) : Int := r.address

def RangedOp.getMaxAddress (r : RangedOp) : Int := r.address + r.size

def RangedOp.rangeCmp (lhs rhs : RangedOp) : Int :=
  Witcher.rangeCmp lhs.getBaseAddress lhs.getMaxAddress rhs.getBaseAddress rhs.getMaxAddress

/-! ### The cache -/

/-- A store in the cache with its `flushed` field. -/
structure CachedStore where
  store : RangedOp
  flushed : Nat
  deriving DecidableEq, Repr

/-- `flush.is_in_flush(store)`. -/
def isInFlush (flush store : RangedOp) : Bool := store.rangeCmp flush = 0

namespace TCCache

def acceptStore (stores : List CachedStore) (store : RangedOp) : List CachedStore := stores ++ [⟨store, 0⟩]

def acceptFlush (stores : List CachedStore) (flush : RangedOp) : List CachedStore :=
  stores.map fun c => if isInFlush flush c.store then { c with flushed := 1 } else c

def acceptFence (stores : List CachedStore) : List CachedStore := stores.filter fun c => c.flushed = 0

def isExtraFlush (stores : List CachedStore) (flush : RangedOp) : Bool :=
  stores.all fun c => !(isInFlush flush c.store && c.flushed = 0)

def isExtraFence (stores : List CachedStore) : Bool := stores.all fun c => !decide (c.flushed = 1)

end TCCache

/-! ### The results -/

/-- The sets of the report; an operation is added once. -/
structure CTRes where
  unflushedStores : List TraceOp
  extraFlushes : List TraceOp
  extraFences : List TraceOp
  unloggedStores : List TraceOp
  extraLogs : List TraceOp
  unTXedStores : List TraceOp
  deriving DecidableEq, Repr

def CTRes.init : CTRes := ⟨[], [], [], [], [], []⟩

/-- Every store of the cache is reported as unflushed. -/
def CTRes.addUnflushed (res : CTRes) (stores : List CachedStore) : CTRes :=
  { res with unflushedStores := stores.foldl (fun acc c => acc.insert c.store.op) res.unflushedStores }

/-! ### PMDK transactions -/

/-- The nesting of PMDK transactions and calls. The innermost entry of a stack is its head. -/
structure Nesting where
  inPMDKTX : Bool
  pmdkTxStack : List TraceOp
  pmdkCallStack : List (List Char)
  deriving DecidableEq, Repr

def Nesting.init : Nesting := ⟨false, [], []⟩

def isTxBegin (funcName note : List Char) : Bool := funcName = "pmemobj_tx_begin".toList && note = "end".toList

def isTxEnd (funcName note : List Char) : Bool := funcName = "pmemobj_tx_end".toList && note = "start".toList

/-- A call is entered or left. -/
def Nesting.acceptNote (n : Nesting) (funcName note : List Char) : Except TCError Nesting :=
  if note = "start".toList then .ok { n with pmdkCallStack := funcName :: n.pmdkCallStack }
  else do
    assert (note = "end".toList)
    match n.pmdkCallStack with
    | [] => .error .indexError
    | popped :: rest => do
        assert (popped = funcName)
        .ok { n with pmdkCallStack := rest }

/-- A transaction is entered when `pmemobj_tx_begin` returns. -/
def Nesting.acceptTxBegin (n : Nesting) (op : TraceOp) : Nesting :=
  if n.inPMDKTX = false then { n with inPMDKTX := true } else { n with pmdkTxStack := op :: n.pmdkTxStack }

/-- A transaction is left when `pmemobj_tx_end` is called. -/
def Nesting.acceptTxEnd (n : Nesting) : Except TCError Nesting := do
  assert n.inPMDKTX
  match n.pmdkTxStack with
  | _ :: rest => .ok { n with pmdkTxStack := rest }
  | [] => .ok { n with inPMDKTX := false }

/-- The part of a call that both passes have. -/
def Nesting.acceptCall (n : Nesting) (op : TraceOp) (funcName note : List Char) : Except TCError Nesting := do
  let n ← n.acceptNote funcName note
  let n := if isTxBegin funcName note then n.acceptTxBegin op else n
  if isTxEnd funcName note then n.acceptTxEnd else .ok n

/-! ### The first pass -/

structure TCState where
  cache : List CachedStore
  res : CTRes
  inWitcherTX : Bool
  usePMDKTX : Bool
  nesting : Nesting
  pmdkLogs : List RangedOp
  deriving DecidableEq, Repr

def TCState.init : TCState := ⟨[], CTRes.init, false, false, Nesting.init, []⟩

/-- The outermost end of a transaction clears the logs. -/
def acceptCall (s : TCState) (op : TraceOp) (funcName note : List Char) : Except TCError TCState := do
  let nesting ← s.nesting.acceptCall op funcName note
  .ok { s with
    nesting
    usePMDKTX := s.usePMDKTX || isTxBegin funcName note && !s.nesting.inPMDKTX
    pmdkLogs := if isTxEnd funcName note && !nesting.inPMDKTX then [] else s.pmdkLogs }

def acceptLog (s : TCState) (log : RangedOp) : Except TCError TCState := do
  assert s.nesting.inPMDKTX
  let extra := s.pmdkLogs.any fun other => log.rangeCmp other = 0
  .ok { s with
    res := if extra then { s.res with extraLogs := s.res.extraLogs.insert log.op } else s.res
    pmdkLogs := s.pmdkLogs ++ [log] }

/-- Inside of a transaction and outside of any call. -/
def Nesting.checksLogs (n : Nesting) : Bool := n.inPMDKTX && n.pmdkCallStack.length = 0

def acceptStore (s : TCState) (store : RangedOp) : TCState :=
  let logged := s.pmdkLogs.any fun log => store.rangeCmp log = 0
  { s with
    cache := TCCache.acceptStore s.cache store
    res := if s.nesting.checksLogs && !logged then { s.res with unloggedStores := s.res.unloggedStores.insert store.op }
      else s.res }

def acceptFlush (s : TCState) (flush : RangedOp) : TCState :=
  { s with
    cache := TCCache.acceptFlush s.cache flush
    res := if TCCache.isExtraFlush s.cache flush then { s.res with extraFlushes := s.res.extraFlushes.insert flush.op }
      else s.res }

def acceptFence (s : TCState) (op : TraceOp) : TCState :=
  { s with
    cache := TCCache.acceptFence s.cache
    res := if TCCache.isExtraFence s.cache then { s.res with extraFences := s.res.extraFences.insert op } else s.res }

/-- The loop body of the first pass. -/
def step (s : TCState) (op : TraceOp) : Except TCError TCState :=
  match op.body with
  | .txStart => .ok { s with inWitcherTX := true, res := s.res.addUnflushed s.cache }
  | .txEnd => .ok { s with inWitcherTX := false, res := s.res.addUnflushed s.cache }
  | .pmdkCall funcName note => acceptCall s op funcName note
  | .pmdkTXAdd address size => acceptLog s ⟨op, address, size⟩
  | .pmdkTXAlloc address size => acceptLog s ⟨op, address, size⟩
  | .store st => .ok (acceptStore s ⟨op, st.address, st.size⟩)
  | .flush _ address => .ok (acceptFlush s ⟨op, address, TraceText.cachelineBytes⟩)
  | .fence => .ok (acceptFence s op)

/-- Longer transactions are skipped. -/
def maxTxLength : Int := 90000

/-- The operations of the transactions that are looked at. A range ends before its `TXEnd`. -/
def txOps (trace : Trace) : List (List TraceOp) :=
  (trace.atomicWriteOpsTxRanges.filter fun r => !decide (r.2 - r.1 > maxTxLength)).map fun r =>
    slice trace.atomicWriteOps r.1 r.2

def firstPass (trace : Trace) : Except TCError TCState := do
  let s ← (txOps trace).foldlM (fun s ops => ops.foldlM step s) TCState.init
  .ok { s with res := s.res.addUnflushed s.cache }

/-! ### The second pass -/

def secondStep (s : Nesting × CTRes) (op : TraceOp) : Except TCError (Nesting × CTRes) :=
  match op.body with
  | .pmdkCall funcName note => do
      let nesting ← s.1.acceptCall op funcName note
      .ok (nesting, s.2)
  | .store _ =>
      if !s.1.inPMDKTX && s.1.pmdkCallStack.length = 0 then
        .ok (s.1, { s.2 with unTXedStores := s.2.unTXedStores.insert op })
      else .ok s
  | _ => .ok s

/-- `run`, up to the printing of the report. -/
def run (trace : Trace) : Except TCError CTRes := do
  let s ← firstPass trace
  if !s.usePMDKTX then .ok s.res
  else do
    assert (s.nesting.inPMDKTX = false)
    assert (s.nesting.pmdkTxStack.length = 0)
    assert (s.nesting.pmdkCallStack.length = 0)
    let (_, res) ← (txOps trace).foldlM (fun s ops => ops.foldlM secondStep s) (s.nesting, s.res)
    .ok res

end Witcher.WitcherTCEngine
