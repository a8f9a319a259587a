import Witcher.WitcherCache

/-! The cache of the transaction engine (`engines/witchertx/witchertxcache.py`) and the replay of PMDK
calls (`engines/witcher/pmdktracehandler.py`). A store outside of a PMDK transaction waits in a list
until a fence; a store inside of one, and what a PMDK call flushes, are written to the file at once. -/

namespace Witcher

/-- `_file_map[base_off:max_off] = val`. -/
def BinaryFile.doStoreDirect (f : BinaryFile) (baseOff maxOff : Int) (val : List UInt8) :
    Except ReplayError BinaryFile :=
  let base := sliceBound f.fileMap.length baseOff
  let max := sliceBound f.fileMap.length maxOff
  if val.length = max - base then .ok { f with fileMap := Bytes.patch f.fileMap base val }
  else .error .indexError

/-! ### The PMDK trace -/

/-- A line of the operation trace, split at its semicolons. -/
inductive PMDKTraceOp where
  | funcBegin (funcName : String)
  | funcEnd (funcName : String)
  | registerFile (addr size offset : Nat)
  | flush (addr size : Nat)
  | other
  deriving DecidableEq, Repr

structure PMDKFlush where
  addr : Nat
  baseOff : Nat
  size : Nat
  value : List UInt8
  deriving DecidableEq, Repr

/-- The two traces from their current indices on, and the registered mappings. `iterate` is the order in
which a set of mappings is traversed. -/
structure PMDKTraceHandler where
  pmdkOpTrace : List PMDKTraceOp
  pmdkValTrace : List UInt8
  registerSet : List (Nat × Nat)
  iterate : List (Nat × Nat) → List (Nat × Nat)

namespace PMDKTraceHandler

def getBinaryBaseOff (h : PMDKTraceHandler) (addr size : Nat) : Except ReplayError Nat :=
  match (h.iterate h.registerSet).find? fun m => addr ≥ m.1 && addr + size ≤ m.1 + m.2 with
  | some mapping => .ok (addr - mapping.1)
  | none => .error .assertion

/-- The local variables of `get_flush_list`; the innermost function is first. -/
structure FlushState where
  handler : PMDKTraceHandler
  funcStack : List String
  flushList : List PMDKFlush

/-- The first function of a replayed call is the one that was called. -/
def matchesCall (funcName opFuncName : String) : Bool :=
  if funcName = "pmemobj_tx_add_range" then
    opFuncName = "pmemobj_tx_add_range" || opFuncName = "pmemobj_tx_add_range_direct"
  else if funcName = "pmemobj_tx_alloc" then opFuncName = "pmemobj_tx_alloc" || opFuncName = "pmemobj_tx_zalloc"
  else if funcName = "pmemobj_tx_end" then opFuncName = "pmemobj_tx_commit"
  else opFuncName = funcName

def processOpBegin (funcName opFuncName : String) (s : FlushState) : Except ReplayError FlushState := do
  if s.funcStack.length = 0 then assert (matchesCall funcName opFuncName)
  .ok { s with funcStack := opFuncName :: s.funcStack }

def processOpEnd (opFuncName : String) (s : FlushState) : Except ReplayError FlushState :=
  match s.funcStack with
  | [] => .error .assertion
  | popFuncName :: funcStack => do
      assert (opFuncName = popFuncName)
      .ok { s with funcStack := funcStack }

def processOpRegister (addr size offset : Nat) (s : FlushState) : Except ReplayError FlushState := do
  assert (offset = 0)
  .ok { s with handler := { s.handler with registerSet := s.handler.registerSet.insert (addr, size) } }

def processOpFlush (addr size : Nat) (s : FlushState) : Except ReplayError FlushState := do
  let baseOff ← s.handler.getBinaryBaseOff addr size
  let value := s.handler.pmdkValTrace.take size
  .ok { s with
    handler := { s.handler with pmdkValTrace := s.handler.pmdkValTrace.drop size }
    flushList := s.flushList ++ [⟨addr, baseOff, size, value⟩] }

def processOp (funcName : String) (s : FlushState) : PMDKTraceOp → Except ReplayError FlushState
  | .funcBegin opFuncName => processOpBegin funcName opFuncName s
  | .funcEnd opFuncName => processOpEnd opFuncName s
  | .registerFile addr size offset => processOpRegister addr size offset s
  | .flush addr size => processOpFlush addr size s
  | .other => .error .notSupportedOperation

/-- The loop over the operations, until the function stack is empty after one of them. -/
def flushLoop (funcName : String) : List PMDKTraceOp → FlushState → Except ReplayError FlushState
  | [], _ => .error .assertion
  | op :: ops, s => do
      let s ← processOp funcName s op
      let s := { s with handler := { s.handler with pmdkOpTrace := ops } }
      if s.funcStack.length = 0 then .ok s else flushLoop funcName ops s

def getFlushList (h : PMDKTraceHandler) (funcName : String) : Except ReplayError (List PMDKFlush × PMDKTraceHandler) := do
  let s ← flushLoop funcName h.pmdkOpTrace ⟨h, [], []⟩
  .ok (s.flushList, s.handler)

end PMDKTraceHandler

/-! ### The cache -/

structure WitcherTxCache where
  binaryFile : BinaryFile
  pmdkTraceHandler : PMDKTraceHandler
  pmdkTxStack : Nat
  storeList : List Store

namespace WitcherTxCache

def new (binaryFile : BinaryFile) (pmdkTraceHandler : PMDKTraceHandler) : WitcherTxCache :=
  ⟨binaryFile, pmdkTraceHandler, 0, []⟩

/-- `pmdk_trace_handler.accept`: the flushes of the call go to the file. -/
def handlerAccept (c : WitcherTxCache) (funcName : String) : Except ReplayError WitcherTxCache := do
  let (flushList, handler) ← c.pmdkTraceHandler.getFlushList funcName
  let binaryFile ← flushList.foldlM (fun (f : BinaryFile) flush =>
    f.doStoreDirect flush.baseOff (flush.baseOff + flush.size) flush.value) c.binaryFile
  .ok { c with binaryFile := binaryFile, pmdkTraceHandler := handler }

def acceptStore (c : WitcherTxCache) (store : Store) : Except ReplayError WitcherTxCache :=
  if c.pmdkTxStack = 0 then .ok { c with storeList := c.storeList ++ [store] }
  else do
    let binaryFile ← c.binaryFile.doStore store
    .ok { c with binaryFile := binaryFile }

def acceptFlush (c : WitcherTxCache) : Except ReplayError WitcherTxCache := do
  assert (c.pmdkTxStack = 0)
  .ok c

/-- The list that is emptied at the end is an attribute of another name, `stores_list`, which nothing
reads. -/
def acceptFence (c : WitcherTxCache) : Except ReplayError WitcherTxCache := do
  assert (c.pmdkTxStack = 0)
  let binaryFile ← c.storeList.foldlM BinaryFile.doStore c.binaryFile
  .ok { c with binaryFile := binaryFile }

def acceptCall (c : WitcherTxCache) (funcName : String) : Except ReplayError WitcherTxCache :=
  if funcName = "pmemobj_tx_begin" then .ok { c with pmdkTxStack := c.pmdkTxStack + 1 }
  else if funcName = "pmemobj_tx_end" then do
    assert (0 < c.pmdkTxStack)
    handlerAccept { c with pmdkTxStack := c.pmdkTxStack - 1 } funcName
  else c.handlerAccept funcName

def accept (c : WitcherTxCache) : Op → Except ReplayError WitcherTxCache
  | .store op => c.acceptStore op
  | .flush _ => c.acceptFlush
  | .fence _ => c.acceptFence
  | .pmdkTXAdd _ => c.handlerAccept "pmemobj_tx_add_range"
  | .pmdkTXAlloc _ => c.handlerAccept "pmemobj_tx_alloc"
  | .pmdkCall op => c.acceptCall op.funcName
  | .txStart _ | .txEnd _ => .ok c

end WitcherTxCache

end Witcher
