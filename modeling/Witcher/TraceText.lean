import Witcher.PythonText
import Witcher.TextLines
import Witcher.TrueDivision

/-! The trace reader from its text (`replay/mem/witchertrace.py`, `memoryoperations.py`): the lines of the
file, their fields, and the loop over them. Numbers are Python's unbounded signed integers, the indices
included, and every way a line can be refused is an error. -/

namespace Witcher.TraceText

open TrueDivision PythonText

inductive TraceError where
  | assertion
  | indexError
  | valueError
  | overflowError
  deriving DecidableEq, Repr

def assert (b : Bool) : Except TraceError Unit := if b then .ok () else .error .assertion

theorem assert_ok {b : Bool} {u : Unit} (h : assert b = .ok u) : b = true := by
  cases b with
  | true => rfl
  | false => cases h

/-- `int(a / b)` for a positive `b`; a quotient beyond the doubles raises. -/
def intTrueDiv (a : Int) (b : Nat) : Except TraceError Int :=
  let q := trueDivInt a.natAbs b
  if q < 2 ^ 1024 then .ok (if a < 0 then -(q : Int) else q) else .error .overflowError

def cachelineBytes : Nat := 64

def atomicWriteBytes : Nat := 8

def getCachelineAddress (address : Int) : Except TraceError Int := do
  let q ← intTrueDiv address cachelineBytes
  .ok (q * cachelineBytes)

/-! ### Operations -/

/-- The fields of a `Store` beside its id, thread and source line. -/
structure StoreBody where
  address : Int
  size : Int
  value : List (List Char)
  valueBytes : List UInt8
  deriving DecidableEq, Repr

inductive OpBody where
  | txStart
  | txEnd
  | fence
  | pmdkCall (funcName note : List Char)
  | pmdkTXAdd (address size : Int)
  | pmdkTXAlloc (address size : Int)
  | store (body : StoreBody)
  | flush (addressNotAligned address : Int)
  deriving DecidableEq, Repr

structure TraceOp where
  id : Int
  tid : Int
  srcInfo : List Char
  body : OpBody
  deriving DecidableEq, Repr

/-- A `TXStart` or a `TXEnd`. -/
def OpBody.isBoundary : OpBody → Bool
  | .txStart | .txEnd => true
  | _ => false

/-! ### Fields -/

/-- `strs[i]`. -/
def item (strs : List (List Char)) (i : Nat) : Except TraceError (List Char) :=
  match strs[i]? with
  | some str => .ok str
  | none => .error .indexError

/-- `int(strs[i], base)`. -/
def intItem (table : CharTable) (base : Nat) (strs : List (List Char)) (i : Nat) : Except TraceError Int := do
  let str ← item strs i
  match int table base str with
  | some n => .ok n
  | none => .error .valueError

/-! ### Stores -/

/-- The fields of a store line. -/
structure StoreParams where
  tid : Int
  address : Int
  size : Int
  value : List (List Char)
  srcInfo : List Char
  deriving DecidableEq, Repr

/-- A store of some of the bytes: the texts of the bytes are joined before they are read. -/
def StoreParams.store (p : StoreParams) (address size : Int) (value : List (List Char)) (id : Int) :
    Except TraceError TraceOp :=
  match fromHex value.flatten with
  | some valueBytes => .ok ⟨id, p.tid, p.srcInfo, .store ⟨address, size, value, valueBytes⟩⟩
  | none => .error .valueError

/-- The loop over whole words, `while curr_offset + ATOMIC_WRITE_BYTES <= size`; the fuel bounds its
iterations. Returns the stores, the next index and the offset reached. -/
def wordStores (p : StoreParams) : Nat → Int → Int → Except TraceError (List TraceOp × Int × Int)
  | 0, index, offset => .ok ([], index, offset)
  | fuel + 1, index, offset =>
      if offset + atomicWriteBytes ≤ p.size then do
        let atomicStore ← p.store (p.address + offset) atomicWriteBytes
          (slice p.value offset (offset + atomicWriteBytes)) index
        let (rest, index, offset) ← wordStores p fuel (index + 1) (offset + atomicWriteBytes)
        .ok (atomicStore :: rest, index, offset)
      else .ok ([], index, offset)

/-- The chunk before the first word boundary. An address that the division rounds leaves a chunk of any
size, a negative one included. -/
def firstStore (p : StoreParams) (low index : Int) : Except TraceError (List TraceOp × Int × Int) :=
  let high := low + atomicWriteBytes
  if p.address > low then do
    let sizeFirstChunk := min p.size (high - p.address)
    let atomicStore ← p.store p.address sizeFirstChunk (slice p.value 0 sizeFirstChunk) index
    .ok ([atomicStore], index + 1, high - p.address)
  else .ok ([], index, 0)

/-- The chunk after the last whole word. -/
def lastStore (p : StoreParams) (index offset : Int) : Except TraceError (List TraceOp) :=
  if p.size - offset > 0 then do
    let atomicStore ← p.store (p.address + offset) (p.size - offset) (slice p.value offset p.value.length) index
    .ok [atomicStore]
  else .ok []

/-- The atomic writes of a store, numbered from `index`. -/
def atomicStores (p : StoreParams) (index : Int) : Except TraceError (List TraceOp) := do
  let q ← intTrueDiv p.address atomicWriteBytes
  let (first, index, offset) ← firstStore p (q * atomicWriteBytes) index
  let (words, index, offset) ← wordStores p (p.size - offset).toNat index offset
  let last ← lastStore p index offset
  .ok (first ++ words ++ last)

def getStores (table : CharTable) (params : List (List Char)) (opCurrIndex atomicWriteOpCurrIndex : Int) :
    Except TraceError (TraceOp × List TraceOp) := do
  let tid ← intItem table 10 params 1
  let address ← intItem table 16 params 2
  let size ← intItem table 10 params 3
  let value ← item params 4
  let srcInfo ← item params 5
  let p : StoreParams := ⟨tid, address, size, value.splitOn ' ', srcInfo⟩
  let store ← p.store address size p.value opCurrIndex
  let atomicStoreList ← atomicStores p atomicWriteOpCurrIndex
  .ok (store, atomicStoreList)

/-! ### The loop over the lines -/

structure Trace where
  ops : List TraceOp
  opsTxRanges : List (Int × Int)
  atomicWriteOps : List TraceOp
  atomicWriteOpsTxRanges : List (Int × Int)
  deriving DecidableEq, Repr

/-- The local variables of `extract_operations`. -/
structure ScanState where
  trace : Trace
  opCurrIndex : Int
  opCurrTxStartIndex : Int
  atomicWriteOpCurrIndex : Int
  atomicWriteOpCurrTxStartIndex : Int
  deriving DecidableEq, Repr

def ScanState.init : ScanState := ⟨⟨[], [], [], []⟩, 0, -1, 0, -1⟩

/-- The same operation appended to both lists, each with its own index. -/
def ScanState.append (s : ScanState) (tid : Int) (srcInfo : List Char) (body : OpBody) : ScanState :=
  { s with trace :=
    { s.trace with
      ops := s.trace.ops ++ [⟨s.opCurrIndex, tid, srcInfo, body⟩]
      atomicWriteOps := s.trace.atomicWriteOps ++ [⟨s.atomicWriteOpCurrIndex, tid, srcInfo, body⟩] } }

def scanStore (table : CharTable) (s : ScanState) (strs : List (List Char)) : Except TraceError ScanState := do
  let (store, atomicStoreList) ← getStores table strs s.opCurrIndex s.atomicWriteOpCurrIndex
  .ok { s with
    trace := { s.trace with
      ops := s.trace.ops ++ [store]
      atomicWriteOps := s.trace.atomicWriteOps ++ atomicStoreList }
    atomicWriteOpCurrIndex := s.atomicWriteOpCurrIndex + atomicStoreList.length - 1 }

def scanTXStart (table : CharTable) (s : ScanState) (strs : List (List Char)) : Except TraceError ScanState := do
  let tid ← intItem table 10 strs 1
  let srcInfo ← item strs 2
  let s := s.append tid srcInfo .txStart
  assert (s.opCurrTxStartIndex = -1)
  let s := { s with opCurrTxStartIndex := s.opCurrIndex }
  assert (s.atomicWriteOpCurrTxStartIndex = -1)
  .ok { s with atomicWriteOpCurrTxStartIndex := s.atomicWriteOpCurrIndex }

def scanTXEnd (table : CharTable) (s : ScanState) (strs : List (List Char)) : Except TraceError ScanState := do
  let tid ← intItem table 10 strs 1
  let srcInfo ← item strs 2
  let s := s.append tid srcInfo .txEnd
  assert (s.opCurrTxStartIndex ≠ -1)
  let s := { s with
    trace := { s.trace with opsTxRanges := s.trace.opsTxRanges ++ [(s.opCurrTxStartIndex, s.opCurrIndex)] }
    opCurrTxStartIndex := -1 }
  assert (s.atomicWriteOpCurrTxStartIndex ≠ -1)
  .ok { s with
    trace := { s.trace with atomicWriteOpsTxRanges :=
      s.trace.atomicWriteOpsTxRanges ++ [(s.atomicWriteOpCurrTxStartIndex, s.atomicWriteOpCurrIndex)] }
    atomicWriteOpCurrTxStartIndex := -1 }

/-- The fields of a line that is neither a store nor a transaction boundary. -/
def plainFields (table : CharTable) (opType : List Char) (strs : List (List Char)) :
    Except TraceError (Int × List Char × OpBody) :=
  if opType = "Flush".toList then do
    let tid ← intItem table 10 strs 1
    let address ← intItem table 16 strs 2
    let srcInfo ← item strs 3
    let cacheline ← getCachelineAddress address
    .ok (tid, srcInfo, .flush address cacheline)
  else if opType = "Fence".toList then do
    let tid ← intItem table 10 strs 1
    let srcInfo ← item strs 2
    .ok (tid, srcInfo, .fence)
  else if opType = "TXAlloc".toList then do
    let tid ← intItem table 10 strs 1
    let address ← intItem table 16 strs 2
    let size ← intItem table 10 strs 3
    let srcInfo ← item strs 4
    .ok (tid, srcInfo, .pmdkTXAlloc address size)
  else if opType = "TXAdd".toList then do
    let tid ← intItem table 10 strs 1
    let address ← intItem table 16 strs 2
    let size ← intItem table 10 strs 3
    let srcInfo ← item strs 4
    .ok (tid, srcInfo, .pmdkTXAdd address size)
  else do
    let tid ← intItem table 10 strs 1
    let srcInfo ← item strs 2
    let note ← item strs 3
    .ok (tid, srcInfo, .pmdkCall opType note)

def scanPlain (table : CharTable) (s : ScanState) (opType : List Char) (strs : List (List Char)) :
    Except TraceError ScanState := do
  let (tid, srcInfo, body) ← plainFields table opType strs
  .ok (s.append tid srcInfo body)

def scanType (table : CharTable) (s : ScanState) (opType : List Char) (strs : List (List Char)) :
    Except TraceError ScanState :=
  if opType = "Store".toList then scanStore table s strs
  else if opType = "TXStart".toList then scanTXStart table s strs
  else if opType = "TXEnd".toList then scanTXEnd table s strs
  else scanPlain table s opType strs

/-- One iteration of the loop of `extract_operations`. -/
def scanEntry (table : CharTable) (s : ScanState) (entry : List Char) : Except TraceError ScanState := do
  let strs := entry.splitOn ','
  let opType ← item strs 0
  let s ← scanType table s opType strs
  .ok { s with
    opCurrIndex := s.opCurrIndex + 1
    atomicWriteOpCurrIndex := s.atomicWriteOpCurrIndex + 1 }

/-- `open(arg_trace).read().split("\n")[:-1]`. -/
def traceLines (text : List Char) : List (List Char) := ((TextLines.universalNewlines text).splitOn '\n').dropLast

/-- `WitcherTrace(arg_trace)` on the text of the file. -/
def witcherTrace (table : CharTable) (text : List Char) : Except TraceError Trace := do
  let s ← (traceLines text).foldlM (scanEntry table) ScanState.init
  .ok s.trace

end Witcher.TraceText
