import Witcher.OutputStream
import Witcher.Runtime

/-! The pass that turns a recorded trace into the text of the persistent memory trace
(`WitcherPMTrace.cpp`). It keeps the accesses to the persistent mapping and to a second mapping of it,
whose addresses are moved to the first, and the calls of traced functions. -/

namespace Witcher

open OutputStream

inductive PMTraceError where
  | assertion
  | outOfRange
  deriving DecidableEq, Repr

/-! ### Persistent mappings -/

structure Mappings where
  pmAddrStart : UInt64
  pmAddrEnd : UInt64
  pmAddrStartDup : UInt64
  pmAddrEndDup : UInt64
  deriving DecidableEq, Repr

namespace Mappings

/-- `pmSize` counts mebibytes. -/
def init (pmAddr pmSize : UInt64) : Mappings := ⟨pmAddr, pmAddr + pmSize * 1024 * 1024, 0, 0⟩

def inDup (m : Mappings) (addr : UInt64) : Bool := addr ≥ m.pmAddrStartDup && addr < m.pmAddrEndDup

def isPmAddr (m : Mappings) (addr : UInt64) : Bool := addr ≥ m.pmAddrStart && addr < m.pmAddrEnd || m.inDup addr

/-- An address of the second mapping as the address of the first. -/
def remap (m : Mappings) (addr : UInt64) : UInt64 :=
  if m.inDup addr then addr - m.pmAddrStartDup + m.pmAddrStart else addr

def processMmapEntry (m : Mappings) (entry : Entry) : Except PMTraceError Mappings :=
  if entry.address = 18446744073709551615 then .ok m
  else if entry.address = m.pmAddrStart then .ok m
  else if m.pmAddrStartDup ≠ 0 then .error .assertion
  else if m.pmAddrEndDup ≠ 0 then .error .assertion
  else .ok { m with pmAddrStartDup := entry.address, pmAddrEndDup := entry.address + entry.length }

end Mappings

/-! ### The entries -/

/-- An entry with the bytes that `StoreValueReader` delivers for it. -/
structure ReadEntry extends Entry where
  value : List UInt8
  value_length : type = .stType → value.length = length.toNat

/-- The lines of a file read with `std::getline`. -/
def getLines (text : List Char) : List (List Char) :=
  if (text.splitOn '\n').getLast? = some [] then (text.splitOn '\n').dropLast else text.splitOn '\n'

/-- What the pass is given: the source line of each instruction and the file of traced functions. -/
structure PMTraceInput where
  locateSrcInfo : UInt32 → List Char
  extTracingFunc : List Char

def PMTraceInput.extTracingFuncVector (I : PMTraceInput) : List (List Char) := getLines I.extTracingFunc

/-- The traced function of a call. The index is an `unsigned`. -/
def PMTraceInput.funcName (I : PMTraceInput) (entry : Entry) : Except PMTraceError (List Char) :=
  match I.extTracingFuncVector[(entry.length - 1).toUInt32.toNat]? with
  | some name => .ok name
  | none => .error .outOfRange

structure WitcherPMTrace where
  mappings : Mappings
  pmtraceOf : OStream
  deriving DecidableEq, Repr

namespace WitcherPMTrace

variable (I : PMTraceInput)

/-- The source line at the end of a line. -/
def printSrcInfo (out : OStream) (entry : Entry) : OStream := (out.puts [',']).puts (I.locateSrcInfo entry.id)

/-- `TXAlloc` and `TXAdd` print the address as it was recorded. -/
def printRange (opType : List Char) (out : OStream) (entry : Entry) : OStream :=
  let out := (out.puts opType).dec.num entry.tid.toNat
  let out := (out.puts [',']).hex.num entry.address.toNat
  let out := (out.puts [',']).dec.num entry.length.toNat
  (printSrcInfo I out entry).endl

def processTXAllocEntry (s : WitcherPMTrace) (entry : Entry) : WitcherPMTrace :=
  { s with pmtraceOf := printRange I "TXAlloc,".toList s.pmtraceOf entry }

def processTXAddEntry (s : WitcherPMTrace) (entry : Entry) : WitcherPMTrace :=
  { s with pmtraceOf := printRange I "TXAdd,".toList s.pmtraceOf entry }

/-- A type, the thread and the source line. -/
def printBare (opType : List Char) (out : OStream) (entry : Entry) : OStream :=
  printSrcInfo I ((out.puts opType).dec.num entry.tid.toNat) entry

def processFenceEntry (s : WitcherPMTrace) (entry : Entry) : WitcherPMTrace :=
  { s with pmtraceOf := (printBare I "Fence,".toList s.pmtraceOf entry).endl }

def processFlushEntry (s : WitcherPMTrace) (entry : Entry) : WitcherPMTrace :=
  if !s.mappings.isPmAddr entry.address then s
  else
    let addr := s.mappings.remap entry.address
    let out := (s.pmtraceOf.puts "Flush,".toList).dec.num entry.tid.toNat
    let out := (out.puts [',']).hex.num addr.toNat
    { s with pmtraceOf := (printSrcInfo I out entry).endl }

/-- The loop prints all bytes but the last with a blank. -/
def printValue (out : OStream) (value : List UInt8) (length : Nat) : OStream :=
  let out := (value.take (length - 1)).foldl (fun out b => (out.byte b).puts [' ']) out
  (value.drop (length - 1)).foldl OStream.byte out

def processStoreEntry (s : WitcherPMTrace) (entry : ReadEntry) : WitcherPMTrace :=
  if !s.mappings.isPmAddr entry.address then s
  else if entry.length = 0 then s
  else
    let addr := s.mappings.remap entry.address
    let out := (s.pmtraceOf.puts "Store,".toList).dec.num entry.tid.toNat
    let out := (out.puts [',']).hex.num addr.toNat
    let out := ((out.puts [',']).dec.num entry.length.toNat).puts [',']
    let out := printValue out entry.value entry.length.toNat
    { s with pmtraceOf := (printSrcInfo I out entry.toEntry).endl }

/-- A traced function with the note that tells its call from its return. -/
def printCall (funcName note : List Char) (out : OStream) (entry : Entry) : OStream :=
  let out := ((out.puts funcName).puts [',']).dec.num entry.tid.toNat
  ((printSrcInfo I out entry).puts note).endl

def processRetEntry (s : WitcherPMTrace) (entry : Entry) : Except PMTraceError WitcherPMTrace :=
  if entry.length = 0 then .ok s
  else do
    let funcName ← I.funcName entry
    if funcName = "witcher_tx_begin".toList ∨ funcName = "witcher_tx_end".toList then .ok s
    else .ok { s with pmtraceOf := printCall I funcName ",end".toList s.pmtraceOf entry }

def processCallEntry (s : WitcherPMTrace) (entry : Entry) : Except PMTraceError WitcherPMTrace :=
  if entry.length = 0 then .ok s
  else do
    let funcName ← I.funcName entry
    if funcName = "witcher_tx_begin".toList then
      .ok { s with pmtraceOf := (printBare I "TXStart,".toList s.pmtraceOf entry).endl }
    else if funcName = "witcher_tx_end".toList then
      .ok { s with pmtraceOf := (printBare I "TXEnd,".toList s.pmtraceOf entry).endl }
    else .ok { s with pmtraceOf := printCall I funcName ",start".toList s.pmtraceOf entry }

def processEntry (s : WitcherPMTrace) (entry : ReadEntry) : Except PMTraceError WitcherPMTrace :=
  match entry.type with
  | .clType => processCallEntry I s entry.toEntry
  | .rtType => processRetEntry I s entry.toEntry
  | .stType => .ok (processStoreEntry I s entry)
  | .flType => .ok (processFlushEntry I s entry.toEntry)
  | .feType => .ok (processFenceEntry I s entry.toEntry)
  | .txaddType => .ok (processTXAddEntry I s entry.toEntry)
  | .txallocType => .ok (processTXAllocEntry I s entry.toEntry)
  | .mmapType => do
      let mappings ← s.mappings.processMmapEntry entry.toEntry
      .ok { s with mappings := mappings }
  | .bbType | .ldType | .enType | .pdType | .other _ => .ok s

end WitcherPMTrace

/-- The end record, or the zeros after the last entry of a file without one. -/
def Entry.isEnd (entry : Entry) : Bool :=
  entry.type = .enType ||
    entry.type = .other 0 && entry.id = 0 && entry.tid = 0 && entry.address = 0 && entry.length = 0

namespace WitcherPMTrace

/-- The loop over the entries of the trace file. -/
def runEntries (I : PMTraceInput) (s : WitcherPMTrace) : List ReadEntry → Except PMTraceError WitcherPMTrace
  | [] => .ok s
  | entry :: entries => do
      let s ← processEntry I s entry
      if entry.isEnd then .ok s else runEntries I s entries

/-- The text of the output file. -/
def run (I : PMTraceInput) (mappings : Mappings) (entries : List ReadEntry) : Except PMTraceError (List Char) := do
  let s ← runEntries I ⟨mappings, OStream.empty⟩ entries
  .ok s.pmtraceOf.text

end WitcherPMTrace

end Witcher
