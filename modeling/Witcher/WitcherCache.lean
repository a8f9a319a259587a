import Mathlib.Logic.Function.Basic
import Witcher.Bytes
import Witcher.Dict
import Witcher.PythonText
import Witcher.WitcherTrace

/-! The replay cache (`engines/witcher/witchercache.py`, `binaryfile.py`). A cacheline holds its
stores in program order until they are written back; the file and the `flushed` fields of the store
objects are shared by all lines and kept in the heap. -/

namespace Witcher

/-! ### The mapped file -/

/-- `written` is the debug record of `do_store`: the ids of the stores written, in order. -/
structure BinaryFile where
  mapBase : Nat
  fileMap : List UInt8
  written : List Nat
  deriving DecidableEq, Repr

/-- A file just mapped: nothing has been written through it. -/
def BinaryFile.new (mapBase : Nat) (fileMap : List UInt8) : BinaryFile := ⟨mapBase, fileMap, []⟩

/-- `_file_map[base_off:max_off] = value_bytes`, which raises on a length mismatch. -/
def BinaryFile.doStore (f : BinaryFile) (st : Store) : Except ReplayError BinaryFile :=
  let baseOff := sliceBound f.fileMap.length ((st.address : Int) - f.mapBase)
  let maxOff := sliceBound f.fileMap.length ((st.address + st.size : Int) - f.mapBase)
  if st.valueBytes.length = maxOff - baseOff then
    .ok { f with
      fileMap := Bytes.patch f.fileMap baseOff st.valueBytes
      written := f.written ++ [st.id] }
  else .error .indexError

/-- What the cachelines refer to: the file and the `flushed` field of each store, by id. -/
structure Heap where
  binaryFile : BinaryFile
  flushed : Nat → Flushed

def Heap.isClear (h : Heap) (st : Store) : Bool := h.flushed st.id = .clear

def Heap.isFlushing (h : Heap) (st : Store) : Bool := h.flushed st.id = .flushing

def Heap.isFenced (h : Heap) (st : Store) : Bool := h.flushed st.id = .fenced

def Heap.doStore (h : Heap) (st : Store) : Except ReplayError Heap := do
  let f ← h.binaryFile.doStore st
  .ok { h with binaryFile := f }

def Heap.acceptFlush (h : Heap) (st : Store) : Except ReplayError Heap := do
  let f ← (h.flushed st.id).acceptFlush
  .ok { h with flushed := Function.update h.flushed st.id f }

def Heap.acceptFence (h : Heap) (st : Store) : Except ReplayError Heap := do
  let f ← (h.flushed st.id).acceptFence
  .ok { h with flushed := Function.update h.flushed st.id f }

/-! ### Cachelines -/

structure WitcherCacheline where
  address : Nat
  size : Nat
  storesList : List Store
  deriving DecidableEq, Repr

namespace WitcherCacheline

def canAcceptStoreOp (l : WitcherCacheline) (st : Store) : Bool :=
  l.address ≤ st.address && st.address + st.size ≤ l.address + l.size

def canAcceptFlushOp (l : WitcherCacheline) (f : Flush) : Bool :=
  l.address = f.address && l.size = f.size

def acceptStore (l : WitcherCacheline) (st : Store) : Except ReplayError WitcherCacheline := do
  assert (l.canAcceptStoreOp st)
  .ok { l with storesList := l.storesList ++ [st] }

def acceptFlush (l : WitcherCacheline) (f : Flush) (h : Heap) : Except ReplayError Heap := do
  assert (l.canAcceptFlushOp f)
  l.storesList.foldlM Heap.acceptFlush h

/-- Write the flushing stores to the file, mark them fenced and keep the clear ones. -/
def writeBackAllFlushingStores (h : Heap) (l : WitcherCacheline) : Except ReplayError (Heap × WitcherCacheline) := do
  let h ← l.storesList.foldlM (fun h st => do
    if h.isFlushing st then
      let h ← h.doStore st
      h.acceptFence st
    else .ok h) h
  .ok (h, { l with storesList := l.storesList.filter h.isClear })

/-- Write every store to the file and mark it fenced. -/
def writeBackAllStores (h : Heap) (l : WitcherCacheline) : Except ReplayError (Heap × WitcherCacheline) := do
  let h ← l.storesList.foldlM (fun h st => do
    let h ← h.doStore st
    h.acceptFence st) h
  .ok (h, { l with storesList := [] })

/-- The plan's store and the stores of the line before it; raises if the line does not hold it.
Stores are compared by identity. -/
def getStoresFromCrashPlan (l : WitcherCacheline) (plan : Store) : Except ReplayError (List Store) := do
  assert (l.canAcceptStoreOp plan)
  match l.storesList.findIdx? (fun st => st.id = plan.id) with
  | some i => .ok (l.storesList.take (i + 1))
  | none => .error .valueError

def isEmpty (l : WitcherCacheline) : Bool := l.storesList.length = 0

end WitcherCacheline

/-! ### The cache -/

structure WitcherCache where
  cachelineDict : Dict Nat WitcherCacheline
  heap : Heap

namespace WitcherCache

/-- A cache on a file, before any operation. -/
def new (f : BinaryFile) : WitcherCache := ⟨Dict.empty, f, fun _ => .clear⟩

/-- The cacheline of an address, created if there is none. -/
def getCachelineFromAddress (c : WitcherCache) (address : Nat) : Dict Nat WitcherCacheline × WitcherCacheline :=
  let cachelineAddress := getCachelineAddress address
  match c.cachelineDict.get? cachelineAddress with
  | some l => (c.cachelineDict, l)
  | none =>
      let l : WitcherCacheline := ⟨cachelineAddress, cachelineBytes, []⟩
      (c.cachelineDict.set cachelineAddress l, l)

def acceptStore (c : WitcherCache) (st : Store) : Except ReplayError WitcherCache := do
  let (d, l) := c.getCachelineFromAddress st.address
  let l ← l.acceptStore st
  .ok { c with cachelineDict := d.set (getCachelineAddress st.address) l }

def acceptFlush (c : WitcherCache) (f : Flush) : Except ReplayError WitcherCache := do
  let (d, l) := c.getCachelineFromAddress f.address
  let h ← l.acceptFlush f c.heap
  .ok ⟨d, h⟩

/-- Returns whether the operation is a fence; the write-back at a fence is the caller's. -/
def accept (c : WitcherCache) : Op → Except ReplayError (Bool × WitcherCache)
  | .store st => do
      let c ← c.acceptStore st
      .ok (false, c)
  | .flush f => do
      let c ← c.acceptFlush f
      .ok (false, c)
  | .fence _ => .ok (true, c)
  | .pmdkCall _ | .pmdkTXAdd _ | .pmdkTXAlloc _ | .txStart _ | .txEnd _ => .ok (false, c)

/-- `del self.cacheline_dict[cacheline.address]`. -/
def delete (d : Dict Nat WitcherCacheline) (l : WitcherCacheline) :
    Except ReplayError (Dict Nat WitcherCacheline) :=
  if (d.get? l.address).isSome then .ok (d.erase l.address) else .error .keyError

def writeBackAllFlushingStores (c : WitcherCache) : Except ReplayError WitcherCache := do
  let (h, d) ← c.cachelineDict.traverse WitcherCacheline.writeBackAllFlushingStores c.heap
  let emptyCachelines := d.values.filter WitcherCacheline.isEmpty
  let d ← emptyCachelines.foldlM delete d
  .ok ⟨d, h⟩

def writeBackAllStores (c : WitcherCache) : Except ReplayError WitcherCache := do
  let (h, _) ← c.cachelineDict.traverse WitcherCacheline.writeBackAllStores c.heap
  .ok ⟨Dict.empty, h⟩

/-- Looking up the line of a plan may create it, so the cache is returned too. -/
def getStoresFromCrashPlan (c : WitcherCache) (plan : Store) : Except ReplayError (WitcherCache × List Store) := do
  let (d, l) := c.getCachelineFromAddress plan.address
  let stores ← l.getStoresFromCrashPlan plan
  .ok ({ c with cachelineDict := d }, stores)

def getCachelines (c : WitcherCache) : List WitcherCacheline := c.cachelineDict.values

/-- The stores of the line at `address` that are not written back. -/
def pending (c : WitcherCache) (address : Nat) : List Store :=
  match c.cachelineDict.get? address with
  | some l => l.storesList
  | none => []

/-! ### Driving the cache -/

/-- What the managers do with the cache: accept an operation, writing back after a fence, or write
back everything. -/
inductive Command where
  | accept (op : Op)
  | writeBackAllStores

/-- Accept an operation and write back the flushing stores if it is a fence. -/
def acceptAndWriteBack (c : WitcherCache) (op : Op) : Except ReplayError WitcherCache := do
  let (isFence, c) ← c.accept op
  if isFence then c.writeBackAllFlushingStores else .ok c

def exec (c : WitcherCache) : Command → Except ReplayError WitcherCache
  | .accept op => c.acceptAndWriteBack op
  | .writeBackAllStores => c.writeBackAllStores

def execAll (c : WitcherCache) (cmds : List Command) : Except ReplayError WitcherCache := cmds.foldlM exec c

end WitcherCache

end Witcher
