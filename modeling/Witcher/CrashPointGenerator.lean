import Mathlib.Data.List.Sort
import Mathlib.Logic.Function.Basic
import Witcher.MemoryOperations
import Witcher.WitcherTCEngine

/-! The crash points of the transaction engine (`engines/witchertx/crashpointgenerator.py`) and the loop that
replays a trace and validates them (`witchertxcrashmanager.py`). A unit goes over the operations of one Witcher
transaction; it counts the open PMDK transactions, and keeps the logged ranges and the stores since the last
`pmemobj_tx_begin`. -/

namespace Witcher.WitcherTx

open PythonText TraceText
open WitcherTCEngine (RangedOp)

def rangeContains (lhs rhs : RangedOp) : Bool :=
  lhs.getBaseAddress ≤ rhs.getBaseAddress && lhs.getMaxAddress ≥ rhs.getMaxAddress

/-- `isinstance(rangeable, PMDKTXAdd)`. -/
def isTXAdd (rangeable : RangedOp) : Bool :=
  match rangeable.op.body with
  | .pmdkTXAdd _ _ => true
  | _ => false

/-! ### Crash points -/

/-- An unlogged store is tested at the end of its PMDK transaction. Its list of stores is an object of the unit,
which may append to it later. -/
inductive CrashPoint where
  | noLogging (txEndOp : TraceOp) (storeWithoutLoggingList : Nat) (witcherTxIndex : Nat)
  | interTx (txEndOp : TraceOp) (witcherTxIndex : Nat)
  | noTx (witcherTxIndex : Nat) (storeOp : RangedOp)
  deriving DecidableEq, Repr

def CrashPoint.id : CrashPoint → Int
  | .noLogging txEndOp _ _ => txEndOp.id
  | .interTx txEndOp _ => txEndOp.id + 1
  | .noTx _ storeOp => storeOp.op.id

/-- What the generator reads of the belief database. -/
structure StoreBeliefs where
  isCriticalStore : RangedOp → Bool
  violateOrderingBelief : RangedOp → RangedOp → Bool

def StoreBeliefs.violateAtomicityBelief (beliefs : StoreBeliefs) (preSt sucSt : RangedOp) : Bool :=
  beliefs.isCriticalStore preSt && beliefs.isCriticalStore sucSt

/-! ### One Witcher transaction -/

/-- The attributes that every `pmemobj_tx_begin` sets anew. -/
structure PmdkTx where
  rangeableList : List RangedOp
  storeWithoutLoggingList : Nat
  storeList : List RangedOp
  deriving DecidableEq, Repr

/-- The lists of unlogged stores are objects, numbered as they are created. -/
structure GeneratorUnit where
  witcherTxIndex : Nat
  pmdkTxStack : Int
  pmdkTx : Option PmdkTx
  created : Nat
  objects : Nat → List RangedOp
  storeListByPmdkTx : List (TraceOp × List RangedOp)
  crashPointList : List CrashPoint
  doubleLoggingList : List (RangedOp × RangedOp)

namespace GeneratorUnit

def new (witcherTxIndex : Nat) : GeneratorUnit := ⟨witcherTxIndex, 0, none, 0, fun _ => [], [], [], []⟩

def acceptPmdkTxBegin (u : GeneratorUnit) : Except ReplayError GeneratorUnit := do
  assert (0 ≤ u.pmdkTxStack)
  .ok { u with
    pmdkTxStack := u.pmdkTxStack + 1
    pmdkTx := some ⟨[], u.created, []⟩
    created := u.created + 1
    objects := Function.update u.objects u.created [] }

def acceptPmdkTxEnd (u : GeneratorUnit) (op : TraceOp) : Except ReplayError GeneratorUnit := do
  assert (0 < u.pmdkTxStack)
  match u.pmdkTx with
  | none => .error .attributeError
  | some tx => .ok { u with
      pmdkTxStack := u.pmdkTxStack - 1
      crashPointList :=
        if 0 < (u.objects tx.storeWithoutLoggingList).length then
          u.crashPointList ++ [.noLogging op tx.storeWithoutLoggingList u.witcherTxIndex]
        else u.crashPointList
      storeListByPmdkTx := u.storeListByPmdkTx ++ [(op, tx.storeList)] }

def addToRangeableList (u : GeneratorUnit) (op : RangedOp) : Except ReplayError GeneratorUnit :=
  match u.pmdkTx with
  | none => .error .attributeError
  | some tx => .ok { u with
      doubleLoggingList :=
        if isTXAdd op then
          u.doubleLoggingList ++
            (tx.rangeableList.filter fun rangeable => isTXAdd rangeable && rangeable.rangeCmp op = 0).map fun rangeable =>
              (rangeable, op)
        else u.doubleLoggingList
      pmdkTx := some { tx with rangeableList := tx.rangeableList ++ [op] } }

def acceptStore (u : GeneratorUnit) (op : RangedOp) : Except ReplayError GeneratorUnit :=
  if u.pmdkTxStack = 0 then .ok { u with crashPointList := u.crashPointList ++ [.noTx u.witcherTxIndex op] }
  else
    match u.pmdkTx with
    | none => .error .attributeError
    | some tx => .ok { u with
        objects :=
          if tx.rangeableList.any fun rangeable => rangeContains rangeable op then u.objects
          else Function.update u.objects tx.storeWithoutLoggingList (u.objects tx.storeWithoutLoggingList ++ [op])
        pmdkTx := some { tx with storeList := tx.storeList ++ [op] } }

def accept (u : GeneratorUnit) (op : TraceOp) : Except ReplayError GeneratorUnit :=
  match op.body with
  | .pmdkCall funcName _ =>
      if funcName = "pmemobj_tx_begin".toList then u.acceptPmdkTxBegin
      else if funcName = "pmemobj_tx_end".toList then u.acceptPmdkTxEnd op
      else .ok u
  | .pmdkTXAdd address size => u.addToRangeableList ⟨op, address, size⟩
  | .pmdkTXAlloc address size => u.addToRangeableList ⟨op, address, size⟩
  | .store st => u.acceptStore ⟨op, st.address, st.size⟩
  | _ => .ok u

def generateIntraTx (witcherTxIndex : Nat) (ops : List TraceOp) : Except ReplayError GeneratorUnit :=
  ops.foldlM accept (new witcherTxIndex)

def getPmdkTxCount (u : GeneratorUnit) : Nat := u.storeListByPmdkTx.length

def generateInterTxHelper (beliefs : StoreBeliefs) (preTxStores sucTxStores : TraceOp × List RangedOp) : Bool :=
  preTxStores.2.any fun preSt => sucTxStores.2.any fun sucSt =>
    beliefs.violateAtomicityBelief preSt sucSt || beliefs.violateOrderingBelief preSt sucSt

/-- The sort of Python is stable. -/
def addCrashPointInOrder (crashPointList : List CrashPoint) (crashPoint : CrashPoint) : List CrashPoint :=
  (crashPointList ++ [crashPoint]).insertionSort fun x y => x.id ≤ y.id

/-- The loop over the PMDK transactions and the later ones, which it leaves at the first that succeeds. -/
def interTxLoop (beliefs : StoreBeliefs) (witcherTxIndex : Nat) :
    List (TraceOp × List RangedOp) → List CrashPoint → List CrashPoint
  | [], crashPointList => crashPointList
  | pre :: sucs, crashPointList =>
      interTxLoop beliefs witcherTxIndex sucs
        (if sucs.any (generateInterTxHelper beliefs pre) then
          addCrashPointInOrder crashPointList (.interTx pre.1 witcherTxIndex)
        else crashPointList)

def generateInterTx (u : GeneratorUnit) (beliefs : StoreBeliefs) : Except ReplayError GeneratorUnit := do
  assert (1 < u.getPmdkTxCount)
  .ok { u with crashPointList := interTxLoop beliefs u.witcherTxIndex u.storeListByPmdkTx u.crashPointList }

/-- The body of `run_units`. -/
def run (beliefs : StoreBeliefs) (witcherTxIndex : Nat) (ops : List TraceOp) : Except ReplayError GeneratorUnit := do
  let u ← generateIntraTx witcherTxIndex ops
  if 1 < u.getPmdkTxCount then u.generateInterTx beliefs else .ok u

end GeneratorUnit

/-! ### The whole trace -/

def createUnits (trace : Trace) : List (Nat × List TraceOp) :=
  trace.atomicWriteOpsTxRanges.zipIdx.map fun r => (r.2, PythonText.slice trace.atomicWriteOps (r.1.1 + 1) r.1.2)

def runUnits (beliefs : StoreBeliefs) (trace : Trace) : Except ReplayError (List GeneratorUnit) :=
  (createUnits trace).mapM fun unit => GeneratorUnit.run beliefs unit.1 unit.2

def getCrashPointList (beliefs : StoreBeliefs) (trace : Trace) : Except ReplayError (List CrashPoint) := do
  let units ← runUnits beliefs trace
  .ok (units.flatMap GeneratorUnit.crashPointList)

def getDoubleLoggingList (beliefs : StoreBeliefs) (trace : Trace) : Except ReplayError (List (RangedOp × RangedOp)) := do
  let units ← runUnits beliefs trace
  .ok (units.flatMap GeneratorUnit.doubleLoggingList)

/-! ### The replay -/

/-- A call of `crash_validator.validate`: the crash point, the operation the loop is at, and the cache. -/
structure Validation (σ : Type) where
  crashPoint : CrashPoint
  op : TraceOp
  cache : σ

section Replay

variable {σ : Type}

/-- The loop from an operation on. `crashPoints` are the crash points from `crash_point_index` on; the loop is
left with the last of them. -/
def runLoop (accept : σ → TraceOp → Except ReplayError σ) :
    List TraceOp → CrashPoint → List CrashPoint → σ → List (Validation σ) → Except ReplayError (List (Validation σ))
  | [], _, _, _, _ => .error .assertion
  | op :: ops, crashPoint, crashPoints, cache, validations =>
      if op.id = crashPoint.id then
        match crashPoints with
        | [] => .ok (validations ++ [⟨crashPoint, op, cache⟩])
        | next :: crashPoints => do
            let cache' ← accept cache op
            runLoop accept ops next crashPoints cache' (validations ++ [⟨crashPoint, op, cache⟩])
      else do
        let cache ← accept cache op
        runLoop accept ops crashPoint crashPoints cache validations

/-- `WitcherTxCrashManager.run`. Flushing the file and validating do not change the cache. When the operations
are exhausted there is a crash point left, and the final assertion fails. -/
def runManager (accept : σ → TraceOp → Except ReplayError σ) (cache : σ) (trace : Trace) (crashPointList : List CrashPoint) :
    Except ReplayError (List (Validation σ)) :=
  match crashPointList with
  | [] => .ok []
  | crashPoint :: crashPoints => runLoop accept trace.atomicWriteOps crashPoint crashPoints cache []

end Replay

end Witcher.WitcherTx
