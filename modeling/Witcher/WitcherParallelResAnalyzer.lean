import Mathlib.Data.List.Dedup
import Mathlib.Data.List.Sort
import Witcher.DecimalText
import Witcher.Grouping
import Witcher.MemoryOperations
import Witcher.TextLines
import Witcher.TextSearch

/-! The analysis of the reported crash plans (`engines/witcherparallel/witcherparallelresanalyzer.py`):
the plans are grouped by the type of their transaction and by the transaction, the transactions of a
type by the basic blocks that they run, and a summary counts the plans of every group. -/

namespace Witcher

open PythonText TextSearch

structure ReportedCrashPoint where
  fileName : List Char
  txId : Int
  fenceOp : Op
  storeOp : Op
  outputDiff : String
  deriving DecidableEq, Repr

structure ResInOneTx where
  txId : Int
  txType : Char
  reportedCrashPoints : List ReportedCrashPoint
  deriving DecidableEq, Repr

def ResInOneTx.new (txId : Int) (txType : Char) : ResInOneTx := ⟨txId, txType, []⟩

def ResInOneTx.addCrashPoint (res : ResInOneTx) (crashPoint : ReportedCrashPoint) : ResInOneTx :=
  { res with reportedCrashPoints := res.reportedCrashPoints ++ [crashPoint] }

/-- `res_tx_type_map[tx_type][tx_id]`. -/
abbrev ResTxTypeMap := Dict Char (Dict Int ResInOneTx)

/-- `classify_res[tx_type][bb_key]`. -/
abbrev ClassifyRes := Dict Char (Dict (List Char) (List ResInOneTx))

inductive AnalysisError where
  | valueError
  | indexError
  | keyError
  | assertionError
  | fileNotFoundError
  deriving DecidableEq, Repr

/-- What the analyzer reads: the operations of the pickled trace, the file of the run operations, the file
of basic blocks of each transaction and the pickled results. -/
structure WitcherParallelResAnalyzer where
  table : CharTable
  atomicWriteOps : List Op
  opFile : List Char
  bbFiles : Int → Option (List Char)
  reportedPriority : List (Dict String (Dict String (List (List Char))))

namespace WitcherParallelResAnalyzer

/-! ### Reading the inputs -/

/-- `l[i]`. -/
def getItem {α : Type} (l : List α) (i : Int) : Except AnalysisError α :=
  match if i < 0 then (if i + l.length < 0 then none else l[(i + l.length).toNat]?) else l[i.toNat]? with
  | some a => .ok a
  | none => .error .indexError

def toInt (table : CharTable) (text : List Char) : Except AnalysisError Int :=
  match int table 10 text with
  | some i => .ok i
  | none => .error .valueError

/-- `str(i)`. -/
def str : Int → List Char
  | .ofNat n => DecimalText.str n
  | .negSucc n => '-' :: DecimalText.str (n + 1)

/-- `open(f).read().split("\n")[:-1]`. -/
def readLines (text : List Char) : List (List Char) := ((TextLines.universalNewlines text).splitOn '\n').dropLast

/-- The type of a transaction is the first character of its operation. -/
def initTxTypeList (a : WitcherParallelResAnalyzer) : Except AnalysisError (List Char) :=
  (readLines a.opFile).mapM fun tx => getItem tx 0

/-- `path/pm.img-txid-fenceid-storeid-output`, cut into its numbers. -/
def parseCrashPlan (a : WitcherParallelResAnalyzer) (crashPlan : List Char) : Except AnalysisError (List Int) :=
  let startIndex := find ['p', 'm', '.', 'i', 'm', 'g'] crashPlan
  let crashPlan := slice crashPlan (startIndex + 7) crashPlan.length
  let endIndex := find ['o', 'u', 't', 'p', 'u', 't'] crashPlan
  let crashPlan := slice crashPlan 0 (endIndex - 1)
  (crashPlan.splitOn '-').mapM (toInt a.table)

/-- `tx_id, fence_id, store_id = ret`. -/
def unpack : List Int → Except AnalysisError (Int × Int × Int)
  | [txId, fenceId, storeId] => .ok (txId, fenceId, storeId)
  | _ => .error .valueError

/-- The block numbers of a transaction, sorted and without duplicates. -/
def getBBKey (a : WitcherParallelResAnalyzer) (txId : Int) : Except AnalysisError (List Char) :=
  match a.bbFiles txId with
  | none => .error .fileNotFoundError
  | some text => do
      let bbs ← (readLines text).mapM (toInt a.table)
      .ok ((bbs.dedup.insertionSort (· ≤ ·)).flatMap fun bb => str bb ++ [','])

/-! ### The names of plans -/

/-- The name that the validator gives to the output of a crash state. -/
def crashPlanName (path : List Char) (txId fenceId storeId : Nat) : List Char :=
  path ++ '/' :: (['p', 'm', '.', 'i', 'm', 'g'] ++ '-' :: ((DecimalText.str txId ++ '-' :: (DecimalText.str fenceId ++
    '-' :: DecimalText.str storeId)) ++ '-' :: ['o', 'u', 't', 'p', 'u', 't']))

theorem toInt_str (table : CharTable) (n : Nat) : toInt table (DecimalText.str n) = .ok (n : Int) := by
  rw [toInt, DecimalText.int_str]

theorem slice_from {α : Type} (front back : List α) {i : Int} (hi : i = front.length) :
    slice (front ++ back) i (front ++ back).length = back := by
  rw [hi, slice_natCast, List.take_length, List.drop_left]

/-- The numbers of a plan are read back from its name. -/
theorem parseCrashPlan_crashPlanName (a : WitcherParallelResAnalyzer) {path : List Char}
    (hpath : ¬['p', 'm', '.', 'i', 'm', 'g'] <:+: path) (txId fenceId storeId : Nat) :
    a.parseCrashPlan (crashPlanName path txId fenceId storeId) = .ok [(txId : Int), (fenceId : Int), (storeId : Int)] := by
  let ids := DecimalText.str txId ++ '-' :: (DecimalText.str fenceId ++ '-' :: DecimalText.str storeId)
  have hletter : 'o' ∉ ids := by
    simp only [ids, List.mem_append, List.mem_cons, not_or]
    have hstr := fun n => DecimalText.not_mem_str_of_not_isDigit (n := n) (by decide : ('o' : Char).isDigit = false)
    exact ⟨hstr txId, by decide, hstr fenceId, by decide, hstr storeId⟩
  have hstart : find ['p', 'm', '.', 'i', 'm', 'g'] (crashPlanName path txId fenceId storeId) = path.length + 1 :=
    find_pattern (by decide) hpath _
  have hback : slice (crashPlanName path txId fenceId storeId) (path.length + 1 + 7)
      (crashPlanName path txId fenceId storeId).length = ids ++ '-' :: ['o', 'u', 't', 'p', 'u', 't'] := by
    have hsplit : crashPlanName path txId fenceId storeId = (path ++ ['/', 'p', 'm', '.', 'i', 'm', 'g', '-']) ++
        (ids ++ '-' :: ['o', 'u', 't', 'p', 'u', 't']) := by simp [crashPlanName, ids]
    rw [hsplit]
    exact slice_from _ _ (by simp; omega)
  have hstop : find ['o', 'u', 't', 'p', 'u', 't'] (ids ++ '-' :: ['o', 'u', 't', 'p', 'u', 't']) = ids.length + 1 :=
    find_pattern (by decide) (not_infix_of_not_mem (by decide) hletter) []
  have hids : slice (ids ++ '-' :: ['o', 'u', 't', 'p', 'u', 't']) 0 (ids.length + 1 - 1) = ids := by
    rw [Int.add_sub_cancel]
    exact (slice_natCast _ 0 ids.length).trans (by rw [List.take_left, List.drop_zero])
  rw [parseCrashPlan, hstart, hback, hstop, hids, DecimalText.splitOn_three '-' (by decide)]
  simp only [List.mapM_cons, List.mapM_nil, toInt_str, Loops.ok_bind]
  rfl

/-! ### Grouping the plans -/

def addCrashPoint (m : ResTxTypeMap) (txType : Char) (crashPoint : ReportedCrashPoint) : ResTxTypeMap :=
  m.modify txType .empty fun byTx =>
    byTx.modify crashPoint.txId (.new crashPoint.txId txType) fun res => res.addCrashPoint crashPoint

def assertFence (op : Op) : Except AnalysisError Unit := if op.isFence then .ok () else .error .assertionError

def initResTxTypeMapFromCrashPlan (a : WitcherParallelResAnalyzer) (txTypeList : List Char) (m : ResTxTypeMap)
    (crashPlan : List Char) (outputDiff : String) : Except AnalysisError ResTxTypeMap := do
  let ret ← a.parseCrashPlan crashPlan
  let (txId, fenceId, _) ← unpack ret
  let fenceOp ← getItem a.atomicWriteOps fenceId
  assertFence fenceOp
  let storeOp := fenceOp
  let txType ← getItem txTypeList txId
  .ok (addCrashPoint m txType ⟨crashPlan, txId, fenceOp, storeOp, outputDiff⟩)

def initResTxTypeMap (a : WitcherParallelResAnalyzer) (txTypeList : List Char) : Except AnalysisError ResTxTypeMap :=
  a.reportedPriority.foldlM (fun m priorityTx =>
    priorityTx.entries.foldlM (fun m srcInfo =>
      srcInfo.2.entries.foldlM (fun m coreDump =>
        coreDump.2.foldlM (fun m crashPlan => a.initResTxTypeMapFromCrashPlan txTypeList m crashPlan coreDump.1) m) m) m)
    .empty

def classifyTx (a : WitcherParallelResAnalyzer) (txType : Char) (c : ClassifyRes) (res : Int × ResInOneTx) :
    Except AnalysisError ClassifyRes := do
  let bbKey ← a.getBBKey res.1
  .ok (c.modify txType .empty fun byKey => byKey.modify bbKey [] fun resList => resList ++ [res.2])

def classifyBasedOnBB (a : WitcherParallelResAnalyzer) (m : ResTxTypeMap) : Except AnalysisError ClassifyRes :=
  m.entries.foldlM (fun c byTx => byTx.2.entries.foldlM (a.classifyTx byTx.1) c) .empty

/-- `__init__` and the first step of `run`. -/
def classifyRes (a : WitcherParallelResAnalyzer) : Except AnalysisError ClassifyRes := do
  let txTypeList ← a.initTxTypeList
  let m ← a.initResTxTypeMap txTypeList
  a.classifyBasedOnBB m

end WitcherParallelResAnalyzer

/-! ### Counting -/

/-- The local variables of `print_classify_res_summary`. The third dictionary is asked for a key of blocks
and assigned at a transaction id. -/
structure SummaryTotals where
  perTxType : Dict Char Nat
  perBBKey : Dict (List Char) Nat
  perTxId : Dict (List Char ⊕ Int) Nat
  crashPlans : Nat
  txTypes : Nat
  bbKeys : Nat
  txIds : Nat

namespace SummaryTotals

def zero : SummaryTotals := ⟨.empty, .empty, .empty, 0, 0, 0, 0⟩

/-- `if bb_key not in d: d[tx_id] = 0`, then `d[tx_id] += length`. -/
def addTxId (d : Dict (List Char ⊕ Int) Nat) (bbKey : List Char) (txId : Int) (length : Nat) :
    Except AnalysisError (Dict (List Char ⊕ Int) Nat) :=
  let d := if (d.get? (.inl bbKey)).isNone then d.set (.inr txId) 0 else d
  match d.get? (.inr txId) with
  | some n => .ok (d.set (.inr txId) (n + length))
  | none => .error .keyError

def addRes (txType : Char) (bbKey : List Char) (t : SummaryTotals) (res : ResInOneTx) :
    Except AnalysisError SummaryTotals := do
  let length := res.reportedCrashPoints.length
  let perTxId ← addTxId t.perTxId bbKey res.txId length
  .ok { t with
    txIds := t.txIds + 1
    perTxType := t.perTxType.modify txType 0 (· + length)
    perBBKey := t.perBBKey.modify bbKey 0 (· + length)
    perTxId := perTxId
    crashPlans := t.crashPlans + length }

def addBBKey (txType : Char) (t : SummaryTotals) (byKey : List Char × List ResInOneTx) :
    Except AnalysisError SummaryTotals :=
  byKey.2.foldlM (addRes txType byKey.1) { t with bbKeys := t.bbKeys + 1 }

def addTxType (t : SummaryTotals) (byType : Char × Dict (List Char) (List ResInOneTx)) :
    Except AnalysisError SummaryTotals :=
  byType.2.entries.foldlM (addBBKey byType.1) { t with txTypes := t.txTypes + 1 }

def ofClassifyRes (c : ClassifyRes) : Except AnalysisError SummaryTotals := c.entries.foldlM addTxType zero

end SummaryTotals

/-! ### The summary -/

/-- The line of a `TX_ID`. -/
structure TxSummary where
  txId : Int
  crashPlans : Nat
  deriving DecidableEq, Repr

/-- The line of a `BB_KEY` and the lines of its transactions. -/
structure BBKeySummary where
  txIds : Nat
  crashPlans : Nat
  txs : List TxSummary
  deriving DecidableEq, Repr

/-- The line of a `TX_TYPE` and the lines of its keys. -/
structure TxTypeSummary where
  txType : Char
  bbKeys : Nat
  crashPlans : Nat
  keys : List BBKeySummary
  deriving DecidableEq, Repr

structure ResSummary where
  txTypes : Nat
  bbKeys : Nat
  txIds : Nat
  crashPlans : Nat
  types : List TxTypeSummary
  deriving DecidableEq, Repr

/-- `d[k]`. -/
def getKey {κ : Type} [DecidableEq κ] (d : Dict κ Nat) (k : κ) : Except AnalysisError Nat :=
  match d.get? k with
  | some n => .ok n
  | none => .error .keyError

namespace SummaryTotals

def txSummary (t : SummaryTotals) (res : ResInOneTx) : Except AnalysisError TxSummary := do
  .ok ⟨res.txId, ← getKey t.perTxId (.inr res.txId)⟩

def bbKeySummary (t : SummaryTotals) (byKey : List Char × List ResInOneTx) : Except AnalysisError BBKeySummary := do
  let crashPlans ← getKey t.perBBKey byKey.1
  let txs ← byKey.2.mapM t.txSummary
  .ok ⟨byKey.2.length, crashPlans, txs⟩

def txTypeSummary (t : SummaryTotals) (byType : Char × Dict (List Char) (List ResInOneTx)) :
    Except AnalysisError TxTypeSummary := do
  let crashPlans ← getKey t.perTxType byType.1
  let keys ← byType.2.entries.mapM t.bbKeySummary
  .ok ⟨byType.1, byType.2.entries.length, crashPlans, keys⟩

end SummaryTotals

/-- The numbers that are printed. -/
def resSummary (c : ClassifyRes) : Except AnalysisError ResSummary := do
  let t ← SummaryTotals.ofClassifyRes c
  let types ← c.entries.mapM t.txTypeSummary
  .ok ⟨t.txTypes, t.bbKeys, t.txIds, t.crashPlans, types⟩

/-! ### The written text -/

open WitcherParallelResAnalyzer (str)

def TxSummary.text (s : TxSummary) : List Char :=
  "\t\tTX_ID: ".toList ++ str s.txId ++ [':'] ++ " Total Crash Plans: ".toList ++ str s.crashPlans ++ ['\n']

def BBKeySummary.text (s : BBKeySummary) (bbKeyIndex : Nat) : List Char :=
  "\tBB_KEY ".toList ++ str bbKeyIndex ++ [':'] ++ " Total TX Ids: ".toList ++ str s.txIds ++
    " Total Crash Plans: ".toList ++ str s.crashPlans ++ ['\n'] ++ s.txs.flatMap TxSummary.text

def TxTypeSummary.text (s : TxTypeSummary) : List Char :=
  "TX_TYPE: ".toList ++ [s.txType] ++ " Total BB Keys: ".toList ++ str s.bbKeys ++
    " Total Crash Plans: ".toList ++ str s.crashPlans ++ ['\n'] ++ s.keys.zipIdx.flatMap (fun k => k.1.text k.2) ++ ['\n']

def ResSummary.text (s : ResSummary) : List Char :=
  "Total TX Types: ".toList ++ str s.txTypes ++ ['\n'] ++ "Total BB Keys: ".toList ++ str s.bbKeys ++ ['\n'] ++
    "Total TX Ids: ".toList ++ str s.txIds ++ ['\n'] ++ "Total Crash Plans: ".toList ++ str s.crashPlans ++ ['\n'] ++
    ['\n'] ++ s.types.flatMap TxTypeSummary.text

/-- The content of `res/classify_res_summary`. -/
def printClassifyResSummary (c : ClassifyRes) : Except AnalysisError (List Char) := do
  let s ← resSummary c
  .ok s.text

end Witcher
