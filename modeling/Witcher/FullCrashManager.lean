import Witcher.MixedRadix
import Witcher.WorkerReplay

/-! The exhaustive worker (`engines/witcherparallelfull`). At a fence it numbers the choices of a
leading part of each cached line in mixed radix; a global target is found by a running sum over the
fences and decoded into the stores to persist. -/

namespace Witcher

open Bytes Persistency TrueDivision WitcherCrashManager

/-- `int(a / b)` for a numerator of either sign. -/
def trueDivTrunc (a : Int) (b : Nat) : Int := a.sign * trueDivInt a.natAbs b

/-- A crash plan `[target, stores]` that was validated, with the file it was checked on. -/
structure FullCrashState where
  txIndex : Nat
  fenceIndex : Nat
  target : Nat
  pmFile : List UInt8
  deriving DecidableEq, Repr

/-! ### The validator -/

namespace WitcherFullCrashValidator

def addStoresToBePersisted (s : WitcherCache × List Store) (st : Store) :
    Except ReplayError (WitcherCache × List Store) := do
  let (c, line) ← s.1.getStoresFromCrashPlan st
  .ok (c, s.2 ++ line)

/-- The stores to be persisted for a plan: for each of its stores, the line up to it. -/
def storesToBePersisted (c : WitcherCache) (stores : List Store) :
    Except ReplayError (WitcherCache × List Store) :=
  stores.foldlM addStoresToBePersisted (c, [])

def constructCrashState (c : WitcherCache) (stores : List Store) :
    Except ReplayError (WitcherCache × List UInt8) := do
  let crashFile := BinaryFile.new c.heap.binaryFile.mapBase c.heap.binaryFile.fileMap
  if stores.length = 0 then .ok (c, crashFile.fileMap)
  else
    let (c, persisted) ← storesToBePersisted c stores
    let crashFile ← persisted.foldlM BinaryFile.doStore crashFile
    .ok (c, crashFile.fileMap)

/-- One iteration of `validate`. A plan without stores has no `src_info` to report. -/
def validatePlan (txIndex fenceIndex : Nat) (s : WitcherCache × List FullCrashState) (plan : Nat × List Store) :
    Except ReplayError (WitcherCache × List FullCrashState) := do
  let (c, pmFile) ← constructCrashState s.1 plan.2
  if plan.2.length = 0 then .error .attributeError
  else .ok (c, s.2 ++ [⟨txIndex, fenceIndex, plan.1, pmFile⟩])

def validate (c : WitcherCache) (txIndex fenceIndex : Nat) (plans : List (Nat × List Store)) :
    Except ReplayError (WitcherCache × List FullCrashState) :=
  plans.foldlM (validatePlan txIndex fenceIndex) (c, [])

end WitcherFullCrashValidator

/-! ### The manager -/

namespace WitcherParallelFullCrashManager

/-- The number of ways to persist a leading part of each line, not counting the empty one. -/
def permutationCount (c : WitcherCache) : Nat :=
  c.getCachelines.foldl (fun n l => n * (l.storesList.length + 1)) 1 - 1

/-- The loop over `reversed(range(0, len(digits)))` that replaces each digit by its weight. Returns
the weights and `last`. -/
def digitWeights : List Nat → List Nat × Nat
  | [] => ([], 1)
  | d :: ds =>
      let (ws, last) := digitWeights ds
      (last :: ws, last * d)

/-- The loop that reads off the digits of `count`. -/
def storesOfDigits : List (List Store) → List Nat → Int → Except ReplayError (List Store)
  | cacheline :: cachelines, w :: ws, count => do
      let currDigit := trueDivTrunc count w
      let here ←
        if currDigit > 0 then
          match cacheline[(currDigit - 1).toNat]? with
          | some st => .ok [st]
          | none => .error .indexError
        else .ok []
      let rest ← storesOfDigits cachelines ws (count % w)
      .ok (here ++ rest)
  | _, _, _ => .ok []

def getStoresFromTarget (c : WitcherCache) (target : Int) : Except ReplayError (List Store) :=
  let digits := c.getCachelines.map fun l => l.storesList.length + 1
  let cachelines := c.getCachelines.map (·.storesList)
  storesOfDigits cachelines (digitWeights digits).1 (target + 1)

/-- The local variables of `run_try_traget`, with what the validator was given. -/
structure TryState where
  cache : WitcherCache
  currPlanIndex : Nat
  permutationCount : Nat
  validated : List FullCrashState

/-- The loop of `run_try_traget`; it breaks when all targets are used up. -/
def tryLoop (txId : Nat) (crashTargets : List Nat) : TryState → List Op → Except ReplayError TryState
  | s, [] => .ok s
  | s, op :: ops => do
      let (isFence, c) ← s.cache.accept op
      if isFence then
        let lastPermutationCount := s.permutationCount
        let count := s.permutationCount + permutationCount c
        let targets := (crashTargets.drop s.currPlanIndex).takeWhile fun target => count > target
        let currPlanIndex := s.currPlanIndex + targets.length
        let crashPlans ← targets.mapM fun (target : Nat) => do
          let stores ← getStoresFromTarget c ((target : Int) - lastPermutationCount)
          .ok (target, stores)
        let (c, states) ← WitcherFullCrashValidator.validate c txId op.id crashPlans
        let c ← c.writeBackAllFlushingStores
        let s : TryState := ⟨c, currPlanIndex, count, s.validated ++ states⟩
        if currPlanIndex = crashTargets.length then .ok s else tryLoop txId crashTargets s ops
      else tryLoop txId crashTargets { s with cache := c } ops

/-- `run_before_target` is the one of `WitcherParallelCrashManager`, line for line. -/
def runBeforeTarget (trace : WitcherTrace) (txId : Nat) (c : WitcherCache) : Except ReplayError WitcherCache :=
  WitcherParallelCrashManager.runBeforeTarget trace txId c

def runTryTraget (trace : WitcherTrace) (txId : Nat) (crashTargets : List Nat) (c : WitcherCache) :
    Except ReplayError TryState := do
  let targetTxRange ← txRange trace txId
  tryLoop txId crashTargets ⟨c, 0, 0, []⟩ (slice trace.atomicWriteOps targetTxRange.1 targetTxRange.2)

end WitcherParallelFullCrashManager

/-! ### Choices -/

/-- How many of the pending stores of each line to persist, by line in the order of the cache. -/
def IsChoice (c : WitcherCache) (ks : List Nat) : Prop :=
  List.Forall₂ (fun k l => k ≤ l.storesList.length) ks c.getCachelines ∧ ∃ k ∈ ks, k ≠ 0

def choiceStores (lines : List (List Store)) (ks : List Nat) : List Store :=
  (List.zipWith (fun line k => line.take k) lines ks).flatten

/-- The file with the chosen leading parts on top. -/
def choiceImage (mapBase : Nat) (c : WitcherCache) (ks : List Nat) : List UInt8 :=
  applyWrites c.heap.binaryFile.fileMap
    ((choiceStores (c.getCachelines.map (·.storesList)) ks).map (Store.write mapBase))

/-- The last store of each nonempty part. -/
def choiceLast (lines : List (List Store)) (ks : List Nat) : List Store :=
  (List.zipWith (fun line k => (line.take k).getLast?.toList) lines ks).flatten

/-- The radix of each line: one more than its number of stores. -/
def radices (lines : List (List Store)) : List Nat := lines.map fun line => line.length + 1

namespace WitcherParallelFullCrashManager

theorem foldl_mul_eq (lines : List WitcherCacheline) (n : Nat) :
    lines.foldl (fun n l => n * (l.storesList.length + 1)) n = n * (radices (lines.map (·.storesList))).prod := by
  induction lines generalizing n with
  | nil => simp [radices]
  | cons l lines ih =>
      rw [List.foldl_cons, ih]
      simp [radices, Nat.mul_assoc]

theorem permutationCount_eq (c : WitcherCache) :
    permutationCount c = (radices (c.getCachelines.map (·.storesList))).prod - 1 := by
  rw [permutationCount, foldl_mul_eq, Nat.one_mul]

theorem radices_prod_pos (lines : List (List Store)) : 0 < (radices lines).prod := by
  induction lines with
  | nil => simp [radices]
  | cons line lines ih =>
      rw [radices, List.map_cons, List.prod_cons]
      exact Nat.mul_pos (Nat.succ_pos _) ih

theorem digitWeights_eq (ds : List Nat) : digitWeights ds = (MixedRadix.weights ds, ds.prod) := by
  induction ds with
  | nil => rfl
  | cons d ds ih => rw [digitWeights, ih, MixedRadix.weights, List.prod_cons, Nat.mul_comm]

theorem trueDivTrunc_natCast {n b : Nat} (hb : 0 < b) (hn : n < 2 ^ 53) : trueDivTrunc n b = ((n / b : Nat) : Int) := by
  rw [trueDivTrunc, Int.natAbs_natCast, trueDivInt_eq_div n b hb hn]
  cases n with
  | zero => simp
  | succ n => rw [Int.sign_natCast_of_ne_zero (Nat.succ_ne_zero n), Int.one_mul]

/-- The loop picks, on each line, the store its digit points at. -/
theorem storesOfDigits_eq (lines : List (List Store)) {n : Nat} (hn : n < (radices lines).prod) (hexact : n < 2 ^ 53) :
    storesOfDigits lines (MixedRadix.weights (radices lines)) n =
      .ok (choiceLast lines (MixedRadix.digits (radices lines) n)) := by
  induction lines generalizing n with
  | nil => rfl
  | cons cacheline lines ih =>
      have hpos := radices_prod_pos lines
      have hmod : n % (radices lines).prod < (radices lines).prod := Nat.mod_lt n hpos
      have hrest := ih hmod (by have := Nat.mod_le n (radices lines).prod; omega)
      have hdigit : n / (radices lines).prod < cacheline.length + 1 := by
        rw [radices, List.map_cons, List.prod_cons, ← radices] at hn
        exact (Nat.div_lt_iff_lt_mul hpos).mpr hn
      have hcons : radices (cacheline :: lines) = (cacheline.length + 1) :: radices lines := rfl
      rw [hcons, MixedRadix.weights, MixedRadix.digits, storesOfDigits, trueDivTrunc_natCast hpos hexact,
        ← Int.natCast_emod, hrest]
      simp only [Loops.ok_bind, choiceLast, List.zipWith_cons_cons, List.flatten_cons]
      generalize n / (radices lines).prod = k at hdigit
      cases k with
      | zero => simp
      | succ k =>
          have hget : cacheline[k]? = some cacheline[k] := List.getElem?_eq_getElem (by omega)
          have hlast : (cacheline.take (k + 1)).getLast? = some cacheline[k] := by
            rw [List.getLast?_take, if_neg (Nat.succ_ne_zero k), Nat.add_sub_cancel, hget]
            rfl
          have hindex : (((k + 1 : Nat) : Int) - 1).toNat = k := by omega
          rw [if_pos (by omega), hindex, hget, hlast]
          rfl

end WitcherParallelFullCrashManager

end Witcher
