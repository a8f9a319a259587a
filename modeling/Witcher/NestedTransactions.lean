import Mathlib.Data.List.Induction
import Mathlib.Data.List.Infix
import Witcher.CrashPointGenerator
import Witcher.OpenSpans

/-! What a unit of the crash point generator reports of nested PMDK transactions. All of its lists start anew at
every `pmemobj_tx_begin` and are kept at every `pmemobj_tx_end`, so they are about the last begin and not about
the outermost transaction; and every end up to the next begin adds the stores since the last one once more. -/

namespace Witcher.WitcherTx

open OpenSpans PythonText TraceText
open WitcherTCEngine (RangedOp)

/-! ### The operations of a transaction -/

/-- What a unit does with an operation. -/
inductive TxKind where
  | txBegin
  | txEnd
  | log (r : RangedOp)
  | store (r : RangedOp)
  | other
  deriving DecidableEq, Repr

def kind (op : TraceOp) : TxKind :=
  match op.body with
  | .pmdkCall funcName _ =>
      if funcName = "pmemobj_tx_begin".toList then .txBegin
      else if funcName = "pmemobj_tx_end".toList then .txEnd
      else .other
  | .pmdkTXAdd address size => .log ⟨op, address, size⟩
  | .pmdkTXAlloc address size => .log ⟨op, address, size⟩
  | .store st => .store ⟨op, st.address, st.size⟩
  | _ => .other

theorem op_eq_of_kind_log {op : TraceOp} {r : RangedOp} (h : kind op = .log r) : r.op = op := by
  unfold kind at h
  split at h <;> (try split_ifs at h) <;> cases h <;> rfl

theorem op_eq_of_kind_store {op : TraceOp} {r : RangedOp} (h : kind op = .store r) : r.op = op := by
  unfold kind at h
  split at h <;> (try split_ifs at h) <;> cases h
  rfl

/-- The range that an operation logs. -/
def TxKind.logged : TxKind → Option RangedOp
  | .log r => some r
  | _ => none

theorem TxKind.logged_eq_some {k : TxKind} {r : RangedOp} : k.logged = some r ↔ k = .log r := by
  cases k <;> simp [logged]

def begins (ops : List TraceOp) : Nat := ops.countP fun op => kind op = .txBegin

def ends (ops : List TraceOp) : Nat := ops.countP fun op => kind op = .txEnd

/-- By how much an operation changes the number of open PMDK transactions. -/
def TxKind.delta : TxKind → Int
  | .txBegin => 1
  | .txEnd => -1
  | _ => 0

/-- The number of open PMDK transactions. -/
def depth (ops : List TraceOp) : Int := OpenSpans.depth (fun op => (kind op).delta) ops

theorem begins_concat (done : List TraceOp) (op : TraceOp) :
    begins (done ++ [op]) = begins done + if kind op = .txBegin then 1 else 0 := by
  simp [begins, List.countP_append, List.countP_singleton]

theorem ends_concat (done : List TraceOp) (op : TraceOp) :
    ends (done ++ [op]) = ends done + if kind op = .txEnd then 1 else 0 := by
  simp [ends, List.countP_append, List.countP_singleton]

theorem depth_concat (done : List TraceOp) (op : TraceOp) :
    depth (done ++ [op]) = depth done + (if kind op = .txBegin then 1 else 0) - (if kind op = .txEnd then 1 else 0) := by
  rw [depth, OpenSpans.depth_concat, ← depth]
  cases kind op <;> simp [TxKind.delta, Int.sub_eq_add_neg]

theorem depth_eq (ops : List TraceOp) : depth ops = begins ops - ends ops := by
  induction ops using List.reverseRecOn with
  | nil => rfl
  | append_singleton ops op ih =>
      rw [depth_concat, ih, begins_concat, ends_concat]
      push_cast
      omega

/-- The begins and ends are balanced. -/
structure Balanced (ops : List TraceOp) : Prop where
  low : ∀ front, front <+: ops → 0 ≤ depth front
  closed : depth ops = 0

theorem balanced_iff {ops : List TraceOp} : Balanced ops ↔ (∀ front ∈ ops.inits, 0 ≤ depth front) ∧ depth ops = 0 := by
  simp only [List.mem_inits]
  exact ⟨fun h => ⟨h.low, h.closed⟩, fun h => ⟨h.1, h.2⟩⟩

instance (ops : List TraceOp) : Decidable (Balanced ops) := decidable_of_iff _ balanced_iff.symm

/-! ### Places in the list -/

theorem begins_le {ops front : List TraceOp} (h : front <+: ops) : begins front ≤ begins ops :=
  h.sublist.countP_le

theorem ends_le {ops front : List TraceOp} (h : front <+: ops) : ends front ≤ ends ops :=
  h.sublist.countP_le

/-- The property holds at some place since the last begin. -/
def Recent (P : List TraceOp → TraceOp → Prop) (done : List TraceOp) : Prop :=
  ∃ front op, At done front op ∧ P front op ∧ begins front = begins done

theorem not_recent_begin {P : List TraceOp → TraceOp → Prop} {done : List TraceOp} {op : TraceOp} (hop : kind op = .txBegin)
    (hP : ¬P done op) : ¬Recent P (done ++ [op]) := by
  rintro ⟨front, x, hat, hx, hbegins⟩
  rcases at_concat.mp hat with hat | ⟨rfl, rfl⟩
  · have hle := begins_le hat.front
    rw [begins_concat, if_pos hop] at hbegins
    omega
  · exact hP hx

theorem recent_concat {P : List TraceOp → TraceOp → Prop} {done : List TraceOp} {op : TraceOp} (hop : kind op ≠ .txBegin) :
    Recent P (done ++ [op]) ↔ Recent P done ∨ P done op := by
  simp only [Recent, at_concat, begins_concat, if_neg hop, Nat.add_zero]
  constructor
  · rintro ⟨front, x, hat | ⟨rfl, rfl⟩, hP, hbegins⟩
    · exact .inl ⟨front, x, hat, hP, hbegins⟩
    · exact .inr hP
  · rintro (⟨front, x, hat, hP, hbegins⟩ | hP)
    · exact ⟨front, x, .inl hat, hP, hbegins⟩
    · exact ⟨done, op, .inr ⟨rfl, rfl⟩, hP, rfl⟩

/-! ### What the lists hold -/

def LogOf (log : RangedOp) (_ : List TraceOp) (op : TraceOp) : Prop := kind op = .log log

/-- The store is in a PMDK transaction. -/
def InTx (st : RangedOp) (front : List TraceOp) (op : TraceOp) : Prop := kind op = .store st ∧ 0 < depth front

/-- Nothing that was logged since the last begin contains the store. -/
def UnloggedInTx (st : RangedOp) (front : List TraceOp) (op : TraceOp) : Prop :=
  InTx st front op ∧ ∀ log, Recent (LogOf log) front → rangeContains log st = false

/-- The unit adds the pair to its list of double logging. -/
def Doubles (rangeable log : RangedOp) (front : List TraceOp) (op : TraceOp) : Prop :=
  LogOf log front op ∧ isTXAdd rangeable = true ∧ isTXAdd log = true ∧ Recent (LogOf rangeable) front ∧
    rangeable.rangeCmp log = 0

/-- The unit adds a crash point that refers to the `k`-th list. -/
def EndsUnlogged (txEnd : TraceOp) (k : Nat) (front : List TraceOp) (op : TraceOp) : Prop :=
  op = txEnd ∧ kind op = .txEnd ∧ begins front = k + 1 ∧ ∃ st, Recent (UnloggedInTx st) front

/-- The unit adds a crash point at the operation. -/
def HasPoint (front : List TraceOp) (op : TraceOp) : Prop :=
  (∃ st, kind op = .store st ∧ depth front = 0) ∨ (kind op = .txEnd ∧ ∃ st, Recent (UnloggedInTx st) front)

/-- The lists since the last begin. -/
structure FollowsTx (done : List TraceOp) (u : GeneratorUnit) (tx : PmdkTx) : Prop where
  current : tx.storeWithoutLoggingList + 1 = begins done
  logs : ∀ log, log ∈ tx.rangeableList ↔ Recent (LogOf log) done
  stores : ∀ st, st ∈ tx.storeList ↔ Recent (InTx st) done

/-- The entry of a PMDK transaction that was ended. -/
structure FollowsEntry (done : List TraceOp) (i : Nat) (front : List TraceOp) (entry : TraceOp × List RangedOp) : Prop where
  place : At done front entry.1
  txEnd : kind entry.1 = .txEnd
  index : ends front = i
  stores : ∀ st, st ∈ entry.2 ↔ Recent (InTx st) front

/-- The state of a unit after the operations. -/
structure Follows (done : List TraceOp) (u : GeneratorUnit) : Prop where
  low : 0 ≤ depth done
  stack : u.pmdkTxStack = depth done
  created : u.created = begins done
  started : u.pmdkTx.isSome ↔ 0 < begins done
  tx : ∀ tx, u.pmdkTx = some tx → FollowsTx done u tx
  objects : ∀ k < begins done, ∀ st, st ∈ u.objects k ↔
    Somewhere (fun front op => UnloggedInTx st front op ∧ begins front = k + 1) done
  count : u.storeListByPmdkTx.length = ends done
  entries : ∀ i entry, u.storeListByPmdkTx[i]? = some entry → ∃ front, FollowsEntry done i front entry
  points : ∀ txEnd k i, .noLogging txEnd k i ∈ u.crashPointList ↔ i = u.witcherTxIndex ∧ Somewhere (EndsUnlogged txEnd k) done
  doubles : ∀ rangeable log, (rangeable, log) ∈ u.doubleLoggingList ↔ Somewhere (Doubles rangeable log) done
  pointIds : ∀ i, i ∈ u.crashPointList.map CrashPoint.id ↔ Somewhere (fun front op => op.id = i ∧ HasPoint front op) done
  ordered : (u.crashPointList.map CrashPoint.id).Sublist (done.map (·.id))
  endOps : (u.storeListByPmdkTx.map Prod.fst).Sublist done

namespace GeneratorUnit

/-- The loop body by what it does with the operation. -/
def acceptKind (u : GeneratorUnit) (op : TraceOp) : TxKind → Except ReplayError GeneratorUnit
  | .txBegin => u.acceptPmdkTxBegin
  | .txEnd => u.acceptPmdkTxEnd op
  | .log r => u.addToRangeableList r
  | .store r => u.acceptStore r
  | .other => .ok u

theorem accept_eq (u : GeneratorUnit) (op : TraceOp) : u.accept op = u.acceptKind op (kind op) := by
  unfold accept kind
  cases op.body with
  | pmdkCall funcName note =>
      dsimp only
      split_ifs <;> rfl
  | _ => rfl

end GeneratorUnit

theorem FollowsEntry.concat {done front : List TraceOp} {i : Nat} {entry : TraceOp × List RangedOp}
    (h : FollowsEntry done i front entry) (op : TraceOp) : FollowsEntry (done ++ [op]) i front entry :=
  ⟨h.place.trans (List.prefix_append done [op]), h.txEnd, h.index, h.stores⟩

section Step

variable {done : List TraceOp} {u : GeneratorUnit} {op : TraceOp}

theorem follows_new (witcherTxIndex : Nat) : Follows [] (.new witcherTxIndex) where
  low := le_refl 0
  stack := rfl
  created := rfl
  started := by simp [GeneratorUnit.new, begins]
  tx := by simp [GeneratorUnit.new]
  objects := by simp [begins]
  count := rfl
  entries := by simp [GeneratorUnit.new]
  points := by simp [GeneratorUnit.new, somewhere_nil]
  doubles := by simp [GeneratorUnit.new, somewhere_nil]
  pointIds := by simp [GeneratorUnit.new, somewhere_nil]
  ordered := List.nil_sublist _
  endOps := List.nil_sublist _

theorem Follows.ordered_concat (h : Follows done u) (op : TraceOp) :
    (u.crashPointList.map CrashPoint.id).Sublist ((done ++ [op]).map (·.id)) :=
  h.ordered.trans ((List.sublist_append_left done [op]).map _)

theorem Follows.entries_concat (h : Follows done u) (op : TraceOp) {i : Nat} {entry : TraceOp × List RangedOp}
    (hentry : u.storeListByPmdkTx[i]? = some entry) : ∃ front, FollowsEntry (done ++ [op]) i front entry := by
  obtain ⟨front, hfront⟩ := h.entries i entry hentry
  exact ⟨front, hfront.concat op⟩

/-- Nothing is in the lists of an operation that is neither a begin, an end, a log nor a store. -/
theorem Follows.other (h : Follows done u) (hop : kind op = .other) : Follows (done ++ [op]) u where
  low := by simp [depth_concat, hop, h.low]
  stack := by simp [depth_concat, hop, h.stack]
  created := by simp [begins_concat, hop, h.created]
  started := by simp [begins_concat, hop, h.started]
  tx tx htx := by
    obtain ⟨hcurrent, hlogs, hstores⟩ := h.tx tx htx
    have hbegin : kind op ≠ .txBegin := by simp [hop]
    exact ⟨by simp [begins_concat, hop, hcurrent], fun log => by simp [recent_concat hbegin, LogOf, hop, hlogs],
      fun st => by simp [recent_concat hbegin, InTx, hop, hstores]⟩
  objects k hk st := by
    rw [begins_concat, hop] at hk
    simp [somewhere_concat, UnloggedInTx, InTx, hop, h.objects k hk st]
  count := by simp [ends_concat, hop, h.count]
  entries _ _ hentry := h.entries_concat op hentry
  points txEnd k i := by simp [somewhere_concat, EndsUnlogged, hop, h.points]
  doubles rangeable log := by simp [somewhere_concat, Doubles, LogOf, hop, h.doubles]
  pointIds i := by simp [somewhere_concat, HasPoint, hop, h.pointIds]
  ordered := h.ordered_concat op
  endOps := h.endOps.trans (List.sublist_append_left done [op])

/-- A begin makes the current lists empty. -/
theorem Follows.txBegin {u' : GeneratorUnit} (h : Follows done u) (hop : kind op = .txBegin)
    (hu : u.acceptPmdkTxBegin = .ok u') :
    Follows (done ++ [op]) u' := by
  obtain ⟨_, -, hu⟩ := Loops.bind_ok hu
  cases hu
  have hbegins : begins (done ++ [op]) = begins done + 1 := by simp [begins_concat, hop]
  constructor
  case low =>
    simp only [depth_concat, hop, reduceCtorEq, if_true, if_false]
    have hlow := h.low
    omega
  case stack => simp [depth_concat, hop, h.stack]
  case created => simp [hbegins, h.created]
  case started => simp [hbegins]
  case tx =>
    intro tx htx
    cases htx
    refine ⟨by simp [hbegins, h.created], fun log => ?_, fun st => ?_⟩
    · simp [not_recent_begin hop, LogOf, hop]
    · simp [not_recent_begin hop, InTx, hop]
  case objects =>
    intro k hk st
    rw [somewhere_concat]
    rw [hbegins] at hk
    by_cases hlast : k = begins done
    · -- no operation comes after the new begin
      subst hlast
      dsimp only
      rw [h.created, Function.update_self]
      refine iff_of_false List.not_mem_nil ?_
      rintro (⟨front, x, hat, -, hfront⟩ | ⟨⟨⟨hstore, -⟩, -⟩, -⟩)
      · have hle := begins_le hat.front
        omega
      · rw [hop] at hstore
        cases hstore
    · dsimp only
      rw [h.created, Function.update_of_ne hlast, h.objects k (by omega) st]
      simp [UnloggedInTx, InTx, hop]
  case count => simp [ends_concat, hop, h.count]
  case entries =>
    intro i entry hentry
    exact h.entries_concat op hentry
  case points =>
    intro txEnd k i
    simp [somewhere_concat, EndsUnlogged, hop, h.points]
  case doubles =>
    intro rangeable log
    simp [somewhere_concat, Doubles, LogOf, hop, h.doubles]
  case pointIds =>
    intro i
    simp [somewhere_concat, HasPoint, hop, h.pointIds]
  case ordered => exact h.ordered_concat op
  case endOps => exact h.endOps.trans (List.sublist_append_left done [op])

/-- The current list of unlogged stores. -/
theorem Follows.mem_current (h : Follows done u) {tx : PmdkTx} (htx : u.pmdkTx = some tx) (st : RangedOp) :
    st ∈ u.objects tx.storeWithoutLoggingList ↔ Recent (UnloggedInTx st) done := by
  have hcurrent := (h.tx tx htx).current
  rw [h.objects _ (by omega), hcurrent]
  simp only [Somewhere, Recent]

/-- An end adds the current lists. -/
theorem Follows.txEnd {u' : GeneratorUnit} (h : Follows done u) (hop : kind op = .txEnd) (hu : u.acceptPmdkTxEnd op = .ok u') :
    Follows (done ++ [op]) u' := by
  obtain ⟨_, hassert, hu⟩ := Loops.bind_ok hu
  have hopen : 0 < u.pmdkTxStack := of_decide_eq_true (assert_ok hassert)
  cases htx : u.pmdkTx with
  | none =>
      rw [htx] at hu
      cases hu
  | some tx =>
      rw [htx] at hu
      cases hu
      have hbegin : kind op ≠ .txBegin := by simp [hop]
      have hfollows := h.tx tx htx
      have hunlogged : 0 < (u.objects tx.storeWithoutLoggingList).length ↔ ∃ st, Recent (UnloggedInTx st) done := by
        simp only [List.length_pos_iff_exists_mem, h.mem_current htx]
      constructor
      case low =>
        simp only [depth_concat, hop, reduceCtorEq, if_true, if_false]
        have hstack := h.stack
        omega
      case stack => simp [depth_concat, hop, h.stack]
      case created => simp [begins_concat, hop, h.created]
      case started => simp [begins_concat, hop, ← h.started, htx]
      case tx =>
        intro tx' htx'
        cases htx'
        exact ⟨by simp [begins_concat, hop, hfollows.current],
          fun log => by simp [recent_concat hbegin, LogOf, hop, hfollows.logs],
          fun st => by simp [recent_concat hbegin, InTx, hop, hfollows.stores]⟩
      case objects =>
        intro k hk st
        rw [begins_concat, hop] at hk
        simp [somewhere_concat, UnloggedInTx, InTx, hop, h.objects k hk st]
      case count => simp [ends_concat, hop, h.count]
      case entries =>
        intro i entry hentry
        rcases Nat.lt_or_ge i u.storeListByPmdkTx.length with hi | hi
        · rw [List.getElem?_append_left hi] at hentry
          exact h.entries_concat op hentry
        · rw [List.getElem?_append_right hi, List.getElem?_singleton] at hentry
          split_ifs at hentry with hlast
          cases hentry
          exact ⟨done, List.prefix_refl _, hop, by rw [← h.count]; omega, hfollows.stores⟩
      case points =>
        intro txEnd k i
        have hk : begins done = k + 1 ↔ k = tx.storeWithoutLoggingList := by
          have hcurrent := hfollows.current
          omega
        rw [somewhere_concat, EndsUnlogged, hk, ← hunlogged, and_or_left, ← h.points]
        dsimp only
        split_ifs with hpos
        · simp only [List.mem_append, List.mem_singleton, CrashPoint.noLogging.injEq]
          tauto
        · tauto
      case doubles =>
        intro rangeable log
        simp [somewhere_concat, Doubles, LogOf, hop, h.doubles]
      case pointIds =>
        intro i
        have hpoint : HasPoint done op ↔ 0 < (u.objects tx.storeWithoutLoggingList).length := by simp [HasPoint, hop, hunlogged]
        rw [somewhere_concat, ← h.pointIds, hpoint]
        dsimp only
        split_ifs with hpos
        · simp [hpos, CrashPoint.id, eq_comm]
        · simp [hpos]
      case ordered =>
        split_ifs with hpos
        · rw [List.map_append, List.map_append]
          exact h.ordered.append (List.Sublist.refl _)
        · exact h.ordered_concat op
      case endOps =>
        rw [List.map_append]
        exact h.endOps.append (List.Sublist.refl _)

/-- The doubly logged pairs after a log. -/
theorem Follows.doubles_log {r : RangedOp} {tx : PmdkTx} (h : Follows done u) (hop : kind op = .log r)
    (htx : u.pmdkTx = some tx) (rangeable log : RangedOp) :
    (rangeable, log) ∈ (if isTXAdd r then
        u.doubleLoggingList ++
          (tx.rangeableList.filter fun rangeable => isTXAdd rangeable && rangeable.rangeCmp r = 0).map fun rangeable =>
            (rangeable, r)
      else u.doubleLoggingList) ↔ Somewhere (Doubles rangeable log) (done ++ [op]) := by
  have hfollows := h.tx tx htx
  rw [somewhere_concat, ← h.doubles, Doubles, LogOf, hop, ← hfollows.logs]
  split_ifs with hadd
  · simp only [List.mem_append, List.mem_map, List.mem_filter, Bool.and_eq_true, decide_eq_true_eq, Prod.mk.injEq,
      TxKind.log.injEq]
    refine or_congr_right ⟨?_, ?_⟩
    · rintro ⟨x, ⟨hx, hxadd, hcmp⟩, rfl, rfl⟩
      exact ⟨rfl, hxadd, hadd, hx, hcmp⟩
    · rintro ⟨rfl, hxadd, -, hx, hcmp⟩
      exact ⟨rangeable, ⟨hx, hxadd, hcmp⟩, rfl, rfl⟩
  · refine (or_iff_left ?_).symm
    rintro ⟨heq, -, hlog, -⟩
    cases heq
    exact hadd hlog

/-- A log is kept until the next begin. -/
theorem Follows.log {u' : GeneratorUnit} {r : RangedOp} (h : Follows done u) (hop : kind op = .log r)
    (hu : u.addToRangeableList r = .ok u') : Follows (done ++ [op]) u' := by
  unfold GeneratorUnit.addToRangeableList at hu
  cases htx : u.pmdkTx with
  | none =>
      rw [htx] at hu
      cases hu
  | some tx =>
      rw [htx] at hu
      cases hu
      have hbegin : kind op ≠ .txBegin := by simp [hop]
      have hfollows := h.tx tx htx
      constructor
      case low => simp [depth_concat, hop, h.low]
      case stack => simp [depth_concat, hop, h.stack]
      case created => simp [begins_concat, hop, h.created]
      case started => simp [begins_concat, hop, ← h.started, htx]
      case tx =>
        intro tx' htx'
        cases htx'
        refine ⟨by simp [begins_concat, hop, hfollows.current], fun log => ?_, fun st => ?_⟩
        · simp [recent_concat hbegin, LogOf, hop, hfollows.logs, eq_comm]
        · simp [recent_concat hbegin, InTx, hop, hfollows.stores]
      case objects =>
        intro k hk st
        rw [begins_concat, hop] at hk
        simp [somewhere_concat, UnloggedInTx, InTx, hop, h.objects k hk st]
      case count => simp [ends_concat, hop, h.count]
      case entries =>
        intro i entry hentry
        exact h.entries_concat op hentry
      case points =>
        intro txEnd k i
        simp [somewhere_concat, EndsUnlogged, hop, h.points]
      case doubles =>
        intro rangeable log
        exact h.doubles_log hop htx rangeable log
      case pointIds =>
        intro i
        simp [somewhere_concat, HasPoint, hop, h.pointIds]
      case ordered => exact h.ordered_concat op
      case endOps => exact h.endOps.trans (List.sublist_append_left done [op])

/-- A store outside of PMDK transactions only is a crash point. -/
theorem Follows.storeOutside {r : RangedOp} (h : Follows done u) (hop : kind op = .store r) (hstack : u.pmdkTxStack = 0) :
    Follows (done ++ [op]) { u with crashPointList := u.crashPointList ++ [.noTx u.witcherTxIndex r] } := by
  have hbegin : kind op ≠ .txBegin := by simp [hop]
  have hzero : depth done = 0 := h.stack.symm.trans hstack
  have hdepth : ¬0 < depth done := by omega
  constructor
  case low => simp [depth_concat, hop, h.low]
  case stack => simp [depth_concat, hop, h.stack]
  case created => simp [begins_concat, hop, h.created]
  case started => simp [begins_concat, hop, h.started]
  case tx =>
    intro tx htx
    obtain ⟨hcurrent, hlogs, hstores⟩ := h.tx tx htx
    exact ⟨by simp [begins_concat, hop, hcurrent], fun log => by simp [recent_concat hbegin, LogOf, hop, hlogs],
      fun st => by simp [recent_concat hbegin, InTx, hdepth, hstores]⟩
  case objects =>
    intro k hk st
    rw [begins_concat, hop] at hk
    simp [somewhere_concat, UnloggedInTx, InTx, hdepth, h.objects k hk st]
  case count => simp [ends_concat, hop, h.count]
  case entries =>
    intro i entry hentry
    exact h.entries_concat op hentry
  case points =>
    intro txEnd k i
    simp [somewhere_concat, EndsUnlogged, hop, h.points]
  case doubles =>
    intro rangeable log
    simp [somewhere_concat, Doubles, LogOf, hop, h.doubles]
  case pointIds =>
    intro i
    simp [somewhere_concat, HasPoint, hop, hzero, h.pointIds, CrashPoint.id, op_eq_of_kind_store hop, eq_comm]
  case ordered =>
    rw [List.map_append, List.map_append, List.map_singleton, List.map_singleton, CrashPoint.id, op_eq_of_kind_store hop]
    exact h.ordered.append (List.Sublist.refl _)
  case endOps => exact h.endOps.trans (List.sublist_append_left done [op])

/-- The unlogged stores of each begin, after a store in a PMDK transaction. -/
theorem Follows.objects_store {r : RangedOp} {tx : PmdkTx} (h : Follows done u) (hop : kind op = .store r)
    (htx : u.pmdkTx = some tx) (hdepth : 0 < depth done) {k : Nat} (hk : k < begins done) (st : RangedOp) :
    st ∈ (if tx.rangeableList.any fun rangeable => rangeContains rangeable r then u.objects
      else Function.update u.objects tx.storeWithoutLoggingList (u.objects tx.storeWithoutLoggingList ++ [r])) k ↔
      Somewhere (fun front op => UnloggedInTx st front op ∧ begins front = k + 1) (done ++ [op]) := by
  have hfollows := h.tx tx htx
  have hk' : begins done = k + 1 ↔ k = tx.storeWithoutLoggingList := by
    have hcurrent := hfollows.current
    omega
  have hnone : (tx.rangeableList.any fun rangeable => rangeContains rangeable r) = false ↔
      ∀ log, Recent (LogOf log) done → rangeContains log r = false := by
    simp only [List.any_eq_false, hfollows.logs, Bool.not_eq_true]
  rw [somewhere_concat, UnloggedInTx, InTx, hop, hk', ← h.objects k hk st]
  split_ifs with hcontained
  · refine (or_iff_left ?_).symm
    rintro ⟨⟨⟨heq, -⟩, hunlogged⟩, -⟩
    cases heq
    rw [hnone.mpr hunlogged] at hcontained
    cases hcontained
  · rw [Bool.not_eq_true, hnone] at hcontained
    by_cases hcurrent : k = tx.storeWithoutLoggingList
    · subst hcurrent
      rw [Function.update_self, List.mem_append, List.mem_singleton]
      refine or_congr_right ⟨?_, ?_⟩
      · rintro rfl
        exact ⟨⟨⟨rfl, hdepth⟩, hcontained⟩, rfl⟩
      · rintro ⟨⟨⟨heq, -⟩, -⟩, -⟩
        cases heq
        rfl
    · rw [Function.update_of_ne hcurrent]
      exact (or_iff_left fun hnew => hcurrent hnew.2).symm

/-- A store in a PMDK transaction is unlogged if no log since the last begin contains it. -/
theorem Follows.storeInside {u' : GeneratorUnit} {r : RangedOp} (h : Follows done u) (hop : kind op = .store r)
    (hstack : u.pmdkTxStack ≠ 0) (hu : u.acceptStore r = .ok u') : Follows (done ++ [op]) u' := by
  rw [GeneratorUnit.acceptStore, if_neg hstack] at hu
  cases htx : u.pmdkTx with
  | none =>
      rw [htx] at hu
      cases hu
  | some tx =>
      rw [htx] at hu
      cases hu
      have hbegin : kind op ≠ .txBegin := by simp [hop]
      have hdepth : 0 < depth done := by
        have heq := h.stack
        have hlow := h.low
        omega
      have hfollows := h.tx tx htx
      constructor
      case low => simp [depth_concat, hop, h.low]
      case stack => simp [depth_concat, hop, h.stack]
      case created => simp [begins_concat, hop, h.created]
      case started => simp [begins_concat, hop, ← h.started, htx]
      case tx =>
        intro tx' htx'
        cases htx'
        refine ⟨by simp [begins_concat, hop, hfollows.current], fun log => ?_, fun st => ?_⟩
        · simp [recent_concat hbegin, LogOf, hop, hfollows.logs]
        · simp [recent_concat hbegin, InTx, hop, hdepth, hfollows.stores, eq_comm]
      case objects =>
        intro k hk st
        rw [begins_concat, if_neg hbegin, Nat.add_zero] at hk
        exact h.objects_store hop htx hdepth hk st
      case count => simp [ends_concat, hop, h.count]
      case entries =>
        intro i entry hentry
        exact h.entries_concat op hentry
      case points =>
        intro txEnd k i
        simp [somewhere_concat, EndsUnlogged, hop, h.points]
      case doubles =>
        intro rangeable log
        simp [somewhere_concat, Doubles, LogOf, hop, h.doubles]
      case pointIds =>
        intro i
        simp [somewhere_concat, HasPoint, hop, hdepth.ne', h.pointIds]
      case ordered => exact h.ordered_concat op
      case endOps => exact h.endOps.trans (List.sublist_append_left done [op])

/-- An accepted operation. -/
theorem Follows.step {u' : GeneratorUnit} (h : Follows done u) (hu : u.accept op = .ok u') :
    Follows (done ++ [op]) u' := by
  rw [GeneratorUnit.accept_eq] at hu
  cases hop : kind op with
  | txBegin =>
      rw [hop] at hu
      exact h.txBegin hop hu
  | txEnd =>
      rw [hop] at hu
      exact h.txEnd hop hu
  | log r =>
      rw [hop] at hu
      exact h.log hop hu
  | store r =>
      rw [hop] at hu
      by_cases hstack : u.pmdkTxStack = 0
      · rw [GeneratorUnit.acceptKind, GeneratorUnit.acceptStore, if_pos hstack] at hu
        cases hu
        exact h.storeOutside hop hstack
      · exact h.storeInside hop hstack hu
  | other =>
      rw [hop] at hu
      cases hu
      exact h.other hop

theorem begins_pos_of_depth {ops : List TraceOp} (h : 0 < depth ops) : 0 < begins ops := by
  rw [depth_eq] at h
  omega

/-- An operation is accepted if an end has something to end and a log comes after a begin. -/
theorem Follows.accepted (h : Follows done u) (hnext : 0 ≤ depth (done ++ [op]))
    (hlog : ∀ r, kind op = .log r → 0 < begins done) : ∃ u', u.accept op = .ok u' := by
  have hstack := h.stack
  have hlow := h.low
  rw [GeneratorUnit.accept_eq]
  cases hop : kind op with
  | txBegin => simp [GeneratorUnit.acceptKind, GeneratorUnit.acceptPmdkTxBegin, assert, hstack, hlow]
  | txEnd =>
      have hpos : 0 < depth done := by
        simp only [depth_concat, hop, reduceCtorEq, if_false, if_true] at hnext
        omega
      obtain ⟨tx, htx⟩ := Option.isSome_iff_exists.mp (h.started.mpr (begins_pos_of_depth hpos))
      simp [GeneratorUnit.acceptKind, GeneratorUnit.acceptPmdkTxEnd, assert, hstack, hpos, htx]
  | log r =>
      obtain ⟨tx, htx⟩ := Option.isSome_iff_exists.mp (h.started.mpr (hlog r hop))
      rw [GeneratorUnit.acceptKind, GeneratorUnit.addToRangeableList, htx]
      exact ⟨_, rfl⟩
  | store r =>
      rw [GeneratorUnit.acceptKind, GeneratorUnit.acceptStore]
      split_ifs with hzero
      · exact ⟨_, rfl⟩
      · obtain ⟨tx, htx⟩ := Option.isSome_iff_exists.mp (h.started.mpr (begins_pos_of_depth (by omega)))
        rw [htx]
        exact ⟨_, rfl⟩
  | other => exact ⟨u, rfl⟩

/-- A log before any begin is refused. -/
theorem Follows.begun (h : Follows done u) {u' : GeneratorUnit} {r : RangedOp} (hu : u.accept op = .ok u')
    (hop : kind op = .log r) :
    0 < begins done := by
  rw [GeneratorUnit.accept_eq, hop, GeneratorUnit.acceptKind, GeneratorUnit.addToRangeableList] at hu
  rw [← h.started]
  cases htx : u.pmdkTx with
  | none =>
      rw [htx] at hu
      cases hu
  | some tx => rfl

end Step

/-! ### A whole transaction -/

/-- No log comes before the first begin. -/
def LogsAfterBegin (ops : List TraceOp) : Prop := ∀ front op r, At ops front op → kind op = .log r → 0 < begins front

theorem generateIntraTx_follows {ops : List TraceOp} {witcherTxIndex : Nat} {u : GeneratorUnit}
    (h : GeneratorUnit.generateIntraTx witcherTxIndex ops = .ok u) : Follows ops u ∧ LogsAfterBegin ops := by
  have hrun := Loops.foldlM_ok_induction (motive := fun done u => Follows done u ∧ LogsAfterBegin done) h
    ⟨follows_new witcherTxIndex, fun front op r hat => absurd hat.mem List.not_mem_nil⟩
  apply hrun
  intro done op rest s s' hops ⟨hs, hlogs⟩ hstep
  refine ⟨hs.step hstep, ?_⟩
  intro front x r hat hx
  rcases at_concat.mp hat with hat | ⟨rfl, rfl⟩
  · exact hlogs front x r hat hx
  · exact hs.begun hstep hx

theorem generateIntraTx_ok {ops : List TraceOp} (witcherTxIndex : Nat) (hbal : Balanced ops) (hlogs : LogsAfterBegin ops) :
    ∃ u, GeneratorUnit.generateIntraTx witcherTxIndex ops = .ok u ∧ Follows ops u := by
  apply Loops.foldlM_induction ops _ (follows_new witcherTxIndex)
  intro done op rest s hops hs
  have hplace : At ops done op := ⟨rest, by rw [hops, List.append_assoc]; rfl⟩
  obtain ⟨s', hstep⟩ := hs.accepted (hbal.low (done ++ [op]) hplace) fun r => hlogs done op r hplace
  exact ⟨s', hstep, hs.step hstep⟩

/-! ### What is to be reported -/

/-- The range was logged in the outermost PMDK transaction that is open. -/
def OuterLog (log : RangedOp) (done : List TraceOp) : Prop :=
  Outer (fun op => (kind op).delta) (fun op => (kind op).logged) done log

theorem outerLog_iff {log : RangedOp} {done : List TraceOp} : OuterLog log done ↔
    ∃ front op, At done front op ∧ LogOf log front op ∧ ∀ mid, At mid front op → mid <+: done → 0 < depth mid := by
  simp only [OuterLog, Outer, TxKind.logged_eq_some, LogOf, depth]

/-- The unit reports the store as unlogged. -/
def GeneratorUnit.Reported (u : GeneratorUnit) (st : RangedOp) : Prop :=
  ∃ txEnd k i, .noLogging txEnd k i ∈ u.crashPointList ∧ st ∈ u.objects k

/-- The store is in the store list of the `i`-th entry. -/
def GeneratorUnit.EntryHas (u : GeneratorUnit) (i : Nat) (st : RangedOp) : Prop :=
  ∃ entry, u.storeListByPmdkTx[i]? = some entry ∧ st ∈ entry.2

/-- The report follows the outermost PMDK transactions. -/
structure ReportsOutermost (ops : List TraceOp) (u : GeneratorUnit) : Prop where
  unlogged : ∀ front op st, At ops front op → InTx st front op →
    (u.Reported st ↔ ¬∃ log, OuterLog log front ∧ rangeContains log st = true)
  entries : ∀ front op st, At ops front op → InTx st front op → ∃! i, u.EntryHas i st
  doubles : ∀ front op log, At ops front op → LogOf log front op → isTXAdd log = true →
    ((∃ rangeable, (rangeable, log) ∈ u.doubleLoggingList) ↔
      ∃ rangeable, OuterLog rangeable front ∧ isTXAdd rangeable = true ∧ rangeable.rangeCmp log = 0)

/-- The end comes after `front` and before the next begin. -/
def NextEnd (ops front : List TraceOp) (op : TraceOp) (front' : List TraceOp) : Prop :=
  (∃ txEnd, At ops front' txEnd ∧ kind txEnd = .txEnd) ∧ At front' front op ∧ begins front' = begins front

/-- What counts since the last begin is what counts since the outermost one. -/
structure FlatEnough (ops : List TraceOp) : Prop where
  begun : LogsAfterBegin ops
  closed : ∀ front op st, At ops front op → InTx st front op → ∃! front', NextEnd ops front op front'
  logged : ∀ front op st log, At ops front op → InTx st front op → OuterLog log front → rangeContains log st = true →
    ∃ log', Recent (LogOf log') front ∧ rangeContains log' st = true
  doubled : ∀ front op rangeable log, At ops front op → LogOf log front op → isTXAdd log = true → OuterLog rangeable front →
    isTXAdd rangeable = true → rangeable.rangeCmp log = 0 →
    ∃ rangeable', Recent (LogOf rangeable') front ∧ isTXAdd rangeable' = true ∧ rangeable'.rangeCmp log = 0
  outside : ∀ front op rangeable log, At ops front op → LogOf log front op → isTXAdd log = true → depth front = 0 →
    Recent (LogOf rangeable) front → isTXAdd rangeable = true → rangeable.rangeCmp log ≠ 0

/-! ### The last begin and the outermost one -/

theorem Recent.outer {front : List TraceOp} {log : RangedOp} (h : Recent (LogOf log) front) (hdepth : 0 < depth front) :
    OuterLog log front := by
  obtain ⟨before, op, hat, hlog, hbegins⟩ := h
  refine outerLog_iff.mpr ⟨before, op, hat, hlog, fun mid hmid hfront => ?_⟩
  -- there is no begin after the log, so the depth does not grow up to `front`
  have hlow := begins_le hmid.front
  have hhigh := begins_le hfront
  have hends := ends_le hfront
  rw [depth_eq] at hdepth ⊢
  omega

section Report

variable {ops front : List TraceOp} {op : TraceOp} {u : GeneratorUnit} {st : RangedOp}

theorem InTx.unique (hnodup : ops.Nodup) (hat : At ops front op) (h : InTx st front op) {front' : List TraceOp} {op' : TraceOp}
    (hat' : At ops front' op') (h' : kind op' = .store st) : front' = front ∧ op' = op := by
  have hop : op' = op := (op_eq_of_kind_store h').symm.trans (op_eq_of_kind_store h.1)
  subst hop
  exact ⟨hat'.unique hnodup hat, rfl⟩

/-- A reported store is not logged since the last begin. -/
theorem Follows.unlogged_of_reported (h : Follows ops u) (hnodup : ops.Nodup) (hat : At ops front op) (hst : InTx st front op)
    (hreported : u.Reported st) : UnloggedInTx st front op := by
  obtain ⟨txEnd, k, i, hpoint, hmem⟩ := hreported
  obtain ⟨-, before, x, hx, -, -, hbegins, -⟩ := (h.points txEnd k i).mp hpoint
  have hk : k < begins ops := by
    have hle := begins_le hx.front
    omega
  obtain ⟨front', op', hat', hunlogged, -⟩ := (h.objects k hk st).mp hmem
  obtain ⟨rfl, rfl⟩ := hst.unique hnodup hat hat' hunlogged.1.1
  exact hunlogged

/-- An unlogged store is reported at any end before the next begin. -/
theorem Follows.reported (h : Follows ops u) (hat : At ops front op) (hunlogged : UnloggedInTx st front op)
    {front' : List TraceOp} (hend : NextEnd ops front op front') : u.Reported st := by
  obtain ⟨⟨txEnd, htxEnd, hkind⟩, hlater, hbegins⟩ := hend
  have hpos := begins_pos_of_depth hunlogged.1.2
  have hle := begins_le hat.front
  refine ⟨txEnd, begins front - 1, u.witcherTxIndex,
    (h.points _ _ _).mpr ⟨rfl, front', txEnd, htxEnd, rfl, hkind, by omega, st, ?_⟩,
    (h.objects _ (by omega) st).mpr ⟨front, op, hat, hunlogged, by omega⟩⟩
  exact ⟨front, op, hlater, hunlogged, hbegins.symm⟩

theorem ends_injective {front' : List TraceOp} {txEnd txEnd' : TraceOp} (hat : At ops front txEnd) (hat' : At ops front' txEnd')
    (hkind : kind txEnd = .txEnd) (hkind' : kind txEnd' = .txEnd) (h : ends front = ends front') : front = front' := by
  have hlater : ∀ {f g : List TraceOp} {e : TraceOp}, kind e = .txEnd → At g f e → ends f < ends g := by
    intro f g e he hfg
    have hle := ends_le hfg
    rw [ends_concat, if_pos he] at hle
    omega
  rcases hat.total hat' with ⟨heq, -⟩ | hlt | hlt
  · exact heq
  · have := hlater hkind hlt
    omega
  · have := hlater hkind' hlt
    omega

theorem Follows.entry_at (h : Follows ops u) {txEnd : TraceOp} (hat : At ops front txEnd) (hkind : kind txEnd = .txEnd) :
    ∃ entry, u.storeListByPmdkTx[ends front]? = some entry ∧ FollowsEntry ops (ends front) front entry := by
  have hlt : ends front < u.storeListByPmdkTx.length := by
    have hle := ends_le hat
    rw [ends_concat, if_pos hkind] at hle
    rw [h.count]
    omega
  obtain ⟨front', hfollows⟩ := h.entries _ _ (List.getElem?_eq_getElem hlt)
  have heq := ends_injective hfollows.place hat hfollows.txEnd hkind hfollows.index
  subst heq
  exact ⟨_, List.getElem?_eq_getElem hlt, hfollows⟩

/-- The entries with a store are those of the ends before the next begin. -/
theorem Follows.entryHas_iff (h : Follows ops u) (hnodup : ops.Nodup) (hat : At ops front op)
    (hst : InTx st front op) (i : Nat) :
    u.EntryHas i st ↔ ∃ front', NextEnd ops front op front' ∧ ends front' = i := by
  constructor
  · rintro ⟨entry, hentry, hmem⟩
    obtain ⟨front', hplace, hkind, hindex, hstores⟩ := h.entries i entry hentry
    obtain ⟨before, x, hx, hinTx, hbegins⟩ := (hstores st).mp hmem
    obtain ⟨rfl, rfl⟩ := hst.unique hnodup hat (hx.trans hplace.front) hinTx.1
    exact ⟨front', ⟨⟨entry.1, hplace, hkind⟩, hx, hbegins.symm⟩, hindex⟩
  · rintro ⟨front', ⟨⟨txEnd, htxEnd, hkind⟩, hlater, hbegins⟩, rfl⟩
    obtain ⟨entry, hentry, hfollows⟩ := h.entry_at htxEnd hkind
    exact ⟨entry, hentry, (hfollows.stores st).mpr ⟨front, op, hlater, hst, hbegins.symm⟩⟩

theorem Follows.entryHas_unique_iff (h : Follows ops u) (hnodup : ops.Nodup) (hat : At ops front op) (hst : InTx st front op) :
    (∃! i, u.EntryHas i st) ↔ ∃! front', NextEnd ops front op front' := by
  simp only [h.entryHas_iff hnodup hat hst]
  constructor
  · rintro ⟨i, ⟨front', hend, rfl⟩, hunique⟩
    refine ⟨front', hend, fun front'' hend' => ?_⟩
    obtain ⟨⟨txEnd, hat, hkind⟩, -⟩ := hend
    have hindex := hunique (ends front'') ⟨front'', hend', rfl⟩
    obtain ⟨⟨txEnd', hat', hkind'⟩, -⟩ := hend'
    exact ends_injective hat' hat hkind' hkind hindex
  · rintro ⟨front', hend, hunique⟩
    refine ⟨ends front', ⟨front', hend, rfl⟩, ?_⟩
    rintro i ⟨front'', hend', rfl⟩
    rw [hunique front'' hend']

theorem Follows.doubled_iff (h : Follows ops u) (hnodup : ops.Nodup) (hat : At ops front op) {log : RangedOp}
    (hlog : LogOf log front op) (hadd : isTXAdd log = true) (rangeable : RangedOp) : (rangeable, log) ∈ u.doubleLoggingList ↔
      Recent (LogOf rangeable) front ∧ isTXAdd rangeable = true ∧ rangeable.rangeCmp log = 0 := by
  rw [h.doubles]
  constructor
  · rintro ⟨front', op', hat', hlog', hrangeable, -, hrecent, hcmp⟩
    have hop : op' = op := (op_eq_of_kind_log hlog').symm.trans (op_eq_of_kind_log hlog)
    subst hop
    have hfront := hat'.unique hnodup hat
    subst hfront
    exact ⟨hrecent, hrangeable, hcmp⟩
  · rintro ⟨hrecent, hrangeable, hcmp⟩
    exact ⟨front, op, hat, hlog, hrangeable, hadd, hrecent, hcmp⟩

end Report

/-- The report of a unit follows the outermost transactions exactly if every store in a PMDK transaction has one
end before the next begin, and what the outermost transaction has logged before the last begin makes no
difference. -/
theorem reportsOutermost_iff (ops : List TraceOp) (witcherTxIndex : Nat) (hbal : Balanced ops) (hnodup : ops.Nodup) :
    (∃ u, GeneratorUnit.generateIntraTx witcherTxIndex ops = .ok u ∧ ReportsOutermost ops u) ↔ FlatEnough ops := by
  constructor
  · rintro ⟨u, hrun, hreports⟩
    obtain ⟨hfollows, hbegun⟩ := generateIntraTx_follows hrun
    have hclosed : ∀ front op st, At ops front op → InTx st front op → ∃! front', NextEnd ops front op front' := by
      intro front op st hat hst
      exact (hfollows.entryHas_unique_iff hnodup hat hst).mp (hreports.entries front op st hat hst)
    refine ⟨hbegun, hclosed, ?_, ?_, ?_⟩
    · intro front op st log hat hst houter hcontains
      obtain ⟨front', hend, -⟩ := hclosed front op st hat hst
      by_contra hnone
      push Not at hnone
      have hunlogged : UnloggedInTx st front op := by
        refine ⟨hst, fun log' hlog' => ?_⟩
        exact Bool.eq_false_iff.mpr (hnone log' hlog')
      exact (hreports.unlogged front op st hat hst).mp (hfollows.reported hat hunlogged hend) ⟨log, houter, hcontains⟩
    · intro front op rangeable log hat hlog hadd houter hrangeable hcmp
      obtain ⟨rangeable', hpair⟩ := (hreports.doubles front op log hat hlog hadd).mpr ⟨rangeable, houter, hrangeable, hcmp⟩
      exact ⟨rangeable', (hfollows.doubled_iff hnodup hat hlog hadd rangeable').mp hpair⟩
    · intro front op rangeable log hat hlog hadd hdepth hrecent hrangeable hcmp
      have hpair := (hfollows.doubled_iff hnodup hat hlog hadd rangeable).mpr ⟨hrecent, hrangeable, hcmp⟩
      obtain ⟨outer, houter, -⟩ := (hreports.doubles front op log hat hlog hadd).mp ⟨rangeable, hpair⟩
      have hpos : 0 < depth front := Outer.depth_pos houter
      omega
  · intro hflat
    obtain ⟨u, hrun, hfollows⟩ := generateIntraTx_ok witcherTxIndex hbal hflat.begun
    refine ⟨u, hrun, ?_, ?_, ?_⟩
    · intro front op st hat hst
      obtain ⟨front', hend, -⟩ := hflat.closed front op st hat hst
      constructor
      · rintro hreported ⟨log, houter, hcontains⟩
        obtain ⟨log', hrecent, hcontains'⟩ := hflat.logged front op st log hat hst houter hcontains
        have hunlogged := (hfollows.unlogged_of_reported hnodup hat hst hreported).2 log' hrecent
        rw [hcontains'] at hunlogged
        cases hunlogged
      · intro hnone
        refine hfollows.reported hat ⟨hst, fun log hrecent => ?_⟩ hend
        exact Bool.eq_false_iff.mpr fun hcontains => hnone ⟨log, hrecent.outer hst.2, hcontains⟩
    · intro front op st hat hst
      exact (hfollows.entryHas_unique_iff hnodup hat hst).mpr (hflat.closed front op st hat hst)
    · intro front op log hat hlog hadd
      simp only [hfollows.doubled_iff hnodup hat hlog hadd]
      constructor
      · rintro ⟨rangeable, hrecent, hrangeable, hcmp⟩
        have hlow := hbal.low front hat.front
        rcases hlow.lt_or_eq with hpos | hzero
        · exact ⟨rangeable, hrecent.outer hpos, hrangeable, hcmp⟩
        · exact absurd hcmp (hflat.outside front op rangeable log hat hlog hadd hzero.symm hrecent hrangeable)
      · rintro ⟨rangeable, houter, hrangeable, hcmp⟩
        exact hflat.doubled front op rangeable log hat hlog hadd houter hrangeable hcmp

/-! ### Transactions that are not nested -/

/-- Every begin is outside of PMDK transactions and every log inside of one. -/
structure Unnested (ops : List TraceOp) : Prop where
  outermost : ∀ i op, ops[i]? = some op → kind op = .txBegin → depth (ops.take i) = 0
  inside : ∀ i op r, ops[i]? = some op → kind op = .log r → 0 < depth (ops.take i)

theorem unnested_iff {ops : List TraceOp} : Unnested ops ↔ ∀ i : Fin ops.length,
    (kind ops[i] = .txBegin → depth (ops.take i) = 0) ∧ ((kind ops[i]).logged.isSome → 0 < depth (ops.take i)) := by
  constructor
  · intro h i
    refine ⟨h.outermost i _ (List.getElem?_eq_getElem i.isLt), fun hlog => ?_⟩
    obtain ⟨r, hr⟩ := Option.isSome_iff_exists.mp hlog
    exact h.inside i _ r (List.getElem?_eq_getElem i.isLt) (TxKind.logged_eq_some.mp hr)
  · intro h
    constructor
    · intro i op hget hop
      obtain ⟨hi, rfl⟩ := List.getElem?_eq_some_iff.mp hget
      exact (h ⟨i, hi⟩).1 hop
    · intro i op r hget hop
      obtain ⟨hi, rfl⟩ := List.getElem?_eq_some_iff.mp hget
      exact (h ⟨i, hi⟩).2 (Option.isSome_iff_exists.mpr ⟨r, TxKind.logged_eq_some.mpr hop⟩)

instance (ops : List TraceOp) : Decidable (Unnested ops) := decidable_of_iff _ unnested_iff.symm

theorem Unnested.begin_at {ops front : List TraceOp} {op : TraceOp} (h : Unnested ops) (hat : At ops front op)
    (hop : kind op = .txBegin) :
    depth front = 0 := by
  obtain ⟨i, hget, rfl⟩ := at_iff_getElem?.mp hat
  exact h.outermost i op hget hop

theorem Unnested.log_at {ops front : List TraceOp} {op : TraceOp} {r : RangedOp} (h : Unnested ops) (hat : At ops front op)
    (hop : kind op = .log r) : 0 < depth front := by
  obtain ⟨i, hget, rfl⟩ := at_iff_getElem?.mp hat
  exact h.inside i op r hget hop

/-- While the depth is positive there is no begin. -/
theorem Unnested.begins_eq {ops : List TraceOp} (h : Unnested ops) (rest : List TraceOp) {front : List TraceOp}
    {done : List TraceOp} (hdone : done = front ++ rest) (hops : done <+: ops)
    (hopen : ∀ mid, front <+: mid → mid <+: done → 0 < depth mid) :
    begins front = begins done := by
  induction rest using List.reverseRecOn generalizing done with
  | nil => rw [hdone, List.append_nil]
  | append_singleton rest op ih =>
      rw [← List.append_assoc] at hdone
      subst hdone
      have hat : At ops (front ++ rest) op := hops
      have hop : kind op ≠ .txBegin := by
        intro hop
        have hzero := h.begin_at hat hop
        have hpos := hopen (front ++ rest) (List.prefix_append _ _) (List.prefix_append _ _)
        omega
      rw [begins_concat, if_neg hop, Nat.add_zero]
      exact ih rfl hat.front fun mid hfront hmid => hopen mid hfront (hmid.trans (List.prefix_append _ _))

theorem Unnested.outer_recent {ops front : List TraceOp} {log : RangedOp} (h : Unnested ops) (hfront : front <+: ops)
    (hlog : OuterLog log front) :
    Recent (LogOf log) front := by
  obtain ⟨before, op, hat, hop, hopen⟩ := outerLog_iff.mp hlog
  refine ⟨before, op, hat, hop, ?_⟩
  obtain ⟨rest, hrest⟩ := id hat
  have heq := h.begins_eq rest hrest.symm hfront fun mid hmid hle => hopen mid hmid hle
  have hkind : kind op ≠ .txBegin := by
    rw [hop]
    simp
  rw [begins_concat, if_neg hkind, Nat.add_zero] at heq
  exact heq

/-- In an open transaction the next begin or end is an end. -/
theorem Unnested.next_end {ops : List TraceOp} (h : Unnested ops) (rest : List TraceOp) {done : List TraceOp}
    (hops : ops = done ++ rest) (hdone : depth done = 1) (hclosed : depth ops = 0) :
    ∃ front txEnd, At ops front txEnd ∧ kind txEnd = .txEnd ∧ done <+: front ∧ begins front = begins done := by
  induction rest generalizing done with
  | nil =>
      rw [List.append_nil] at hops
      rw [hops] at hclosed
      omega
  | cons op rest ih =>
      have hat : At ops done op := ⟨rest, by rw [hops, List.append_assoc]; rfl⟩
      by_cases hend : kind op = .txEnd
      · exact ⟨done, op, hat, hend, List.prefix_refl done, rfl⟩
      · have hbegin : kind op ≠ .txBegin := by
          intro hop
          have hzero := h.begin_at hat hop
          omega
        have hdepth : depth (done ++ [op]) = 1 := by
          rw [depth_concat, if_neg hbegin, if_neg hend, hdone]
          rfl
        obtain ⟨front, txEnd, htxEnd, hkind, hfront, hbegins⟩ := ih (by rw [hops, List.append_assoc]; rfl) hdepth
        rw [begins_concat, if_neg hbegin, Nat.add_zero] at hbegins
        exact ⟨front, txEnd, htxEnd, hkind, (List.prefix_append done [op]).trans hfront, hbegins⟩

theorem Unnested.depth_le {ops : List TraceOp} (h : Unnested ops) {front : List TraceOp} (hfront : front <+: ops) :
    depth front ≤ 1 := by
  induction front using List.reverseRecOn with
  | nil => decide
  | append_singleton front op ih =>
      have hle := ih ((List.prefix_append front [op]).trans hfront)
      rw [depth_concat]
      split_ifs with hbegin hend hend
      · omega
      · have hzero := h.begin_at hfront hbegin
        omega
      · omega
      · omega

/-- Without nesting the report is right. -/
theorem Unnested.flatEnough {ops : List TraceOp} (h : Unnested ops) (hbal : Balanced ops) : FlatEnough ops where
  begun front op r hat hop := begins_pos_of_depth (h.log_at hat hop)
  closed front op st hat hst := by
    have hdepth : depth front = 1 := by
      have hle := h.depth_le hat.front
      have hpos := hst.2
      omega
    have hplain : begins (front ++ [op]) = begins front ∧ depth (front ++ [op]) = 1 := by
      simp [begins_concat, depth_concat, hst.1, hdepth]
    obtain ⟨rest, hrest⟩ := id hat
    obtain ⟨front', txEnd, htxEnd, hkind, hlater, hbegins⟩ := h.next_end rest hrest.symm hplain.2 hbal.closed
    refine ⟨front', ⟨⟨txEnd, htxEnd, hkind⟩, hlater, hbegins.trans hplain.1⟩, ?_⟩
    rintro front'' ⟨⟨txEnd', htxEnd', hkind'⟩, hlater', hbegins'⟩
    -- after two ends and no begin the depth would be negative
    have hlow : ∀ {f g : List TraceOp} {e e' : TraceOp}, At ops g e' → kind e = .txEnd → kind e' = .txEnd → At g f e →
        At f front op → begins g = begins front → False := by
      intro f g e e' hg he he' hfg hf hbeg
      have hends := ends_le hf
      have hends' := ends_le hfg
      have hlow := hbal.low _ hg
      have hnotBegin : kind e' ≠ .txBegin := by simp [he']
      rw [depth_eq, begins_concat, ends_concat, if_neg hnotBegin, if_pos he'] at hlow
      rw [ends_concat] at hends hends'
      rw [if_pos he] at hends'
      rw [depth_eq] at hdepth
      omega
    rcases htxEnd.total htxEnd' with ⟨heq, -⟩ | hlt | hlt
    · exact heq.symm
    · exact (hlow htxEnd' hkind hkind' hlt hlater hbegins').elim
    · exact (hlow htxEnd hkind' hkind hlt hlater' (hbegins.trans hplain.1)).elim
  logged front op st log hat _ houter hcontains := ⟨log, h.outer_recent hat.front houter, hcontains⟩
  doubled front op rangeable log hat _ _ houter hrangeable hcmp :=
    ⟨rangeable, h.outer_recent hat.front houter, hrangeable, hcmp⟩
  outside front op rangeable log hat hlog _ hdepth := by
    have hpos := h.log_at hat hlog
    omega

/-- A logged store in a transaction. -/
def flatOps : List TraceOp :=
  [⟨0, 7, [], .pmdkCall "pmemobj_tx_begin".toList "end".toList⟩, ⟨1, 7, [], .pmdkTXAdd 64 64⟩,
    ⟨2, 7, [], .store ⟨64, 8, [], []⟩⟩, ⟨3, 7, [], .pmdkCall "pmemobj_tx_end".toList "start".toList⟩]

theorem reportsOutermost_flat : ∃ u, GeneratorUnit.generateIntraTx 0 flatOps = .ok u ∧ ReportsOutermost flatOps u := by
  have hbal : Balanced flatOps := by decide +kernel
  have hunnested : Unnested flatOps := by decide +kernel
  exact (reportsOutermost_iff flatOps 0 hbal (by decide +kernel)).mpr (hunnested.flatEnough hbal)

def nestedStore : TraceOp := ⟨3, 7, [], .store ⟨64, 8, [], []⟩⟩

/-- The range is logged by the outer transaction, the store is in the inner one. -/
def nestedOps : List TraceOp :=
  [⟨0, 7, [], .pmdkCall "pmemobj_tx_begin".toList "end".toList⟩, ⟨1, 7, [], .pmdkTXAdd 64 64⟩,
    ⟨2, 7, [], .pmdkCall "pmemobj_tx_begin".toList "end".toList⟩, nestedStore,
    ⟨4, 7, [], .pmdkCall "pmemobj_tx_end".toList "start".toList⟩, ⟨5, 7, [], .pmdkCall "pmemobj_tx_end".toList "start".toList⟩]

/-- The logged store is reported as unlogged, and it is in the entries of both transactions. -/
theorem reportsOutermost_fails_nested : Balanced nestedOps ∧ nestedOps.Nodup ∧
    ∃ u, GeneratorUnit.generateIntraTx 0 nestedOps = .ok u ∧ ¬ReportsOutermost nestedOps u := by
  refine ⟨by decide +kernel, by decide +kernel, ?_⟩
  have hlists : (GeneratorUnit.generateIntraTx 0 nestedOps).toOption.map (fun u => u.storeListByPmdkTx.map Prod.snd) =
      some [[⟨nestedStore, 64, 8⟩], [⟨nestedStore, 64, 8⟩]] := by decide +kernel
  cases hrun : GeneratorUnit.generateIntraTx 0 nestedOps with
  | error e =>
      rw [hrun] at hlists
      cases hlists
  | ok u =>
      rw [hrun] at hlists
      have hu : u.storeListByPmdkTx.map Prod.snd = [[⟨nestedStore, 64, 8⟩], [⟨nestedStore, 64, 8⟩]] := Option.some.inj hlists
      refine ⟨u, rfl, fun hreports => ?_⟩
      have hat : At nestedOps (nestedOps.take 3) nestedStore := at_iff_getElem?.mpr ⟨3, rfl, rfl⟩
      have hst : InTx ⟨nestedStore, 64, 8⟩ (nestedOps.take 3) nestedStore := ⟨by decide +kernel, by decide +kernel⟩
      have hboth : ∀ i < 2, u.EntryHas i ⟨nestedStore, 64, 8⟩ := by
        intro i hi
        have hget : (u.storeListByPmdkTx.map Prod.snd)[i]? = some [⟨nestedStore, 64, 8⟩] := by
          rw [hu]
          interval_cases i <;> rfl
        rw [List.getElem?_map, Option.map_eq_some_iff] at hget
        obtain ⟨entry, hentry, hstores⟩ := hget
        exact ⟨entry, hentry, by rw [hstores]; exact List.mem_singleton_self _⟩
      obtain ⟨i, -, hunique⟩ := hreports.entries _ _ _ hat hst
      have hzero := hunique 0 (hboth 0 (by decide))
      have hone := hunique 1 (hboth 1 (by decide))
      omega

end Witcher.WitcherTx
