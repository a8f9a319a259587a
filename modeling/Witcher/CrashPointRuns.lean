import Witcher.NestedTransactions
import Witcher.UnflushedStores

/-! Which crash points the transaction engine tests. The replay advances to the next crash point at most once per
operation, so it tests all of them exactly if their ids ascend strictly. The generator sorts them, and the point
after the end of a PMDK transaction may have the id of the point at the next operation. -/

namespace Witcher.WitcherTx

open OpenSpans PythonText TraceText
open WitcherTCEngine (RangedOp)

/-! ### The replay -/

section Replay

variable {σ : Type} {accept : σ → TraceOp → Except ReplayError σ} {op : TraceOp} {ops : List TraceOp} {cache : σ}
  {crashPoint : CrashPoint} {crashPoints : List CrashPoint}

/-- The crash point is validated at the operation with its id, and before that operation. -/
def Placed (accept : σ → TraceOp → Except ReplayError σ) (ops : List TraceOp) (cache : σ) (v : Validation σ) : Prop :=
  ∃ front, At ops front v.op ∧ v.op.id = v.crashPoint.id ∧ front.foldlM accept cache = .ok v.cache

/-- Each crash point is validated once. -/
structure TestsEach (accept : σ → TraceOp → Except ReplayError σ) (ops : List TraceOp) (cache : σ)
    (crashPoints : List CrashPoint) (validations : List (Validation σ)) : Prop where
  each : validations.map Validation.crashPoint = crashPoints
  placed : ∀ v ∈ validations, Placed accept ops cache v

/-- There is an operation with the id, and the cache accepts what comes before it. -/
def Arrives (accept : σ → TraceOp → Except ReplayError σ) (ops : List TraceOp) (cache : σ) (crashPoint : CrashPoint) : Prop :=
  ∃ op s, Placed accept ops cache ⟨crashPoint, op, s⟩

def Ascending (crashPoints : List CrashPoint) : Prop := crashPoints.Pairwise fun p q => p.id < q.id

theorem Placed.cons {cache' : σ} {v : Validation σ} (haccept : accept cache op = .ok cache') (h : Placed accept ops cache' v) :
    Placed accept (op :: ops) cache v := by
  obtain ⟨front, hat, hid, hrun⟩ := h
  exact ⟨op :: front, at_cons.mpr (.inr ⟨front, rfl, hat⟩), hid, by rw [Loops.foldlM_cons_ok haccept, hrun]⟩

theorem Arrives.tail (h : Arrives accept (op :: ops) cache crashPoint) (hid : op.id ≠ crashPoint.id) :
    ∃ cache', accept cache op = .ok cache' ∧ Arrives accept ops cache' crashPoint := by
  obtain ⟨x, s, front, hat, hx, hrun⟩ := h
  rcases at_cons.mp hat with ⟨-, rfl⟩ | ⟨front', rfl, hat'⟩
  · exact absurd hx hid
  · rw [List.foldlM_cons] at hrun
    obtain ⟨cache', haccept, hrun⟩ := Loops.bind_ok hrun
    exact ⟨cache', haccept, x, s, front', hat', hx, hrun⟩

theorem arrives_tail {cache' : σ} (haccept : accept cache op = .ok cache')
    (h : ∀ q ∈ crashPoints, op.id ≠ q.id ∧ Arrives accept (op :: ops) cache q) :
    ∀ q ∈ crashPoints, Arrives accept ops cache' q := by
  intro q hq
  obtain ⟨hid, harrives⟩ := h q hq
  obtain ⟨cache'', haccept', harrives'⟩ := harrives.tail hid
  rw [haccept] at haccept'
  cases haccept'
  exact harrives'

/-- The loop tests crash points that ascend. -/
theorem runLoop_ok (hids : ops.Pairwise fun x y => x.id < y.id) (hasc : Ascending (crashPoint :: crashPoints))
    (harrives : ∀ q ∈ crashPoint :: crashPoints, Arrives accept ops cache q) (validations : List (Validation σ)) :
    ∃ new, runLoop accept ops crashPoint crashPoints cache validations = .ok (validations ++ new) ∧
      TestsEach accept ops cache (crashPoint :: crashPoints) new := by
  induction ops generalizing cache crashPoint crashPoints validations with
  | nil =>
      obtain ⟨op, s, front, hat, -⟩ := harrives crashPoint List.mem_cons_self
      exact absurd hat.mem List.not_mem_nil
  | cons op ops ih =>
      obtain ⟨hlater, hids⟩ := List.pairwise_cons.mp hids
      obtain ⟨hnext, hasc'⟩ := List.pairwise_cons.mp hasc
      unfold runLoop
      split_ifs with hid
      · have hplaced : Placed accept (op :: ops) cache ⟨crashPoint, op, cache⟩ := ⟨[], at_cons.mpr (.inl ⟨rfl, rfl⟩), hid, rfl⟩
        have hids' : ∀ q ∈ crashPoints, op.id ≠ q.id := by
          intro q hq heq
          have hlt := hnext q hq
          omega
        cases crashPoints with
        | nil => exact ⟨[⟨crashPoint, op, cache⟩], rfl, rfl, by simpa using hplaced⟩
        | cons next crashPoints =>
            obtain ⟨cache', haccept, -⟩ := (harrives next (by simp)).tail (hids' next List.mem_cons_self)
            have harrives' := arrives_tail haccept fun q hq => ⟨hids' q hq, harrives q (List.mem_cons_of_mem _ hq)⟩
            obtain ⟨new, hrun, heach, hplace⟩ := ih hids hasc' harrives' (validations ++ [⟨crashPoint, op, cache⟩])
            refine ⟨⟨crashPoint, op, cache⟩ :: new, ?_, by rw [List.map_cons, heach], ?_⟩
            · dsimp only
              rw [haccept, Loops.ok_bind, hrun, List.append_assoc]
              rfl
            · exact List.forall_mem_cons.mpr ⟨hplaced, fun v hv => (hplace v hv).cons haccept⟩
      · -- the operation of the first crash point is still to come
        obtain ⟨cache', haccept, x, s, front, hat, hx, -⟩ := (harrives crashPoint List.mem_cons_self).tail hid
        have hlt : op.id < crashPoint.id := by
          have hlt := hlater x hat.mem
          dsimp only at hx
          omega
        have hids' : ∀ q ∈ crashPoint :: crashPoints, op.id ≠ q.id := by
          intro q hq heq
          rcases List.mem_cons.mp hq with rfl | hq
          · exact hid heq
          · have hlt' := hnext q hq
            omega
        have harrives' := arrives_tail haccept fun q hq => ⟨hids' q hq, harrives q hq⟩
        obtain ⟨new, hrun, heach, hplace⟩ := ih hids hasc harrives' validations
        refine ⟨new, ?_, heach, fun v hv => (hplace v hv).cons haccept⟩
        rw [haccept, Loops.ok_bind, hrun]

/-- What a run that does not fail has tested. -/
theorem runLoop_tests {validations all : List (Validation σ)}
    (hrun : runLoop accept ops crashPoint crashPoints cache validations = .ok all) :
    ∃ new, all = validations ++ new ∧ TestsEach accept ops cache (crashPoint :: crashPoints) new ∧
      (new.map Validation.op).Sublist ops := by
  induction ops generalizing cache crashPoint crashPoints validations with
  | nil => cases hrun
  | cons op ops ih =>
      unfold runLoop at hrun
      split_ifs at hrun with hid
      · have hplaced : Placed accept (op :: ops) cache ⟨crashPoint, op, cache⟩ := ⟨[], at_cons.mpr (.inl ⟨rfl, rfl⟩), hid, rfl⟩
        cases crashPoints with
        | nil =>
            cases hrun
            exact ⟨_, rfl, ⟨rfl, by simpa using hplaced⟩, by simp⟩
        | cons next crashPoints =>
            obtain ⟨cache', haccept, hrun⟩ := Loops.bind_ok hrun
            obtain ⟨new, rfl, ⟨heach, hplace⟩, hsub⟩ := ih hrun
            refine ⟨⟨crashPoint, op, cache⟩ :: new, by simp, ⟨by rw [List.map_cons, heach], ?_⟩, hsub.cons_cons op⟩
            exact List.forall_mem_cons.mpr ⟨hplaced, fun v hv => (hplace v hv).cons haccept⟩
      · obtain ⟨cache', haccept, hrun⟩ := Loops.bind_ok hrun
        obtain ⟨new, rfl, ⟨heach, hplace⟩, hsub⟩ := ih hrun
        exact ⟨new, rfl, ⟨heach, fun v hv => (hplace v hv).cons haccept⟩, hsub.cons op⟩

theorem runManager_tests {trace : Trace} {validations : List (Validation σ)}
    (h : runManager accept cache trace crashPoints = .ok validations) :
    TestsEach accept trace.atomicWriteOps cache crashPoints validations ∧
      (validations.map Validation.op).Sublist trace.atomicWriteOps := by
  cases crashPoints with
  | nil =>
      cases h
      exact ⟨⟨rfl, by simp⟩, List.nil_sublist _⟩
  | cons crashPoint crashPoints =>
      obtain ⟨new, rfl, htests⟩ := runLoop_tests h
      exact htests

/-- The replay tests each crash point exactly if their ids ascend and it arrives at every one. -/
theorem runManager_iff {trace : Trace} (hids : trace.atomicWriteOps.Pairwise fun x y => x.id < y.id)
    (crashPoints : List CrashPoint) :
    (∃ validations, runManager accept cache trace crashPoints = .ok validations ∧
        TestsEach accept trace.atomicWriteOps cache crashPoints validations) ↔
      Ascending crashPoints ∧ ∀ q ∈ crashPoints, Arrives accept trace.atomicWriteOps cache q := by
  constructor
  · rintro ⟨validations, hrun, -⟩
    obtain ⟨⟨heach, hplace⟩, hsub⟩ := runManager_tests hrun
    rw [← heach]
    refine ⟨?_, ?_⟩
    · have hpairs := List.pairwise_map.mp (hids.sublist hsub)
      refine List.pairwise_map.mpr (hpairs.imp_of_mem fun {v w} hv hw hlt => ?_)
      obtain ⟨-, -, hv, -⟩ := hplace v hv
      obtain ⟨-, -, hw, -⟩ := hplace w hw
      rwa [← hv, ← hw]
    · intro q hq
      obtain ⟨v, hv, rfl⟩ := List.mem_map.mp hq
      exact ⟨v.op, v.cache, hplace v hv⟩
  · rintro ⟨hasc, harrives⟩
    cases crashPoints with
    | nil => exact ⟨[], rfl, rfl, by simp⟩
    | cons crashPoint crashPoints =>
        obtain ⟨new, hrun, htests⟩ := runLoop_ok hids hasc harrives []
        exact ⟨new, hrun, htests⟩

end Replay

/-! ### The crash points of a unit -/

section Unit

variable {beliefs : StoreBeliefs} {witcherTxIndex : Nat} {ops : List TraceOp} {u : GeneratorUnit}

def interTxPoints (beliefs : StoreBeliefs) (witcherTxIndex : Nat) : List (TraceOp × List RangedOp) → List CrashPoint
  | [] => []
  | pre :: sucs =>
      (if sucs.any (GeneratorUnit.generateInterTxHelper beliefs pre) then [.interTx pre.1 witcherTxIndex] else []) ++
        interTxPoints beliefs witcherTxIndex sucs

theorem addCrashPointInOrder_perm (crashPointList : List CrashPoint) (crashPoint : CrashPoint) :
    (GeneratorUnit.addCrashPointInOrder crashPointList crashPoint).Perm (crashPointList ++ [crashPoint]) :=
  List.perm_insertionSort _ _

theorem addCrashPointInOrder_sorted (crashPointList : List CrashPoint) (crashPoint : CrashPoint) :
    (GeneratorUnit.addCrashPointInOrder crashPointList crashPoint).Pairwise fun p q => p.id ≤ q.id := by
  have htotal : Std.Total fun x y : CrashPoint => x.id ≤ y.id := ⟨fun x y => le_total x.id y.id⟩
  have htrans : IsTrans CrashPoint fun x y => x.id ≤ y.id := ⟨fun _ _ _ => le_trans⟩
  exact List.pairwise_insertionSort _ _

/-- The loop adds one crash point for each entry that a later one succeeds with, and sorts. -/
theorem interTxLoop_spec (entries : List (TraceOp × List RangedOp)) {crashPointList : List CrashPoint}
    (hsorted : crashPointList.Pairwise fun p q => p.id ≤ q.id) :
    (GeneratorUnit.interTxLoop beliefs witcherTxIndex entries crashPointList).Perm
        (crashPointList ++ interTxPoints beliefs witcherTxIndex entries) ∧
      (GeneratorUnit.interTxLoop beliefs witcherTxIndex entries crashPointList).Pairwise fun p q => p.id ≤ q.id := by
  induction entries generalizing crashPointList with
  | nil =>
      rw [GeneratorUnit.interTxLoop, interTxPoints, List.append_nil]
      exact ⟨List.Perm.refl _, hsorted⟩
  | cons pre sucs ih =>
      rw [GeneratorUnit.interTxLoop, interTxPoints]
      split_ifs with hany
      · obtain ⟨hperm, hsorted'⟩ := ih (addCrashPointInOrder_sorted crashPointList (.interTx pre.1 witcherTxIndex))
        refine ⟨hperm.trans ?_, hsorted'⟩
        rw [← List.append_assoc]
        exact (addCrashPointInOrder_perm _ _).append_right _
      · exact ih hsorted

theorem mem_interTxPoints {entries : List (TraceOp × List RangedOp)} {x : CrashPoint} :
    x ∈ interTxPoints beliefs witcherTxIndex entries ↔
      ∃ (i j : Nat) (pre suc : _), i < j ∧ entries[i]? = some pre ∧ entries[j]? = some suc ∧
      GeneratorUnit.generateInterTxHelper beliefs pre suc = true ∧ x = .interTx pre.1 witcherTxIndex := by
  induction entries with
  | nil => simp [interTxPoints]
  | cons first sucs ih =>
      rw [interTxPoints, List.mem_append, ih]
      constructor
      · rintro (hx | ⟨i, j, pre, suc, hij, hi, hj, hsucceeds, hx⟩)
        · split_ifs at hx with hany
          · obtain ⟨suc, hsuc, hsucceeds⟩ := List.any_eq_true.mp hany
            obtain ⟨j, hj⟩ := List.mem_iff_getElem?.mp hsuc
            exact ⟨0, j + 1, first, suc, Nat.succ_pos j, rfl, hj, hsucceeds, List.mem_singleton.mp hx⟩
          · exact absurd hx List.not_mem_nil
        · exact ⟨i + 1, j + 1, pre, suc, Nat.succ_lt_succ hij, hi, hj, hsucceeds, hx⟩
      · rintro ⟨i, j, pre, suc, hij, hi, hj, hsucceeds, rfl⟩
        cases j with
        | zero => omega
        | succ j =>
            rw [List.getElem?_cons_succ] at hj
            cases i with
            | zero =>
                cases hi
                rw [if_pos (List.any_eq_true.mpr ⟨suc, List.mem_of_getElem? hj, hsucceeds⟩)]
                exact .inl (List.mem_singleton_self _)
            | succ i => exact .inr ⟨i, j, pre, suc, Nat.lt_of_succ_lt_succ hij, hi, hj, hsucceeds, rfl⟩

theorem interTxPoints_ids (entries : List (TraceOp × List RangedOp)) :
    ((interTxPoints beliefs witcherTxIndex entries).map CrashPoint.id).Sublist
      ((entries.map Prod.fst).map fun op => op.id + 1) := by
  induction entries with
  | nil => exact List.Sublist.slnil
  | cons first sucs ih =>
      rw [interTxPoints, List.map_append]
      split_ifs
      · exact ih.cons_cons _
      · exact ih.cons _

/-- The unit's crash points are those of the operations and those between PMDK transactions. -/
theorem run_points (hids : ops.Pairwise fun x y => x.id < y.id) (h : GeneratorUnit.run beliefs witcherTxIndex ops = .ok u) :
    ∃ u₀, Follows ops u₀ ∧
      u.crashPointList.Perm (u₀.crashPointList ++ interTxPoints beliefs u₀.witcherTxIndex u₀.storeListByPmdkTx) ∧
      u.crashPointList.Pairwise fun p q => p.id ≤ q.id := by
  obtain ⟨u₀, hintra, h⟩ := Loops.bind_ok h
  obtain ⟨hfollows, -⟩ := generateIntraTx_follows hintra
  have hsorted : u₀.crashPointList.Pairwise fun p q => p.id ≤ q.id :=
    (List.pairwise_map.mp ((List.pairwise_map.mpr hids).sublist hfollows.ordered)).imp fun hlt => le_of_lt hlt
  refine ⟨u₀, hfollows, ?_⟩
  split_ifs at h with hcount
  · obtain ⟨_, -, h⟩ := Loops.bind_ok h
    cases h
    exact interTxLoop_spec u₀.storeListByPmdkTx hsorted
  · cases h
    have hnone : interTxPoints beliefs u.witcherTxIndex u.storeListByPmdkTx = [] := by
      rw [List.eq_nil_iff_forall_not_mem]
      intro x hx
      obtain ⟨i, j, pre, suc, hij, -, hj, -⟩ := mem_interTxPoints.mp hx
      have hlt := (List.getElem?_eq_some_iff.mp hj).choose
      rw [GeneratorUnit.getPmdkTxCount] at hcount
      omega
    rw [hnone, List.append_nil]
    exact ⟨List.Perm.refl _, hsorted⟩

/-- The crash points between PMDK transactions leave the double logging alone. -/
theorem run_doubles (h : GeneratorUnit.run beliefs witcherTxIndex ops = .ok u) (rangeable log : RangedOp) :
    (rangeable, log) ∈ u.doubleLoggingList ↔ Somewhere (Doubles rangeable log) ops := by
  obtain ⟨u₀, hintra, h⟩ := Loops.bind_ok h
  have hdoubles := (generateIntraTx_follows hintra).1.doubles rangeable log
  split_ifs at h with hcount
  · obtain ⟨_, -, h⟩ := Loops.bind_ok h
    cases h
    exact hdoubles
  · cases h
    exact hdoubles

/-- The PMDK transaction that ends here, and a later one of the same Witcher transaction, have stores that violate a
belief. -/
def Violated (beliefs : StoreBeliefs) (ops front : List TraceOp) (txEnd : TraceOp) : Prop :=
  At ops front txEnd ∧ kind txEnd = .txEnd ∧ ∃ front' txEnd' preSt sucSt, At ops front' txEnd' ∧ kind txEnd' = .txEnd ∧
    At front' front txEnd ∧ Recent (InTx preSt) front ∧ Recent (InTx sucSt) front' ∧
    (beliefs.violateAtomicityBelief preSt sucSt = true ∨ beliefs.violateOrderingBelief preSt sucSt = true)

theorem succeeds_iff {pre suc : TraceOp × List RangedOp} : GeneratorUnit.generateInterTxHelper beliefs pre suc = true ↔
    ∃ preSt ∈ pre.2, ∃ sucSt ∈ suc.2,
      beliefs.violateAtomicityBelief preSt sucSt = true ∨ beliefs.violateOrderingBelief preSt sucSt = true := by
  simp [GeneratorUnit.generateInterTxHelper]

theorem Follows.mem_interTx (h : Follows ops u) (x : CrashPoint) :
    x ∈ interTxPoints beliefs witcherTxIndex u.storeListByPmdkTx ↔
      ∃ front txEnd, Violated beliefs ops front txEnd ∧ x = .interTx txEnd witcherTxIndex := by
  rw [mem_interTxPoints]
  constructor
  · rintro ⟨i, j, pre, suc, hij, hi, hj, hsucceeds, rfl⟩
    obtain ⟨preSt, hpre, sucSt, hsuc, hviolates⟩ := succeeds_iff.mp hsucceeds
    obtain ⟨front, hfront⟩ := h.entries i pre hi
    obtain ⟨front', hfront'⟩ := h.entries j suc hj
    refine ⟨front, pre.1, ⟨hfront.place, hfront.txEnd, front', suc.1, preSt, sucSt, hfront'.place, hfront'.txEnd, ?_,
      (hfront.stores preSt).mp hpre, (hfront'.stores sucSt).mp hsuc, hviolates⟩, rfl⟩
    have hindex := hfront.index
    have hindex' := hfront'.index
    rcases hfront.place.total hfront'.place with ⟨heq, -⟩ | hlt | hlt
    · rw [heq] at hindex
      omega
    · exact hlt
    · have hle := ends_le hlt.front
      omega
  · rintro ⟨front, txEnd, ⟨hat, hkind, front', txEnd', preSt, sucSt, hat', hkind', hlater, hpre, hsuc, hviolates⟩, rfl⟩
    obtain ⟨pre, hpreEntry, hfollows⟩ := h.entry_at hat hkind
    obtain ⟨suc, hsucEntry, hfollows'⟩ := h.entry_at hat' hkind'
    have hlt : ends front < ends front' := by
      have hle := ends_le hlater
      rw [ends_concat, if_pos hkind] at hle
      omega
    have hop : pre.1 = txEnd := hfollows.place.eq hat
    refine ⟨ends front, ends front', pre, suc, hlt, hpreEntry, hsucEntry, succeeds_iff.mpr ?_, by rw [hop]⟩
    exact ⟨preSt, (hfollows.stores preSt).mpr hpre, sucSt, (hfollows'.stores sucSt).mpr hsuc, hviolates⟩

/-- The crash point after the end of a PMDK transaction has the id of the crash point at the next operation. -/
def Clash (beliefs : StoreBeliefs) (ops : List TraceOp) : Prop :=
  ∃ front txEnd next, Violated beliefs ops front txEnd ∧ At ops (front ++ [txEnd]) next ∧ HasPoint (front ++ [txEnd]) next

theorem id_of_at {start : Int} {front : List TraceOp} {op : TraceOp} (h : TraceText.Numbered start ops)
    (hat : At ops front op) :
    op.id = start + front.length := by
  obtain ⟨i, hget, rfl⟩ := at_iff_getElem?.mp hat
  have hi := (List.getElem?_eq_some_iff.mp hget).choose
  rw [h i op hget, List.length_take, Nat.min_eq_left (le_of_lt hi)]

theorem ids_ascend {start : Int} (h : TraceText.Numbered start ops) : ops.Pairwise fun x y => x.id < y.id := by
  rw [List.pairwise_iff_getElem]
  intro i j hi hj hij
  rw [h i _ (List.getElem?_eq_getElem hi), h j _ (List.getElem?_eq_getElem hj)]
  omega

theorem clash_iff {start : Int} (hids : TraceText.Numbered start ops) (h : Follows ops u) (witcherTxIndex : Nat) :
    Clash beliefs ops ↔
    ∃ x ∈ interTxPoints beliefs witcherTxIndex u.storeListByPmdkTx, x.id ∈ u.crashPointList.map CrashPoint.id := by
  simp only [h.mem_interTx, h.pointIds]
  constructor
  · rintro ⟨front, txEnd, next, hviolated, hat, hpoint⟩
    refine ⟨_, ⟨front, txEnd, hviolated, rfl⟩, front ++ [txEnd], next, hat, ?_, hpoint⟩
    rw [CrashPoint.id, id_of_at hids hat, id_of_at hids hviolated.1, List.length_append, List.length_singleton]
    omega
  · rintro ⟨_, ⟨front, txEnd, hviolated, rfl⟩, front', next, hat, hid, hpoint⟩
    -- the ids are positions, so the operation with the id comes right after the end
    rw [CrashPoint.id, id_of_at hids hat, id_of_at hids hviolated.1] at hid
    have hfront : front ++ [txEnd] = front' := by
      apply (List.prefix_of_prefix_length_le hviolated.1 hat.front _).eq_of_length
      · rw [List.length_append, List.length_singleton]
        omega
      · rw [List.length_append, List.length_singleton]
        omega
    subst hfront
    exact ⟨front, txEnd, next, hviolated, hat, hpoint⟩

/-- The ids of the unit's crash points ascend exactly if none of them clash. -/
theorem ascending_iff {start : Int} (hids : TraceText.Numbered start ops)
    (h : GeneratorUnit.run beliefs witcherTxIndex ops = .ok u) :
    Ascending u.crashPointList ↔ ¬Clash beliefs ops := by
  obtain ⟨u₀, hfollows, hperm, hsorted⟩ := run_points (ids_ascend hids) h
  have hasc := ids_ascend hids
  have hnodup : (u₀.crashPointList.map CrashPoint.id).Nodup :=
    ((List.pairwise_map.mpr hasc).sublist hfollows.ordered).imp fun hlt => ne_of_lt hlt
  have hnodup' : ((interTxPoints beliefs u₀.witcherTxIndex u₀.storeListByPmdkTx).map CrashPoint.id).Nodup := by
    have hends := List.pairwise_map.mpr ((hasc.sublist hfollows.endOps).imp fun hlt => Int.add_lt_add_right hlt 1)
    exact (hends.sublist (interTxPoints_ids _)).imp fun hlt => ne_of_lt hlt
  rw [clash_iff hids hfollows u₀.witcherTxIndex]
  constructor
  · rintro hlt ⟨x, hx, hmem⟩
    have hall : (u.crashPointList.map CrashPoint.id).Nodup := (List.pairwise_map.mpr hlt).imp fun hlt => ne_of_lt hlt
    rw [(hperm.map CrashPoint.id).nodup_iff, List.map_append, List.nodup_append] at hall
    exact hall.2.2 _ hmem _ (List.mem_map_of_mem hx) rfl
  · intro hdisjoint
    have hall : (u.crashPointList.map CrashPoint.id).Nodup := by
      rw [(hperm.map CrashPoint.id).nodup_iff, List.map_append, List.nodup_append]
      refine ⟨hnodup, hnodup', ?_⟩
      rintro i hi j hj rfl
      obtain ⟨x, hx, rfl⟩ := List.mem_map.mp hj
      exact hdisjoint ⟨x, hx, hi⟩
    exact (hsorted.and (List.pairwise_map.mp hall)).imp fun hboth => lt_of_le_of_ne hboth.1 hboth.2

theorem crashPoint_bounds {start : Int} (hids : TraceText.Numbered start ops)
    (h : GeneratorUnit.run beliefs witcherTxIndex ops = .ok u) {q : CrashPoint} (hq : q ∈ u.crashPointList) : start ≤ q.id ∧
      q.id ≤ start + ops.length := by
  obtain ⟨u₀, hfollows, hperm, -⟩ := run_points (ids_ascend hids) h
  have hlength : ∀ {front : List TraceOp} {op : TraceOp}, At ops front op → front.length < ops.length := by
    intro front op hat
    have hle := hat.length_le
    rw [List.length_append, List.length_singleton] at hle
    omega
  rcases List.mem_append.mp (hperm.mem_iff.mp hq) with hq | hq
  · obtain ⟨front, op, hat, hid, -⟩ := (hfollows.pointIds q.id).mp (List.mem_map_of_mem hq)
    rw [id_of_at hids hat] at hid
    have hlt := hlength hat
    omega
  · obtain ⟨front, txEnd, hviolated, rfl⟩ := (hfollows.mem_interTx q).mp hq
    have hlt := hlength hviolated.1
    rw [CrashPoint.id, id_of_at hids hviolated.1]
    omega

end Unit

/-! ### The whole trace -/

section Whole

variable {beliefs : StoreBeliefs} {trace : Trace} {crashPoints : List CrashPoint}

/-- The operations of the Witcher transaction between two indices. -/
theorem numbered_slice {ops : List TraceOp} (h : TraceText.Numbered 0 ops) {i j : Int} (hi : 0 ≤ i) (hj : 0 ≤ j) :
    TraceText.Numbered i (PythonText.slice ops i j) := by
  intro n op hget
  rw [WitcherTCEngine.getElem?_slice hi hj] at hget
  split_ifs at hget with hlt
  rw [h _ op hget]
  omega

theorem exists_of_forall₂ {α β : Type} {R : α → β → Prop} {l : List α} {m : List β} (h : List.Forall₂ R l m) :
    (∀ a ∈ l, ∃ b ∈ m, R a b) ∧ ∀ b ∈ m, ∃ a ∈ l, R a b := by
  induction h with
  | nil => simp
  | cons hab _ ih =>
      simp only [List.mem_cons, forall_eq_or_imp, exists_eq_or_imp]
      exact ⟨⟨.inl hab, fun a ha => .inr (ih.1 a ha)⟩, .inl hab, fun b hb => .inr (ih.2 b hb)⟩

theorem pairwise_of_forall₂ {α β : Type} {R : α → β → Prop} {P : α → α → Prop} {Q : β → β → Prop} {l : List α} {m : List β}
    (h : List.Forall₂ R l m) (hl : l.Pairwise P) (hstep : ∀ a a' b b', R a b → R a' b' → P a a' → Q b b') : m.Pairwise Q := by
  induction h with
  | nil => exact List.Pairwise.nil
  | @cons a b l m hab hlm ih =>
      obtain ⟨hfirst, hl⟩ := List.pairwise_cons.mp hl
      refine List.pairwise_cons.mpr ⟨fun b' hb' => ?_, ih hl⟩
      obtain ⟨a', ha', hab'⟩ := (exists_of_forall₂ hlm).2 b' hb'
      exact hstep a a' b b' hab hab' (hfirst a' ha')

/-- The units of the transactions. -/
structure UnitOf (beliefs : StoreBeliefs) (trace : Trace) (r : (Int × Int) × Nat) (u : GeneratorUnit) : Prop where
  numbered : TraceText.Numbered (r.1.1 + 1) (PythonText.slice trace.atomicWriteOps (r.1.1 + 1) r.1.2)
  run : GeneratorUnit.run beliefs r.2 (PythonText.slice trace.atomicWriteOps (r.1.1 + 1) r.1.2) = .ok u
  bounds : ∀ q ∈ u.crashPointList, r.1.1 < q.id ∧ q.id ≤ r.1.2

theorem unitOf (htrace : Indexed trace) {r : (Int × Int) × Nat} (hr : r.1 ∈ trace.atomicWriteOpsTxRanges) {u : GeneratorUnit}
    (h : GeneratorUnit.run beliefs r.2 (PythonText.slice trace.atomicWriteOps (r.1.1 + 1) r.1.2) = .ok u) :
    UnitOf beliefs trace r u := by
  have hrange := htrace.atomicRanges.range r.1 hr
  have hlow := hrange.low
  have horder := hrange.order
  have hnumbered := numbered_slice htrace.atomicIds (show 0 ≤ r.1.1 + 1 by omega) (show 0 ≤ r.1.2 by omega)
  refine ⟨hnumbered, h, fun q hq => ?_⟩
  obtain ⟨hge, hle⟩ := crashPoint_bounds hnumbered h hq
  rw [PythonText.slice_of_nonneg _ (by omega) (by omega), List.length_drop, List.length_take] at hle
  omega

theorem units_of_getCrashPointList (htrace : Indexed trace) (h : getCrashPointList beliefs trace = .ok crashPoints) :
    ∃ units, List.Forall₂ (UnitOf beliefs trace) trace.atomicWriteOpsTxRanges.zipIdx units ∧
      crashPoints = units.flatMap GeneratorUnit.crashPointList := by
  obtain ⟨units, hunits, h⟩ := Loops.bind_ok h
  cases h
  refine ⟨units, ?_, rfl⟩
  have hruns := Loops.mapM_forall₂ hunits
  rw [createUnits, List.forall₂_map_left_iff] at hruns
  apply (List.forall₂_iff_get.mp hruns).elim
  intro hlength hget
  refine List.forall₂_iff_get.mpr ⟨hlength, fun i h₁ h₂ => unitOf htrace ?_ (hget i h₁ h₂)⟩
  have hmem := List.mem_map_of_mem (f := Prod.fst) (List.get_mem trace.atomicWriteOpsTxRanges.zipIdx ⟨i, h₁⟩)
  rwa [List.zipIdx_map_fst] at hmem

/-- The ids of all crash points ascend exactly if none clash in any Witcher transaction. -/
theorem ascending_getCrashPointList_iff (htrace : Indexed trace) (h : getCrashPointList beliefs trace = .ok crashPoints) :
    Ascending crashPoints ↔ ∀ unit ∈ createUnits trace, ¬Clash beliefs unit.2 := by
  obtain ⟨units, hunits, rfl⟩ := units_of_getCrashPointList htrace h
  have hacross : units.Pairwise fun u u' => ∀ q ∈ u.crashPointList, ∀ q' ∈ u'.crashPointList, q.id < q'.id := by
    have hranges : trace.atomicWriteOpsTxRanges.zipIdx.Pairwise fun r r' => r.1.2 < r'.1.1 := by
      have hascending := htrace.atomicRanges.ascending
      rw [← List.zipIdx_map_fst 0 trace.atomicWriteOpsTxRanges] at hascending
      exact List.pairwise_map.mp hascending
    refine pairwise_of_forall₂ hunits hranges fun r r' u u' hu hu' hlt q hq q' hq' => ?_
    have hhigh := (hu.bounds q hq).2
    have hlow := (hu'.bounds q' hq').1
    omega
  rw [Ascending, List.pairwise_flatMap, and_iff_left hacross, createUnits, List.forall_mem_map]
  obtain ⟨hleft, hright⟩ := exists_of_forall₂ hunits
  constructor
  · intro hall r hr
    obtain ⟨u, hu, hunit⟩ := hleft r hr
    exact (ascending_iff hunit.numbered hunit.run).mp (hall u hu)
  · intro hall u hu
    obtain ⟨r, hr, hunit⟩ := hright u hu
    exact (ascending_iff hunit.numbered hunit.run).mpr (hall r hr)

/-- Double logging is reported for the pairs of the Witcher transactions. -/
theorem mem_getDoubleLoggingList {doubles : List (RangedOp × RangedOp)} (h : getDoubleLoggingList beliefs trace = .ok doubles)
    (rangeable log : RangedOp) :
    (rangeable, log) ∈ doubles ↔ ∃ unit ∈ createUnits trace, Somewhere (Doubles rangeable log) unit.2 := by
  obtain ⟨units, hunits, h⟩ := Loops.bind_ok h
  cases h
  obtain ⟨hleft, hright⟩ := exists_of_forall₂ (Loops.mapM_forall₂ hunits)
  rw [List.mem_flatMap]
  constructor
  · rintro ⟨u, hu, hmem⟩
    obtain ⟨unit, hunit, hrun⟩ := hright u hu
    exact ⟨unit, hunit, (run_doubles hrun rangeable log).mp hmem⟩
  · rintro ⟨unit, hunit, hdoubles⟩
    obtain ⟨u, hu, hrun⟩ := hleft unit hunit
    exact ⟨u, hu, (run_doubles hrun rangeable log).mpr hdoubles⟩

/-- The cache accepts the operations before each crash point. -/
def CacheAccepts {σ : Type} (accept : σ → TraceOp → Except ReplayError σ) (cache : σ) (ops : List TraceOp)
    (crashPoints : List CrashPoint) : Prop :=
  ∀ q ∈ crashPoints, ∃ s, (ops.takeWhile fun op => op.id < q.id).foldlM accept cache = .ok s

theorem takeWhile_eq {ops front : List TraceOp} {op : TraceOp} (hids : TraceText.Numbered 0 ops) (hat : At ops front op) :
    (ops.takeWhile fun x => x.id < op.id) = front := by
  obtain ⟨rest, hrest⟩ := id hat
  have hless : ∀ x ∈ front, decide (x.id < op.id) = true := by
    intro x hx
    obtain ⟨i, hi⟩ := List.mem_iff_getElem?.mp hx
    have hlt := (List.getElem?_eq_some_iff.mp hi).choose
    have hget : ops[i]? = some x := by rw [← hrest, List.append_assoc, List.getElem?_append_left hlt, hi]
    rw [decide_eq_true_eq, hids i x hget, id_of_at hids hat]
    omega
  rw [← hrest, List.append_assoc, List.takeWhile_append_of_pos hless, List.singleton_append,
    List.takeWhile_cons_of_neg (by simp), List.append_nil]

theorem arrives_iff {σ : Type} {accept : σ → TraceOp → Except ReplayError σ} {cache : σ} (htrace : Indexed trace)
    (h : getCrashPointList beliefs trace = .ok crashPoints) :
    (∀ q ∈ crashPoints, Arrives accept trace.atomicWriteOps cache q) ↔
      CacheAccepts accept cache trace.atomicWriteOps crashPoints := by
  refine forall₂_congr fun q hq => ?_
  constructor
  · rintro ⟨op, s, front, hat, hid, hrun⟩
    refine ⟨s, ?_⟩
    rw [← hid, takeWhile_eq htrace.atomicIds hat]
    exact hrun
  · rintro ⟨s, hrun⟩
    obtain ⟨units, hunits, rfl⟩ := units_of_getCrashPointList htrace h
    obtain ⟨u, hu, hq⟩ := List.mem_flatMap.mp hq
    obtain ⟨r, hr, hunit⟩ := (exists_of_forall₂ hunits).2 u hu
    have hmem := List.mem_map_of_mem (f := Prod.fst) hr
    rw [List.zipIdx_map_fst] at hmem
    have hrange := htrace.atomicRanges.range r.1 hmem
    have hlow := hrange.low
    have hhigh := hrange.ends.lt
    obtain ⟨hgt, hle⟩ := hunit.bounds q hq
    have hlt : q.id.toNat < trace.atomicWriteOps.length := by omega
    have hat : At trace.atomicWriteOps (trace.atomicWriteOps.take q.id.toNat) trace.atomicWriteOps[q.id.toNat] :=
      at_iff_getElem?.mpr ⟨q.id.toNat, List.getElem?_eq_getElem hlt, rfl⟩
    have hid : trace.atomicWriteOps[q.id.toNat].id = q.id := by
      rw [htrace.atomicIds _ _ (List.getElem?_eq_getElem hlt)]
      omega
    refine ⟨_, s, _, hat, hid, ?_⟩
    rw [← takeWhile_eq htrace.atomicIds hat, hid]
    exact hrun

end Whole

/-- The replay tests each crash point once exactly if no crash point after the end of a PMDK transaction has the id
of the crash point at the next operation, and the cache accepts what comes before the crash points. -/
theorem testsEach_iff {σ : Type} (accept : σ → TraceOp → Except ReplayError σ) (cache : σ) (beliefs : StoreBeliefs)
    (table : CharTable) (text : List Char) (trace : Trace) (crashPoints : List CrashPoint)
    (htrace : witcherTrace table text = .ok trace) (hpoints : getCrashPointList beliefs trace = .ok crashPoints) :
    (∃ validations, runManager accept cache trace crashPoints = .ok validations ∧
        TestsEach accept trace.atomicWriteOps cache crashPoints validations) ↔
      (∀ unit ∈ createUnits trace, ¬Clash beliefs unit.2) ∧ CacheAccepts accept cache trace.atomicWriteOps crashPoints := by
  have hindexed := witcherTrace_indexed table text trace htrace
  rw [runManager_iff (ids_ascend hindexed.atomicIds), ascending_getCrashPointList_iff hindexed hpoints,
    arrives_iff hindexed hpoints]

/-- Every pair of stores violates a belief. -/
def allCritical : StoreBeliefs := ⟨fun _ => true, fun _ _ => false⟩

def linesText (lines : List String) : List Char := lines.flatMap fun line => line.toList ++ ['\n']

/-- The ids of the crash points of a text, and whether the replay of it ends. -/
def crashPointRun (text : List Char) : Option (List Int × Bool) :=
  (witcherTrace asciiTable text).toOption.bind fun trace =>
    (getCrashPointList allCritical trace).toOption.map fun crashPoints =>
      (crashPoints.map CrashPoint.id, (runManager (fun _ _ => .ok ()) () trace crashPoints).toOption.isSome)

theorem of_crashPointRun {text : List Char} {ids : List Int} {ends : Bool} (h : crashPointRun text = some (ids, ends)) :
    ∃ trace crashPoints, witcherTrace asciiTable text = .ok trace ∧ getCrashPointList allCritical trace = .ok crashPoints ∧
      crashPoints.map CrashPoint.id = ids ∧ (runManager (fun _ _ => .ok ()) () trace crashPoints).toOption.isSome = ends := by
  rw [crashPointRun] at h
  cases htrace : witcherTrace asciiTable text with
  | error e =>
      rw [htrace] at h
      cases h
  | ok trace =>
      rw [htrace] at h
      cases hpoints : getCrashPointList allCritical trace with
      | error e => simp [Except.toOption, hpoints] at h
      | ok crashPoints =>
          simp only [Except.toOption, hpoints, Option.bind_some, Option.map_some, Option.some.injEq, Prod.mk.injEq] at h
          exact ⟨trace, crashPoints, rfl, hpoints, h.1, h.2⟩

/-- Two PMDK transactions, one right after the other. -/
def adjacentText : List Char :=
  linesText ["TXStart,7,a.c:1", "pmemobj_tx_begin,7,a.c:2,end", "Store,7,40,1,01,a.c:3", "pmemobj_tx_end,7,a.c:4,start",
    "pmemobj_tx_begin,7,a.c:5,end", "Store,7,80,1,02,a.c:6", "pmemobj_tx_end,7,a.c:7,start", "TXEnd,7,a.c:8"]

theorem testsEach_adjacent : ∃ trace crashPoints, witcherTrace asciiTable adjacentText = .ok trace ∧
    getCrashPointList allCritical trace = .ok crashPoints ∧ crashPoints.map CrashPoint.id = [3, 4, 6] ∧
    ∀ unit ∈ createUnits trace, ¬Clash allCritical unit.2 := by
  have hread : crashPointRun adjacentText = some ([3, 4, 6], true) := by decide +kernel
  obtain ⟨trace, crashPoints, htrace, hpoints, hids, hends⟩ := of_crashPointRun hread
  cases hrun : runManager (fun _ _ => .ok ()) () trace crashPoints with
  | error e =>
      rw [hrun] at hends
      cases hends
  | ok validations =>
      refine ⟨trace, crashPoints, htrace, hpoints, hids, ?_⟩
      exact ((testsEach_iff (fun _ _ => .ok ()) () allCritical asciiTable adjacentText trace crashPoints htrace hpoints).mp
        ⟨validations, hrun, (runManager_tests hrun).1⟩).1

/-- A store comes between the two transactions. -/
def clashingText : List Char :=
  linesText ["TXStart,7,a.c:1", "pmemobj_tx_begin,7,a.c:2,end", "Store,7,40,1,01,a.c:3", "pmemobj_tx_end,7,a.c:4,start",
    "Store,7,80,1,02,a.c:5", "pmemobj_tx_begin,7,a.c:6,end", "Store,7,c0,1,03,a.c:7", "pmemobj_tx_end,7,a.c:8,start",
    "TXEnd,7,a.c:9"]

/-- Two crash points have the id 4; the cursor stays at the second one and the final assertion fails. -/
theorem testsEach_fails_clashing : ∃ trace crashPoints, witcherTrace asciiTable clashingText = .ok trace ∧
    getCrashPointList allCritical trace = .ok crashPoints ∧ crashPoints.map CrashPoint.id = [3, 4, 4, 7] ∧
    ¬∃ validations, runManager (fun _ _ => .ok ()) () trace crashPoints = .ok validations ∧
      TestsEach (fun _ _ => .ok ()) trace.atomicWriteOps () crashPoints validations := by
  have hread : crashPointRun clashingText = some ([3, 4, 4, 7], false) := by decide +kernel
  obtain ⟨trace, crashPoints, htrace, hpoints, hids, hends⟩ := of_crashPointRun hread
  refine ⟨trace, crashPoints, htrace, hpoints, hids, ?_⟩
  rintro ⟨validations, hrun, -⟩
  rw [hrun] at hends
  cases hends

end Witcher.WitcherTx
