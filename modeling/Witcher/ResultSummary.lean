import Witcher.WitcherParallelResAnalyzer

/-! The totals of the summary. A row is a transaction in its place in the classification; every counter of
the summary is a weight of rows. The counter of a key of blocks weighs the rows of all types, so the
totals add up exactly if no key is shared by reported transactions of different types. -/

namespace Witcher

open Grouping PythonText

namespace WitcherParallelResAnalyzer

/-- The reported plans, each with the output difference that it is reported under. -/
def reportedPlans (a : WitcherParallelResAnalyzer) : List (List Char × String) :=
  a.reportedPriority.flatMap fun priorityTx =>
    priorityTx.contents fun _ coreDumpMap =>
      coreDumpMap.contents fun coreDump crashPlans => crashPlans.flatMap fun crashPlan => [(crashPlan, coreDump)]

/-- The plan is of transaction `i`. -/
def NamesTx (a : WitcherParallelResAnalyzer) (crashPlan : List Char) (i : Int) : Prop :=
  ∃ fenceId storeId, a.parseCrashPlan crashPlan = .ok [i, fenceId, storeId]

theorem NamesTx.unique {a : WitcherParallelResAnalyzer} {crashPlan : List Char} {i j : Int} (hi : a.NamesTx crashPlan i)
    (hj : a.NamesTx crashPlan j) : i = j := by
  obtain ⟨f, s, hi⟩ := hi
  obtain ⟨g, u, hj⟩ := hj
  rw [hi] at hj
  cases hj
  rfl

/-- Every reported plan is named after a fence of the trace and a transaction, and the transaction has a
type and a file of basic blocks. -/
structure WellFormed (a : WitcherParallelResAnalyzer) (txTypeList : List Char) : Prop where
  types : a.initTxTypeList = .ok txTypeList
  plans : ∀ p ∈ a.reportedPlans, ∃ i fenceId storeId fence txType bbKey,
    a.parseCrashPlan p.1 = .ok [i, fenceId, storeId] ∧ getItem a.atomicWriteOps fenceId = .ok (.fence fence) ∧
      getItem txTypeList i = .ok txType ∧ a.getBBKey i = .ok bbKey

/-- Reported transactions with the same key of basic blocks are of the same type. -/
def KeysApart (a : WitcherParallelResAnalyzer) (txTypeList : List Char) : Prop :=
  ∀ p ∈ a.reportedPlans, ∀ q ∈ a.reportedPlans, ∀ i j, a.NamesTx p.1 i → a.NamesTx q.1 j →
    a.getBBKey i = a.getBBKey j → getItem txTypeList i = getItem txTypeList j

end WitcherParallelResAnalyzer

open WitcherParallelResAnalyzer

/-- The totals of the parts are the total of the whole, at each level of the summary. -/
structure ResSummary.AddsUp (s : ResSummary) (plans : Nat) : Prop where
  keys : ∀ t ∈ s.types, (t.keys.map (·.crashPlans)).sum = t.crashPlans
  txs : ∀ t ∈ s.types, ∀ k ∈ t.keys, (k.txs.map (·.crashPlans)).sum = k.crashPlans
  types : (s.types.map (·.crashPlans)).sum = s.crashPlans
  total : s.crashPlans = plans

/-! ### The plans by type and transaction -/

section Groups

variable {a : WitcherParallelResAnalyzer} {txTypeList : List Char}

/-- `res_tx_type_map[txType][i]` holds plans of transaction `i`, which is of this type. -/
structure TxGroup (a : WitcherParallelResAnalyzer) (txTypeList : List Char) (txType : Char) (i : Int) (res : ResInOneTx) :
    Prop where
  txId : res.txId = i
  txType : getItem txTypeList i = .ok txType
  nonempty : res.reportedCrashPoints ≠ []
  named : ∀ point ∈ res.reportedCrashPoints, a.NamesTx point.fileName i

/-- The map of the plans seen so far. -/
structure Grouped (a : WitcherParallelResAnalyzer) (txTypeList : List Char) (seen : List (List Char × String))
    (m : ResTxTypeMap) : Prop where
  plans : (m.contents fun _ byTx => byTx.contents fun _ res => res.reportedCrashPoints.map (·.fileName)).Perm
    (seen.map Prod.fst)
  groups : ∀ e ∈ m.entries, ∀ f ∈ e.2.entries, TxGroup a txTypeList e.1 f.1 f.2

theorem Grouped.nil : Grouped a txTypeList [] .empty := ⟨.refl _, by simp [Dict.empty]⟩

theorem TxGroup.addCrashPoint {txType : Char} {point : ReportedCrashPoint} {res : ResInOneTx}
    (hres : res = .new point.txId txType ∨ TxGroup a txTypeList txType point.txId res)
    (htype : getItem txTypeList point.txId = .ok txType) (hname : a.NamesTx point.fileName point.txId) :
    TxGroup a txTypeList txType point.txId (res.addCrashPoint point) where
  txId := by
    rcases hres with rfl | h
    · rfl
    · exact h.txId
  txType := htype
  nonempty := by simp [ResInOneTx.addCrashPoint]
  named := by
    intro p hp
    simp only [ResInOneTx.addCrashPoint, List.mem_append, List.mem_singleton] at hp
    rcases hp with hp | rfl
    · rcases hres with rfl | h
      · simp [ResInOneTx.new] at hp
      · exact h.named p hp
    · exact hname

theorem Grouped.addCrashPoint {seen : List (List Char × String)} {m : ResTxTypeMap} (h : Grouped a txTypeList seen m)
    {txType : Char} (point : ReportedCrashPoint) (htype : getItem txTypeList point.txId = .ok txType)
    (hname : a.NamesTx point.fileName point.txId) (outputDiff : String) :
    Grouped a txTypeList (seen ++ [(point.fileName, outputDiff)]) (addCrashPoint m txType point) where
  plans := by
    have hone : ∀ byTx : Dict Int ResInOneTx,
        ((byTx.modify point.txId (.new point.txId txType) fun res => res.addCrashPoint point).contents
          fun _ res => res.reportedCrashPoints.map (·.fileName)).Perm
        ((byTx.contents fun _ res => res.reportedCrashPoints.map (·.fileName)) ++ [point.fileName]) := fun byTx =>
      Dict.contents_modify rfl fun res => by rw [ResInOneTx.addCrashPoint, List.map_append, List.map_singleton]
    rw [List.map_append, List.map_singleton]
    exact (Dict.contents_modify rfl hone).trans (h.plans.append_right _)
  groups := by
    refine Dict.forall_modify
      (P := fun t (byTx : Dict Int ResInOneTx) => ∀ f ∈ byTx.entries, TxGroup a txTypeList t f.1 f.2) h.groups ?_
    intro byTx hbyTx
    refine Dict.forall_modify (P := TxGroup a txTypeList txType) ?_ fun res hres => TxGroup.addCrashPoint hres htype hname
    rcases hbyTx with rfl | hbyTx
    · simp [Dict.empty]
    · exact hbyTx

theorem initResTxTypeMapFromCrashPlan_spec (h : WellFormed a txTypeList) {p : List Char × String} (hp : p ∈ a.reportedPlans)
    {seen : List (List Char × String)} {m : ResTxTypeMap} (hm : Grouped a txTypeList seen m) :
    ∃ m', a.initResTxTypeMapFromCrashPlan txTypeList m p.1 p.2 = .ok m' ∧ Grouped a txTypeList (seen ++ [p]) m' := by
  obtain ⟨i, fenceId, storeId, fence, txType, bbKey, hparse, hfence, htype, -⟩ := h.plans p hp
  let point : ReportedCrashPoint := ⟨p.1, i, .fence fence, .fence fence, p.2⟩
  refine ⟨WitcherParallelResAnalyzer.addCrashPoint m txType point, ?_, ?_⟩
  · simp only [initResTxTypeMapFromCrashPlan, hparse, Loops.ok_bind, unpack, hfence, assertFence, Op.isFence, if_true, htype]
    rfl
  · exact hm.addCrashPoint point htype ⟨fenceId, storeId, hparse⟩ p.2

theorem initResTxTypeMap_spec (h : WellFormed a txTypeList) :
    ∃ m, a.initResTxTypeMap txTypeList = .ok m ∧ Grouped a txTypeList a.reportedPlans m := by
  refine Loops.foldlM_flatMap (P := Grouped a txTypeList)
    (g := fun (priorityTx : Dict String (Dict String (List (List Char)))) =>
      priorityTx.contents fun _ coreDumpMap =>
        coreDumpMap.contents fun coreDump crashPlans =>
          crashPlans.flatMap fun crashPlan => [(crashPlan, coreDump)]) ?_ Grouped.nil
  intro priorityTx hpriority seen m hm
  refine Loops.foldlM_flatMap (P := Grouped a txTypeList)
    (g := fun (srcInfo : String × Dict String (List (List Char))) => srcInfo.2.contents fun coreDump crashPlans =>
      crashPlans.flatMap fun crashPlan => [(crashPlan, coreDump)]) ?_ hm
  intro srcInfo hsrc seen m hm
  refine Loops.foldlM_flatMap (P := Grouped a txTypeList)
    (g := fun (coreDump : String × List (List Char)) => coreDump.2.flatMap fun crashPlan => [(crashPlan, coreDump.1)]) ?_ hm
  intro coreDump hdump seen m hm
  refine Loops.foldlM_flatMap (P := Grouped a txTypeList) (g := fun (crashPlan : List Char) => [(crashPlan, coreDump.1)]) ?_ hm
  intro crashPlan hplan seen m hm
  have hp : (crashPlan, coreDump.1) ∈ a.reportedPlans := by
    refine List.mem_flatMap.mpr ⟨priorityTx, hpriority, Dict.mem_contents.mpr ⟨srcInfo, hsrc, ?_⟩⟩
    exact Dict.mem_contents.mpr ⟨coreDump, hdump, List.mem_flatMap.mpr ⟨crashPlan, hplan, List.mem_singleton_self _⟩⟩
  exact initResTxTypeMapFromCrashPlan_spec h hp hm

/-! ### The classification -/

/-- A transaction in its place in the classification. -/
structure Row where
  txType : Char
  bbKey : List Char
  res : ResInOneTx

def Row.plans (x : Row) : Nat := x.res.reportedCrashPoints.length

def keyRows (txType : Char) (bbKey : List Char) (resList : List ResInOneTx) : List Row :=
  resList.flatMap fun res => [⟨txType, bbKey, res⟩]

def typeRows (txType : Char) (byKey : Dict (List Char) (List ResInOneTx)) : List Row := byKey.contents (keyRows txType)

def rows (c : ClassifyRes) : List Row := c.contents typeRows

/-- No dictionary and no list of the classification is empty. -/
def NoneEmpty (c : ClassifyRes) : Prop := ∀ e ∈ c.entries, e.2.entries ≠ [] ∧ ∀ f ∈ e.2.entries, f.2 ≠ []

/-- The key of a transaction whose file of basic blocks can be read. -/
def WitcherParallelResAnalyzer.keyOf (a : WitcherParallelResAnalyzer) (i : Int) : List Char :=
  match a.getBBKey i with
  | .ok bbKey => bbKey
  | .error _ => []

/-- The classification of the transactions seen so far. -/
structure Classified (seen : List Row) (c : ClassifyRes) : Prop where
  rows : (rows c).Perm seen
  noneEmpty : NoneEmpty c

theorem Classified.nil : Classified [] .empty := ⟨.refl _, by simp [NoneEmpty, Dict.empty]⟩

theorem Classified.concat {seen : List Row} {c : ClassifyRes} (h : Classified seen c) (txType : Char) (bbKey : List Char)
    (res : ResInOneTx) :
    Classified (seen ++ [⟨txType, bbKey, res⟩])
      (c.modify txType .empty fun byKey => byKey.modify bbKey [] fun resList => resList ++ [res]) where
  rows := by
    have hone : ∀ byKey : Dict (List Char) (List ResInOneTx),
        (typeRows txType (byKey.modify bbKey [] fun resList => resList ++ [res])).Perm
          (typeRows txType byKey ++ [⟨txType, bbKey, res⟩]) := fun byKey =>
      Dict.contents_modify rfl fun resList => by
        rw [keyRows, List.flatMap_append, List.flatMap_singleton, keyRows]
    exact (Dict.contents_modify rfl hone).trans (h.rows.append_right _)
  noneEmpty := by
    refine Dict.forall_modify
      (P := fun _ (byKey : Dict (List Char) (List ResInOneTx)) =>
        byKey.entries ≠ [] ∧ ∀ f ∈ byKey.entries, f.2 ≠ []) h.noneEmpty ?_
    intro byKey hbyKey
    refine ⟨Dict.entries_modify_ne_nil _ _ _ _,
      Dict.forall_modify (P := fun _ (resList : List ResInOneTx) => resList ≠ []) ?_ ?_⟩
    · rcases hbyKey with rfl | hbyKey
      · simp [Dict.empty]
      · exact hbyKey.2
    · intro resList _
      simp

/-- The rows in the order of the first map. -/
def WitcherParallelResAnalyzer.txRows (a : WitcherParallelResAnalyzer) (m : ResTxTypeMap) : List Row :=
  m.contents fun txType byTx => byTx.contents fun i res => [⟨txType, a.keyOf i, res⟩]

theorem classifyBasedOnBB_spec {m : ResTxTypeMap}
    (hkey : ∀ e ∈ m.entries, ∀ f ∈ e.2.entries, ∃ bbKey, a.getBBKey f.1 = .ok bbKey) :
    ∃ c, a.classifyBasedOnBB m = .ok c ∧ Classified (a.txRows m) c := by
  refine Loops.foldlM_flatMap (P := Classified) (g := fun (e : Char × Dict Int ResInOneTx) =>
    e.2.contents fun i res => [⟨e.1, a.keyOf i, res⟩]) ?_ Classified.nil
  intro e he seen c hc
  refine Loops.foldlM_flatMap (P := Classified) (g := fun (f : Int × ResInOneTx) => [⟨e.1, a.keyOf f.1, f.2⟩]) ?_ hc
  intro f hf seen c hc
  obtain ⟨bbKey, hbb⟩ := hkey e he f hf
  refine ⟨_, ?_, hc.concat e.1 (a.keyOf f.1) f.2⟩
  rw [classifyTx, keyOf, hbb]
  rfl

/-- What the summary needs to know of the rows. -/
structure RowsOf (a : WitcherParallelResAnalyzer) (txTypeList : List Char) (rows : List Row) : Prop where
  plans : (rows.map Row.plans).sum = a.reportedPlans.length
  injective : ∀ x ∈ rows, ∀ y ∈ rows, x.res.txId = y.res.txId → x = y
  positive : ∀ x ∈ rows, 0 < x.plans
  txType : ∀ x ∈ rows, getItem txTypeList x.res.txId = .ok x.txType
  bbKey : ∀ x ∈ rows, a.getBBKey x.res.txId = .ok x.bbKey
  sound : ∀ x ∈ rows, ∃ p ∈ a.reportedPlans, a.NamesTx p.1 x.res.txId
  complete : ∀ p ∈ a.reportedPlans, ∀ i, a.NamesTx p.1 i → ∃ x ∈ rows, x.res.txId = i

theorem mem_txRows {m : ResTxTypeMap} {x : Row} :
    x ∈ a.txRows m ↔ ∃ e ∈ m.entries, ∃ f ∈ e.2.entries, x = ⟨e.1, a.keyOf f.1, f.2⟩ := by
  simp only [txRows, Dict.mem_contents, List.mem_singleton]

theorem exists_bbKey (h : WellFormed a txTypeList) {m : ResTxTypeMap} (hm : Grouped a txTypeList a.reportedPlans m) :
    ∀ e ∈ m.entries, ∀ f ∈ e.2.entries, ∃ p ∈ a.reportedPlans, a.NamesTx p.1 f.1 ∧ a.getBBKey f.1 = .ok (a.keyOf f.1) := by
  intro e he f hf
  have hgroup := hm.groups e he f hf
  obtain ⟨point, hpoint⟩ := List.exists_mem_of_ne_nil _ hgroup.nonempty
  have hname : point.fileName ∈ m.contents fun _ byTx => byTx.contents fun _ res => res.reportedCrashPoints.map (·.fileName) :=
    Dict.mem_contents.mpr ⟨e, he, Dict.mem_contents.mpr ⟨f, hf, List.mem_map_of_mem hpoint⟩⟩
  obtain ⟨p, hp, hpname⟩ := List.mem_map.mp (hm.plans.mem_iff.mp hname)
  have hnames := hgroup.named point hpoint
  rw [← hpname] at hnames
  obtain ⟨i, fenceId, storeId, fence, txType, bbKey, hparse, -, -, hkey⟩ := h.plans p hp
  have hi : i = f.1 := NamesTx.unique ⟨fenceId, storeId, hparse⟩ hnames
  rw [hi] at hkey
  exact ⟨p, hp, hnames, by rw [keyOf, hkey]⟩

theorem rowsOf_txRows (h : WellFormed a txTypeList) {m : ResTxTypeMap} (hm : Grouped a txTypeList a.reportedPlans m) :
    RowsOf a txTypeList (a.txRows m) where
  plans := by
    have hlength := hm.plans.length_eq
    rw [List.length_map] at hlength
    rw [← hlength]
    simp [txRows, Dict.contents, sum_flatMap, Row.plans, List.length_flatMap]
  injective := by
    intro x hx y hy hxy
    obtain ⟨e, he, f, hf, rfl⟩ := mem_txRows.mp hx
    obtain ⟨e', he', f', hf', rfl⟩ := mem_txRows.mp hy
    have hgroup := hm.groups e he f hf
    have hgroup' := hm.groups e' he' f' hf'
    have hid : f.1 = f'.1 := by rw [← hgroup.txId, ← hgroup'.txId, hxy]
    have htype : e.1 = e'.1 := by
      have heq := hgroup.txType
      rw [hid, hgroup'.txType] at heq
      exact (Except.ok.inj heq).symm
    have hee : e = e' := Dict.eq_of_mem_entries he he' htype
    subst hee
    rw [Dict.eq_of_mem_entries hf hf' hid]
  positive := by
    intro x hx
    obtain ⟨e, he, f, hf, rfl⟩ := mem_txRows.mp hx
    exact List.length_pos_of_ne_nil (hm.groups e he f hf).nonempty
  txType := by
    intro x hx
    obtain ⟨e, he, f, hf, rfl⟩ := mem_txRows.mp hx
    have hgroup := hm.groups e he f hf
    rw [hgroup.txId]
    exact hgroup.txType
  bbKey := by
    intro x hx
    obtain ⟨e, he, f, hf, rfl⟩ := mem_txRows.mp hx
    obtain ⟨-, -, -, hkey⟩ := exists_bbKey h hm e he f hf
    rw [(hm.groups e he f hf).txId]
    exact hkey
  sound := by
    intro x hx
    obtain ⟨e, he, f, hf, rfl⟩ := mem_txRows.mp hx
    obtain ⟨p, hp, hname, -⟩ := exists_bbKey h hm e he f hf
    exact ⟨p, hp, by rw [(hm.groups e he f hf).txId]; exact hname⟩
  complete := by
    intro p hp i hi
    have hmem := hm.plans.mem_iff.mpr (List.mem_map_of_mem hp)
    obtain ⟨e, he, hmem⟩ := Dict.mem_contents.mp hmem
    obtain ⟨f, hf, hmem⟩ := Dict.mem_contents.mp hmem
    obtain ⟨point, hpoint, hname⟩ := List.mem_map.mp hmem
    have hgroup := hm.groups e he f hf
    have hnames := hgroup.named point hpoint
    rw [hname] at hnames
    refine ⟨⟨e.1, a.keyOf f.1, f.2⟩, mem_txRows.mpr ⟨e, he, f, hf, rfl⟩, ?_⟩
    rw [hgroup.txId, NamesTx.unique hnames hi]

theorem RowsOf.perm {l l' : List Row} (h : RowsOf a txTypeList l) (hperm : l'.Perm l) : RowsOf a txTypeList l' where
  plans := by rw [← h.plans, (hperm.map Row.plans).sum_nat]
  injective := fun x hx y hy => h.injective x (hperm.mem_iff.mp hx) y (hperm.mem_iff.mp hy)
  positive := fun x hx => h.positive x (hperm.mem_iff.mp hx)
  txType := fun x hx => h.txType x (hperm.mem_iff.mp hx)
  bbKey := fun x hx => h.bbKey x (hperm.mem_iff.mp hx)
  sound := fun x hx => h.sound x (hperm.mem_iff.mp hx)
  complete := by
    intro p hp i hi
    obtain ⟨x, hx, hxi⟩ := h.complete p hp i hi
    exact ⟨x, hperm.mem_iff.mpr hx, hxi⟩

theorem classifyRes_spec (h : WellFormed a txTypeList) :
    ∃ c, a.classifyRes = .ok c ∧ NoneEmpty c ∧ RowsOf a txTypeList (rows c) := by
  obtain ⟨m, hinit, hm⟩ := initResTxTypeMap_spec h
  have hkey : ∀ e ∈ m.entries, ∀ f ∈ e.2.entries, ∃ bbKey, a.getBBKey f.1 = .ok bbKey := by
    intro e he f hf
    obtain ⟨-, -, -, hkey⟩ := exists_bbKey h hm e he f hf
    exact ⟨_, hkey⟩
  obtain ⟨c, hclassify, hc⟩ := classifyBasedOnBB_spec hkey
  refine ⟨c, ?_, hc.noneEmpty, (rowsOf_txRows h hm).perm hc.rows⟩
  rw [classifyRes, h.types, Loops.ok_bind, hinit, Loops.ok_bind, hclassify]

end Groups

/-! ### The counters -/

/-- The counters after the rows seen so far. -/
structure TotalsOf (seen : List Row) (t : SummaryTotals) : Prop where
  perTxType : ∀ txType, t.perTxType.get? txType = tally Row.txType Row.plans seen txType
  perBBKey : ∀ bbKey, t.perBBKey.get? bbKey = tally Row.bbKey Row.plans seen bbKey
  noBBKey : ∀ bbKey, t.perTxId.get? (.inl bbKey) = none
  perTxId : ∀ x ∈ seen, ∃ y ∈ seen, y.res.txId = x.res.txId ∧ t.perTxId.get? (.inr x.res.txId) = some y.plans
  crashPlans : t.crashPlans = (seen.map Row.plans).sum

theorem TotalsOf.zero : TotalsOf [] .zero := ⟨fun _ => rfl, fun _ => rfl, fun _ => rfl, by simp, rfl⟩

/-- A key of blocks is never a key of the third dictionary, so the count of the transaction starts anew. -/
theorem addTxId_spec {d : Dict (List Char ⊕ Int) Nat} {bbKey : List Char} (hkey : d.get? (.inl bbKey) = none) (txId : Int)
    (length : Nat) : ∃ d', SummaryTotals.addTxId d bbKey txId length = .ok d' ∧
      ∀ k, d'.get? k = if k = .inr txId then some length else d.get? k := by
  refine ⟨(d.set (.inr txId) 0).set (.inr txId) (0 + length), ?_, ?_⟩
  · simp [SummaryTotals.addTxId, hkey, Dict.get?_set]
  · intro k
    rw [Dict.get?_set, Dict.get?_set, Nat.zero_add]
    split_ifs <;> rfl

theorem addRes_spec {seen : List Row} {t : SummaryTotals} (h : TotalsOf seen t) (txType : Char) (bbKey : List Char)
    (res : ResInOneTx) : ∃ t', SummaryTotals.addRes txType bbKey t res = .ok t' ∧
      TotalsOf (seen ++ [⟨txType, bbKey, res⟩]) t' := by
  obtain ⟨d, hadd, hd⟩ := addTxId_spec (h.noBBKey bbKey) res.txId res.reportedCrashPoints.length
  refine ⟨_, by rw [SummaryTotals.addRes, hadd]; rfl, ?_, ?_, ?_, ?_, ?_⟩
  · exact get?_count h.perTxType ⟨txType, bbKey, res⟩
  · exact get?_count h.perBBKey ⟨txType, bbKey, res⟩
  · intro k
    rw [hd, if_neg Sum.inl_ne_inr]
    exact h.noBBKey k
  · intro x hx
    by_cases hid : x.res.txId = res.txId
    · exact ⟨⟨txType, bbKey, res⟩, by simp, hid.symm, by rw [hd, if_pos (by rw [hid])]; rfl⟩
    · rcases List.mem_append.mp hx with hx | hx
      · obtain ⟨y, hy, hyx, hget⟩ := h.perTxId x hx
        exact ⟨y, List.mem_append_left _ hy, hyx, by rw [hd, if_neg (by simpa using hid), hget]⟩
      · rw [List.mem_singleton.mp hx] at hid
        exact absurd rfl hid
  · rw [List.map_append, List.sum_append, ← h.crashPlans]
    simp [Row.plans]

/-- The numbers of types and of keys are not part of the counters of rows. -/
theorem TotalsOf.frame {seen : List Row} {t : SummaryTotals} (h : TotalsOf seen t) (txTypes bbKeys txIds : Nat) :
    TotalsOf seen { t with txTypes := txTypes, bbKeys := bbKeys, txIds := txIds } :=
  ⟨h.perTxType, h.perBBKey, h.noBBKey, h.perTxId, h.crashPlans⟩

theorem ofClassifyRes_spec (c : ClassifyRes) : ∃ t, SummaryTotals.ofClassifyRes c = .ok t ∧ TotalsOf (rows c) t := by
  refine Loops.foldlM_flatMap (P := TotalsOf) (g := fun (e : Char × Dict (List Char) (List ResInOneTx)) => typeRows e.1 e.2)
    ?_ TotalsOf.zero
  intro e _ seen t ht
  refine Loops.foldlM_flatMap (P := TotalsOf) (g := fun (f : List Char × List ResInOneTx) => keyRows e.1 f.1 f.2)
    ?_ (ht.frame (t.txTypes + 1) t.bbKeys t.txIds)
  intro f _ seen t ht
  refine Loops.foldlM_flatMap (P := TotalsOf) (g := fun (res : ResInOneTx) => [⟨e.1, f.1, res⟩])
    ?_ (ht.frame t.txTypes (t.bbKeys + 1) t.txIds)
  intro res _ seen t ht
  exact addRes_spec ht e.1 f.1 res

/-! ### The printed numbers -/

def txLine (res : ResInOneTx) : TxSummary := ⟨res.txId, res.reportedCrashPoints.length⟩

def keyBlock (all : List Row) (byKey : List Char × List ResInOneTx) : BBKeySummary :=
  ⟨byKey.2.length, weight Row.plans (fun x => x.bbKey = byKey.1) all, byKey.2.map txLine⟩

def typeBlock (all : List Row) (byType : Char × Dict (List Char) (List ResInOneTx)) : TxTypeSummary :=
  ⟨byType.1, byType.2.entries.length, weight Row.plans (fun x => x.txType = byType.1) all,
    byType.2.entries.map (keyBlock all)⟩

theorem mem_rows {c : ClassifyRes} {x : Row} :
    x ∈ rows c ↔ ∃ e ∈ c.entries, ∃ f ∈ e.2.entries, ∃ res ∈ f.2, x = ⟨e.1, f.1, res⟩ := by
  simp only [rows, typeRows, keyRows, Dict.mem_contents, List.mem_flatMap, List.mem_singleton]

theorem getKey_tally {κ : Type} [DecidableEq κ] {d : Dict κ Nat} {key : Row → κ} {all : List Row}
    (h : ∀ k, d.get? k = tally key Row.plans all k) {x : Row} (hx : x ∈ all) :
    getKey d (key x) = .ok (weight Row.plans (fun y => key y = key x) all) := by
  rw [getKey, h, tally, if_pos (List.mem_map_of_mem hx)]

theorem resSummary_spec {c : ClassifyRes} (hc : NoneEmpty c)
    (hinj : ∀ x ∈ rows c, ∀ y ∈ rows c, x.res.txId = y.res.txId → x = y) :
    ∃ s, resSummary c = .ok s ∧ s.types = c.entries.map (typeBlock (rows c)) ∧
      s.crashPlans = ((rows c).map Row.plans).sum := by
  obtain ⟨t, htotals, ht⟩ := ofClassifyRes_spec c
  have htx : ∀ x ∈ rows c, t.txSummary x.res = .ok (txLine x.res) := by
    intro x hx
    obtain ⟨y, hy, hyx, hget⟩ := ht.perTxId x hx
    rw [hinj y hy x hx hyx] at hget
    rw [SummaryTotals.txSummary, getKey, hget]
    rfl
  have hkey : ∀ e ∈ c.entries, ∀ f ∈ e.2.entries, t.bbKeySummary f = .ok (keyBlock (rows c) f) := by
    intro e he f hf
    obtain ⟨res, hres⟩ := List.exists_mem_of_ne_nil _ ((hc e he).2 f hf)
    have hcount := getKey_tally ht.perBBKey (mem_rows.mpr ⟨e, he, f, hf, res, hres, rfl⟩)
    have hlines : f.2.mapM t.txSummary = .ok (f.2.map txLine) :=
      Loops.mapM_ok fun res hres => htx ⟨e.1, f.1, res⟩ (mem_rows.mpr ⟨e, he, f, hf, res, hres, rfl⟩)
    rw [SummaryTotals.bbKeySummary, hcount, Loops.ok_bind, hlines]
    rfl
  have htype : ∀ e ∈ c.entries, t.txTypeSummary e = .ok (typeBlock (rows c) e) := by
    intro e he
    obtain ⟨f, hf⟩ := List.exists_mem_of_ne_nil _ (hc e he).1
    obtain ⟨res, hres⟩ := List.exists_mem_of_ne_nil _ ((hc e he).2 f hf)
    have hcount := getKey_tally ht.perTxType (mem_rows.mpr ⟨e, he, f, hf, res, hres, rfl⟩)
    have hblocks : e.2.entries.mapM t.bbKeySummary = .ok (e.2.entries.map (keyBlock (rows c))) :=
      Loops.mapM_ok (hkey e he)
    rw [SummaryTotals.txTypeSummary, hcount, Loops.ok_bind, hblocks]
    rfl
  refine ⟨⟨t.txTypes, t.bbKeys, t.txIds, t.crashPlans, c.entries.map (typeBlock (rows c))⟩, ?_, rfl, ht.crashPlans⟩
  rw [resSummary, htotals, Loops.ok_bind, Loops.mapM_ok htype]
  rfl

theorem tag_typeRows (txType : Char) (byKey : Dict (List Char) (List ResInOneTx)) :
    ∀ x ∈ typeRows txType byKey, x.txType = txType := by
  intro x hx
  obtain ⟨f, hf, hx⟩ := Dict.mem_contents.mp hx
  obtain ⟨res, -, hx⟩ := List.mem_flatMap.mp hx
  rw [List.mem_singleton.mp hx]

theorem tag_keyRows (txType : Char) (bbKey : List Char) (resList : List ResInOneTx) :
    ∀ x ∈ keyRows txType bbKey resList, x.bbKey = bbKey := by
  intro x hx
  obtain ⟨res, -, hx⟩ := List.mem_flatMap.mp hx
  rw [List.mem_singleton.mp hx]

theorem weight_txType {c : ClassifyRes} {e : Char × Dict (List Char) (List ResInOneTx)} (he : e ∈ c.entries) :
    weight Row.plans (fun x => x.txType = e.1) (rows c) = ((typeRows e.1 e.2).map Row.plans).sum := by
  rw [weight, rows, Dict.filter_contents tag_typeRows he]

theorem sum_keyRows (txType : Char) (bbKey : List Char) (resList : List ResInOneTx) :
    ((keyRows txType bbKey resList).map Row.plans).sum = ((resList.map txLine).map TxSummary.crashPlans).sum := by
  rw [keyRows, sum_flatMap]
  simp [Row.plans, txLine, Function.comp_def]

/-- The transactions of a type with a key are those that are listed under them. -/
theorem weight_bbKey_txType {c : ClassifyRes} {e : Char × Dict (List Char) (List ResInOneTx)} (he : e ∈ c.entries)
    {f : List Char × List ResInOneTx} (hf : f ∈ e.2.entries) :
    weight Row.plans (fun x => x.bbKey = f.1 ∧ x.txType = e.1) (rows c) = ((f.2.map txLine).map TxSummary.crashPlans).sum := by
  have hfilter : (rows c).filter (fun x => decide (x.bbKey = f.1 ∧ x.txType = e.1)) = keyRows e.1 f.1 f.2 := by
    rw [← Dict.filter_contents (tag_keyRows e.1) hf, ← typeRows, ← Dict.filter_contents tag_typeRows he,
      List.filter_filter, rows]
    simp only [Bool.decide_and]
  rw [weight, hfilter, sum_keyRows]

/-! ### What adds up -/

/-- Rows with the same key of basic blocks are of the same type. -/
def RowsApart (all : List Row) : Prop := ∀ x ∈ all, ∀ y ∈ all, x.bbKey = y.bbKey → x.txType = y.txType

/-- The lines of a key add up exactly if no other type has the key. -/
theorem keyBlock_iff {c : ClassifyRes} (hpos : ∀ x ∈ rows c, 0 < x.plans) {e : Char × Dict (List Char) (List ResInOneTx)}
    (he : e ∈ c.entries) {f : List Char × List ResInOneTx} (hf : f ∈ e.2.entries) :
    ((f.2.map txLine).map TxSummary.crashPlans).sum = (keyBlock (rows c) f).crashPlans ↔
      ∀ x ∈ rows c, x.bbKey = f.1 → x.txType = e.1 := by
  have hsplit : weight Row.plans (fun x => x.bbKey = f.1) (rows c) =
      weight Row.plans (fun x => x.bbKey = f.1 ∧ x.txType = e.1) (rows c) +
        weight Row.plans (fun x => x.bbKey = f.1 ∧ ¬x.txType = e.1) (rows c) := weight_split _
  have hother := weight_eq_zero_iff (w := Row.plans) (p := fun x => x.bbKey = f.1 ∧ ¬x.txType = e.1) hpos
  rw [weight_bbKey_txType he hf] at hsplit
  have hzero : ((f.2.map txLine).map TxSummary.crashPlans).sum = (keyBlock (rows c) f).crashPlans ↔
      weight Row.plans (fun x => x.bbKey = f.1 ∧ ¬x.txType = e.1) (rows c) = 0 := by
    rw [keyBlock]
    dsimp only
    omega
  rw [hzero, hother]
  simp only [not_and, not_not]

theorem typeBlock_sum {c : ClassifyRes} {e : Char × Dict (List Char) (List ResInOneTx)} (he : e ∈ c.entries)
    (hkeys : ∀ f ∈ e.2.entries, ((f.2.map txLine).map TxSummary.crashPlans).sum = (keyBlock (rows c) f).crashPlans) :
    ((e.2.entries.map (keyBlock (rows c))).map BBKeySummary.crashPlans).sum = (typeBlock (rows c) e).crashPlans := by
  rw [typeBlock, weight_txType he, typeRows, Dict.contents, sum_flatMap, List.map_map]
  congr 1
  refine List.map_congr_left fun f hf => ?_
  rw [Function.comp_apply, ← hkeys f hf, sum_keyRows]

theorem types_sum (c : ClassifyRes) :
    ((c.entries.map (typeBlock (rows c))).map TxTypeSummary.crashPlans).sum = ((rows c).map Row.plans).sum := by
  conv_rhs => rw [rows, Dict.contents, sum_flatMap]
  rw [List.map_map]
  congr 1
  refine List.map_congr_left fun e he => ?_
  rw [Function.comp_apply, typeBlock, weight_txType he]

theorem addsUp_iff_rowsApart {c : ClassifyRes} {s : ResSummary} (hc : NoneEmpty c) (hpos : ∀ x ∈ rows c, 0 < x.plans)
    (htypes : s.types = c.entries.map (typeBlock (rows c))) (htotal : s.crashPlans = ((rows c).map Row.plans).sum) :
    s.AddsUp ((rows c).map Row.plans).sum ↔ RowsApart (rows c) := by
  constructor
  · intro h x hx y hy hxy
    obtain ⟨e, he, f, hf, res, -, rfl⟩ := mem_rows.mp hy
    have htype : typeBlock (rows c) e ∈ s.types := htypes ▸ List.mem_map_of_mem he
    exact (keyBlock_iff hpos he hf).mp (h.txs _ htype _ (List.mem_map_of_mem hf)) x hx hxy
  · intro h
    have hkey : ∀ e ∈ c.entries, ∀ f ∈ e.2.entries,
        ((f.2.map txLine).map TxSummary.crashPlans).sum = (keyBlock (rows c) f).crashPlans := by
      intro e he f hf
      refine (keyBlock_iff hpos he hf).mpr fun x hx hxf => ?_
      obtain ⟨res, hres⟩ := List.exists_mem_of_ne_nil _ ((hc e he).2 f hf)
      exact h x hx ⟨e.1, f.1, res⟩ (mem_rows.mpr ⟨e, he, f, hf, res, hres, rfl⟩) hxf
    refine ⟨?_, ?_, ?_, htotal⟩
    · rw [htypes]
      intro t ht
      obtain ⟨e, he, rfl⟩ := List.mem_map.mp ht
      exact typeBlock_sum he (hkey e he)
    · rw [htypes]
      intro t ht k hk
      obtain ⟨e, he, rfl⟩ := List.mem_map.mp ht
      obtain ⟨f, hf, rfl⟩ := List.mem_map.mp hk
      exact hkey e he f hf
    · rw [htypes, htotal]
      exact types_sum c

theorem rowsApart_iff {a : WitcherParallelResAnalyzer} {txTypeList : List Char} {all : List Row} (h : RowsOf a txTypeList all) :
    RowsApart all ↔ a.KeysApart txTypeList := by
  constructor
  · intro hall p hp q hq i j hi hj hkey
    obtain ⟨x, hx, rfl⟩ := h.complete p hp i hi
    obtain ⟨y, hy, rfl⟩ := h.complete q hq j hj
    rw [h.bbKey x hx, h.bbKey y hy] at hkey
    rw [h.txType x hx, h.txType y hy, hall x hx y hy (Except.ok.inj hkey)]
  · intro hapart x hx y hy hxy
    obtain ⟨p, hp, hpx⟩ := h.sound x hx
    obtain ⟨q, hq, hqy⟩ := h.sound y hy
    have hkey : a.getBBKey x.res.txId = a.getBBKey y.res.txId := by rw [h.bbKey x hx, h.bbKey y hy, hxy]
    have htype := hapart p hp q hq _ _ hpx hqy hkey
    rw [h.txType x hx, h.txType y hy] at htype
    exact Except.ok.inj htype

/-- The summary is written, and its totals add up exactly if no key of basic blocks is shared by reported
transactions of different types. -/
theorem summary_addsUp_iff {a : WitcherParallelResAnalyzer} {txTypeList : List Char} (h : a.WellFormed txTypeList) :
    ∃ (c : ClassifyRes) (s : ResSummary), a.classifyRes = .ok c ∧ resSummary c = .ok s ∧
      printClassifyResSummary c = .ok s.text ∧ (s.AddsUp a.reportedPlans.length ↔ a.KeysApart txTypeList) := by
  obtain ⟨c, hclassify, hc, hrows⟩ := classifyRes_spec h
  obtain ⟨s, hs, htypes, htotal⟩ := resSummary_spec hc hrows.injective
  refine ⟨c, s, hclassify, hs, ?_, ?_⟩
  · rw [printClassifyResSummary, hs]
    rfl
  · rw [← hrows.plans, addsUp_iff_rowsApart hc hrows.positive htypes htotal]
    exact rowsApart_iff hrows

/-- Two transactions of different types that run the same block, with one plan each. -/
def sharedKey : WitcherParallelResAnalyzer where
  table := asciiTable
  atomicWriteOps := [.fence ⟨0, 1, "list.c:10"⟩]
  opFile := ['p', '\n', 'g', '\n']
  bbFiles := fun _ => some ['3', '\n']
  reportedPriority := [⟨[("list.c:10", ⟨[("output diff",
    [crashPlanName ['r', 'e', 's'] 0 0 0, crashPlanName ['r', 'e', 's'] 1 0 0])], by decide⟩)], by decide⟩]

def sharedSummary : ResSummary :=
  ⟨2, 2, 2, 2, [⟨'p', 1, 1, [⟨1, 2, [⟨0, 1⟩]⟩]⟩, ⟨'g', 1, 1, [⟨1, 2, [⟨1, 1⟩]⟩]⟩]⟩

theorem sharedKey_wellFormed : sharedKey.WellFormed ['p', 'g'] where
  types := by decide +kernel
  plans := by
    have hkey : sharedKey.getBBKey 0 = .ok ['3', ','] := by decide +kernel
    have hpath : ¬['p', 'm', '.', 'i', 'm', 'g'] <:+: ['r', 'e', 's'] := by decide
    have hparse := fun txId => parseCrashPlan_crashPlanName sharedKey hpath txId 0 0
    intro p hp
    have hplans : sharedKey.reportedPlans = [(crashPlanName ['r', 'e', 's'] 0 0 0, "output diff"),
        (crashPlanName ['r', 'e', 's'] 1 0 0, "output diff")] := rfl
    rw [hplans, List.mem_cons, List.mem_singleton] at hp
    rcases hp with rfl | rfl
    · exact ⟨0, 0, 0, ⟨0, 1, "list.c:10"⟩, 'p', _, hparse 0, rfl, rfl, hkey⟩
    · exact ⟨1, 0, 0, ⟨0, 1, "list.c:10"⟩, 'g', _, hparse 1, rfl, rfl, hkey⟩

theorem summary_addsUp_iff_shared :
    ∃ (c : ClassifyRes) (s : ResSummary), sharedKey.classifyRes = .ok c ∧ resSummary c = .ok s ∧
      printClassifyResSummary c = .ok s.text ∧ (s.AddsUp sharedKey.reportedPlans.length ↔ sharedKey.KeysApart ['p', 'g']) :=
  summary_addsUp_iff sharedKey_wellFormed

theorem sharedKey_summary : (sharedKey.classifyRes >>= resSummary) = .ok sharedSummary := by decide +kernel

theorem summary_fails_shared : ∃ (c : ClassifyRes) (s : ResSummary), sharedKey.classifyRes = .ok c ∧
    resSummary c = .ok s ∧ ¬s.AddsUp sharedKey.reportedPlans.length := by
  obtain ⟨c, hc, hs⟩ := Loops.bind_ok sharedKey_summary
  refine ⟨c, sharedSummary, hc, hs, fun h => ?_⟩
  have htxs := h.txs ⟨'p', 1, 1, [⟨1, 2, [⟨0, 1⟩]⟩]⟩ (by decide) ⟨1, 2, [⟨0, 1⟩]⟩ (by decide)
  exact absurd htxs (by decide)

end Witcher
