import Mathlib.Tactic.IntervalCases
import Witcher.ExecForcers
import Witcher.FunctionSearches

/-! Executions of blocks as `TraceFile.cpp` finds them: the execution of a block that a value is from, the execution that
forced another one, and the one that a PHI node was reached from. -/

namespace Witcher.TraceScan

open Loops

variable {ν β φ : Type} [DecidableEq φ]

/-- A block and the index of the block record of one of its executions. -/
structure DynBasicBlock (β : Type) where
  BB : β
  index : Nat
  deriving DecidableEq, Repr

/-- `BuggyValues`, which holds values and blocks. A search for one of them has failed before. -/
structure BuggyValues (ν β : Type) where
  values : List ν
  blocks : List β

structure PHINode (ν β : Type) where
  parent : β
  incoming : List (β × ν)

namespace LoadedTrace

/-- `DynValue(V, index)`. A constant has one execution, at index 0. -/
def dynValue (T : LoadedTrace ν β φ) (V : ν) (index : Nat) : DynValue ν := ⟨V, if T.isConstant V then 0 else index⟩

/-- The last execution of the block up to an index, in the activation the thread of the record there is in. -/
def findBlock (T : LoadedTrace ν β φ) (BB : β) (index : Nat) : Except SearchError (Option (Nat × Entry)) :=
  match T.trace[index]? with
  | none => .error .readsOutside
  | some entry => do
      let found ← T.findPreviousID (T.getParent BB) index .bbType entry.tid [T.blockID BB]
      if found = T.maxIndex then .ok none
      else
        match T.trace[found]? with
        | none => .error .readsOutside
        | some record => .ok (some (found, record))

section Again

variable {maxIndex : Nat} {funAddr tid : UInt64} {type : RecordType} {ids : List UInt32} {nesting : Int} {records : List Entry}
  {i : Nat}

/-- The loop returns the index of a record that was looked for, or its limit, or goes on. -/
theorem findPreviousIDFrom_cons_ok {entry : Entry} {rest : List Entry}
    (h : findPreviousIDFrom maxIndex funAddr type tid ids nesting (entry :: rest) = .ok i) :
    (rest.length = i ∧ entry.type = type ∧ entry.tid = tid ∧ entry.id ∈ ids) ∨ i = maxIndex ∨
      ∃ nesting, findPreviousIDFrom maxIndex funAddr type tid ids nesting rest = .ok i := by
  rw [findPreviousIDFrom] at h
  by_cases hnegative : nesting < 0
  · rw [if_pos hnegative] at h
    cases h
  rw [if_neg hnegative] at h
  split at h
  · rename_i hfound
    exact .inl ⟨Except.ok.inj h, hfound.1⟩
  · simp only at h
    by_cases hlast : rest.length = 1
    · rw [if_pos hlast] at h
      exact .inr (.inl (Except.ok.inj h).symm)
    · rw [if_neg hlast] at h
      exact .inr (.inr ⟨_, h⟩)

theorem findPreviousIDFrom_ok (h : findPreviousIDFrom maxIndex funAddr type tid ids nesting records = .ok i) :
    i = maxIndex ∨ ∃ front entry rest, records = front ++ entry :: rest ∧ rest.length = i ∧ entry.type = type ∧
      entry.tid = tid ∧ entry.id ∈ ids := by
  induction records generalizing nesting with
  | nil =>
      rw [findPreviousIDFrom] at h
      split_ifs at h
  | cons entry rest ih =>
      rcases findPreviousIDFrom_cons_ok h with hfound | hmax | ⟨nesting, hrest⟩
      · exact .inr ⟨[], entry, rest, rfl, hfound⟩
      · exact .inl hmax
      · rcases ih hrest with hmax | ⟨front, found, after, rfl, hmatch⟩
        · exact .inl hmax
        · exact .inr ⟨entry :: front, found, after, rfl, hmatch⟩

variable {T : LoadedTrace ν β φ} {fn : φ} {start : Nat}

theorem findPreviousID_ok (h : T.findPreviousID fn start type tid ids = .ok i) (hmax : i ≠ T.maxIndex) :
    ∃ entry, T.trace[i]? = some entry ∧ entry.type = type ∧ entry.tid = tid ∧ entry.id ∈ ids := by
  rw [findPreviousID] at h
  split_ifs at h with hstart
  rcases findPreviousIDFrom_ok h with heq | ⟨front, entry, rest, hrecords, rfl, hmatch⟩
  · exact (hmax heq).elim
  · refine ⟨entry, ?_, hmatch⟩
    have htake := congrArg List.reverse hrecords
    rw [List.reverse_reverse, List.reverse_append, List.reverse_cons, List.append_assoc] at htake
    rw [← List.take_append_drop (start + 1) T.trace, htake, List.append_assoc, ← rest.length_reverse,
      List.getElem?_append_right (Nat.le_refl _), Nat.sub_self]
    rfl

/-- From the index that was found on, the search finds it again. -/
theorem findPreviousID_again (h : T.findPreviousID fn start .bbType tid ids = .ok i) (hmax : i ≠ T.maxIndex) :
    T.findPreviousID fn i .bbType tid ids = .ok i := by
  obtain ⟨entry, hget, htype, rfl, hmem⟩ := findPreviousID_ok h hmax
  exact findPreviousID_found hget htype hmem

theorem findBlock_again {BB : β} {record : Entry} (h : T.findBlock BB start = .ok (some (i, record))) :
    T.findBlock BB i = .ok (some (i, record)) := by
  rw [findBlock] at h
  match hstart : T.trace[start]? with
  | none =>
      rw [hstart] at h
      cases h
  | some entry =>
      rw [hstart] at h
      obtain ⟨found, hfound, h⟩ := bind_ok h
      by_cases hmax : found = T.maxIndex
      · rw [if_pos hmax] at h
        cases h
      rw [if_neg hmax] at h
      obtain ⟨record', hget, htype, htid, hmem⟩ := findPreviousID_ok hfound hmax
      rw [hget] at h
      cases h
      rw [findBlock, hget]
      simp only
      rw [htid, findPreviousID_again hfound hmax, ok_bind, if_neg hmax, hget]

end Again

/-- `normalize` of a dynamic block. -/
def normalizeBlock [DecidableEq β] (T : LoadedTrace ν β φ) (buggy : BuggyValues ν β) (DBB : DynBasicBlock β) :
    Except SearchError (Option (DynBasicBlock β) × BuggyValues ν β) :=
  if DBB.BB ∈ buggy.blocks then .ok (none, buggy)
  else do
    match ← T.findBlock DBB.BB DBB.index with
    | none => .ok (none, { buggy with blocks := DBB.BB :: buggy.blocks })
    | some (index, record) =>
        if record.type = .enType ∨ record.type = .bbType ∧ record.id = T.blockID DBB.BB then
          .ok (some { DBB with index := index }, buggy)
        else .error .assertionFails

/-- `normalize` of a dynamic value. `blockOf` is the block of an instruction and the entry block for an argument. -/
def normalize [DecidableEq ν] (T : LoadedTrace ν β φ) (blockOf : ν → Option β) (buggy : BuggyValues ν β) (DV : DynValue ν) :
    Except SearchError (Option (DynValue ν) × BuggyValues ν β) :=
  if DV.V ∈ buggy.values then .ok (none, buggy)
  else
    match blockOf DV.V with
    | none => .ok (some DV, buggy)
    | some BB => do
        match ← T.findBlock BB DV.index with
        | none => .ok (none, { buggy with values := DV.V :: buggy.values })
        | some (normIndex, record) =>
            if record.type = .bbType then .ok (some { DV with index := normIndex }, buggy) else .error .assertionFails

/-- The indices are unsigned. -/
def indexBefore (index : Nat) : Nat := (index + (2 ^ 64 - 1)) % 2 ^ 64

def getExecForcer [DecidableEq β] (T : LoadedTrace ν β φ) (buggy : BuggyValues ν β) (DBB : DynBasicBlock β)
    (bbnums : List UInt32) : Except SearchError (Option (DynBasicBlock β) × BuggyValues ν β) := do
  let (normalized, buggy) ← T.normalizeBlock buggy DBB
  match normalized with
  | none => .ok (none, buggy)
  | some DBB =>
      match T.trace[DBB.index]? with
      | none => .error .readsOutside
      | some entry => do
          let index ← T.findPreviousID (T.getParent DBB.BB) (indexBefore DBB.index) .bbType entry.tid bbnums
          if index = T.maxIndex then .ok (none, buggy)
          else
            match T.trace[index]? with
            | none => .error .readsOutside
            | some record =>
                if record.type = .bbType then .ok (some ⟨T.getBlock record.id, index⟩, buggy) else .error .assertionFails

/-- The value that came in from the block that was executed before the block of the PHI node. -/
def getSourcesForPHI (T : LoadedTrace ν β φ) (phi : PHINode ν β) (index : Nat) : Except SearchError (List (DynValue ν)) :=
  match T.trace[index]? with
  | none => .error .readsOutside
  | some entry => do
      let fn := T.getParent phi.parent
      let block_index ← T.findPreviousID fn index .bbType entry.tid [T.blockID phi.parent]
      if block_index = T.maxIndex then .ok []
      else if block_index = 0 then .error .assertionFails
      else
        let predIDs := phi.incoming.map fun p => T.blockID p.1
        let pred_index ← T.findPreviousID fn (block_index - 1) .bbType entry.tid predIDs
        if pred_index = T.maxIndex then .ok []
        else
          match T.trace[pred_index]? with
          | none => .error .readsOutside
          | some pred =>
              match phi.incoming.find? fun p => pred.id = T.blockID p.1 with
              | some (_, V) => .ok [T.dynValue V pred_index]
              | none => .error .fatalError

/-! ### Normalising twice -/

/-- A normalised value is at a block record of its block, of the thread of the record it was at. -/
theorem normalize_record [DecidableEq ν] {T : LoadedTrace ν β φ} {blockOf : ν → Option β} {buggy buggy' : BuggyValues ν β}
    {d d' : DynValue ν} (h : T.normalize blockOf buggy d = .ok (some d', buggy')) :
    (blockOf d.V = none ∧ d' = d) ∨ ∃ BB entry record, blockOf d.V = some BB ∧ T.trace[d.index]? = some entry ∧
      T.trace[d'.index]? = some record ∧ record.type = .bbType ∧ record.tid = entry.tid ∧ record.id = T.blockID BB := by
  rw [normalize] at h
  by_cases hbuggy : d.V ∈ buggy.values
  · rw [if_pos hbuggy] at h
    cases h
  rw [if_neg hbuggy] at h
  match hblock : blockOf d.V with
  | none =>
      rw [hblock] at h
      cases h
      exact .inl ⟨rfl, rfl⟩
  | some BB =>
      rw [hblock] at h
      obtain ⟨found, hfound, h⟩ := bind_ok h
      match found with
      | none => cases h
      | some (normIndex, record) =>
          simp only at h
          split_ifs at h
          cases h
          rw [findBlock] at hfound
          match hentry : T.trace[d.index]? with
          | none =>
              rw [hentry] at hfound
              cases hfound
          | some entry =>
              rw [hentry] at hfound
              obtain ⟨index, hindex, hfound⟩ := bind_ok hfound
              by_cases hmax : index = T.maxIndex
              · rw [if_pos hmax] at hfound
                cases hfound
              rw [if_neg hmax] at hfound
              obtain ⟨record', hget, htype, htid, hmem⟩ := findPreviousID_ok hindex hmax
              rw [hget] at hfound
              cases hfound
              exact .inr ⟨BB, entry, record, rfl, rfl, hget, htype, htid, List.mem_singleton.mp hmem⟩

/-- Whatever the trace is, a value that was normalised is at a block record of its block in the same thread, or has no block
and is where it was. Normalising it again changes nothing. -/
theorem normalize_normalized [DecidableEq ν] {T : LoadedTrace ν β φ} {blockOf : ν → Option β} {buggy buggy' : BuggyValues ν β}
    {d d' : DynValue ν} (h : T.normalize blockOf buggy d = .ok (some d', buggy')) :
    d'.V = d.V ∧ buggy' = buggy ∧ T.normalize blockOf buggy' d' = .ok (some d', buggy') ∧
      ((blockOf d.V = none ∧ d' = d) ∨ ∃ BB entry record, blockOf d.V = some BB ∧ T.trace[d.index]? = some entry ∧
        T.trace[d'.index]? = some record ∧ record.type = .bbType ∧ record.tid = entry.tid ∧ record.id = T.blockID BB) := by
  rw [← and_assoc, ← and_assoc]
  refine ⟨?_, normalize_record h⟩
  rw [and_assoc]
  rw [normalize] at h
  by_cases hbuggy : d.V ∈ buggy.values
  · rw [if_pos hbuggy] at h
    cases h
  rw [if_neg hbuggy] at h
  match hblock : blockOf d.V with
  | none =>
      rw [hblock] at h
      cases h
      refine ⟨rfl, rfl, ?_⟩
      rw [normalize, if_neg hbuggy, hblock]
  | some BB =>
      rw [hblock] at h
      obtain ⟨found, hfound, h⟩ := bind_ok h
      match found with
      | none => cases h
      | some (normIndex, record) =>
          simp only at h
          split_ifs at h with htype
          cases h
          refine ⟨rfl, rfl, ?_⟩
          rw [normalize, if_neg hbuggy, hblock]
          simp only
          rw [findBlock_again hfound, ok_bind]
          simp only
          rw [if_pos htype]

/-- The values that the scans of the trace find are normalised. -/
theorem normalize_valueAt [DecidableEq ν] {T : LoadedTrace ν β φ} {blockOf : ν → Option β} {buggy : BuggyValues ν β} {i : Nat}
    {d : DynValue ν} {BB : β} (h : T.valueAt i = some d) (hblock : blockOf d.V = some BB) (hID : T.blockID BB = T.getID d.V)
    (hbuggy : d.V ∉ buggy.values) : T.normalize blockOf buggy d = .ok (some d, buggy) := by
  obtain ⟨hmax, entry, hget, htype, hid⟩ := Recording.valueAt_record h
  rw [normalize, if_neg hbuggy, hblock]
  simp only
  rw [findBlock, hget]
  simp only
  rw [findPreviousID_found hget htype (List.mem_singleton.mpr (hid.trans hID.symm)), ok_bind, if_neg (Nat.ne_of_lt hmax), hget]
  simp only [ok_bind]
  rw [if_pos htype]

end LoadedTrace

end Witcher.TraceScan

namespace Witcher.Instrumentation

open TraceScan Loops

variable {ν β φ : Type} [DecidableEq φ] {P : Program} {T : LoadedTrace ν β φ} {address : φ → UInt64}
    {R : RecordedRun P T.toRecording}
  {x y : Event} {i j : Nat}

theorem RecordedRun.ne_maxIndex (R : RecordedRun P T.toRecording) (h : R.events[i]? = some x) : i ≠ T.maxIndex := by
  have hlt := (List.getElem?_eq_some_iff.mp h).choose
  have hlength := congrArg List.length R.trace_eq
  rw [List.length_append, List.length_append, List.length_map, List.length_singleton] at hlength
  have hmax : T.maxIndex = T.trace.length - 1 := rfl
  omega

theorem RecordedRun.findBlock_self (R : RecordedRun P T.toRecording) (h : R.events[j]? = some y) (hy : y.entry.type = .bbType)
    {BB : β} (hid : y.entry.id = T.blockID BB) : T.findBlock BB j = .ok (some (j, y.entry)) := by
  have hget := R.getElem?_trace h
  rw [LoadedTrace.findBlock, hget]
  simp only
  rw [R.findPreviousID_self h hy (List.mem_singleton.mpr hid), ok_bind, if_neg (R.ne_maxIndex h), hget]

/-- A PHI node has one value for each of the blocks it can be reached from, and these are of its function. -/
structure ValidPHI (T : LoadedTrace ν β φ) (phi : PHINode ν β) : Prop where
  function_eq : ∀ p ∈ phi.incoming, T.getParent p.1 = T.getParent phi.parent
  value_eq : ∀ p ∈ phi.incoming, ∀ q ∈ phi.incoming, T.blockID p.1 = T.blockID q.1 → p.2 = q.2

/-- The source of a PHI node is the value for the block that was executed just before it in the same activation. Only if
that block has record 0 of the trace the source is lost. -/
theorem getSourcesForPHI_eq (hL : Linked P T address) {phi : PHINode ν β} (hphi : ValidPHI T phi)
    (hdirect : ¬P.indirect (address (T.getParent phi.parent))) (h : LastBefore R.events (fun _ => True) i x j y)
    (hy : y.entry.id = T.blockID phi.parent) {b : β} {V : ν} (hV : (b, V) ∈ phi.incoming) (hx : x.entry.id = T.blockID b) :
    T.getSourcesForPHI phi j = .ok (if i = 0 ∧ j ≠ 1 then [] else [T.dynValue V i]) := by
  have hlt := h.lt
  have hids : BlocksOf P address (T.getParent phi.parent) (phi.incoming.map fun p => T.blockID p.1) := by
    refine ⟨hdirect, List.forall_mem_map.mpr fun p hp => ?_⟩
    rw [hL.blockFunction, hphi.function_eq p hp]
  have hpred := (h.mono (hx ▸ List.mem_map_of_mem hV) fun _ _ => trivial).findPreviousID_before hL hids
  rw [LoadedTrace.getSourcesForPHI, R.getElem?_trace h.last]
  simp only
  rw [R.findPreviousID_self h.last h.last_type (List.mem_singleton.mpr hy), ok_bind, if_neg (R.ne_maxIndex h.last),
    if_neg (by omega), h.tid_eq, hpred, ok_bind]
  by_cases hzero : i = 0 ∧ j ≠ 1
  · rw [if_pos hzero, if_pos rfl, if_pos hzero]
  · rw [if_neg hzero, if_neg (R.ne_maxIndex h.first), if_neg hzero, R.getElem?_trace h.first]
    simp only
    match hfind : phi.incoming.find? fun p => x.entry.id = T.blockID p.1 with
    | none => exact (List.find?_eq_none.mp hfind (b, V) hV (decide_eq_true hx)).elim
    | some (b', V') =>
        have hb' : x.entry.id = T.blockID b' := by simpa using List.find?_some hfind
        obtain rfl : V' = V := hphi.value_eq _ (List.mem_of_find?_eq_some hfind) _ hV (hb'.symm.trans hx)
        rw [hfind]

/-! ### The execution that forced another one -/

/-- Before a block record, one of the activation of a block in `C` is followed by a last one. -/
theorem exists_lastBefore {events : List Event} {C : UInt32 → Prop} (hfirst : events[i]? = some x) (hlast : events[j]? = some y)
    (hlt : i < j) (hx : x.entry.type = .bbType) (hy : y.entry.type = .bbType) (htid : y.entry.tid = x.entry.tid)
    (hactivation : y.activation = x.activation) (hC : C x.entry.id) : ∃ i' x', i ≤ i' ∧ LastBefore events C i' x' j y := by
  induction hk : j - i using Nat.strong_induction_on generalizing i x with
  | h d ih =>
      by_cases hnone : ∀ k z, i < k → k < j → events[k]? = some z → z.entry.type = .bbType → z.entry.tid = x.entry.tid →
          z.activation = x.activation → ¬C z.entry.id
      · exact ⟨i, x, Nat.le_refl i, hfirst, hlast, hlt, hx, hy, htid, hactivation, hC, hnone⟩
      · push Not at hnone
        obtain ⟨k, z, hi, hj, hget, hz, hztid, hzactivation, hCz⟩ := hnone
        obtain ⟨i', x', hle, h⟩ :=
          ih (j - k) (by omega) hget hj hz (htid.trans hztid.symm) (hactivation.trans hzactivation.symm) hCz rfl
        exact ⟨i', x', by omega, h⟩

/-- The activations of the function go along its control flow graph, from the entry. -/
structure FollowsGraph (T : LoadedTrace ν β φ) (events : List Event) (fn : φ) (F : FlowGraph β) : Prop where
  function_eq : ∀ b ∈ F.blocks, T.getParent b = fn
  mem : ∀ y ∈ events, y.entry.type = .bbType → T.getParent (T.getBlock y.entry.id) = fn → T.getBlock y.entry.id ∈ F.blocks
  entry : ∀ j y, events[j]? = some y → y.entry.type = .bbType → T.getParent (T.getBlock y.entry.id) = fn →
    T.getBlock y.entry.id = F.entry ∨ ∃ i x, LastBefore events (fun _ => True) i x j y
  succ : ∀ i x j y, LastBefore events (fun _ => True) i x j y → T.getParent (T.getBlock y.entry.id) = fn →
    T.getBlock y.entry.id ∈ F.succs (T.getBlock x.entry.id)

variable {fn : φ} {F : FlowGraph β}

theorem LastBefore.getParent_eq (hL : Linked P T address) {C : UInt32 → Prop} (h : LastBefore R.events C i x j y) :
    T.getParent (T.getBlock y.entry.id) = T.getParent (T.getBlock x.entry.id) := by
  refine hL.injective ?_
  rw [← hL.blockFunction, ← hL.blockFunction, hL.numbered R (List.mem_of_getElem? h.last) h.last_type,
    hL.numbered R (List.mem_of_getElem? h.first) h.first_type, h.blockFunction_eq]

/-- An execution is not forced by the blocks on its way only if it can still be avoided where it runs. -/
theorem exists_forcing_or (hL : Linked P T address) (hF : FollowsGraph T R.events fn F)
    (hy : R.events[j]? = some y) (htype : y.entry.type = .bbType) (hb : T.getBlock y.entry.id ≠ F.entry) {k : Nat} {z : Event}
    (hz : R.events[k]? = some z) (hk : k ≤ j) (hztype : z.entry.type = .bbType) (htid : y.entry.tid = z.entry.tid)
    (hactivation : y.activation = z.activation) (hfn : T.getParent (T.getBlock z.entry.id) = fn) :
    (∃ i x, LastBefore R.events (fun id => Forces F (T.getBlock y.entry.id) (T.getBlock id)) i x j y) ∨
      ¬F.PostDominates (T.getBlock y.entry.id) (T.getBlock z.entry.id) := by
  induction k using Nat.strong_induction_on generalizing z with
  | h k ih =>
      by_cases hpost : F.PostDominates (T.getBlock y.entry.id) (T.getBlock z.entry.id)
      · left
        rcases hF.entry k z hz hztype hfn with hentry | ⟨i, x, h⟩
        · -- The entry is avoided by no path to an exit, so it forces the execution.
          rw [hentry] at hpost
          have hlt : k < j := by
            refine Nat.lt_of_le_of_ne hk ?_
            rintro rfl
            cases hz.symm.trans hy
            exact hb hentry
          have hforces : Forces F (T.getBlock y.entry.id) (T.getBlock z.entry.id) := .inr ⟨hentry, hb, hpost⟩
          obtain ⟨i, x, -, hlast⟩ :=
            exists_lastBefore (C := fun id => Forces F (T.getBlock y.entry.id) (T.getBlock id)) hz hy hlt hztype
            htype htid hactivation hforces
          exact ⟨i, x, hlast⟩
        · have hlt := h.lt
          have hfirst := h.tid_eq
          have hfnx := (h.getParent_eq hL).symm.trans hfn
          rcases ih i hlt h.first (by omega) h.first_type (htid.trans h.tid_eq)
            (hactivation.trans h.activation_eq) hfnx with hforced | hnot
          · exact hforced
          · have hforces : Forces F (T.getBlock y.entry.id) (T.getBlock x.entry.id) :=
              .inl ⟨hF.mem x (List.mem_of_getElem? h.first) h.first_type hfnx,
                ⟨_, hF.succ i x k z h hfn, hpost⟩, fun hproper => hnot hproper.2⟩
            obtain ⟨i', x', -, hlast⟩ :=
              exists_lastBefore (C := fun id => Forces F (T.getBlock y.entry.id) (T.getBlock id)) h.first hy
              (by omega) h.first_type htype (htid.trans h.tid_eq) (hactivation.trans h.activation_eq) hforces
            exact ⟨i', x', hlast⟩
      · exact .inr hpost

/-- Every execution of a block other than the entry was forced by an earlier one of its activation. -/
theorem exists_forcer (hL : Linked P T address) (hF : FollowsGraph T R.events fn F) (hy : R.events[j]? = some y)
    (htype : y.entry.type = .bbType) (hfn : T.getParent (T.getBlock y.entry.id) = fn) (hb : T.getBlock y.entry.id ≠ F.entry) :
    ∃ i x, LastBefore R.events (fun id => Forces F (T.getBlock y.entry.id) (T.getBlock id)) i x j y := by
  rcases exists_forcing_or hL hF hy htype hb hy (Nat.le_refl j) htype rfl rfl hfn with hforced | hnot
  · exact hforced
  · exact (hnot fun h => (FlowGraph.escapes_iff.mp h).1 rfl).elim

/-- The numbers that `findExecForcers` is to give for the block: those of the blocks that force it. -/
def ForcerNumbers (T : LoadedTrace ν β φ) (F : FlowGraph β) (b : β) (bbnums : List UInt32) : Prop :=
  ∀ n, n ∈ bbnums ↔ ∃ a, Forces F b a ∧ T.blockID a = n

theorem mem_blocks_of_forces {F : FlowGraph β} {b a : β} (h : Forces F b a) : a ∈ F.blocks := by
  rcases h with h | ⟨rfl, -⟩
  · exact h.1
  · exact List.mem_cons_self

/-- The forcer of an execution is the last execution of one of the forcing blocks in the same activation, whatever ran in
between. There always is one; it is lost only if it has record 0 of the trace. -/
theorem getExecForcer_eq [DecidableEq β] (hL : Linked P T address) (hF : FollowsGraph T R.events fn F)
    (hdirect : ¬P.indirect (address fn)) (hinverse : ∀ b, T.getBlock (T.blockID b) = b) (hy : R.events[j]? = some y)
    (htype : y.entry.type = .bbType) {b : β} (hid : y.entry.id = T.blockID b) (hfn : T.getParent b = fn) (hb : b ≠ F.entry)
    {bbnums : List UInt32} (hnums : ForcerNumbers T F b bbnums) {buggy : BuggyValues ν β} (hbuggy : b ∉ buggy.blocks) :
    ∃ i x, LastBefore R.events (fun id => Forces F b (T.getBlock id)) i x j y ∧
      T.getExecForcer buggy ⟨b, j⟩ bbnums =
        .ok (if i = 0 ∧ j ≠ 1 then none else some ⟨T.getBlock x.entry.id, i⟩, buggy) := by
  have hblock : T.getBlock y.entry.id = b := by rw [hid, hinverse]
  obtain ⟨i, x, h⟩ := exists_forcer hL hF hy htype (hblock ▸ hfn) (hblock ▸ hb)
  rw [hblock] at h
  refine ⟨i, x, h, ?_⟩
  have hlt := h.lt
  have hids : BlocksOf P address fn bbnums := by
    refine ⟨hdirect, fun n hn => ?_⟩
    obtain ⟨a, hforces, rfl⟩ := (hnums n).mp hn
    rw [hL.blockFunction, hF.function_eq a (mem_blocks_of_forces hforces)]
  have hlast : LastBefore R.events (· ∈ bbnums) i x j y := by
    refine h.mono ((hnums _).mpr ⟨_, h.holds, hL.numbered R (List.mem_of_getElem? h.first) h.first_type⟩) fun n hn => ?_
    obtain ⟨a, hforces, rfl⟩ := (hnums n).mp hn
    rwa [hinverse]
  have hfind := hlast.findPreviousID_before hL hids
  have hlength := R.lt_length hy
  have hindex : LoadedTrace.indexBefore j = j - 1 := by
    have hmax := T.length_lt
    rw [LoadedTrace.indexBefore]
    omega
  rw [LoadedTrace.getExecForcer, LoadedTrace.normalizeBlock, if_neg hbuggy, R.findBlock_self hy htype hid]
  simp only [ok_bind]
  rw [if_pos (.inr ⟨htype, hid⟩)]
  simp only [ok_bind]
  rw [R.getElem?_trace hy]
  simp only
  rw [hindex, hfn, h.tid_eq, hfind, ok_bind]
  by_cases hzero : i = 0 ∧ j ≠ 1
  · rw [if_pos hzero, if_pos rfl, if_pos hzero]
  · rw [if_neg hzero, if_neg (R.ne_maxIndex h.first), if_neg hzero, R.getElem?_trace h.first]
    simp only
    rw [if_pos h.first_type]

/-! ### Where a value was computed -/

/-- A value that is used at an execution of another block is normalised to the last execution of its block in the same
activation, whatever ran in between. If that has record 0 the value is taken to have no execution. -/
theorem normalize_eq [DecidableEq ν] (hL : Linked P T address) {blockOf : ν → Option β} {buggy : BuggyValues ν β}
    {V : ν} {BB : β} (hblock : blockOf V = some BB) (hdirect : ¬P.indirect (address (T.getParent BB)))
    (h : LastBefore R.events (· = T.blockID BB) i x j y) (hy : y.entry.id ≠ T.blockID BB) (hbuggy : V ∉ buggy.values) :
    T.normalize blockOf buggy ⟨V, j⟩ =
      .ok (if i = 0 then (none, { buggy with values := V :: buggy.values }) else (some ⟨V, i⟩, buggy)) := by
  have hids : BlocksOf P address (T.getParent BB) [T.blockID BB] :=
    ⟨hdirect, List.forall_mem_singleton.mpr (hL.blockFunction BB)⟩
  have hsame := h.mono (D := (· ∈ [T.blockID BB])) (List.mem_singleton.mpr h.holds) fun _ => List.mem_singleton.mp
  have hfind := hsame.findPreviousID_at
    hL hids (mt List.mem_singleton.mp hy)
  rw [LoadedTrace.normalize, if_neg hbuggy, hblock]
  simp only
  rw [LoadedTrace.findBlock, R.getElem?_trace h.last]
  simp only
  rw [h.tid_eq, hfind, ok_bind]
  by_cases hzero : i = 0
  · rw [if_pos hzero, if_pos rfl, if_pos hzero]
    rfl
  · rw [if_neg hzero, if_neg (R.ne_maxIndex h.first), if_neg hzero, R.getElem?_trace h.first]
    simp only [ok_bind]
    rw [if_pos h.first_type]

theorem LastBefore.unique {events : List Event} {C : UInt32 → Prop} {i' : Nat} {x' : Event} (h : LastBefore events C i x j y)
    (h' : LastBefore events C i' x' j y) : i = i' := by
  rcases Nat.lt_trichotomy i i' with hlt | heq | hlt
  · exact (h.none_between i' x' hlt h'.lt h'.first h'.first_type (h'.tid_eq.symm.trans h.tid_eq)
      (h'.activation_eq.symm.trans h.activation_eq) h'.holds).elim
  · exact heq
  · exact (h'.none_between i x hlt h.lt h.first h.first_type (h.tid_eq.symm.trans h'.tid_eq)
      (h.activation_eq.symm.trans h'.activation_eq) h.holds).elim

/-! ### The function that calls itself -/

/-- The argument has the number 40. -/
def recursiveBlockOf (V : UInt32) : Option UInt32 := if V = 40 then some 1 else if V ≤ 3 then some 2 else none

theorem lastBefore_next {C : UInt32 → Prop} (hC : C 2) :
    LastBefore recursive.events C 11 (recursiveBlock 5 3 2) 12 (recursiveBlock 9 3 3) where
  first := rfl
  last := rfl
  lt := by decide
  first_type := rfl
  last_type := rfl
  tid_eq := rfl
  activation_eq := rfl
  holds := hC
  none_between := fun k z hi hj _ => by omega

/-- A value of block 2 that is used in block 3. -/
theorem normalize_recursive : recursiveTrace.normalize recursiveBlockOf ⟨[], []⟩ ⟨1, 12⟩ = .ok (some ⟨1, 11⟩, ⟨[], []⟩) :=
  normalize_eq linked_recursive (rfl : recursiveBlockOf 1 = some 2) id (lastBefore_next (C := (· = (2 : UInt32))) rfl)
    (by decide) (List.not_mem_nil)

theorem normalize_normalized_recursive :
    (1 : UInt32) = 1 ∧ (⟨[], []⟩ : BuggyValues UInt32 UInt32) = ⟨[], []⟩ ∧
      recursiveTrace.normalize recursiveBlockOf ⟨[], []⟩ ⟨1, 11⟩ = .ok (some ⟨1, 11⟩, ⟨[], []⟩) ∧
        ((recursiveBlockOf 1 = none ∧ (⟨1, 11⟩ : DynValue UInt32) = ⟨1, 12⟩) ∨ ∃ BB entry record, recursiveBlockOf 1 = some BB ∧
          recursiveTrace.trace[12]? = some entry ∧ recursiveTrace.trace[11]? = some record ∧ record.type = .bbType ∧
            record.tid = entry.tid ∧ record.id = recursiveTrace.blockID BB) :=
  have h : recursiveTrace.normalize recursiveBlockOf ⟨[], []⟩ ⟨1, 12⟩ = .ok (some ⟨1, 11⟩, ⟨[], []⟩) := rfl
  LoadedTrace.normalize_normalized h

/-- A node of block 2 that is reached from block 1, with the value 50. -/
theorem getSourcesForPHI_recursive : recursiveTrace.getSourcesForPHI ⟨2, [(1, 50)]⟩ 11 = .ok [⟨50, 4⟩] := by
  refine getSourcesForPHI_eq linked_recursive ⟨fun _ _ => rfl, fun p hp q hq _ => ?_⟩ id (lastBefore_recursive trivial) rfl
    (List.mem_singleton_self (1, 50)) rfl
  rw [List.mem_singleton.mp hp, List.mem_singleton.mp hq]

/-- Block 1 decides whether block 2 is run, and block 3 is run anyway. -/
def recursiveGraph : FlowGraph UInt32 :=
  ⟨1, [2, 3], fun block => if block = 1 then [2, 3] else if block = 2 then [3] else [], [3]⟩

theorem mem_recursive_blocks {b : UInt32} : b ∈ recursiveGraph.blocks ↔ b = 1 ∨ b = 2 ∨ b = 3 := by
  simp only [recursiveGraph, FlowGraph.blocks, List.mem_cons, List.not_mem_nil, or_false]

theorem mem_recursive_succs {a b : UInt32} : b ∈ recursiveGraph.succs a ↔ (a = 1 ∧ (b = 2 ∨ b = 3)) ∨ (a = 2 ∧ b = 3) := by
  simp only [recursiveGraph]
  split_ifs <;> simp [*]

/-- Only the last block cannot be avoided. -/
theorem recursive_escapes {a b : UInt32} (ha : a ∈ recursiveGraph.blocks) : recursiveGraph.Escapes b a ↔ a ≠ b ∧ b ≠ 3 := by
  constructor
  · refine fun h => ⟨(FlowGraph.escapes_iff.mp h).1, ?_⟩
    rintro rfl
    clear ha
    induction h with
    | exit hne hexit => exact hne (List.mem_singleton.mp hexit)
    | step _ _ _ ih => exact ih
  · rintro ⟨hne, hlast⟩
    have hescapes : recursiveGraph.Escapes b 3 := .exit (Ne.symm hlast) (by decide)
    rcases mem_recursive_blocks.mp ha with rfl | rfl | rfl
    · exact .step hne (mem_recursive_succs.mpr (by decide)) hescapes
    · exact .step hne (mem_recursive_succs.mpr (by decide)) hescapes
    · exact hescapes

theorem lastBefore_of_between {events : List Event} (hi : events[i]? = some x) (hj : events[j]? = some y) (hlt : i < j)
    (hx : x.entry.type = .bbType) (hy : y.entry.type = .bbType) (htid : y.entry.tid = x.entry.tid)
    (hactivation : y.activation = x.activation)
    (hnone : ∀ z ∈ (events.take j).drop (i + 1), z.entry.type = .bbType → z.activation ≠ x.activation) :
    LastBefore events (fun _ => True) i x j y :=
  ⟨hi, hj, hlt, hx, hy, htid, hactivation, trivial,
    forall_between
      (C := fun z => z.entry.type = .bbType → z.entry.tid = x.entry.tid → z.activation = x.activation → ¬True)
      fun z hz htype _ heq =>
      (hnone z hz htype heq).elim⟩

/-- The block records of entries, and the others with the block records before them. -/
theorem recursive_blocks (hj : recursiveEvents[j]? = some y) (hy : y.entry.type = .bbType) :
    (y.entry.id = 1 ∧ ∀ z ∈ recursiveEvents.take j, z.entry.type = .bbType → z.activation ≠ y.activation) ∨
      ∃ i x, LastBefore recursiveEvents (fun _ => True) i x j y ∧ y.entry.id ∈ recursiveGraph.succs x.entry.id := by
  have hlt : j < 16 := (List.getElem?_eq_some_iff.mp hj).choose
  interval_cases j <;> cases hj <;> first
    | exact absurd hy (by decide)
    | exact .inl ⟨rfl, by decide⟩
    | skip
  · exact .inr ⟨8, _, lastBefore_of_between rfl rfl (by decide) rfl rfl rfl rfl (by decide), by decide⟩
  · exact .inr ⟨4, _, lastBefore_of_between rfl rfl (by decide) rfl rfl rfl rfl (by decide), by decide⟩
  · exact .inr ⟨11, _, lastBefore_of_between rfl rfl (by decide) rfl rfl rfl rfl (by decide), by decide⟩
  · exact .inr ⟨0, _, lastBefore_of_between rfl rfl (by decide) rfl rfl rfl rfl (by decide), by decide⟩
  · exact .inr ⟨14, _, lastBefore_of_between rfl rfl (by decide) rfl rfl rfl rfl (by decide), by decide⟩

theorem followsGraph_recursive : FollowsGraph recursiveTrace recursive.events () recursiveGraph where
  function_eq := fun _ _ => rfl
  mem := by
    intro y hy htype _
    exact (show ∀ y ∈ recursiveEvents, y.entry.type = .bbType → y.entry.id ∈ recursiveGraph.blocks by decide) y hy htype
  entry := by
    intro j y hj hy _
    exact (recursive_blocks hj hy).imp And.left fun ⟨i, x, h, _⟩ => ⟨i, x, h⟩
  succ := by
    intro i x j y h _
    rcases recursive_blocks h.last h.last_type with ⟨-, hentry⟩ | ⟨i', x', h', hsucc⟩
    · have hmem : x ∈ recursiveEvents.take j := List.mem_of_getElem? (by rw [List.getElem?_take_of_lt h.lt]; exact h.first)
      exact (hentry x hmem h.first_type h.activation_eq.symm).elim
    · obtain rfl := h.unique h'
      cases h.first.symm.trans h'.first
      exact hsucc

end Witcher.Instrumentation
