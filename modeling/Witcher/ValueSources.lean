import Witcher.CallSources

/-! The sources of every kind of value (`getSourcesFor`). Whatever the trace is, they are at records of it. -/

namespace Witcher.TraceScan

open Loops

variable {ν β φ : Type} [DecidableEq φ]

namespace LoadedTrace

def getSourceForSelect [DecidableEq ν] (T : LoadedTrace ν β φ) (M : Module ν β φ) (buggy : BuggyValues ν β)
    (trueValue falseValue : ν) (DV : DynValue ν) : Except SearchError (List (DynValue ν) × BuggyValues ν β) := do
  let (normalized, buggy) ← T.normalize M.blockOf buggy DV
  match normalized with
  | none => .ok ([], buggy)
  | some DV =>
      match M.blockOf DV.V, T.trace[DV.index]? with
      | some BB, some entry => do
          let selectIndex ← T.findPreviousID (T.getParent BB) DV.index .pdType entry.tid [M.lsID DV.V]
          if selectIndex = T.maxIndex then .ok ([], buggy)
          else
            match T.trace[selectIndex]? with
            | none => .error .readsOutside
            | some record =>
                if record.type = .pdType ∧ record.id = M.lsID DV.V then
                  -- The predicate is the lower half of the address.
                  .ok ([T.dynValue (if record.address.toUInt32 ≠ 0 then trueValue else falseValue) DV.index], buggy)
                else .error .assertionFails
      | _, _ => .error .readsOutside

def startsWith (name start : String) : Bool := start.toList.isPrefixOf name.toList

/-- The arguments, with the sources of so many loads. -/
def argumentsAndLoads [DecidableEq ν] (T : LoadedTrace ν β φ) (M : Module ν β φ) (buggy : BuggyValues ν β) (DV : DynValue ν)
    (values : List (DynValue ν)) (count : Nat) : Except SearchError (List (DynValue ν) × BuggyValues ν β) := do
  let (found, buggy) ← T.getSourcesForLoad M.lsID M.blockOf buggy DV count
  .ok (values ++ found.1, buggy)

/-- Nothing if the called function is not a special one. -/
def getSourcesForSpecialCall [DecidableEq ν] (T : LoadedTrace ν β φ) (M : Module ν β φ) (buggy : BuggyValues ν β)
    (DV : DynValue ν) : Option (Except SearchError (List (DynValue ν) × BuggyValues ν β)) :=
  if M.isDebug DV.V then some (.ok ([], buggy))
  else
    match T.calledFunction DV.V with
    | none => none
    | some CalledFunc =>
        let arguments := (M.operands DV.V).dropLast
        -- The index is kept in 32 bits.
        let values := T.valuesAt arguments (DV.index % 2 ^ 32)
        let name := M.getName CalledFunc
        if startsWith name "llvm.memset." ∨ name = "calloc" then some (.ok (values, buggy))
        else if startsWith name "llvm.memcpy." ∨ startsWith name "llvm.memmove." ∨ name = "strcpy" ∨ name = "strlen" then
          some (T.argumentsAndLoads M buggy DV values 1)
        else if name = "strcat" then some (T.argumentsAndLoads M buggy DV values 2)
        else if name = "sprintf" then
          some (T.argumentsAndLoads M buggy DV values
            ((arguments.drop 2).countP fun argument => !T.isConstant argument && M.isVoidPtr argument))
        else if name = "fgets" then some (.ok (values, buggy))
        else none

def getSourcesFor [DecidableEq ν] (T : LoadedTrace ν β φ) (M : Module ν β φ) (buggy : BuggyValues ν β) (DInst : DynValue ν) :
    Except SearchError (List (DynValue ν) × BuggyValues ν β) :=
  match M.kind DInst.V with
  | .branch none => .ok ([], buggy)
  | .branch (some condition) => .ok ([T.dynValue condition DInst.index], buggy)
  | .switch condition => .ok ([T.dynValue condition DInst.index], buggy)
  | .phi node => do
      let sources ← T.getSourcesForPHI node DInst.index
      .ok (sources, buggy)
  | .select trueValue falseValue => T.getSourceForSelect M buggy trueValue falseValue DInst
  | .argument _ _ => T.getSourcesForArg M buggy DInst
  | .load pointer => T.argumentsAndLoads M buggy DInst [T.dynValue pointer DInst.index] 1
  | .call => (T.getSourcesForSpecialCall M buggy DInst).getD (T.getSourcesForCall M buggy DInst)
  | .instruction => .ok (T.valuesAt (M.operands DInst.V) DInst.index, buggy)
  | .other => .ok ([], buggy)

/-! ### The indices of the sources -/

/-- Every value is at a record of the trace. -/
def InTrace (T : LoadedTrace ν β φ) (values : List (DynValue ν)) : Prop := ∀ d ∈ values, d.index < T.trace.length

/-- If the search ends with values, they are at records of the trace. -/
def GivesInTrace (T : LoadedTrace ν β φ) (result : Except SearchError (List (DynValue ν) × BuggyValues ν β)) : Prop :=
  ∀ sources buggy, result = .ok (sources, buggy) → T.InTrace sources

end LoadedTrace

/-! #### Loads -/

section Loads

variable {T : Recording ν} {type : RecordType} {id nestID : UInt32} {tid : UInt64} {nesting index j : Nat}
    {records rest : List Entry}
  {store load : Entry} {found : List (DynValue ν) × Nat}

theorem findNextNestedIDFrom_lt (h : Recording.findNextNestedIDFrom type id nestID tid nesting index records = .ok j) :
    index ≤ j ∧ j < index + records.length := by
  induction records generalizing nesting index with
  | nil => cases h
  | cons entry records ih =>
      rw [Recording.findNextNestedIDFrom] at h
      split_ifs at h
      · cases h
        exact ⟨Nat.le_refl _, Nat.lt_add_of_pos_right (Nat.succ_pos _)⟩
      all_goals
        have hrest := ih h
        rw [List.length_cons]
        omega

theorem storeBlock_lt (h : T.storeBlock index store = .ok j) : j < T.trace.length := by
  have hrest := findNextNestedIDFrom_lt h
  rw [List.length_drop] at hrest
  omega

/-- A search that ends has met a store, and what the store has left of the load was searched for, or has passed a record. -/
theorem findAllStoresForLoad_cons_ok (h : T.findAllStoresForLoad (store :: rest) load = .ok found) :
    (∃ bbindex before after, T.storeBlock rest.length store = .ok bbindex ∧
      (before = ([], 0) ∨ T.findAllStoresForLoad rest (load.partBefore store) = .ok before) ∧
      (after = ([], 0) ∨ T.findAllStoresForLoad rest (load.partAfter store) = .ok after) ∧
      found.1 = ⟨T.getInstByID store.id, bbindex⟩ :: (before.1 ++ after.1)) ∨ T.findAllStoresForLoad rest load = .ok found := by
  rw [Recording.findAllStoresForLoad] at h
  by_cases hmeets : store.type = .stType ∧ overlaps store load
  · left
    rw [if_pos hmeets] at h
    obtain ⟨bbindex, hblock, h⟩ := bind_ok h
    simp only at h
    split_ifs at h
    · obtain ⟨before, hbefore, h⟩ := bind_ok h
      obtain ⟨after, hafter, h⟩ := bind_ok h
      cases h
      exact ⟨bbindex, before, after, hblock, .inr hbefore, .inr hafter, rfl⟩
    · obtain ⟨before, hbefore, h⟩ := bind_ok h
      cases h
      exact ⟨bbindex, before, ([], 0), hblock, .inr hbefore, .inl rfl, rfl⟩
    · rw [ok_bind] at h
      obtain ⟨after, hafter, h⟩ := bind_ok h
      cases h
      exact ⟨bbindex, ([], 0), after, hblock, .inl rfl, .inr hafter, rfl⟩
    · cases h
      exact ⟨bbindex, ([], 0), ([], 0), hblock, .inl rfl, .inl rfl, rfl⟩
  · rw [if_neg hmeets] at h
    exact .inr h

theorem findAllStoresForLoad_lt (h : T.findAllStoresForLoad records load = .ok found) :
    ∀ d ∈ found.1, d.index < T.trace.length := by
  induction records generalizing load found with
  | nil =>
      cases h
      exact fun _ hmem => nomatch hmem
  | cons store rest ih =>
      rcases findAllStoresForLoad_cons_ok h with ⟨bbindex, before, after, hblock, hbefore, hafter, heq⟩ | hrest
      · rw [heq]
        refine List.forall_mem_cons.mpr ⟨storeBlock_lt hblock, List.forall_mem_append.mpr ⟨?_, ?_⟩⟩
        · rcases hbefore with rfl | hbefore
          · exact fun _ hmem => nomatch hmem
          · exact ih hbefore
        · rcases hafter with rfl | hafter
          · exact fun _ hmem => nomatch hmem
          · exact ih hafter
      · exact ih hrest

end Loads

namespace LoadedTrace

variable {T : LoadedTrace ν β φ} {M : Module ν β φ} {buggy buggy' : BuggyValues ν β} {d d' : DynValue ν} {index count : Nat}
  {found : List (DynValue ν) × Nat} {values : List (DynValue ν)} {fn : φ} {type : RecordType} {tid : UInt64} {ids : List UInt32}

theorem inTrace_nil : T.InTrace [] := fun _ hmem => nomatch hmem

theorem dynValue_lt {V : ν} (h : index < T.trace.length) : (T.dynValue V index).index < T.trace.length := by
  rw [dynValue]
  split
  · exact List.length_pos_of_ne_nil T.trace_ne_nil
  · exact h

theorem inTrace_singleton {V : ν} (h : index < T.trace.length) : T.InTrace [T.dynValue V index] :=
  List.forall_mem_singleton.mpr (dynValue_lt h)

theorem InTrace.append {values' : List (DynValue ν)} (h : T.InTrace values) (h' : T.InTrace values') :
    T.InTrace (values ++ values') :=
  List.forall_mem_append.mpr ⟨h, h'⟩

theorem inTrace_map {operands : List ν} (h : index < T.trace.length) : T.InTrace (operands.map fun V => T.dynValue V index) :=
  List.forall_mem_map.mpr fun _ _ => dynValue_lt h

theorem GivesInTrace.ok (h : T.InTrace values) : T.GivesInTrace (.ok (values, buggy)) := by
  rintro sources buggy' ⟨⟩
  exact h

theorem GivesInTrace.bind {α : Type} {x : Except SearchError α}
    {f : α → Except SearchError (List (DynValue ν) × BuggyValues ν β)}
    (h : ∀ a, x = .ok a → T.GivesInTrace (f a)) : T.GivesInTrace (x >>= f) := by
  intro sources buggy hbind
  obtain ⟨a, hx, hf⟩ := bind_ok hbind
  exact h a hx sources buggy hf

theorem GivesInTrace.error {e : SearchError} : T.GivesInTrace (.error e) := by
  rintro sources buggy ⟨⟩

theorem findPreviousID_lt (h : T.findPreviousID fn index type tid ids = .ok count) (hmax : count ≠ T.maxIndex) :
    count < T.trace.length := by
  obtain ⟨entry, hget, -⟩ := findPreviousID_ok h hmax
  exact (List.getElem?_eq_some_iff.mp hget).choose

theorem sourcesOfLoad_lt (h : T.sourcesOfLoad index = .ok found) : T.InTrace found.1 := by
  rw [sourcesOfLoad] at h
  cases hget : T.trace[index]? with
  | none =>
      rw [hget] at h
      cases h
  | some load_entry =>
      rw [hget] at h
      simp only at h
      split_ifs at h
      · cases h
        exact inTrace_nil
      · exact findAllStoresForLoad_lt h

theorem sourcesOfLoads_lt {indices : List Nat} (h : T.sourcesOfLoads indices = .ok found) : T.InTrace found.1 := by
  induction indices generalizing found with
  | nil =>
      cases h
      exact inTrace_nil
  | cons index rest ih =>
      obtain ⟨first, hfirst, h⟩ := bind_ok h
      obtain ⟨others, hothers, h⟩ := bind_ok h
      cases h
      exact (sourcesOfLoad_lt hfirst).append (ih hothers)

theorem normalize_lt [DecidableEq ν] {blockOf : ν → Option β} (h : T.normalize blockOf buggy d = .ok (some d', buggy'))
    (hd : d.index < T.trace.length) : d'.index < T.trace.length := by
  rcases normalize_record h with ⟨-, rfl⟩ | ⟨BB, entry, record, -, -, hget, -⟩
  · exact hd
  · exact (List.getElem?_eq_some_iff.mp hget).choose

theorem GivesInTrace.normalized [DecidableEq ν] {blockOf : ν → Option β}
    {f : Option (DynValue ν) × BuggyValues ν β → Except SearchError (List (DynValue ν) × BuggyValues ν β)}
    (hd : d.index < T.trace.length) (hnone : ∀ buggy, f (none, buggy) = .ok ([], buggy))
    (hsome : ∀ d' buggy, d'.index < T.trace.length → T.GivesInTrace (f (some d', buggy))) :
    T.GivesInTrace (T.normalize blockOf buggy d >>= f) := by
  refine .bind ?_
  rintro ⟨normalized, buggy'⟩ hnormal
  cases normalized with
  | none =>
      rw [hnone]
      exact .ok inTrace_nil
  | some d' => exact hsome d' buggy' (normalize_lt hnormal hd)

theorem getSourcesForLoad_lt [DecidableEq ν] {lsID : ν → UInt32} {blockOf : ν → Option β}
    (h : T.getSourcesForLoad lsID blockOf buggy d count = .ok (found, buggy')) : T.InTrace found.1 := by
  rw [getSourcesForLoad] at h
  split_ifs at h
  · cases h
    exact inTrace_nil
  · obtain ⟨⟨normalized, buggy''⟩, -, h⟩ := bind_ok h
    cases normalized with
    | none =>
        cases h
        exact inTrace_nil
    | some d' =>
        simp only at h
        cases hget : T.trace[d'.index]? with
        | none =>
            rw [hget] at h
            cases h
        | some entry =>
            rw [hget] at h
            obtain ⟨start, -, h⟩ := bind_ok h
            obtain ⟨rest, -, h⟩ := bind_ok h
            obtain ⟨sources, hsources, h⟩ := bind_ok h
            cases h
            exact sourcesOfLoads_lt hsources

theorem argumentsAndLoads_inTrace [DecidableEq ν] (hvalues : T.InTrace values) :
    T.GivesInTrace (T.argumentsAndLoads M buggy d values count) := by
  refine .bind ?_
  rintro ⟨found, buggy'⟩ hfound
  exact .ok (hvalues.append (getSourcesForLoad_lt hfound))

theorem getSourcesForPHI_lt {node : PHINode ν β} (h : T.getSourcesForPHI node index = .ok values) : T.InTrace values := by
  rw [getSourcesForPHI] at h
  cases hget : T.trace[index]? with
  | none =>
      rw [hget] at h
      cases h
  | some entry =>
      rw [hget] at h
      obtain ⟨block_index, -, h⟩ := bind_ok h
      split_ifs at h
      · cases h
        exact inTrace_nil
      · obtain ⟨pred_index, hpred, h⟩ := bind_ok h
        by_cases hmax : pred_index = T.maxIndex
        · rw [if_pos hmax] at h
          cases h
          exact inTrace_nil
        · rw [if_neg hmax] at h
          have hlt := findPreviousID_lt hpred hmax
          rw [List.getElem?_eq_getElem hlt] at h
          simp only at h
          split at h
          · cases h
            exact inTrace_singleton hlt
          · cases h

theorem getSourceForSelect_inTrace [DecidableEq ν] {trueValue falseValue : ν} (hd : d.index < T.trace.length) :
    T.GivesInTrace (T.getSourceForSelect M buggy trueValue falseValue d) := by
  refine .normalized hd (fun _ => rfl) fun d' buggy' hd' => ?_
  simp only
  split
  · refine .bind fun selectIndex _ => ?_
    split
    · exact .ok inTrace_nil
    · split
      · exact .error
      · split
        · exact .ok (inTrace_singleton hd')
        · exact .error
  · exact .error

theorem findCallBlockFrom_lt {callID bbid : UInt32} {nesting j : Nat} {records : List Entry}
    (h : findCallBlockFrom callID bbid tid nesting index records = .ok j) : index ≤ j ∧ j < index + records.length := by
  induction records generalizing nesting index with
  | nil => cases h
  | cons entry records ih =>
      rw [findCallBlockFrom] at h
      simp only at h
      rw [List.length_cons]
      split_ifs at h
      any_goals
        have hrest := ih h
        omega
      all_goals
        cases h
        omega

theorem operandSource_lt {CI : ν} {argNo : Nat} (h : T.operandSource M CI argNo index = .ok values)
    (hindex : index < T.trace.length) :
    T.InTrace values := by
  rw [operandSource] at h
  split at h
  · cases h
    exact inTrace_singleton hindex
  · cases h

theorem argumentSources_lt {CI : ν} {argNo : Nat} (h : T.argumentSources M CI argNo index = .ok values)
    (hindex : index < T.trace.length) : T.InTrace values := by
  rw [argumentSources] at h
  split at h
  · exact operandSource_lt h hindex
  · split_ifs at h
    · cases h
      exact inTrace_nil
    · split at h
      · cases h
      · split_ifs at h
        · cases h
          exact inTrace_nil
        · cases h
          exact inTrace_map hindex
    · cases h
      exact inTrace_nil
    · exact operandSource_lt h hindex

theorem getSourcesForArg_inTrace [DecidableEq ν] (hd : d.index < T.trace.length) :
    T.GivesInTrace (T.getSourcesForArg M buggy d) := by
  rw [getSourcesForArg]
  split
  · split
    · exact .ok inTrace_nil
    · refine .normalized hd (fun _ => rfl) fun d' buggy' hd' => ?_
      simp only
      split
      · exact .error
      · split
        · exact .error
        · split
          · exact .ok inTrace_nil
          · split
            · exact .error
            · split
              · refine .bind fun index hindex => .bind fun sources hsources => .ok (argumentSources_lt hsources ?_)
                have hrange := findCallBlockFrom_lt hindex
                rw [List.length_drop] at hrange
                omega
              · exact .error
  · exact .error

theorem findBlockFrom_lt {records : List Entry} {block : Entry} (h : findBlockFrom records = some (index, block)) :
    index < records.length := by
  induction records with
  | nil => cases h
  | cons entry rest ih =>
      rw [findBlockFrom] at h
      rw [List.length_cons]
      split_ifs at h
      · cases h
        exact Nat.lt_succ_self _
      · exact Nat.lt_succ_of_lt (ih h)

theorem getSourcesForCall_inTrace [DecidableEq ν] (hd : d.index < T.trace.length) :
    T.GivesInTrace (T.getSourcesForCall M buggy d) := by
  rw [getSourcesForCall]
  split
  · refine .normalized hd (fun _ => rfl) fun d' buggy' hd' => ?_
    simp only
    split
    · exact .ok inTrace_nil
    · split
      · exact .ok (inTrace_map hd')
      · split
        · exact .error
        · refine .bind fun retindex _ => ?_
          split
          · exact .error
          · split
            · exact .error
            · rename_i tempretindex block hblock
              have hlt := findBlockFrom_lt hblock
              rw [List.length_reverse, List.length_take] at hlt
              split
              · refine .ok (List.forall_mem_map.mpr fun BB _ => ?_)
                change tempretindex < _
                omega
              · exact .ok (inTrace_map hd')
  · exact .error

theorem getSourcesForSpecialCall_inTrace [DecidableEq ν] (hd : d.index < T.trace.length) :
    ∀ result ∈ T.getSourcesForSpecialCall M buggy d, T.GivesInTrace result := by
  have hvalues : ∀ {operands : List ν}, T.InTrace (T.valuesAt operands (d.index % 2 ^ 32)) :=
    fun {_} => inTrace_map (Nat.lt_of_le_of_lt (Nat.mod_le _ _) hd)
  intro result hresult
  rw [getSourcesForSpecialCall] at hresult
  split_ifs at hresult
  · cases hresult
    exact .ok inTrace_nil
  · split at hresult
    · cases hresult
    · simp only at hresult
      split_ifs at hresult <;> cases hresult
      · exact .ok hvalues
      · exact argumentsAndLoads_inTrace hvalues
      · exact argumentsAndLoads_inTrace hvalues
      · exact argumentsAndLoads_inTrace hvalues
      · exact .ok hvalues

/-- From a value at a record of the trace the search gives values at records of the trace, whatever the records are. -/
theorem getSourcesFor_inTrace [DecidableEq ν] (hd : d.index < T.trace.length) : T.GivesInTrace (T.getSourcesFor M buggy d) := by
  rw [getSourcesFor]
  cases M.kind d.V with
  | branch condition =>
      cases condition with
      | none => exact .ok inTrace_nil
      | some condition => exact .ok (inTrace_singleton hd)
  | switch condition => exact .ok (inTrace_singleton hd)
  | phi node => exact .bind fun sources hsources => .ok (getSourcesForPHI_lt hsources)
  | select trueValue falseValue => exact getSourceForSelect_inTrace hd
  | argument parent argNo => exact getSourcesForArg_inTrace hd
  | load pointer => exact argumentsAndLoads_inTrace (inTrace_singleton hd)
  | call =>
      simp only
      cases hspecial : T.getSourcesForSpecialCall M buggy d with
      | none => exact getSourcesForCall_inTrace hd
      | some result => exact getSourcesForSpecialCall_inTrace hd result hspecial
  | instruction => exact .ok (inTrace_map hd)
  | other => exact .ok inTrace_nil

end LoadedTrace

end Witcher.TraceScan
