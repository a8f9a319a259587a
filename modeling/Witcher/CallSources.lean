import Witcher.LoadSources

/-! Dependences across calls (`TraceFile.cpp`): an argument depends on the operand of the call that entered the function, and
a call on the return instruction that its callee ended with. -/

namespace Witcher.TraceScan

open Loops

variable {ν β φ : Type} [DecidableEq φ]

/-- What `getSourcesFor` tells apart. -/
inductive ValueKind (ν β φ : Type) where
  | branch (condition : Option ν)
  | switch (condition : ν)
  | phi (node : PHINode ν β)
  | select (trueValue falseValue : ν)
  | argument (parent : φ) (argNo : Nat)
  | load (pointer : ν)
  | call
  | instruction
  | other

/-- What is read of the program. The last operand of a call is the callee. -/
structure Module (ν β φ : Type) where
  kind : ν → ValueKind ν β φ
  getName : φ → String
  isDeclaration : φ → Bool
  /-- The blocks of a function, the entry first. -/
  blocks : φ → List β
  terminator : β → ν
  isReturn : ν → Bool
  isDebug : ν → Bool
  isVoidPtr : ν → Bool
  operands : ν → List ν
  /-- The block of an instruction, and the entry block for an argument. -/
  blockOf : ν → Option β
  lsID : ν → UInt32

def Module.isCall (M : Module ν β φ) (V : ν) : Bool :=
  match M.kind V with
  | .call => true
  | _ => false

namespace LoadedTrace

/-- Those of the values that are no constants, at an index. -/
def valuesAt (T : LoadedTrace ν β φ) (values : List ν) (index : Nat) : List (DynValue ν) :=
  (values.filter fun value => !T.isConstant value).map fun value => T.dynValue value index

/-- The last call record of the function before an index. -/
def findCallFrom (tid address : UInt64) : List Entry → Option Nat
  | [] => none
  | entry :: rest =>
      if entry.type = .clType ∧ entry.tid = tid ∧ entry.address = address then some rest.length
      else findCallFrom tid address rest

/-- The loop forward to the block record of a call, or to the end record. It begins at the call, so the counter is at least 1
when it is decreased. -/
def findCallBlockFrom (callID bbid : UInt32) (tid : UInt64) : Nat → Nat → List Entry → Except SearchError Nat
  | _, _, [] => .error .assertionFails
  | nesting, index, entry :: rest =>
      if entry.type = .clType ∧ entry.tid = tid ∧ entry.id = callID then
        findCallBlockFrom callID bbid tid (nesting + 1) (index + 1) rest
      else if (entry.type = .bbType ∧ entry.tid = tid ∧ entry.id = bbid) ∧ nesting = 1 then .ok index
      else
        let nesting := if entry.type = .bbType ∧ entry.tid = tid ∧ entry.id = bbid then nesting - 1 else nesting
        if entry.type = .enType then .ok index else findCallBlockFrom callID bbid tid nesting (index + 1) rest

/-- The operand of the call with the number of the argument. -/
def operandSource (T : LoadedTrace ν β φ) (M : Module ν β φ) (CI : ν) (argNo index : Nat) :
    Except SearchError (List (DynValue ν)) :=
  match (M.operands CI)[argNo]? with
  | some operand => .ok [T.dynValue operand index]
  | none => .error .readsOutside

/-- The values the argument of a called function stands for. For `pthread_create` the operand with the number `index` is
tested in place of each parameter. -/
def argumentSources (T : LoadedTrace ν β φ) (M : Module ν β φ) (CI : ν) (argNo index : Nat) :
    Except SearchError (List (DynValue ν)) :=
  match T.calledFunction CI with
  | none => T.operandSource M CI argNo index
  | some CalledFunc =>
      if M.isDeclaration CalledFunc then
        if M.getName CalledFunc = "pthread_create" then
          if (M.operands CI).dropLast = [] then .ok []
          else
            match (M.operands CI)[index]? with
            | none => .error .readsOutside
            | some operand =>
                if T.isConstant operand then .ok []
                else .ok ((M.operands CI).dropLast.map fun operand => T.dynValue operand index)
        else .ok []
      else T.operandSource M CI argNo index

def getSourcesForArg [DecidableEq ν] (T : LoadedTrace ν β φ) (M : Module ν β φ) (buggy : BuggyValues ν β) (DV : DynValue ν) :
    Except SearchError (List (DynValue ν) × BuggyValues ν β) :=
  match M.kind DV.V with
  | .argument parent argNo =>
      if M.getName parent = "main" then .ok ([], buggy)
      else do
        let (normalized, buggy) ← T.normalize M.blockOf buggy DV
        match normalized with
        | none => .ok ([], buggy)
        | some DV =>
            if DV.index = 0 then .error .assertionFails
            else
              match T.trace[DV.index]? with
              | none => .error .readsOutside
              | some entry =>
                  match findCallFrom entry.tid entry.address (T.trace.take DV.index).reverse with
                  | none => .ok ([], buggy)
                  | some callIndex =>
                      match T.trace[callIndex]? with
                      | none => .error .readsOutside
                      | some call =>
                          let CI := T.getInstByID call.id
                          if M.isCall CI then do
                            let index ← findCallBlockFrom call.id (T.getID CI) call.tid 0 callIndex (T.trace.drop callIndex)
                            let sources ← T.argumentSources M CI argNo index
                            .ok (sources, buggy)
                          else .error .assertionFails
  | _ => .error .assertionFails

/-- The last block record before the return, of any thread. -/
def findBlockFrom : List Entry → Option (Nat × Entry)
  | [] => none
  | entry :: rest => if entry.type = .bbType then some (rest.length, entry) else findBlockFrom rest

/-- The return instructions of the function in the block. -/
def returnSources (T : LoadedTrace ν β φ) (M : Module ν β φ) (CalledFunc : φ) (tempretindex : Nat) (id : UInt32) :
    List (DynValue ν) :=
  ((M.blocks CalledFunc).filter fun BB => M.isReturn (M.terminator BB) && T.blockID BB == id).map fun BB =>
    ⟨M.terminator BB, tempretindex⟩

def getSourcesForCall [DecidableEq ν] (T : LoadedTrace ν β φ) (M : Module ν β φ) (buggy : BuggyValues ν β) (DV : DynValue ν) :
    Except SearchError (List (DynValue ν) × BuggyValues ν β) :=
  if M.isCall DV.V then do
    let (normalized, buggy) ← T.normalize M.blockOf buggy DV
    match normalized with
    | none => .ok ([], buggy)
    | some DV =>
        match T.calledFunction DV.V with
        | none => .ok ([], buggy)
        | some CalledFunc =>
            if M.isDeclaration CalledFunc then .ok (T.valuesAt (M.operands DV.V) DV.index, buggy)
            else
              match T.trace[DV.index]? with
              | none => .error .readsOutside
              | some entry => do
                  let retindex ← T.matchReturnWithCall DV.index (T.getID DV.V) (M.lsID DV.V) entry.tid
                  match T.trace[retindex]? with
                  | none => .error .readsOutside
                  | some ret =>
                      match findBlockFrom (T.trace.take retindex).reverse with
                      | none => .error .readsOutside
                      | some (tempretindex, block) =>
                          if block.tid = ret.tid ∧ block.address = ret.address then
                            .ok (T.returnSources M CalledFunc tempretindex block.id, buggy)
                          -- The callee has made no records.
                          else .ok (T.valuesAt (M.operands DV.V) DV.index, buggy)
  else .error .assertionFails

end LoadedTrace

end Witcher.TraceScan

namespace Witcher.Instrumentation

open Runs TraceScan Loops

variable {ν β φ : Type} [DecidableEq φ] {P : Program} {x y z : Event} {i j k : Nat}

/-! ### The call of an argument -/

section Calls

open LoadedTrace

variable {callID bbid : UInt32} {tid address : UInt64} {n index : Nat} {entry : Entry} {newer older records : List Entry}

theorem findCallFrom_eq (hentry : entry.type = .clType ∧ entry.tid = tid ∧ entry.address = address)
    (hnewer : ∀ e ∈ newer, ¬(e.type = .clType ∧ e.tid = tid ∧ e.address = address)) :
    findCallFrom tid address (newer ++ entry :: older) = some older.length := by
  induction newer with
  | nil => rw [List.nil_append, findCallFrom, if_pos hentry]
  | cons e newer ih =>
      obtain ⟨he, hnewer⟩ := List.forall_mem_cons.mp hnewer
      rw [List.cons_append, findCallFrom, if_neg he, ih hnewer]

theorem findCallBlockFrom_call (hentry : entry.type = .clType ∧ entry.tid = tid ∧ entry.id = callID) :
    findCallBlockFrom callID bbid tid n index (entry :: records) =
      findCallBlockFrom callID bbid tid (n + 1) (index + 1) records := by
  rw [findCallBlockFrom, if_pos hentry]

theorem findCallBlockFrom_found (hentry : entry.type = .bbType ∧ entry.tid = tid ∧ entry.id = bbid) :
    findCallBlockFrom callID bbid tid 1 index (entry :: records) = .ok index := by
  rw [findCallBlockFrom, if_neg fun h => (by cases hentry.1.symm.trans h.1), if_pos ⟨hentry, rfl⟩]

theorem findCallBlockFrom_block (hentry : entry.type = .bbType ∧ entry.tid = tid ∧ entry.id = bbid) :
    findCallBlockFrom callID bbid tid (n + 2) index (entry :: records) =
      findCallBlockFrom callID bbid tid (n + 1) (index + 1) records := by
  rw [findCallBlockFrom, if_neg fun h => (by cases hentry.1.symm.trans h.1), if_neg fun h => (by omega), if_pos hentry]
  simp only
  rw [if_neg fun h => (by cases hentry.1.symm.trans h)]
  rfl

theorem findCallBlockFrom_skip (hcall : ¬(entry.type = .clType ∧ entry.tid = tid ∧ entry.id = callID))
    (hblock : ¬(entry.type = .bbType ∧ entry.tid = tid ∧ entry.id = bbid)) (hend : entry.type ≠ .enType) :
    findCallBlockFrom callID bbid tid n index (entry :: records) = findCallBlockFrom callID bbid tid n (index + 1) records := by
  rw [findCallBlockFrom, if_neg hcall, if_neg fun h => hblock h.1, if_neg hblock]
  simp only
  rw [if_neg hend]

end Calls

variable {T : Recording ν}

theorem RecordedRun.type_ne_end (R : RecordedRun P T) : ∀ z ∈ R.events, z.entry.type ≠ .enType :=
  R.forall_events fun _ _ _ _ hstep => hstep.type_ne_end

/-- From a call on, the search finds the block record of the execution that made the call. -/
theorem RecordedRun.findCallBlockFrom_eq (R : RecordedRun P T) (hi : R.events[i]? = some x) (hend : EndsAt R.events x j y)
    (hx : x.entry.type = .clType) (honce : P.Once (· == x.slot) x.exec.block) :
    LoadedTrace.findCallBlockFrom x.entry.id x.exec.block x.entry.tid 0 i (T.trace.drop i) = .ok j := by
  obtain ⟨before, mid, after, outer, s, t, hevents, rfl, rfl, hspan⟩ :=
    R.exists_span (Q := fun slots => slots.countP (· == x.slot) = 0) hi hend.get hend.tid_eq hend.exec_eq
      (by rw [hx]; decide) hend.type
      (fun _ _ hrecords => honce.rest hrecords (beq_self_eq_true _)) fun _ _ => countP_tail_eq_zero
  have hmid : ∀ z ∈ mid, z.entry.type ≠ .enType := fun z hz =>
    R.type_ne_end z (hevents ▸ List.mem_append_right _ (List.mem_cons_of_mem _ (List.mem_append_left _ hz)))
  have hread := (hspan.run.labelled hmid).follow (k := 0) Event.entry
    (fun n => LoadedTrace.findCallBlockFrom x.entry.id x.exec.block x.entry.tid (n + 1))
    (Thread.Nested (· == x.slot) x.exec outer) ?_ ?_ (hspan.nested_first fun _ h => h)
  · obtain ⟨n, hn, heq⟩ := hread
    have hid : y.entry.id = x.exec.block := hend.exec_eq ▸ (R.block_fields (List.mem_of_getElem? hend.get) hend.type).1
    obtain rfl : n = 0 := by
      have hlast := hn.trans hspan.past_last
      omega
    have hdrop : T.trace.drop before.length = x.entry :: T.trace.drop (before.length + 1) := by
      obtain ⟨hlt, hget⟩ := List.getElem?_eq_some_iff.mp (R.getElem?_trace hi)
      rw [← hget, List.getElem_cons_drop]
    rw [hdrop, findCallBlockFrom_call ⟨hx, rfl, rfl⟩, R.drop_first hevents, heq, ← hid, ← hend.tid_eq]
    exact findCallBlockFrom_found ⟨hend.type, rfl, rfl⟩
  · intro n a b hn hstep
    exact hn.trans (Watched.past_silent hstep.1.1 honce).symm
  · rintro n a z b hn ⟨⟨hstep, ha, hb⟩, hlabel⟩
    have hend := hlabel z rfl
    rw [Thread.Nested] at hn
    cases hstep.countChange ha.planned honce with
    | foreign hother hcount =>
        exact ⟨n, hn.trans hcount.symm, fun i rest =>
          findCallBlockFrom_skip (fun h => hother h.2.1) (fun h => hother h.2.1) hend⟩
    | ends hown htype hcount =>
        by_cases hblock : z.entry.id = x.exec.block
        · rw [if_pos hblock] at hcount
          have hle := hb.le_past (p := (· == x.slot)) fun _ h => h
          obtain ⟨n, rfl⟩ := Nat.exists_eq_succ_of_ne_zero (n := n) (by omega)
          exact ⟨n, by rw [Thread.Nested]; omega, fun i rest => findCallBlockFrom_block ⟨htype, hown, hblock⟩⟩
        · rw [if_neg hblock, Nat.add_zero] at hcount
          exact ⟨n, hn.trans hcount, fun i rest =>
            findCallBlockFrom_skip (fun h => by cases htype.symm.trans h.1) (fun h => hblock h.2.2) hend⟩
    | records hown htype hcount =>
        by_cases hslot : z.entry.type = x.entry.type ∧ z.entry.id = x.entry.id
        · rw [if_pos (Event.eq_slot_iff.mpr hslot)] at hcount
          exact ⟨n + 1, by rw [Thread.Nested]; omega, fun i rest => findCallBlockFrom_call ⟨hslot.1.trans hx, hown, hslot.2⟩⟩
        · rw [if_neg fun h => hslot (Event.eq_slot_iff.mp h), Nat.add_zero] at hcount
          exact ⟨n, hn.trans hcount.symm, fun i rest =>
            findCallBlockFrom_skip (fun h => hslot ⟨h.1.trans hx.symm, h.2.2⟩) (fun h => htype h.1) hend⟩

/-- The records between two of a run. -/
theorem RecordedRun.forall_mem_drop (R : RecordedRun P T) (hi : R.events[i]? = some x) {C : Entry → Prop}
    (h : ∀ n u, k < n → n < i → R.events[n]? = some u → C u.entry) : ∀ e ∈ ((T.trace.take i).drop (k + 1)).reverse, C e := by
  intro e he
  obtain ⟨d, hd, rfl⟩ := List.getElem_of_mem (List.mem_reverse.mp he)
  have hlt : k + 1 + d < i := by
    rw [List.length_drop, List.length_take] at hd
    omega
  rw [List.getElem_drop, List.getElem_take]
  obtain ⟨u, hu, hentry⟩ := R.getElem?_event hi hlt (List.getElem?_eq_getElem _)
  rw [← hentry]
  exact h _ u (by omega) hlt hu

/-- The call `x` at `k` entered the activation with the number `n`, in a run of its thread. -/
structure Enters (P : Program) (events : List Event) (k : Nat) (x : Event) (n : Nat) : Prop where
  call : events[k]? = some x
  type : x.entry.type = .clType
  run : ∃ s t final stack, Emits (Step P x.entry.tid) .start ((events.take k).filter fun z => z.entry.tid = x.entry.tid) s ∧
    Step P x.entry.tid s (some x) t ∧ t.stack = ⟨n, x.entry.address, some x.entry.id, none⟩ :: stack ∧
    Emits (Step P x.entry.tid) t ((events.drop (k + 1)).filter fun z => z.entry.tid = x.entry.tid) final

section Entered

variable {events : List Event} {n : Nat} {s t : Thread} {tid : UInt64} {stack : List Activation}

/-- An activation that a call enters has a new number. -/
theorem Step.entered_number (h : Step P tid s (some x) t) (hx : x.entry.type = .clType)
    (hstack : t.stack = ⟨n, x.entry.address, some x.entry.id, none⟩ :: stack) : n = s.next := by
  cases h with
  | recordBB htype hid htid haddress => cases htype.symm.trans hx
  | recordCall htype hid htid haddress => exact (congrArg Activation.number (List.cons.inj hstack).1).symm
  | recordReturn htype hid htid haddress => cases htype.symm.trans hx
  | record htype hblock hend hid htid hexternal => cases congrArg Activation.running (List.cons.inj hstack).1

theorem Watched.next_le {label : Option Event} (h : Watched P tid s label t) : s.next ≤ t.next := by
  rcases h with h | ⟨_, -, -, rfl⟩
  · rcases h.numbers_cases with ⟨-, hnext⟩ | ⟨-, hnext⟩ <;> omega
  · exact Nat.le_refl _

/-- The block records of an activation come after the call that entered it. -/
theorem Enters.lt (h : Enters P events k x y.activation) (hj : events[j]? = some y) (hy : y.entry.type = .bbType)
    (htid : y.entry.tid = x.entry.tid) : k < j := by
  refine Nat.lt_of_not_le fun hle => ?_
  rcases Nat.lt_or_eq_of_le hle with hlt | rfl
  · obtain ⟨s, t, final, stack, hfront, hcall, hstack, -⟩ := h.run
    obtain ⟨before, mid, htake⟩ := List.append_of_mem (List.mem_of_getElem? ((List.getElem?_take_of_lt hlt).trans hj))
    have hrun := hfront.among
    rw [htake] at hrun
    obtain ⟨a, b, hbefore, hblock, hmid⟩ := hrun.split
    obtain ⟨outer, top, ha, -, -, hnumber, -, -, -, hnext⟩ := (Watched.step hblock htid).of_block hy
    have hdistinct := (reached hbefore ⟨Thread.distinct_start, Thread.planned_start⟩).1
    have hlt : y.activation < b.next := by
      rw [hnext, ← hnumber]
      refine hdistinct.lt_next _ ?_
      rw [Thread.numbers, ha]
      exact List.mem_cons_self
    have hlast := (hmid.invariant (I := fun c => y.activation < c.next) (Q := fun _ => True)
      (fun _ _ _ hc hstep => Nat.lt_of_lt_of_le hc (Watched.next_le hstep)) (fun _ _ _ _ _ => trivial) hlt).1
    exact Nat.ne_of_lt hlast (hcall.entered_number h.type hstack)
  · cases h.call.symm.trans hj
    cases h.type.symm.trans hy

theorem Enters.address_eq (h : Enters P events k x y.activation) (hj : events[j]? = some y) (hy : y.entry.type = .bbType)
    (htid : y.entry.tid = x.entry.tid) : y.entry.address = x.entry.address := by
  have hlt := h.lt hj hy htid
  obtain ⟨s, t, final, stack, hfront, hcall, hstack, hback⟩ := h.run
  obtain ⟨before, mid, after, hevents, rfl, -⟩ := exists_append_of_lt h.call hj hlt
  have hafter : events.drop (before.length + 1) = mid ++ y :: after := by
    rw [hevents, List.drop_length_add_append, List.drop_succ_cons, List.drop_zero]
  have hrun := hback.among
  rw [hafter] at hrun
  obtain ⟨a, b, hmid, hblock, -⟩ := hrun.split
  obtain ⟨outer, top, ha, -, -, hnumber, hfunction, -, haddress, -⟩ := (Watched.step hblock htid).of_block hy
  have hdistinct := (reached hfront.among ⟨Thread.distinct_start, Thread.planned_start⟩).1
  have hinside : t.InActivation y.activation x.entry.address stack := ⟨hcall.distinct hdistinct, [], _, hstack, rfl, rfl⟩
  have hnumbers : y.activation ∈ a.numbers := by
    rw [Thread.numbers, ha, ← hnumber]
    exact List.mem_cons_self
  have hrun := hmid.restrict (fun _ _ _ ha hnext => Watched.inActivation hnext ha) (fun _ _ _ ha hnext => Watched.gone hnext ha)
    hinside fun hgone => hgone.not_mem hnumbers
  rw [haddress, ← hfunction, ((hrun.last_of_restrict hinside).outer_eq ha hnumber).2]

end Entered

/-- If nothing that the activation did before has called its function again, the search from its block record on finds the call
that entered it. -/
theorem Enters.findCallFrom_eq {R : RecordedRun P T} (h : Enters P R.events k x y.activation) (hj : R.events[j]? = some y)
    (hy : y.entry.type = .bbType) (htid : y.entry.tid = x.entry.tid)
    (hnone : ∀ m u, k < m → m < j → R.events[m]? = some u → ¬u.Calls x.entry.tid x.entry.address) :
    LoadedTrace.findCallFrom y.entry.tid y.entry.address (T.trace.take j).reverse = some k := by
  rw [h.address_eq hj hy htid, htid, reverse_take_eq (R.getElem?_trace h.call) (h.lt hj hy htid),
    Instrumentation.findCallFrom_eq ⟨h.type, rfl, rfl⟩, List.length_reverse,
    List.length_take_of_le (Nat.le_of_lt (R.lt_length h.call))]
  exact R.forall_mem_drop (C := fun e => ¬(e.type = .clType ∧ e.tid = x.entry.tid ∧ e.address = x.entry.address)) hj hnone

/-- A value of a block is normal at a block record of it. -/
theorem RecordedRun.normalize_self [DecidableEq ν] {T : LoadedTrace ν β φ} (R : RecordedRun P T.toRecording)
    {blockOf : ν → Option β} {buggy : BuggyValues ν β} {V : ν} {BB : β} (hj : R.events[j]? = some y)
    (hy : y.entry.type = .bbType) (hid : y.entry.id = T.blockID BB) (hblock : blockOf V = some BB) (hbuggy : V ∉ buggy.values) :
    T.normalize blockOf buggy ⟨V, j⟩ = .ok (some ⟨V, j⟩, buggy) := by
  rw [LoadedTrace.normalize, if_neg hbuggy, hblock]
  simp only
  rw [R.findBlock_self hj hy hid]
  simp only [ok_bind]
  rw [if_pos hy]

/-- An argument depends on the operand of the call that entered the activation, in the execution that made the call, whatever
calls itself in between. The entry block must not have called back into the function. -/
theorem getSourcesForArg_eq [DecidableEq ν] {T : LoadedTrace ν β φ} {R : RecordedRun P T.toRecording} {M : Module ν β φ}
    {buggy : BuggyValues ν β} {V actual : ν} {fn : φ} {argNo l : Nat} {BB : β} {w : Event}
    (hV : M.kind V = .argument fn argNo) (hmain : M.getName fn ≠ "main") (hblock : M.blockOf V = some BB)
    (hbuggy : V ∉ buggy.values) (hcall : Enters P R.events k x y.activation) (hj : R.events[j]? = some y)
    (hy : y.entry.type = .bbType) (htid : y.entry.tid = x.entry.tid) (hid : y.entry.id = T.blockID BB)
    (hnone : ∀ m u, k < m → m < j → R.events[m]? = some u → ¬u.Calls x.entry.tid x.entry.address)
    (hisCall : M.isCall (T.getInstByID x.entry.id) = true) (hBB : T.getID (T.getInstByID x.entry.id) = x.exec.block)
    (hbody : ∀ f, T.calledFunction (T.getInstByID x.entry.id) = some f → M.isDeclaration f = false)
    (hactual : (M.operands (T.getInstByID x.entry.id))[argNo]? = some actual)
    (hend : EndsAt R.events x l w) (honce : P.Once (· == x.slot) x.exec.block) :
    T.getSourcesForArg M buggy ⟨V, j⟩ = .ok ([T.dynValue actual l], buggy) := by
  have hlt := hcall.lt hj hy htid
  have hsources : T.argumentSources M (T.getInstByID x.entry.id) argNo l = .ok [T.dynValue actual l] := by
    have hoperand : T.operandSource M (T.getInstByID x.entry.id) argNo l = .ok [T.dynValue actual l] := by
      rw [LoadedTrace.operandSource, hactual]
    rw [LoadedTrace.argumentSources]
    cases hcalled : T.calledFunction (T.getInstByID x.entry.id) with
    | none => exact hoperand
    | some f =>
        simp only
        rw [hbody f hcalled, if_neg Bool.false_ne_true, hoperand]
  rw [LoadedTrace.getSourcesForArg, hV]
  simp only
  rw [if_neg hmain, R.normalize_self hj hy hid hblock hbuggy]
  simp only [ok_bind]
  rw [if_neg (by omega), R.getElem?_trace hj]
  simp only
  rw [hcall.findCallFrom_eq hj hy htid hnone]
  simp only
  rw [R.getElem?_trace hcall.call]
  simp only
  rw [if_pos hisCall, hBB, R.findCallBlockFrom_eq hcall.call hend hcall.type honce, ok_bind, hsources, ok_bind]

/-! ### The return of a call -/

section Returns

variable {mid before after : List Event} {newer older : List Entry} {entry : Entry}

theorem findBlockFrom_eq (hentry : entry.type = .bbType) (hnewer : ∀ e ∈ newer, e.type ≠ .bbType) :
    LoadedTrace.findBlockFrom (newer ++ entry :: older) = some (older.length, entry) := by
  induction newer with
  | nil => rw [List.nil_append, LoadedTrace.findBlockFrom, if_pos hentry]
  | cons e newer ih =>
      obtain ⟨he, hnewer⟩ := List.forall_mem_cons.mp hnewer
      rw [List.cons_append, LoadedTrace.findBlockFrom, if_neg he, ih hnewer]

/-- A called function is about to return to the execution `e`, once what was entered without a record has been left. -/
structure Thread.Returning (P : Program) (id : UInt32) (e : BlockExec) (s : Thread) : Prop where
  exists_stack : ∃ entered number caller slots rest,
    s.stack = entered ++ ⟨number, P.callee id, some id, none⟩ :: caller :: rest ∧
    caller.Runs e slots ∧ ∀ a ∈ entered, a.running = none ∧ a.call = none ∧ P.indirect a.function

variable {tid : UInt64} {s t : Thread} {id : UInt32} {e : BlockExec} {label : Option Event}

theorem Thread.Returning.ne_running (h : t.Returning P id e) {a : Activation} {stack : List Activation}
    (hstack : t.stack = a :: stack) :
    a.running = none := by
  obtain ⟨entered, number, caller, slots, rest, hreturning, -, hentered⟩ := h.exists_stack
  cases entered with
  | nil =>
      obtain ⟨rfl, -⟩ := List.cons.inj (hstack.symm.trans hreturning)
      rfl
  | cons first entered =>
      obtain ⟨rfl, -⟩ := List.cons.inj (hstack.symm.trans hreturning)
      exact (hentered a List.mem_cons_self).1

/-- Without a block record and without the call itself nothing else leads there. -/
theorem Step.returning (h : Step P tid s label t) (ht : t.Returning P id e)
    (hlabel : ∀ z, label = some z → z.entry.tid = tid → z.entry.type ≠ .bbType ∧ ¬(z.entry.type = .clType ∧ z.exec = e)) :
    s.Returning P id e := by
  have hrunning : ∀ {a stack}, t.stack = a :: stack → a.running = none := fun hstack => ht.ne_running hstack
  obtain ⟨entered, number, caller, slots, rest, hstack, hruns, hentered⟩ := ht.exists_stack
  cases h with
  | begin function => rcases entered with _ | ⟨first, _ | ⟨second, entered⟩⟩ <;> cases hstack
  | enter hindirect =>
      cases entered with
      | nil => cases hstack
      | cons first entered =>
          exact ⟨entered, number, caller, slots, rest, (List.cons.inj hstack).2, hruns, (List.forall_mem_cons.mp hentered).2⟩
  | leave hindirect =>
      exact ⟨_ :: entered, number, caller, slots, rest, congrArg _ hstack, hruns,
        List.forall_mem_cons.mpr ⟨⟨rfl, rfl, hindirect⟩, hentered⟩⟩
  | exit => cases entered <;> cases hstack
  | recordStartBB hrecords => cases hrunning rfl
  | recordBB htype hid htid haddress => exact ((hlabel _ rfl htid).1 htype).elim
  | recordCall htype hid htid haddress =>
      cases entered with
      | nil =>
          obtain ⟨rfl, -⟩ := List.cons.inj (List.cons.inj hstack).2
          cases hruns
          exact ((hlabel _ rfl htid).2 ⟨htype, rfl⟩).elim
      | cons first entered =>
          obtain ⟨rfl, -⟩ := List.cons.inj hstack
          cases (List.forall_mem_cons.mp hentered).1.2.1
  | recordReturn htype hid htid haddress => cases hrunning rfl
  | record htype hblock hend hid htid hexternal => cases hrunning rfl

/-- A return of a function of the program leaves the callee. -/
theorem Step.returning_of_return (h : Step P tid s (some x) t) (hx : x.entry.type = .rtType)
    (hbody : ∃ block, P.blockFunction block = x.entry.address) : s.Returning P x.entry.id x.exec := by
  cases h with
  | recordBB htype hid htid haddress => cases htype.symm.trans hx
  | recordCall htype hid htid haddress => cases htype.symm.trans hx
  | recordReturn htype hid htid haddress =>
      subst hid
      exact ⟨[], _, _, _, _, rfl, rfl, fun _ hmem => nomatch hmem⟩
  | record htype hblock hend hid htid hexternal =>
      obtain ⟨block, hblock⟩ := hbody
      exact ((hexternal (.inr (htype.symm.trans hx))).2 block hblock).elim

/-- The last block that a thread ends before a return is one of the callee, or of a function that may be entered without a
record. -/
theorem RecordedRun.returns_from (R : RecordedRun P T) (hevents : R.events = before ++ z :: (mid ++ x :: after))
    (hz : z.entry.type = .bbType) (hx : x.entry.type = .rtType) (htid : z.entry.tid = x.entry.tid)
    (hbody : ∃ block, P.blockFunction block = x.entry.address)
    (hmid : ∀ u ∈ mid, u.entry.tid = x.entry.tid → u.entry.type ≠ .bbType ∧ ¬(u.entry.type = .clType ∧ u.exec = x.exec)) :
    z.entry.address = x.entry.address ∨ P.indirect z.entry.address := by
  obtain ⟨final, hrun⟩ := R.watched x.entry.tid
  rw [hevents] at hrun
  obtain ⟨r, s, -, hblock, hrun⟩ := hrun.split
  obtain ⟨t, u, hrun, hreturn, -⟩ := hrun.split
  have haddress := (Watched.step hreturn rfl).call_address (.inr hx)
  have hlast := (Watched.step hreturn rfl).returning_of_return hx hbody
  have hfirst := ((hrun.labelled hmid).converse.invariant (I := fun a => a.Returning P x.entry.id x.exec) (Q := fun _ => True)
    (fun b label a hb hstep => ?_) (fun _ _ _ _ _ => trivial) hlast).1
  · obtain ⟨outer, a, -, hs, -, -, hfunction, -, hfields, -⟩ := (Watched.step hblock htid).of_block hz
    obtain ⟨entered, number, caller, slots, rest, hstack, -, hentered⟩ := hfirst.exists_stack
    rw [hfields, ← hfunction]
    cases entered with
    | nil =>
        left
        rw [haddress]
        exact congrArg Activation.function (List.cons.inj (hs.symm.trans hstack)).1
    | cons first entered =>
        right
        have hfirst := congrArg Activation.function (List.cons.inj (hs.symm.trans hstack)).1
        change a.function = first.function at hfirst
        rw [hfirst]
        exact (hentered first List.mem_cons_self).2.2
  · obtain ⟨hstep | ⟨u, -, -, rfl⟩, hlabel⟩ := hstep
    · exact hstep.returning hb hlabel
    · exact hb

end Returns

/-- Before the return `x` at `i` the record `z` at `m` is the last block record of the thread, and it comes after the call that
returns there. -/
structure LastOfCallee (events : List Event) (m : Nat) (z : Event) (i : Nat) (x : Event) : Prop where
  block : events[m]? = some z
  return_ : events[i]? = some x
  lt : m < i
  block_type : z.entry.type = .bbType
  return_type : x.entry.type = .rtType
  tid_eq : z.entry.tid = x.entry.tid
  none_between : ∀ n u, m < n → n < i → events[n]? = some u → u.entry.tid = x.entry.tid →
    u.entry.type ≠ .bbType ∧ ¬(u.entry.type = .clType ∧ u.exec = x.exec)

/-- Between the two indices no other thread ends a block. The search for the end of a callee takes the last block record of any
thread. -/
def Alone (events : List Event) (tid : UInt64) (m i : Nat) : Prop :=
  ∀ n u, m < n → n < i → events[n]? = some u → u.entry.tid ≠ tid → u.entry.type ≠ .bbType

variable {m : Nat}

theorem LastOfCallee.address_eq {R : RecordedRun P T} (h : LastOfCallee R.events m z i x)
    (hbody : ∃ block, P.blockFunction block = x.entry.address) (hdirect : ¬P.indirect z.entry.address) :
    z.entry.address = x.entry.address := by
  obtain ⟨before, mid, after, hevents, rfl, rfl⟩ := exists_append_of_lt h.block h.return_ h.lt
  refine (R.returns_from hevents h.block_type h.return_type h.tid_eq hbody fun u hu htid => ?_).resolve_right hdirect
  obtain ⟨d, hd, rfl⟩ := List.getElem_of_mem hu
  refine h.none_between (before.length + 1 + d) _ (by omega) (by omega) ?_ htid
  rw [hevents, List.getElem?_append_right (by omega), show before.length + 1 + d - before.length = d + 1 by omega,
    List.getElem?_cons_succ, List.getElem?_append_left hd, List.getElem?_eq_getElem hd]

theorem LastOfCallee.findBlockFrom_eq {R : RecordedRun P T} (h : LastOfCallee R.events m z i x)
    (halone : Alone R.events x.entry.tid m i) :
    LoadedTrace.findBlockFrom (T.trace.take i).reverse = some (m, z.entry) := by
  rw [reverse_take_eq (R.getElem?_trace h.block) h.lt, Instrumentation.findBlockFrom_eq h.block_type, List.length_reverse,
    List.length_take_of_le (Nat.le_of_lt (R.lt_length h.block))]
  refine R.forall_mem_drop (C := fun e => e.type ≠ .bbType) h.return_ fun n u hm hi hu => ?_
  by_cases htid : u.entry.tid = x.entry.tid
  · exact (h.none_between n u hm hi hu htid).1
  · exact halone n u hm hi hu htid

theorem returnSources_eq {T : LoadedTrace ν β φ} {M : Module ν β φ} {CalledFunc : φ} {b : β} (hb : b ∈ M.blocks CalledFunc)
    (hreturns : M.isReturn (M.terminator b) = true) (hnodup : ((M.blocks CalledFunc).map T.blockID).Nodup) :
    T.returnSources M CalledFunc m (T.blockID b) = [⟨M.terminator b, m⟩] := by
  have hfilter :
      (M.blocks CalledFunc).filter (fun BB => M.isReturn (M.terminator BB) && T.blockID BB == T.blockID b) = [b] := by
    obtain ⟨front, back, heq⟩ := List.append_of_mem hb
    rw [heq, List.map_append, List.map_cons, List.nodup_append] at hnodup
    have hne : ∀ c, c ∈ front ∨ c ∈ back → ¬(M.isReturn (M.terminator c) && T.blockID c == T.blockID b) = true := by
      rintro c hc heq
      have hid : T.blockID c = T.blockID b := beq_iff_eq.mp (Bool.and_eq_true_iff.mp heq).2
      rcases hc with hc | hc
      · exact hnodup.2.2 _ (List.mem_map_of_mem hc) _ List.mem_cons_self hid
      · exact (List.nodup_cons.mp hnodup.2.1).1 (hid ▸ List.mem_map_of_mem hc)
    rw [heq, List.filter_append, List.filter_cons_of_pos (by rw [hreturns, beq_self_eq_true, Bool.and_self]),
      List.filter_eq_nil_iff.mpr fun c hc => hne c (.inl hc), List.filter_eq_nil_iff.mpr fun c hc => hne c (.inr hc),
      List.nil_append]
  rw [LoadedTrace.returnSources, hfilter, List.map_singleton]

/-- A call depends on the return instruction of the block that its callee ended with, whatever calls itself in between. Other
threads must not end a block between that one and the return. -/
theorem getSourcesForCall_eq [DecidableEq ν] {T : LoadedTrace ν β φ} {R : RecordedRun P T.toRecording} {M : Module ν β φ}
    {buggy : BuggyValues ν β} {V : ν} {CalledFunc : φ} {BB b : β}
    (hV : M.isCall V = true) (hblock : M.blockOf V = some BB) (hbuggy : V ∉ buggy.values) (hBB : T.getID V = x.exec.block)
    (hexec : x.exec.block = T.blockID BB) (hid : x.entry.id = M.lsID V) (hcalled : T.calledFunction V = some CalledFunc)
    (hdefined : M.isDeclaration CalledFunc = false) (hend : EndsAt R.events x j y)
    (hcalls : P.CallsOnce x.entry.id x.exec.block) (hlast : LastOfCallee R.events m z i x)
    (halone : Alone R.events x.entry.tid m i) (hbody : ∃ block, P.blockFunction block = x.entry.address)
    (hdirect : ¬P.indirect z.entry.address) (hb : b ∈ M.blocks CalledFunc) (hnumber : z.entry.id = T.blockID b)
    (hreturns : M.isReturn (M.terminator b) = true) (hnodup : ((M.blocks CalledFunc).map T.blockID).Nodup) :
    T.getSourcesForCall M buggy ⟨V, j⟩ = .ok ([⟨M.terminator b, m⟩], buggy) := by
  have hy : y.entry.id = T.blockID BB := by
    rw [(R.block_fields (List.mem_of_getElem? hend.get) hend.type).1, hend.exec_eq, hexec]
  have hmatch := R.matchReturnWithCall_eq hlast.return_ hend.get hend.tid_eq hend.exec_eq hlast.return_type hend.type hcalls
  rw [hid, ← hend.tid_eq, ← hBB] at hmatch
  rw [LoadedTrace.getSourcesForCall, if_pos hV, R.normalize_self hend.get hend.type hy hblock hbuggy]
  simp only [ok_bind]
  rw [hcalled]
  simp only
  rw [hdefined, if_neg Bool.false_ne_true, R.getElem?_trace hend.get]
  simp only
  rw [hmatch]
  simp only [ok_bind]
  rw [R.getElem?_trace hlast.return_]
  simp only
  rw [hlast.findBlockFrom_eq halone]
  simp only
  rw [if_pos ⟨hlast.tid_eq, hlast.address_eq hbody hdirect⟩, hnumber, returnSources_eq hb hreturns hnodup]

/-! ### The function that calls itself -/

def recursiveModule : Module UInt32 UInt32 Unit where
  kind := fun V =>
    if V = 40 then .argument () 0 else if V = 1 then .load 21 else if V = 2 then .call
    else if V ≤ 13 then .instruction else .other
  getName := fun _ => "descend"
  isDeclaration := fun _ => false
  blocks := fun _ => [1, 2, 3]
  terminator := fun block => block + 10
  isReturn := fun V => V == 13
  isDebug := fun _ => false
  isVoidPtr := fun _ => false
  operands := fun V => if V = 2 then [20, 30] else []
  blockOf := recursiveBlockOf
  lsID := fun V => V

theorem enters_recursive : Enters recursiveProgram recursive.events 3 (recursiveRecord .clType 2 0x400600 2 0 2) 3 where
  call := rfl
  type := rfl
  run := ⟨_, _, _, _, recursiveFirst, .recordCall rfl rfl rfl rfl, rfl, recursiveRest⟩

/-- The argument of the middle activation is the operand of the outer call. -/
theorem getSourcesForArg_recursive :
    recursiveTrace.getSourcesForArg recursiveModule ⟨[], []⟩ ⟨40, 4⟩ = .ok ([⟨20, 14⟩], ⟨[], []⟩) :=
  getSourcesForArg_eq (T := recursiveTrace) (R := recursive) (M := recursiveModule) (V := 40) (k := 3) (j := 4) (l := 14)
    (x := recursiveRecord .clType 2 0x400600 2 0 2) (y := recursiveBlock 4 3 1) (w := recursiveBlock 2 0 2)
    (show recursiveModule.kind 40 = .argument () 0 from rfl) (by decide)
    (show recursiveBlockOf 40 = some 1 from rfl) List.not_mem_nil enters_recursive rfl rfl rfl rfl
    (fun m u hm hlt _ => by omega) rfl rfl (fun _ _ => rfl) rfl ⟨rfl, rfl, rfl, rfl⟩ (once_recursive rfl)

/-- The outer call returns what block 3 of the middle activation does. -/
theorem getSourcesForCall_recursive :
    recursiveTrace.getSourcesForCall recursiveModule ⟨[], []⟩ ⟨2, 14⟩ = .ok ([⟨13, 12⟩], ⟨[], []⟩) :=
  getSourcesForCall_eq (T := recursiveTrace) (R := recursive) (M := recursiveModule) (V := 2) (b := 3) (i := 13)
    (j := 14) (m := 12)
    (x := recursiveRecord .rtType 2 0x400600 2 0 2) (y := recursiveBlock 2 0 2) (z := recursiveBlock 9 3 3)
    rfl (show recursiveBlockOf 2 = some 2 from rfl) List.not_mem_nil rfl rfl rfl
    (show recursiveTrace.calledFunction 2 = some () from rfl)
    rfl ⟨rfl, rfl, rfl, rfl⟩ callsOnce_recursive
    { block := rfl, return_ := rfl, lt := by decide, block_type := rfl, return_type := rfl, tid_eq := rfl,
      none_between := fun n u hm hlt _ => by omega }
    (fun n u hm hlt _ => by omega) ⟨2, rfl⟩ id (by decide) rfl rfl (by decide)

end Witcher.Instrumentation
