import Witcher.InstrumentedThreads

/-! The searches of `TraceFile.cpp` for a record of the execution of a block. Other executions of the block, in calls from
this one, have such records too. A search counts the executions it is inside of and takes the record it meets at zero. The
counters stay below the depth of the recursion, so they are natural numbers here. -/

namespace Witcher.TraceScan

/-- How a search ends without a result. -/
inductive SearchError where
  | fatalError
  | assertionFails
  | readsOutside
  deriving DecidableEq, Repr

namespace Recording

variable {ν : Type}

/-- The loop of `findNextNestedID`, from the record numbered `index` on. -/
def findNextNestedIDFrom (type : RecordType) (id nestID : UInt32) (tid : UInt64) :
    Nat → Nat → List Entry → Except SearchError Nat
  | _, _, [] => .error .fatalError
  | nesting, index, entry :: rest =>
      if (entry.type = type ∧ entry.id = id ∧ entry.tid = tid) ∧ nesting = 0 then .ok index
      else
        let nesting := if entry.type = type ∧ entry.id = id ∧ entry.tid = tid then nesting - 1 else nesting
        let nesting := if entry.type ≠ .bbType ∧ entry.id = nestID ∧ entry.tid = tid then nesting + 1 else nesting
        findNextNestedIDFrom type id nestID tid nesting (index + 1) rest

def findNextNestedID (T : Recording ν) (start_index : Nat) (type : RecordType) (id nestID : UInt32) (tid : UInt64) :
    Except SearchError Nat :=
  findNextNestedIDFrom type id nestID tid 0 start_index (T.trace.drop start_index)

/-- The loop of `findPreviousNestedID` over the records before an index, the last one first. -/
def findPreviousNestedIDFrom (type : RecordType) (tid : UInt64) (id nestedID : UInt32) :
    Nat → List Entry → Except SearchError Nat
  | _, [] => .error .fatalError
  | nesting, entry :: rest =>
      if entry.type = type ∧ entry.tid = tid ∧ entry.id = id then
        if nesting = 0 then .ok rest.length else findPreviousNestedIDFrom type tid id nestedID (nesting - 1) rest
      else if entry.type = .bbType ∧ entry.tid = tid ∧ entry.id = nestedID then
        findPreviousNestedIDFrom type tid id nestedID (nesting + 1) rest
      else findPreviousNestedIDFrom type tid id nestedID nesting rest

def findPreviousNestedID (T : Recording ν) (start_index : Nat) (type : RecordType) (tid : UInt64) (id nestedID : UInt32) :
    Except SearchError Nat :=
  match T.trace[start_index]? with
  | none => .error .readsOutside
  | some entry =>
      if entry.type = .bbType ∧ type ≠ .bbType ∧ start_index > 0 then
        findPreviousNestedIDFrom type tid id nestedID 0 (T.trace.take start_index).reverse
      else .error .assertionFails

/-- The loop of `matchReturnWithCall` over the records before an index, the last one first. -/
def matchReturnWithCallFrom (bbID callID : UInt32) (tid : UInt64) : Nat → List Entry → Except SearchError Nat
  | _, [] => .error .fatalError
  | nesting, entry :: rest =>
      if (entry.type = .rtType ∧ entry.id = callID ∧ entry.tid = tid) ∧ nesting = 0 then .ok rest.length
      else if entry.type = .clType ∧ entry.tid = tid ∧ entry.id = callID then
        if nesting = 0 then .error .fatalError else matchReturnWithCallFrom bbID callID tid (nesting - 1) rest
      else if entry.type = .bbType ∧ entry.tid = tid ∧ entry.id = bbID then
        matchReturnWithCallFrom bbID callID tid (nesting + 1) rest
      else matchReturnWithCallFrom bbID callID tid nesting rest

def matchReturnWithCall (T : Recording ν) (start_index : Nat) (bbID callID : UInt32) (tid : UInt64) :
    Except SearchError Nat :=
  match T.trace[start_index]? with
  | none => .error .readsOutside
  | some entry =>
      if entry.type = .bbType ∧ start_index > 0 then
        matchReturnWithCallFrom bbID callID tid 0 (T.trace.take start_index).reverse
      else .error .assertionFails

end Recording

end Witcher.TraceScan

namespace Witcher.Instrumentation

open Runs TraceScan

/-! ### The executions that are past a record -/

/-- Every execution of the block makes one record of the kind `p`, and no other block makes any. -/
def Program.Once (P : Program) (p : Slot → Bool) (block : UInt32) : Prop :=
  ∀ block' slots, P.records block' slots → slots.countP p = if block' = block then 1 else 0

/-- The activation runs an execution of the block that has made its records of the kind `p`. -/
def Activation.past (p : Slot → Bool) (block : UInt32) (a : Activation) : Bool :=
  a.running.any fun r => r.1.block == block && r.2.countP p == 0

def Thread.past (p : Slot → Bool) (block : UInt32) (s : Thread) : Nat := s.stack.countP (Activation.past p block)

variable {P : Program} {p : Slot → Bool} {block : UInt32} {tid : UInt64} {s t : Thread} {label : Option Event} {x : Event}

variable {stack : List Activation} {a : Activation}

theorem Activation.past_eq_true {e : BlockExec} {slots : List Slot} (h : a.Runs e slots) :
    a.past p block = true ↔ e.block = block ∧ slots.countP p = 0 := by
  rw [past, h, Option.any_some, Bool.and_eq_true, beq_iff_eq, beq_iff_eq]

theorem Activation.past_of_none (h : a.running = none) : a.past p block = false := by
  rw [past, h, Option.any_none]

theorem countP_past_of_none (h : a.running = none) :
    (a :: stack).countP (Activation.past p block) = stack.countP (Activation.past p block) :=
  List.countP_cons_of_neg (by rw [Activation.past_of_none h]; decide)

theorem countP_past_of_runs {e : BlockExec} {slots : List Slot} (h : a.Runs e slots) :
    (a :: stack).countP (Activation.past p block) =
      stack.countP (Activation.past p block) + if e.block = block ∧ slots.countP p = 0 then 1 else 0 := by
  split_ifs with hpast
  · exact List.countP_cons_of_pos ((Activation.past_eq_true h).mpr hpast)
  · exact List.countP_cons_of_neg fun htrue => hpast ((Activation.past_eq_true h).mp htrue)

theorem countP_past_of_forall (h : ∀ b ∈ stack, b.running = none) : stack.countP (Activation.past p block) = 0 :=
  List.countP_eq_zero.mpr fun b hb => by rw [Activation.past_of_none (h b hb)]; decide

/-! #### How the count changes -/

theorem Step.past_silent (h : Step P tid s none t) (honce : P.Once p block) : t.past p block = s.past p block := by
  cases h with
  | begin function => rfl
  | enter hindirect => exact countP_past_of_none rfl
  | leave hindirect => exact (countP_past_of_none rfl).symm
  | exit => exact (countP_past_of_none rfl).symm
  | @recordStartBB number call stack next started slots hrecords =>
      have hfresh : ¬(started = block ∧ slots.countP p = 0) := by
        rw [honce started slots hrecords]
        rintro ⟨rfl, hzero⟩
        rw [if_pos rfl] at hzero
        cases hzero
      have hcount : Thread.past p block
          ⟨⟨number, P.blockFunction started, call, some (⟨next, started⟩, slots)⟩ :: stack, next + 1⟩ = _ :=
        countP_past_of_runs rfl
      rw [if_neg hfresh, Nat.add_zero] at hcount
      exact hcount.trans (countP_past_of_none rfl).symm

theorem Step.past_slot (h : Step P tid s (some x) t) (hs : s.Planned P) (honce : P.Once p block) (hx : x.entry.type ≠ .bbType) :
    t.past p block = s.past p block + if p x.slot then 1 else 0 := by
  obtain ⟨inner, inner', outer, a, a', slots, hstack, hstack', hinner, hinner', hruns, hruns', -, -⟩ := h.of_record hx
  obtain ⟨made, hmade⟩ := hs a (hstack ▸ List.mem_append_cons_self) _ _ hruns
  have hcount := honce _ _ hmade
  rw [List.countP_append, List.countP_cons] at hcount
  rw [Thread.past, Thread.past, hstack, hstack', List.countP_append, List.countP_append, countP_past_of_forall hinner,
    countP_past_of_forall hinner', countP_past_of_runs hruns, countP_past_of_runs hruns', List.countP_cons]
  by_cases hp : p x.slot = true
  · rw [if_pos hp] at hcount ⊢
    have hblock : x.exec.block = block := by
      by_contra hne
      rw [if_neg hne] at hcount
      omega
    rw [if_pos hblock] at hcount
    rw [if_pos ⟨hblock, by omega⟩, if_neg (by omega)]
    omega
  · rw [if_neg hp, Nat.add_zero, Nat.add_zero]

theorem Step.past_block (h : Step P tid s (some x) t) (hx : x.entry.type = .bbType) :
    s.past p block = t.past p block + if x.exec.block = block then 1 else 0 := by
  obtain ⟨outer, a, hstack, hstack', hruns, -⟩ := h.of_block hx
  rw [Thread.past, Thread.past, hstack, hstack', countP_past_of_runs hruns, countP_past_of_none rfl, List.countP_nil]
  by_cases hblock : x.exec.block = block
  · rw [if_pos ⟨hblock, rfl⟩, if_pos hblock]
  · rw [if_neg fun hpast => hblock hpast.1, if_neg hblock]

/-- A block record of another thread counts as little as any other of its records. -/
inductive CountChange (p : Slot → Bool) (block : UInt32) (tid : UInt64) (s : Thread) (x : Event) (t : Thread) : Prop
  | foreign (htid : x.entry.tid ≠ tid) (hcount : t.past p block = s.past p block)
  | ends (htid : x.entry.tid = tid) (htype : x.entry.type = .bbType)
      (hcount : s.past p block = t.past p block + if x.entry.id = block then 1 else 0)
  | records (htid : x.entry.tid = tid) (htype : x.entry.type ≠ .bbType)
      (hcount : t.past p block = s.past p block + if p x.slot then 1 else 0)

theorem Watched.countChange (h : Watched P tid s (some x) t) (hs : s.Planned P) (honce : P.Once p block) :
    CountChange p block tid s x t := by
  by_cases htid : x.entry.tid = tid
  · have hstep := h.step htid
    by_cases htype : x.entry.type = .bbType
    · obtain ⟨-, -, -, -, -, -, -, hid, -⟩ := hstep.of_block htype
      exact .ends htid htype (hid ▸ hstep.past_block htype)
    · exact .records htid htype (hstep.past_slot hs honce htype)
  · exact .foreign htid (congrArg _ (h.eq_of_foreign htid))

theorem Watched.past_silent (h : Watched P tid s none t) (honce : P.Once p block) : t.past p block = s.past p block := by
  rcases h with h | ⟨x, hlabel, -⟩
  · exact h.past_silent honce
  · cases hlabel

/-- After its record of the kind an execution has none to come. -/
theorem Program.Once.rest {made slots : List Slot} {slot : Slot} {block' : UInt32} (honce : P.Once p block)
    (hrecords : P.records block' (made ++ slot :: slots)) (hslot : p slot = true) : slots.countP p = 0 := by
  have hcount := honce _ _ hrecords
  rw [List.countP_append, List.countP_cons_of_pos hslot] at hcount
  split_ifs at hcount
  omega

theorem countP_tail_eq_zero {slot : Slot} {slots : List Slot} (h : (slot :: slots).countP p = 0) : slots.countP p = 0 :=
  Nat.eq_zero_of_le_zero (h ▸ (List.sublist_cons_self slot slots).countP_le)

/-! ### The count between a record and the block record -/

variable {Q : List Slot → Prop} {e : BlockExec} {outer : List Activation} {mid : List Event}

/-- The execution itself is counted, and so are the ones around it. -/
theorem Thread.Inside.le_past (hs : s.Inside P Q e outer) (hQ : ∀ slots, Q slots → slots.countP p = 0) :
    outer.countP (Activation.past p e.block) + 1 ≤ s.past p e.block := by
  obtain ⟨inner, a, slots, hstack, hruns, hslots⟩ := hs.executing
  rw [Thread.past, hstack, List.countP_append, countP_past_of_runs hruns, if_pos ⟨rfl, hQ slots hslots⟩]
  omega

/-- The number of counted executions that were started by the execution itself. -/
def Thread.Nested (p : Slot → Bool) (e : BlockExec) (outer : List Activation) (n : Nat) (s : Thread) : Prop :=
  n + (outer.countP (Activation.past p e.block) + 1) = s.past p e.block

theorem Span.past_first (h : Span P Q x outer s mid t) (hQ : ∀ slots, Q slots → slots.countP p = 0) :
    s.past p x.exec.block = outer.countP (Activation.past p x.exec.block) + 1 := by
  obtain ⟨inner, a, slots, hstack, hruns, hslots, hinner⟩ := h.first
  rw [Thread.past, hstack, List.countP_append, countP_past_of_forall hinner, countP_past_of_runs hruns,
    if_pos ⟨rfl, hQ slots hslots⟩, Nat.zero_add]

theorem Span.nested_first (h : Span P Q x outer s mid t) (hQ : ∀ slots, Q slots → slots.countP p = 0) :
    s.Nested p x.exec outer 0 := by
  rw [Thread.Nested, h.past_first hQ, Nat.zero_add]

theorem Span.past_last (h : Span P Q x outer s mid t) :
    t.past p x.exec.block = outer.countP (Activation.past p x.exec.block) + 1 := by
  obtain ⟨a, hstack, hruns⟩ := h.last
  rw [Thread.past, hstack, countP_past_of_runs hruns, if_pos ⟨rfl, List.countP_nil⟩]

theorem Span.nested_last (h : Span P Q x outer s mid t) : t.Nested p x.exec outer 0 := by
  rw [Thread.Nested, h.past_last, Nat.zero_add]

/-! ### Forwards to the block record -/

variable {ν : Type} {T : Recording ν} {y : Event} {i j : Nat}

section Forwards

open Recording

variable {block nestID : UInt32} {n i : Nat} {entry : Entry} {records : List Entry}

theorem findNextNestedIDFrom_found (hentry : entry.type = .bbType ∧ entry.id = block ∧ entry.tid = tid) :
    findNextNestedIDFrom .bbType block nestID tid 0 i (entry :: records) = .ok i := by
  rw [findNextNestedIDFrom, if_pos ⟨hentry, rfl⟩]

theorem findNextNestedIDFrom_down (hentry : entry.type = .bbType ∧ entry.id = block ∧ entry.tid = tid) :
    findNextNestedIDFrom .bbType block nestID tid (n + 1) i (entry :: records) =
      findNextNestedIDFrom .bbType block nestID tid n (i + 1) records := by
  rw [findNextNestedIDFrom, if_neg fun h => Nat.succ_ne_zero n h.2, if_pos hentry]
  simp only
  rw [if_neg fun h => h.1 hentry.1, Nat.add_sub_cancel]

theorem findNextNestedIDFrom_up (hentry : entry.type ≠ .bbType ∧ entry.id = nestID ∧ entry.tid = tid) :
    findNextNestedIDFrom .bbType block nestID tid n i (entry :: records) =
      findNextNestedIDFrom .bbType block nestID tid (n + 1) (i + 1) records := by
  rw [findNextNestedIDFrom, if_neg fun h => hentry.1 h.1.1, if_neg fun h => hentry.1 h.1]
  simp only
  rw [if_pos hentry]

theorem findNextNestedIDFrom_skip (hblock : ¬(entry.type = .bbType ∧ entry.id = block ∧ entry.tid = tid))
    (hnest : ¬(entry.type ≠ .bbType ∧ entry.id = nestID ∧ entry.tid = tid)) :
    findNextNestedIDFrom .bbType block nestID tid n i (entry :: records) =
      findNextNestedIDFrom .bbType block nestID tid n (i + 1) records := by
  rw [findNextNestedIDFrom, if_neg fun h => hblock h.1, if_neg hblock]
  simp only
  rw [if_neg hnest]

end Forwards

/-! #### The records around a span -/

section Positions

variable {before after : List Event}

theorem RecordedRun.trace_split (R : RecordedRun P T) (hevents : R.events = before ++ x :: (mid ++ y :: after)) :
    T.trace = (before.map Event.entry ++ x.entry :: mid.map Event.entry) ++
      y.entry :: (after.map Event.entry ++ (R.closing ++ [R.stop])) := by
  rw [R.trace_eq, hevents, List.map_append, List.map_cons, List.map_append, List.map_cons]
  simp only [List.append_assoc, List.cons_append]

theorem RecordedRun.drop_first (R : RecordedRun P T) (hevents : R.events = before ++ x :: (mid ++ y :: after)) :
    T.trace.drop (before.length + 1) =
      mid.map Event.entry ++ y.entry :: (after.map Event.entry ++ (R.closing ++ [R.stop])) := by
  rw [R.trace_split hevents, List.append_assoc, List.cons_append, ← List.length_map (f := Event.entry),
    List.drop_length_add_append, List.drop_succ_cons, List.drop_zero]

theorem RecordedRun.reverse_take_last (R : RecordedRun P T) (hevents : R.events = before ++ x :: (mid ++ y :: after)) :
    (T.trace.take (before.length + 1 + mid.length)).reverse =
      mid.reverse.map Event.entry ++ x.entry :: before.reverse.map Event.entry := by
  have hlength : before.length + 1 + mid.length = (before.map Event.entry ++ x.entry :: mid.map Event.entry).length := by
    rw [List.length_append, List.length_cons, List.length_map, List.length_map]
    omega
  rw [R.trace_split hevents, hlength, List.take_left, List.reverse_append, List.reverse_cons, List.append_assoc,
    ← List.map_reverse, ← List.map_reverse]
  rfl

theorem RecordedRun.getElem?_last (R : RecordedRun P T) (hevents : R.events = before ++ x :: (mid ++ y :: after)) :
    T.trace[before.length + 1 + mid.length]? = some y.entry := by
  have hlength : before.length + 1 + mid.length = (before.map Event.entry ++ x.entry :: mid.map Event.entry).length := by
    rw [List.length_append, List.length_cons, List.length_map, List.length_map]
    omega
  rw [R.trace_split hevents, hlength, List.getElem?_append_right (Nat.le_refl _), Nat.sub_self, List.getElem?_cons_zero]

end Positions

/-- The records of the instruction. -/
def Slot.ofInstruction (id : UInt32) (slot : Slot) : Bool := slot.id == id

theorem Event.ofInstruction_iff {id : UInt32} : Slot.ofInstruction id x.slot = true ↔ x.entry.id = id := beq_iff_eq

/-- From a record of an execution on, the search finds the block record of this execution, if every execution of the block
makes one record with the number of the instruction. -/
theorem RecordedRun.findNextNestedID_eq (R : RecordedRun P T) (hi : R.events[i]? = some x) (hj : R.events[j]? = some y)
    (htid : y.entry.tid = x.entry.tid) (hexec : y.exec = x.exec) (hx : x.entry.type ≠ .bbType) (hy : y.entry.type = .bbType)
    (honce : P.Once (Slot.ofInstruction x.entry.id) x.exec.block) :
    T.findNextNestedID (i + 1) .bbType x.exec.block x.entry.id x.entry.tid = .ok j := by
  obtain ⟨before, mid, after, outer, s, t, hevents, rfl, rfl, hspan⟩ :=
    R.exists_span (Q := fun slots => slots.countP (Slot.ofInstruction x.entry.id) = 0) hi hj htid hexec hx hy
      (fun _ _ hrecords => honce.rest hrecords (beq_self_eq_true _)) fun _ _ => countP_tail_eq_zero
  have hread := hspan.run.follow (k := 0) Event.entry
    (Recording.findNextNestedIDFrom .bbType x.exec.block x.entry.id x.entry.tid)
    (Thread.Nested (Slot.ofInstruction x.entry.id) x.exec outer) ?_ ?_ (hspan.nested_first fun _ h => h)
  · obtain ⟨n, hn, heq⟩ := hread
    have hid : y.entry.id = x.exec.block := hexec ▸ (R.block_fields (List.mem_of_getElem? hj) hy).1
    obtain rfl : n = 0 := by
      have hlast := hn.trans hspan.past_last
      omega
    rw [Recording.findNextNestedID, R.drop_first hevents, heq, ← hid, ← htid]
    exact findNextNestedIDFrom_found ⟨hy, rfl, rfl⟩
  · intro n a b hn hstep
    exact hn.trans (Watched.past_silent hstep.1 honce).symm
  · rintro n a z b hn ⟨hstep, ha, hb⟩
    rw [Thread.Nested] at hn
    cases hstep.countChange ha.planned honce with
    | foreign hother hcount =>
        exact ⟨n, hn.trans hcount.symm, fun i rest => findNextNestedIDFrom_skip (fun h => hother h.2.2) fun h => hother h.2.2⟩
    | ends hown htype hcount =>
        by_cases hblock : z.entry.id = x.exec.block
        · rw [if_pos hblock] at hcount
          have hle := hb.le_past (p := Slot.ofInstruction x.entry.id) fun _ h => h
          obtain ⟨n, rfl⟩ := Nat.exists_eq_succ_of_ne_zero (n := n) (by omega)
          exact ⟨n, by rw [Thread.Nested]; omega, fun i rest => findNextNestedIDFrom_down ⟨htype, hblock, hown⟩⟩
        · rw [if_neg hblock, Nat.add_zero] at hcount
          exact ⟨n, hn.trans hcount, fun i rest => findNextNestedIDFrom_skip (fun h => hblock h.2.1) fun h => h.1 htype⟩
    | records hown htype hcount =>
        by_cases hinst : z.entry.id = x.entry.id
        · rw [if_pos (Event.ofInstruction_iff.mpr hinst)] at hcount
          exact ⟨n + 1, by rw [Thread.Nested]; omega, fun i rest => findNextNestedIDFrom_up ⟨htype, hinst, hown⟩⟩
        · rw [if_neg fun h => hinst (Event.ofInstruction_iff.mp h), Nat.add_zero] at hcount
          exact ⟨n, hn.trans hcount.symm, fun i rest => findNextNestedIDFrom_skip (fun h => htype h.1) fun h => hinst h.2.1⟩

theorem once_recursive {p : Slot → Bool} (h : (recursiveSlots 2).countP p = 1) : recursiveProgram.Once p 2 := by
  rintro block slots rfl
  by_cases hblock : block = 2
  · rw [if_pos hblock, hblock, h]
  · rw [if_neg hblock, recursiveSlots, if_neg hblock, List.countP_nil]

/-! ### Backwards from the block record -/

section Backwards

open Recording

variable {type : RecordType} {id nestedID : UInt32} {n : Nat} {entry : Entry} {records : List Entry}

theorem findPreviousNestedIDFrom_found (hentry : entry.type = type ∧ entry.tid = tid ∧ entry.id = id) :
    findPreviousNestedIDFrom type tid id nestedID 0 (entry :: records) = .ok records.length := by
  rw [findPreviousNestedIDFrom, if_pos hentry, if_pos rfl]

theorem findPreviousNestedIDFrom_down (hentry : entry.type = type ∧ entry.tid = tid ∧ entry.id = id) :
    findPreviousNestedIDFrom type tid id nestedID (n + 1) (entry :: records) =
      findPreviousNestedIDFrom type tid id nestedID n records := by
  rw [findPreviousNestedIDFrom, if_pos hentry, if_neg (Nat.succ_ne_zero n), Nat.add_sub_cancel]

theorem findPreviousNestedIDFrom_up (hentry : ¬(entry.type = type ∧ entry.tid = tid ∧ entry.id = id))
    (hblock : entry.type = .bbType ∧ entry.tid = tid ∧ entry.id = nestedID) :
    findPreviousNestedIDFrom type tid id nestedID n (entry :: records) =
      findPreviousNestedIDFrom type tid id nestedID (n + 1) records := by
  rw [findPreviousNestedIDFrom, if_neg hentry, if_pos hblock]

theorem findPreviousNestedIDFrom_skip (hentry : ¬(entry.type = type ∧ entry.tid = tid ∧ entry.id = id))
    (hblock : ¬(entry.type = .bbType ∧ entry.tid = tid ∧ entry.id = nestedID)) :
    findPreviousNestedIDFrom type tid id nestedID n (entry :: records) =
      findPreviousNestedIDFrom type tid id nestedID n records := by
  rw [findPreviousNestedIDFrom, if_neg hentry, if_neg hblock]

variable {bbID callID : UInt32}

theorem matchReturnWithCallFrom_found (hentry : entry.type = .rtType ∧ entry.id = callID ∧ entry.tid = tid) :
    matchReturnWithCallFrom bbID callID tid 0 (entry :: records) = .ok records.length := by
  rw [matchReturnWithCallFrom, if_pos ⟨hentry, rfl⟩]

theorem matchReturnWithCallFrom_call (hentry : entry.type = .clType ∧ entry.tid = tid ∧ entry.id = callID) :
    matchReturnWithCallFrom bbID callID tid (n + 1) (entry :: records) = matchReturnWithCallFrom bbID callID tid n records := by
  rw [matchReturnWithCallFrom, if_neg fun h => Nat.succ_ne_zero n h.2, if_pos hentry, if_neg (Nat.succ_ne_zero n),
    Nat.add_sub_cancel]

theorem matchReturnWithCallFrom_block (hentry : entry.type = .bbType ∧ entry.tid = tid ∧ entry.id = bbID) :
    matchReturnWithCallFrom bbID callID tid n (entry :: records) = matchReturnWithCallFrom bbID callID tid (n + 1) records := by
  rw [matchReturnWithCallFrom, if_neg fun h => (by cases hentry.1.symm.trans h.1.1),
    if_neg fun h => (by cases hentry.1.symm.trans h.1), if_pos hentry]

theorem matchReturnWithCallFrom_skip (hreturn : (entry.type = .rtType ∧ entry.id = callID ∧ entry.tid = tid) → n ≠ 0)
    (hcall : ¬(entry.type = .clType ∧ entry.tid = tid ∧ entry.id = callID))
    (hblock : ¬(entry.type = .bbType ∧ entry.tid = tid ∧ entry.id = bbID)) :
    matchReturnWithCallFrom bbID callID tid n (entry :: records) = matchReturnWithCallFrom bbID callID tid n records := by
  rw [matchReturnWithCallFrom, if_neg fun h => hreturn h.1 h.2, if_neg hcall, if_neg hblock]

end Backwards

theorem Event.eq_slot_iff {slot : Slot} : (x.slot == slot) = true ↔ x.entry.type = slot.type ∧ x.entry.id = slot.id := by
  rw [beq_iff_eq, Event.slot, Slot.ext_iff]

/-- From the block record of an execution back, the search finds the record of this execution, if every execution of the
block makes one such record. -/
theorem RecordedRun.findPreviousNestedID_eq (R : RecordedRun P T) (hi : R.events[i]? = some x) (hj : R.events[j]? = some y)
    (htid : y.entry.tid = x.entry.tid) (hexec : y.exec = x.exec) (hx : x.entry.type ≠ .bbType) (hy : y.entry.type = .bbType)
    (honce : P.Once (· == x.slot) x.exec.block) :
    T.findPreviousNestedID j x.entry.type x.entry.tid x.entry.id x.exec.block = .ok i := by
  obtain ⟨before, mid, after, outer, s, t, hevents, rfl, rfl, hspan⟩ :=
    R.exists_span (Q := fun slots => slots.countP (· == x.slot) = 0) hi hj htid hexec hx hy
      (fun _ _ hrecords => honce.rest hrecords (beq_self_eq_true _)) fun _ _ => countP_tail_eq_zero
  have hread := hspan.run.converse.follow (k := 0) Event.entry
    (fun n _ => Recording.findPreviousNestedIDFrom x.entry.type x.entry.tid x.entry.id x.exec.block n)
    (Thread.Nested (· == x.slot) x.exec outer) ?_ ?_ hspan.nested_last
  · obtain ⟨n, hn, heq⟩ := hread
    obtain rfl : n = 0 := by
      have hfirst := hn.trans (hspan.past_first fun _ h => h)
      omega
    rw [Recording.findPreviousNestedID, R.getElem?_last hevents]
    simp only
    rw [if_pos ⟨hy, hx, by omega⟩, R.reverse_take_last hevents, heq 0, findPreviousNestedIDFrom_found ⟨rfl, rfl, rfl⟩,
      List.length_map, List.length_reverse]
  · intro n a b hn hstep
    exact hn.trans (Watched.past_silent hstep.1 honce)
  · rintro n a z b hn ⟨hstep, hb, ha⟩
    rw [Thread.Nested] at hn
    cases hstep.countChange hb.planned honce with
    | foreign hother hcount =>
        exact ⟨n, hn.trans hcount, fun i rest => findPreviousNestedIDFrom_skip (fun h => hother h.2.1) fun h => hother h.2.1⟩
    | ends hown htype hcount =>
        have hother : ¬(z.entry.type = x.entry.type ∧ z.entry.tid = x.entry.tid ∧ z.entry.id = x.entry.id) :=
          fun h => hx (h.1.symm.trans htype)
        by_cases hblock : z.entry.id = x.exec.block
        · rw [if_pos hblock] at hcount
          exact ⟨n + 1, by rw [Thread.Nested]; omega, fun i rest => findPreviousNestedIDFrom_up hother ⟨htype, hown, hblock⟩⟩
        · rw [if_neg hblock, Nat.add_zero] at hcount
          exact ⟨n, hn.trans hcount.symm, fun i rest => findPreviousNestedIDFrom_skip hother fun h => hblock h.2.2⟩
    | records hown htype hcount =>
        by_cases hslot : z.entry.type = x.entry.type ∧ z.entry.id = x.entry.id
        · rw [if_pos (Event.eq_slot_iff.mpr hslot)] at hcount
          have hle := hb.le_past (p := (· == x.slot)) fun _ h => h
          obtain ⟨n, rfl⟩ := Nat.exists_eq_succ_of_ne_zero (n := n) (by omega)
          exact ⟨n, by rw [Thread.Nested]; omega, fun i rest => findPreviousNestedIDFrom_down ⟨hslot.1, hown, hslot.2⟩⟩
        · rw [if_neg fun h => hslot (Event.eq_slot_iff.mp h), Nat.add_zero] at hcount
          exact ⟨n, hn.trans hcount, fun i rest =>
            findPreviousNestedIDFrom_skip (fun h => hslot ⟨h.1, h.2.2⟩) fun h => htype h.1⟩

/-- From a record of an execution the searches lead to its block record and back, whatever the thread calls in between and
whatever the other threads record. -/
theorem RecordedRun.findNestedID_inverse (R : RecordedRun P T) (hi : R.events[i]? = some x) (hj : R.events[j]? = some y)
    (htid : y.entry.tid = x.entry.tid) (hexec : y.exec = x.exec) (hx : x.entry.type ≠ .bbType) (hy : y.entry.type = .bbType)
    (hinstruction : P.Once (Slot.ofInstruction x.entry.id) x.exec.block) (hslot : P.Once (· == x.slot) x.exec.block) :
    T.findNextNestedID (i + 1) .bbType x.exec.block x.entry.id x.entry.tid = .ok j ∧
      T.findPreviousNestedID j x.entry.type x.entry.tid x.entry.id x.exec.block = .ok i :=
  ⟨R.findNextNestedID_eq hi hj htid hexec hx hy hinstruction, R.findPreviousNestedID_eq hi hj htid hexec hx hy hslot⟩

/-- The block records of the inner executions are passed over. -/
theorem findNestedID_inverse_recursive :
    recursiveRecording.findNextNestedID 3 .bbType 2 1 7 = .ok 14 ∧
      recursiveRecording.findPreviousNestedID 14 .ldType 7 1 2 = .ok 2 :=
  recursive.findNestedID_inverse (i := 2) (j := 14) (x := recursiveRecord .ldType 1 0x601000 2 0 2)
    (y := recursiveBlock 2 0 2) rfl rfl
    rfl rfl (by decide) rfl (once_recursive rfl) (once_recursive rfl)

/-! ### The return of a call -/

def callSlot (id : UInt32) : Slot := ⟨.clType, id⟩

def returnSlot (id : UInt32) : Slot := ⟨.rtType, id⟩

/-- Every execution of the block makes the call once, and the return comes after it. -/
structure Program.CallsOnce (P : Program) (id block : UInt32) : Prop where
  call : P.Once (· == callSlot id) block
  return_ : P.Once (· == returnSlot id) block
  call_before : ∀ block' made slots, P.records block' (made ++ returnSlot id :: slots) → callSlot id ∈ made

/-- Neither the call nor the return is to come. -/
def PastCall (id : UInt32) (slots : List Slot) : Prop :=
  slots.countP (· == callSlot id) = 0 ∧ slots.countP (· == returnSlot id) = 0

variable {id : UInt32}

theorem Program.CallsOnce.pastCall {block' : UInt32} {made slots : List Slot} (h : P.CallsOnce id block)
    (hrecords : P.records block' (made ++ returnSlot id :: slots)) : PastCall id slots := by
  refine ⟨?_, h.return_.rest hrecords (beq_self_eq_true _)⟩
  obtain ⟨made, between, rfl⟩ := List.append_of_mem (h.call_before _ _ _ hrecords)
  rw [List.append_assoc, List.cons_append] at hrecords
  have hrest := h.call.rest hrecords (beq_self_eq_true _)
  rw [List.countP_append] at hrest
  exact countP_tail_eq_zero (Nat.eq_zero_of_add_eq_zero_left hrest)

/-- An execution that is past the return is past the call. -/
theorem Activation.past_call (h : P.CallsOnce id block) (hs : s.Planned P) (ha : a ∈ s.stack)
    (hpast : a.past (· == returnSlot id) block = true) : a.past (· == callSlot id) block = true := by
  match hrunning : a.running with
  | none =>
      rw [Activation.past_of_none hrunning] at hpast
      cases hpast
  | some (e, slots) =>
      obtain ⟨hblock, hzero⟩ := (Activation.past_eq_true hrunning).mp hpast
      refine (Activation.past_eq_true hrunning).mpr ⟨hblock, ?_⟩
      obtain ⟨made, hmade⟩ := hs a ha e slots hrunning
      have hcount := h.return_ _ _ hmade
      rw [List.countP_append, hzero, if_pos hblock, Nat.add_zero] at hcount
      obtain ⟨slot, hmem, hslot⟩ := List.countP_pos_iff.mp (Nat.lt_of_lt_of_eq Nat.zero_lt_one hcount.symm)
      obtain rfl := beq_iff_eq.mp hslot
      obtain ⟨made, between, rfl⟩ := List.append_of_mem hmem
      rw [List.append_assoc, List.cons_append] at hmade
      have hrest := (h.pastCall hmade).1
      rw [List.countP_append] at hrest
      exact Nat.eq_zero_of_add_eq_zero_left hrest

/-- Of the executions that this one has started, those past the return are among those past the call. -/
theorem Thread.Inside.past_return_le (h : P.CallsOnce id e.block) (hs : s.Inside P (PastCall id) e outer) :
    s.past (· == returnSlot id) e.block + outer.countP (Activation.past (· == callSlot id) e.block) ≤
      s.past (· == callSlot id) e.block + outer.countP (Activation.past (· == returnSlot id) e.block) := by
  obtain ⟨inner, a, slots, hstack, hruns, hcall, hreturn⟩ := hs.executing
  have hle : inner.countP (Activation.past (· == returnSlot id) e.block) ≤ inner.countP
    (Activation.past (· == callSlot id) e.block) :=
    List.countP_mono_left fun b hb => Activation.past_call h hs.planned (hstack ▸ List.mem_append_left _ hb)
  rw [Thread.past, Thread.past, hstack, List.countP_append, List.countP_append, countP_past_of_runs hruns,
    countP_past_of_runs hruns, if_pos ⟨rfl, hreturn⟩, if_pos ⟨rfl, hcall⟩]
  omega

/-- From the block record of an execution back, the search finds the return of the call that this execution made. -/
theorem RecordedRun.matchReturnWithCall_eq (R : RecordedRun P T) (hi : R.events[i]? = some x) (hj : R.events[j]? = some y)
    (htid : y.entry.tid = x.entry.tid) (hexec : y.exec = x.exec) (hx : x.entry.type = .rtType) (hy : y.entry.type = .bbType)
    (hcalls : P.CallsOnce x.entry.id x.exec.block) :
    T.matchReturnWithCall j x.exec.block x.entry.id x.entry.tid = .ok i := by
  have hslot : x.slot = returnSlot x.entry.id := by rw [Event.slot, hx, returnSlot]
  obtain ⟨before, mid, after, outer, s, t, hevents, rfl, rfl, hspan⟩ :=
    R.exists_span (Q := PastCall x.entry.id) hi hj htid hexec (by rw [hx]; decide) hy
      (fun _ _ hrecords => hcalls.pastCall (hslot ▸ hrecords)) fun _ _ h => ⟨countP_tail_eq_zero h.1, countP_tail_eq_zero h.2⟩
  have hread := hspan.run.converse.follow (k := 0) Event.entry
    (fun n _ => Recording.matchReturnWithCallFrom x.exec.block x.entry.id x.entry.tid n)
    (Thread.Nested (· == callSlot x.entry.id) x.exec outer) ?_ ?_ hspan.nested_last
  · obtain ⟨n, hn, heq⟩ := hread
    obtain rfl : n = 0 := by
      have hfirst := hn.trans (hspan.past_first fun _ h => h.1)
      omega
    rw [Recording.matchReturnWithCall, R.getElem?_last hevents]
    simp only
    rw [if_pos ⟨hy, by omega⟩, R.reverse_take_last hevents, heq 0, matchReturnWithCallFrom_found ⟨hx, rfl, rfl⟩,
      List.length_map, List.length_reverse]
  · intro n a b hn hstep
    exact hn.trans (Watched.past_silent hstep.1 hcalls.call)
  · rintro n a z b hn ⟨hstep, hb, ha⟩
    rw [Thread.Nested] at hn
    cases hstep.countChange hb.planned hcalls.call with
    | foreign hother hcount =>
        exact ⟨n, hn.trans hcount, fun i rest =>
          matchReturnWithCallFrom_skip (fun h => (hother h.2.2).elim) (fun h => hother h.2.1) fun h => hother h.2.1⟩
    | ends hown htype hcount =>
        by_cases hblock : z.entry.id = x.exec.block
        · rw [if_pos hblock] at hcount
          exact ⟨n + 1, by rw [Thread.Nested]; omega, fun i rest => matchReturnWithCallFrom_block ⟨htype, hown, hblock⟩⟩
        · rw [if_neg hblock, Nat.add_zero] at hcount
          exact ⟨n, hn.trans hcount.symm, fun i rest => matchReturnWithCallFrom_skip (fun h => by cases htype.symm.trans h.1)
            (fun h => by cases htype.symm.trans h.1) fun h => hblock h.2.2⟩
    | records hown htype hcount =>
        by_cases hcall : z.entry.type = .clType ∧ z.entry.id = x.entry.id
        · rw [if_pos (Event.eq_slot_iff.mpr hcall)] at hcount
          have hle := hb.le_past (p := (· == callSlot x.entry.id)) fun _ h => h.1
          obtain ⟨n, rfl⟩ := Nat.exists_eq_succ_of_ne_zero (n := n) (by omega)
          exact ⟨n, by rw [Thread.Nested]; omega, fun i rest => matchReturnWithCallFrom_call ⟨hcall.1, hown, hcall.2⟩⟩
        · rw [if_neg fun h => hcall (Event.eq_slot_iff.mp h), Nat.add_zero] at hcount
          refine ⟨n, hn.trans hcount, fun i rest => matchReturnWithCallFrom_skip (fun h => ?_) (fun h => hcall ⟨h.1, h.2.2⟩)
            fun h => htype h.1⟩
          -- An inner execution is past the return that it has just made, so it is counted.
          have hreturn := (hstep.step hown).past_slot hb.planned hcalls.return_ htype
          rw [if_pos (Event.eq_slot_iff.mpr ⟨h.1, h.2.1⟩)] at hreturn
          have hle := hb.le_past (p := (· == returnSlot x.entry.id)) fun _ h => h.2
          have hcounted := ha.past_return_le hcalls
          omega

theorem callsOnce_recursive : recursiveProgram.CallsOnce 2 2 := by
  refine ⟨once_recursive rfl, once_recursive rfl, fun block made slots hrecords => ?_⟩
  change made ++ returnSlot 2 :: slots = recursiveSlots block at hrecords
  rw [recursiveSlots] at hrecords
  split_ifs at hrecords
  · rcases made with _ | ⟨first, _ | ⟨second, _ | ⟨third, made⟩⟩⟩
    · cases hrecords
    · cases hrecords
    · cases hrecords
    · obtain ⟨rfl, -⟩ := List.cons.inj (List.cons.inj (List.cons.inj hrecords).2).2
      exact List.mem_cons_of_mem _ (List.mem_cons_of_mem _ List.mem_cons_self)
  · exact (List.append_ne_nil_of_right_ne_nil made (List.cons_ne_nil _ _) hrecords).elim

end Witcher.Instrumentation
