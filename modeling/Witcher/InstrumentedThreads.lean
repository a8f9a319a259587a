import Witcher.EnclosingBlocks
import Witcher.RunReaders

/-! The threads of an instrumented program (`TracingNoGiri.cpp`, `Tracing.cpp`) and the trace they record together. A
direct call of a function of the program has a record before it and one after it. Indirect calls, calls back from a
library and signal handlers have none. Functions that are left by an exception are not modelled. -/

namespace Witcher.Instrumentation

open Runs TraceScan

/-- A record that an execution of a block is going to make. -/
@[ext]
structure Slot where
  type : RecordType
  id : UInt32
  deriving DecidableEq, Repr

/-- What is known of the program. `records` are the records that an execution of a block can make before its block
record; the number of the flushes varies. A function is known by its address. Those of `indirect` may be entered without a
record. -/
structure Program where
  records : UInt32 → List Slot → Prop
  blockFunction : UInt32 → UInt64
  callee : UInt32 → UInt64
  indirect : UInt64 → Prop

/-- A function that was entered, by the call `call` if that has a record. `running` is the execution of a block of it and
the records that are still to come. -/
structure Activation where
  number : Nat
  function : UInt64
  call : Option UInt32
  running : Option (BlockExec × List Slot)

/-- The activations, the innermost one first. `next` numbers activations and executions. -/
structure Thread where
  stack : List Activation
  next : Nat

def Thread.start : Thread := ⟨[], 0⟩

/-- A record with the execution and the activation it belongs to. A call and its return are records of the caller. -/
structure Event where
  entry : Entry
  exec : BlockExec
  activation : Nat
  deriving DecidableEq, Repr

def Event.slot (x : Event) : Slot := ⟨x.entry.type, x.entry.id⟩

inductive Step (P : Program) (tid : UInt64) : Thread → Option Event → Thread → Prop
  | begin {next : Nat} (function : UInt64) : Step P tid ⟨[], next⟩ none ⟨[⟨next, function, none, none⟩], next + 1⟩
  | enter {top : Activation} {stack : List Activation} {next : Nat} {function : UInt64} (hindirect : P.indirect function) :
      Step P tid ⟨top :: stack, next⟩ none ⟨⟨next, function, none, none⟩ :: top :: stack, next + 1⟩
  | leave {number : Nat} {function : UInt64} {stack : List Activation} {next : Nat} (hindirect : P.indirect function) :
      Step P tid ⟨⟨number, function, none, none⟩ :: stack, next⟩ none ⟨stack, next⟩
  | exit {number : Nat} {function : UInt64} {next : Nat} : Step P tid ⟨[⟨number, function, none, none⟩], next⟩ none ⟨[], next⟩
  | recordStartBB {number : Nat} {call : Option UInt32} {stack : List Activation} {next : Nat} {block : UInt32}
      {slots : List Slot} (hrecords : P.records block slots) :
      Step P tid ⟨⟨number, P.blockFunction block, call, none⟩ :: stack, next⟩ none
        ⟨⟨number, P.blockFunction block, call, some (⟨next, block⟩, slots)⟩ :: stack, next + 1⟩
  | recordBB {number : Nat} {call : Option UInt32} {e : BlockExec} {stack : List Activation} {next : Nat} {entry : Entry}
      (htype : entry.type = .bbType) (hid : entry.id = e.block) (htid : entry.tid = tid)
      (haddress : entry.address = P.blockFunction e.block) :
      Step P tid ⟨⟨number, P.blockFunction e.block, call, some (e, [])⟩ :: stack, next⟩ (some ⟨entry, e, number⟩)
        ⟨⟨number, P.blockFunction e.block, call, none⟩ :: stack, next⟩
  | recordCall {number : Nat} {function : UInt64} {call : Option UInt32} {e : BlockExec} {id : UInt32} {slots : List Slot}
      {stack : List Activation} {next : Nat} {entry : Entry} (htype : entry.type = .clType) (hid : entry.id = id)
      (htid : entry.tid = tid) (haddress : entry.address = P.callee id) :
      Step P tid ⟨⟨number, function, call, some (e, ⟨.clType, id⟩ :: slots)⟩ :: stack, next⟩ (some ⟨entry, e, number⟩)
        ⟨⟨next, P.callee id, some id, none⟩ :: ⟨number, function, call, some (e, slots)⟩ :: stack, next + 1⟩
  | recordReturn {inner number : Nat} {function : UInt64} {call : Option UInt32} {e : BlockExec} {id : UInt32}
      {slots : List Slot} {stack : List Activation} {next : Nat} {entry : Entry} (htype : entry.type = .rtType)
      (hid : entry.id = id) (htid : entry.tid = tid) (haddress : entry.address = P.callee id) :
      Step P tid
        ⟨⟨inner, P.callee id, some id, none⟩ :: ⟨number, function, call, some (e, ⟨.rtType, id⟩ :: slots)⟩ :: stack, next⟩
        (some ⟨entry, e, number⟩) ⟨⟨number, function, call, some (e, slots)⟩ :: stack, next⟩
  /-- A call of a function that is not of the program, and its return, are records like the others. -/
  | record {number : Nat} {function : UInt64} {call : Option UInt32} {e : BlockExec} {slot : Slot} {slots : List Slot}
      {stack : List Activation} {next : Nat} {entry : Entry} (htype : entry.type = slot.type) (hblock : slot.type ≠ .bbType)
      (hend : slot.type ≠ .enType) (hid : entry.id = slot.id) (htid : entry.tid = tid)
      (hexternal : slot.type = .clType ∨ slot.type = .rtType →
        entry.address = P.callee slot.id ∧ ∀ block, P.blockFunction block ≠ entry.address) :
      Step P tid ⟨⟨number, function, call, some (e, slot :: slots)⟩ :: stack, next⟩ (some ⟨entry, e, number⟩)
        ⟨⟨number, function, call, some (e, slots)⟩ :: stack, next⟩

/-- A trace with the runs of its threads, in any interleaving. `closeCacheFile` adds block records for the executions that
had not ended, and the end record. -/
structure RecordedRun {ν : Type} (P : Program) (T : Recording ν) where
  events : List Event
  closing : List Entry
  stop : Entry
  closing_type : ∀ entry ∈ closing, entry.type = .bbType
  stop_type : stop.type = .enType
  trace_eq : T.trace = events.map Event.entry ++ (closing ++ [stop])
  thread : ∀ tid, ∃ final, Emits (Step P tid) .start (events.filter fun x => x.entry.tid = tid) final

/-! ### What a step does -/

variable {P : Program} {tid : UInt64} {s t : Thread} {label : Option Event} {x : Event} {e : BlockExec}

theorem Step.tid_eq (h : Step P tid s (some x) t) : x.entry.tid = tid := by
  cases h with
  | recordBB htype hid htid haddress => exact htid
  | recordCall htype hid htid haddress => exact htid
  | recordReturn htype hid htid haddress => exact htid
  | record htype hblock hend hid htid hexternal => exact htid

/-- The numbers of the activations and of the executions that have not ended. -/
def Activation.numbers (a : Activation) : List Nat := a.number :: (a.running.map fun r => r.1.number).toList

def Thread.numbers (s : Thread) : List Nat := s.stack.flatMap Activation.numbers

/-- A step ends activations and executions or begins one with the next number. -/
theorem Step.numbers_cases (h : Step P tid s label t) :
    (t.numbers.Sublist s.numbers ∧ t.next = s.next) ∨ (t.numbers.Perm (s.next :: s.numbers) ∧ t.next = s.next + 1) := by
  cases h with
  | begin function => exact .inr ⟨.refl _, rfl⟩
  | enter hindirect => exact .inr ⟨.refl _, rfl⟩
  | leave hindirect => exact .inl ⟨List.sublist_cons_self _ _, rfl⟩
  | exit => exact .inl ⟨List.nil_sublist _, rfl⟩
  | recordStartBB hrecords => exact .inr ⟨.swap _ _ _, rfl⟩
  | recordBB htype hid htid haddress => exact .inl ⟨(List.sublist_cons_self _ _).cons_cons _, rfl⟩
  | recordCall htype hid htid haddress => exact .inr ⟨.refl _, rfl⟩
  | recordReturn htype hid htid haddress => exact .inl ⟨List.sublist_cons_self _ _, rfl⟩
  | record htype hblock hend hid htid hexternal => exact .inl ⟨.refl _, rfl⟩

/-- The numbers in use differ, and a new one differs from all of them. -/
structure Thread.Distinct (s : Thread) : Prop where
  nodup : s.numbers.Nodup
  lt_next : ∀ n ∈ s.numbers, n < s.next

theorem Thread.distinct_start : Thread.start.Distinct := ⟨List.nodup_nil, fun _ hmem => nomatch hmem⟩

theorem Step.distinct (h : Step P tid s label t) (hs : s.Distinct) : t.Distinct := by
  rcases h.numbers_cases with ⟨hsub, hnext⟩ | ⟨hperm, hnext⟩
  · refine ⟨hs.nodup.sublist hsub, fun n hn => ?_⟩
    rw [hnext]
    exact hs.lt_next n (hsub.subset hn)
  · constructor
    · refine hperm.nodup_iff.mpr (List.nodup_cons.mpr ⟨fun hmem => Nat.lt_irrefl _ (hs.lt_next _ hmem), hs.nodup⟩)
    · intro n hn
      rw [hnext]
      rcases List.mem_cons.mp (hperm.mem_iff.mp hn) with rfl | hmem
      · exact Nat.lt_succ_self _
      · exact Nat.lt_succ_of_lt (hs.lt_next n hmem)

/-- What had the number is over. -/
structure Thread.Gone (n : Nat) (s : Thread) : Prop where
  not_mem : n ∉ s.numbers
  lt_next : n < s.next

theorem Step.gone {n : Nat} (h : Step P tid s label t) (hs : s.Gone n) : t.Gone n := by
  rcases h.numbers_cases with ⟨hsub, hnext⟩ | ⟨hperm, hnext⟩
  · exact ⟨fun hmem => hs.not_mem (hsub.subset hmem), hnext ▸ hs.lt_next⟩
  · refine ⟨fun hmem => ?_, hnext ▸ Nat.lt_succ_of_lt hs.lt_next⟩
    rcases List.mem_cons.mp (hperm.mem_iff.mp hmem) with rfl | hmem
    · exact Nat.lt_irrefl _ hs.lt_next
    · exact hs.not_mem hmem

/-! ### The stack below an activation -/

/-- What a step makes of an activation that stays on the stack. -/
inductive Activation.Goes (P : Program) (next : Nat) (label : Option Event) : Activation → Activation → Prop
  | waits (a : Activation) : Goes P next label a a
  | starts {number : Nat} {call : Option UInt32} {block : UInt32} {slots : List Slot} (hlabel : label = none)
      (hrecords : P.records block slots) :
      Goes P next label ⟨number, P.blockFunction block, call, none⟩
        ⟨number, P.blockFunction block, call, some (⟨next, block⟩, slots)⟩
  | records {number : Nat} {function : UInt64} {call : Option UInt32} {e : BlockExec} {slot : Slot} {slots : List Slot}
      {entry : Entry} (hlabel : label = some ⟨entry, e, number⟩) (hslot : (⟨entry.type, entry.id⟩ : Slot) = slot)
      (hblock : entry.type ≠ .bbType) :
      Goes P next label ⟨number, function, call, some (e, slot :: slots)⟩ ⟨number, function, call, some (e, slots)⟩
  | ends {number : Nat} {call : Option UInt32} {e : BlockExec} {entry : Entry} (hlabel : label = some ⟨entry, e, number⟩)
      (htype : entry.type = .bbType) (hid : entry.id = e.block) (haddress : entry.address = P.blockFunction e.block) :
      Goes P next label ⟨number, P.blockFunction e.block, call, some (e, [])⟩ ⟨number, P.blockFunction e.block, call, none⟩

variable {inner outer : List Activation} {a : Activation}

/-- An activation stays on the stack with what is below it, unless it runs no block and returns. -/
theorem Step.goes (h : Step P tid s label t) (hs : s.stack = inner ++ a :: outer) :
    (∃ inner' a', t.stack = inner' ++ a' :: outer ∧ a.Goes P s.next label a') ∨
      inner = [] ∧ a.running = none ∧ t.next = s.next ∧ t.numbers = outer.flatMap Activation.numbers := by
  cases h with
  | begin function => cases inner <;> cases hs
  | @enter top stack next function hindirect =>
      exact .inl ⟨⟨next, function, none, none⟩ :: inner, a, congrArg _ hs, .waits a⟩
  | leave hindirect =>
      cases inner with
      | nil =>
          cases hs
          exact .inr ⟨rfl, rfl, rfl, rfl⟩
      | cons first inner => exact .inl ⟨inner, a, (List.cons.inj hs).2, .waits a⟩
  | exit =>
      cases inner with
      | nil =>
          cases hs
          exact .inr ⟨rfl, rfl, rfl, rfl⟩
      | cons first inner => cases inner <;> cases (List.cons.inj hs).2
  | recordStartBB hrecords =>
      cases inner with
      | nil =>
          cases hs
          exact .inl ⟨[], _, rfl, .starts rfl hrecords⟩
      | cons first inner => exact .inl ⟨_ :: inner, a, congrArg _ (List.cons.inj hs).2, .waits a⟩
  | recordBB htype hid htid haddress =>
      cases inner with
      | nil =>
          cases hs
          exact .inl ⟨[], _, rfl, .ends rfl htype hid haddress⟩
      | cons first inner => exact .inl ⟨_ :: inner, a, congrArg _ (List.cons.inj hs).2, .waits a⟩
  | recordCall htype hid htid haddress =>
      cases inner with
      | nil =>
          cases hs
          exact .inl ⟨[_], _, rfl, .records rfl (by rw [htype, hid]) (by rw [htype]; decide)⟩
      | cons first inner => exact .inl ⟨_ :: _ :: inner, a, congrArg (_ :: _ :: ·) (List.cons.inj hs).2, .waits a⟩
  | recordReturn htype hid htid haddress =>
      cases inner with
      | nil =>
          cases hs
          exact .inr ⟨rfl, rfl, rfl, rfl⟩
      | cons first inner =>
          have hs := (List.cons.inj hs).2
          cases inner with
          | nil =>
              cases hs
              exact .inl ⟨[], _, rfl, .records rfl (by rw [htype, hid]) (by rw [htype]; decide)⟩
          | cons second inner => exact .inl ⟨_ :: inner, a, congrArg _ (List.cons.inj hs).2, .waits a⟩
  | record htype hblock hend hid htid hexternal =>
      cases inner with
      | nil =>
          cases hs
          exact .inl ⟨[], _, rfl, .records rfl (by rw [htype, hid]) (by rw [htype]; exact hblock)⟩
      | cons first inner => exact .inl ⟨_ :: inner, a, congrArg _ (List.cons.inj hs).2, .waits a⟩

/-! ### The execution that a record belongs to -/

/-- The activation runs the execution `e`, which has the records of `slots` before it. -/
def Activation.Runs (a : Activation) (e : BlockExec) (slots : List Slot) : Prop := a.running = some (e, slots)

/-- Of a record that is no block record: its execution, which no other one has been started in since. -/
theorem Step.of_record (h : Step P tid s (some x) t) (hx : x.entry.type ≠ .bbType) :
    ∃ inner inner' outer : List Activation, ∃ a a' : Activation, ∃ slots, s.stack = inner ++ a :: outer ∧
      t.stack = inner' ++ a' :: outer ∧ (∀ b ∈ inner, b.running = none) ∧ (∀ b ∈ inner', b.running = none) ∧
        a.Runs x.exec (x.slot :: slots) ∧ a'.Runs x.exec slots ∧ a.number = x.activation ∧ a'.number = x.activation := by
  cases h with
  | recordBB htype hid htid haddress => exact (hx htype).elim
  | recordCall htype hid htid haddress =>
      refine ⟨[], [_], _, _, _, _, rfl, rfl, fun _ hmem => (nomatch hmem), List.forall_mem_singleton.mpr rfl, ?_, rfl, rfl, rfl⟩
      rw [Activation.Runs, Event.slot, htype, hid]
  | recordReturn htype hid htid haddress =>
      refine ⟨[_], [], _, _, _, _, rfl, rfl, List.forall_mem_singleton.mpr rfl, fun _ hmem => (nomatch hmem), ?_, rfl, rfl, rfl⟩
      rw [Activation.Runs, Event.slot, htype, hid]
  | record htype hblock hend hid htid hexternal =>
      refine ⟨[], [], _, _, _, _, rfl, rfl, fun _ hmem => (nomatch hmem), fun _ hmem => (nomatch hmem), ?_, rfl, rfl, rfl⟩
      rw [Activation.Runs, Event.slot, htype, hid]

theorem Step.of_block (h : Step P tid s (some x) t) (hx : x.entry.type = .bbType) :
    ∃ outer : List Activation, ∃ a : Activation, s.stack = a :: outer ∧ t.stack = { a with running := none } :: outer ∧
      a.Runs x.exec [] ∧ a.number = x.activation ∧ a.function = P.blockFunction x.exec.block ∧
        x.entry.id = x.exec.block ∧ x.entry.address = P.blockFunction x.exec.block ∧ t.next = s.next := by
  cases h with
  | recordBB htype hid htid haddress => exact ⟨_, _, rfl, rfl, rfl, rfl, rfl, hid, haddress, rfl⟩
  | recordCall htype hid htid haddress => cases htype.symm.trans hx
  | recordReturn htype hid htid haddress => cases htype.symm.trans hx
  | record htype hblock hend hid htid hexternal => exact (hblock (htype.symm.trans hx)).elim

theorem Activation.Runs.mem_numbers {slots : List Slot} (h : a.Runs e slots) (hs : s.stack = inner ++ a :: outer) :
    e.number ∈ s.numbers := by
  refine List.mem_flatMap.mpr ⟨a, ?_, ?_⟩
  · rw [hs]
    exact List.mem_append_cons_self
  · rw [Activation.numbers, h]
    exact List.mem_cons_of_mem _ List.mem_cons_self

theorem Step.exec_mem (h : Step P tid s (some x) t) : x.exec.number ∈ s.numbers := by
  by_cases hx : x.entry.type = .bbType
  · obtain ⟨outer, a, hs, -, hruns, -⟩ := h.of_block hx
    exact hruns.mem_numbers (hs.trans (List.nil_append _).symm)
  · obtain ⟨inner, -, outer, a, -, slots, hs, -, -, -, hruns, -⟩ := h.of_record hx
    exact hruns.mem_numbers hs

/-- A block record ends its execution. -/
theorem Step.gone_of_block (h : Step P tid s (some x) t) (hs : s.Distinct) (hx : x.entry.type = .bbType) :
    t.Gone x.exec.number := by
  obtain ⟨outer, a, hstack, hstack', hruns, -, -, -, -, hnext⟩ := h.of_block hx
  have hnodup := hs.nodup
  rw [Thread.numbers, hstack, List.flatMap_cons, Activation.numbers, hruns] at hnodup
  constructor
  · rw [Thread.numbers, hstack', List.flatMap_cons]
    intro hmem
    rcases List.mem_cons.mp hmem with heq | hmem
    · exact (List.nodup_cons.mp hnodup).1 (heq ▸ List.mem_cons_self)
    · exact (List.nodup_cons.mp (List.nodup_cons.mp hnodup).2).1 hmem
  · rw [hnext]
    exact hs.lt_next _ h.exec_mem

/-- The records that are still to come are the end of what the block can record. -/
def Thread.Planned (P : Program) (s : Thread) : Prop :=
  ∀ a ∈ s.stack, ∀ e slots, a.Runs e slots → ∃ made, P.records e.block (made ++ slots)

theorem Thread.planned_start : Thread.start.Planned P := fun _ hmem => nomatch hmem

theorem Step.planned (h : Step P tid s label t) (hs : s.Planned P) : t.Planned P := by
  have hnone : ∀ {b : Activation}, b.running = none → ∀ e slots, b.Runs e slots →
    ∃ made, P.records e.block (made ++ slots) := by
    intro b hb e slots hruns
    cases hb.symm.trans hruns
  have hrest : ∀ {first : Activation} {stack : List Activation}, s.stack = first :: stack → ∀ b ∈ stack, ∀ e slots,
      b.Runs e slots → ∃ made, P.records e.block (made ++ slots) :=
    fun hstack b hb => hs b (hstack ▸ List.mem_cons_of_mem _ hb)
  have hmade : ∀ {e : BlockExec} {slot : Slot} {slots : List Slot}, (∃ made, P.records e.block (made ++ slot :: slots)) →
      ∃ made, P.records e.block (made ++ slots) := by
    rintro e slot slots ⟨made, h⟩
    exact ⟨made ++ [slot], by rwa [List.append_assoc]⟩
  cases h with
  | begin function => exact List.forall_mem_singleton.mpr (hnone rfl)
  | enter hindirect => exact List.forall_mem_cons.mpr ⟨hnone rfl, hs⟩
  | leave hindirect => exact hrest rfl
  | exit => exact fun _ hmem => nomatch hmem
  | recordStartBB hrecords =>
      refine List.forall_mem_cons.mpr ⟨?_, hrest rfl⟩
      intro e slots hruns
      cases hruns
      exact ⟨[], hrecords⟩
  | recordBB htype hid htid haddress => exact List.forall_mem_cons.mpr ⟨hnone rfl, hrest rfl⟩
  | recordCall htype hid htid haddress =>
      refine List.forall_mem_cons.mpr ⟨hnone rfl, List.forall_mem_cons.mpr ⟨?_, hrest rfl⟩⟩
      intro e slots hruns
      cases hruns
      exact hmade (hs _ List.mem_cons_self _ _ rfl)
  | recordReturn htype hid htid haddress =>
      refine List.forall_mem_cons.mpr ⟨?_, fun b hb => hrest rfl b (List.mem_cons_of_mem _ hb)⟩
      intro e slots hruns
      cases hruns
      exact hmade (hs _ (List.mem_cons_of_mem _ List.mem_cons_self) _ _ rfl)
  | record htype hblock hend hid htid hexternal =>
      refine List.forall_mem_cons.mpr ⟨?_, hrest rfl⟩
      intro e slots hruns
      cases hruns
      exact hmade (hs _ List.mem_cons_self _ _ rfl)

theorem Step.slot_mem (h : Step P tid s (some x) t) (hs : s.Planned P) (hx : x.entry.type ≠ .bbType) :
    ∃ slots, P.records x.exec.block slots ∧ x.slot ∈ slots := by
  obtain ⟨inner, -, outer, a, -, slots, hstack, -, -, -, hruns, -⟩ := h.of_record hx
  obtain ⟨made, hmade⟩ := hs a (hstack ▸ List.mem_append_cons_self) _ _ hruns
  exact ⟨_, hmade, List.mem_append_cons_self⟩

theorem Step.call_address (h : Step P tid s (some x) t) (hx : x.entry.type = .clType ∨ x.entry.type = .rtType) :
    x.entry.address = P.callee x.entry.id := by
  cases h with
  | recordBB htype hid htid haddress => rcases hx with h | h <;> cases htype.symm.trans h
  | recordCall htype hid htid haddress => exact haddress.trans (congrArg _ hid.symm)
  | recordReturn htype hid htid haddress => exact haddress.trans (congrArg _ hid.symm)
  | record htype hblock hend hid htid hexternal =>
      rw [htype] at hx
      exact (hexternal hx).1.trans (congrArg _ hid.symm)

theorem Step.type_ne_end (h : Step P tid s (some x) t) : x.entry.type ≠ .enType := by
  intro hx
  cases h with
  | recordBB htype hid htid haddress => cases htype.symm.trans hx
  | recordCall htype hid htid haddress => cases htype.symm.trans hx
  | recordReturn htype hid htid haddress => cases htype.symm.trans hx
  | record htype hblock hend hid htid hexternal => exact hend (htype.symm.trans hx)

/-! ### From a record of an execution to its block record -/

/-- The steps of one thread, and the records of the others between them. -/
abbrev Watched (P : Program) (tid : UInt64) : Thread → Option Event → Thread → Prop :=
  Among (fun x => x.entry.tid = tid) (Step P tid)

theorem Watched.step (h : Watched P tid s (some x) t) (hx : x.entry.tid = tid) : Step P tid s (some x) t := by
  rcases h with h | ⟨y, heq, hy, -⟩
  · exact h
  · cases heq
    exact (of_decide_eq_false hy hx).elim

theorem Watched.eq_of_foreign (h : Watched P tid s (some x) t) (hx : x.entry.tid ≠ tid) : t = s := by
  rcases h with h | ⟨y, -, -, heq⟩
  · exact (hx h.tid_eq).elim
  · exact heq

/-- The execution `e` has not ended. Below its function the stack is `outer`, and `Q` holds of its remaining records. -/
structure Thread.Inside (P : Program) (Q : List Slot → Prop) (e : BlockExec) (outer : List Activation) (s : Thread) : Prop where
  distinct : s.Distinct
  planned : s.Planned P
  executing : ∃ inner a slots, s.stack = inner ++ a :: outer ∧ a.Runs e slots ∧ Q slots

variable {Q : List Slot → Prop}

theorem Step.inside (htail : ∀ slot slots, Q (slot :: slots) → Q slots) (h : Step P tid s label t) (hs : s.Inside P Q e outer) :
    t.Inside P Q e outer ∨ t.Gone e.number := by
  obtain ⟨inner, a, slots, hstack, hruns, hQ⟩ := hs.executing
  rcases h.goes hstack with ⟨inner', a', hstack', hgoes⟩ | ⟨-, hnone, -⟩
  · cases hgoes with
    | waits a => exact .inl ⟨h.distinct hs.distinct, h.planned hs.planned, inner', a, slots, hstack', hruns, hQ⟩
    | starts hlabel hrecords => cases hruns
    | records hlabel hslot hblock =>
        cases hruns
        exact .inl ⟨h.distinct hs.distinct, h.planned hs.planned, inner', _, _, hstack', rfl, htail _ _ hQ⟩
    | ends hlabel htype hid haddress =>
        cases hruns
        subst hlabel
        exact .inr (h.gone_of_block hs.distinct htype)
  · cases hnone.symm.trans hruns

theorem Watched.inside (htail : ∀ slot slots, Q (slot :: slots) → Q slots) (h : Watched P tid s label t)
    (hs : s.Inside P Q e outer) : t.Inside P Q e outer ∨ t.Gone e.number := by
  rcases h with h | ⟨y, -, -, rfl⟩
  · exact h.inside htail hs
  · exact .inl hs

theorem Watched.gone {n : Nat} (h : Watched P tid s label t) (hs : s.Gone n) : t.Gone n := by
  rcases h with h | ⟨y, -, -, rfl⟩
  · exact h.gone hs
  · exact hs

variable {ν : Type} {T : Recording ν} {events before mid after : List Event} {y : Event} {i j : Nat}

theorem RecordedRun.watched (R : RecordedRun P T) (tid : UInt64) : ∃ final, Emits (Watched P tid) .start R.events final :=
  (R.thread tid).imp fun _ h => h.among

theorem reached (h : Emits (Watched P tid) s events t) (hs : s.Distinct ∧ s.Planned P) : t.Distinct ∧ t.Planned P := by
  refine (h.invariant (I := fun a => a.Distinct ∧ a.Planned P) (Q := fun _ => True) (fun a label b ha hstep => ?_)
    (fun _ _ _ _ _ => trivial) hs).1
  rcases hstep with hstep | ⟨y, -, -, rfl⟩
  · exact ⟨hstep.distinct ha.1, hstep.planned ha.2⟩
  · exact ha

theorem gone_of_run {n : Nat} (h : Emits (Watched P tid) s events t) (hs : s.Gone n) : t.Gone n :=
  (h.invariant (Q := fun _ => True) (fun _ _ _ ha hstep => Watched.gone hstep ha) (fun _ _ _ _ _ => trivial) hs).1

/-- What the step of each record shows of it. -/
theorem RecordedRun.forall_events (R : RecordedRun P T) {C : Event → Prop}
    (hstep : ∀ s x t, s.Planned P → Step P x.entry.tid s (some x) t → C x) : ∀ x ∈ R.events, C x := by
  intro x hmem
  obtain ⟨before, after, hevents⟩ := List.append_of_mem hmem
  obtain ⟨final, hrun⟩ := R.watched x.entry.tid
  rw [hevents] at hrun
  obtain ⟨s, t, hbefore, hrecord, -⟩ := hrun.split
  exact hstep s x t (reached hbefore ⟨Thread.distinct_start, Thread.planned_start⟩).2 (Watched.step hrecord rfl)

theorem RecordedRun.block_fields (R : RecordedRun P T) (hmem : x ∈ R.events) (hx : x.entry.type = .bbType) :
    x.entry.id = x.exec.block ∧ x.entry.address = P.blockFunction x.exec.block := by
  refine R.forall_events (C := fun x => x.entry.type = .bbType →
    x.entry.id = x.exec.block ∧ x.entry.address = P.blockFunction x.exec.block) (fun s x t _ hstep hx => ?_) x hmem hx
  obtain ⟨-, -, -, -, -, -, -, hid, haddress, -⟩ := hstep.of_block hx
  exact ⟨hid, haddress⟩

/-- After its block record an execution has no further record. -/
theorem RecordedRun.not_of_block (R : RecordedRun P T) (hevents : R.events = before ++ y :: (mid ++ x :: after))
    (hy : y.entry.type = .bbType) (htid : y.entry.tid = x.entry.tid) : y.exec ≠ x.exec := by
  intro hexec
  obtain ⟨final, hrun⟩ := R.watched x.entry.tid
  rw [hevents] at hrun
  obtain ⟨a, b, hbefore, hblock, hrun⟩ := hrun.split
  obtain ⟨c, d, hmid, hrecord, -⟩ := hrun.split
  have hgone := (Watched.step hblock htid).gone_of_block (reached hbefore ⟨Thread.distinct_start, Thread.planned_start⟩).1 hy
  exact (gone_of_run hmid hgone).not_mem (hexec ▸ (Watched.step hrecord rfl).exec_mem)

/-- The events from one to another one. -/
theorem exists_append_of_lt (hi : events[i]? = some x) (hj : events[j]? = some y) (hlt : i < j) :
    ∃ before mid after, events = before ++ x :: (mid ++ y :: after) ∧ before.length = i ∧ i + 1 + mid.length = j := by
  obtain ⟨hilt, rfl⟩ := List.getElem?_eq_some_iff.mp hi
  obtain ⟨k, rfl⟩ := Nat.exists_eq_add_of_le (Nat.succ_le_of_lt hlt)
  rw [← List.getElem?_drop] at hj
  obtain ⟨hk, rfl⟩ := List.getElem?_eq_some_iff.mp hj
  refine ⟨events.take i, (events.drop (i + 1)).take k, (events.drop (i + 1)).drop (k + 1), ?_, ?_, ?_⟩
  · rw [List.getElem_cons_drop, List.take_append_drop, List.getElem_cons_drop, List.take_append_drop]
  · exact List.length_take_of_le (Nat.le_of_lt hilt)
  · rw [List.length_take_of_le (Nat.le_of_lt hk)]

/-- The block record of an execution comes after its other records. -/
theorem RecordedRun.lt_block (R : RecordedRun P T) (hi : R.events[i]? = some x) (hj : R.events[j]? = some y)
    (htid : y.entry.tid = x.entry.tid) (hexec : y.exec = x.exec) (hx : x.entry.type ≠ .bbType) (hy : y.entry.type = .bbType) :
    i < j := by
  refine Nat.lt_of_not_le fun hle => ?_
  rcases Nat.lt_or_eq_of_le hle with hlt | rfl
  · obtain ⟨before, mid, after, hevents, -, -⟩ := exists_append_of_lt hj hi hlt
    exact R.not_of_block hevents hy htid hexec
  · rw [Option.some.inj (hj.symm.trans hi)] at hy
    exact hx hy

/-- An execution has one block record. -/
theorem RecordedRun.block_unique (R : RecordedRun P T) (hi : R.events[i]? = some x) (hj : R.events[j]? = some y)
    (htid : y.entry.tid = x.entry.tid) (hexec : y.exec = x.exec) (hx : x.entry.type = .bbType) (hy : y.entry.type = .bbType) :
    i = j := by
  rcases Nat.lt_trichotomy i j with hlt | heq | hlt
  · obtain ⟨before, mid, after, hevents, -, -⟩ := exists_append_of_lt hi hj hlt
    exact (R.not_of_block hevents hx htid.symm hexec.symm).elim
  · exact heq
  · obtain ⟨before, mid, after, hevents, -, -⟩ := exists_append_of_lt hj hi hlt
    exact (R.not_of_block hevents hy htid hexec).elim

/-- What holds of the events between two indices. -/
theorem forall_between {C : Event → Prop} (h : ∀ z ∈ (events.take j).drop (i + 1), C z) :
    ∀ k z, i < k → k < j → events[k]? = some z → C z := by
  intro k z hi hj hz
  refine h z (List.mem_of_getElem? (i := k - (i + 1)) ?_)
  rw [List.getElem?_drop, Nat.add_sub_cancel' hi, List.getElem?_take_of_lt hj, hz]

/-- The run from after the record `x` of an execution to its block record `y`. -/
structure Span (P : Program) (Q : List Slot → Prop) (x : Event) (outer : List Activation) (s : Thread) (mid : List Event)
    (t : Thread) : Prop where
  run : Emits (fun a label b => Watched P x.entry.tid a label b ∧ a.Inside P Q x.exec outer ∧ b.Inside P Q x.exec outer) s mid t
  first : ∃ inner a slots, s.stack = inner ++ a :: outer ∧ a.Runs x.exec slots ∧ Q slots ∧ ∀ b ∈ inner, b.running = none
  last : ∃ a, t.stack = a :: outer ∧ a.Runs x.exec []

/-- A record and the block record of its execution, with what is between them. -/
theorem RecordedRun.exists_span (R : RecordedRun P T) (hi : R.events[i]? = some x) (hj : R.events[j]? = some y)
    (htid : y.entry.tid = x.entry.tid) (hexec : y.exec = x.exec) (hx : x.entry.type ≠ .bbType) (hy : y.entry.type = .bbType)
    (hQ : ∀ made slots, P.records x.exec.block (made ++ x.slot :: slots) → Q slots)
    (htail : ∀ slot slots, Q (slot :: slots) → Q slots) :
    ∃ before mid after outer s t, R.events = before ++ x :: (mid ++ y :: after) ∧ before.length = i ∧ i + 1 + mid.length = j ∧
      Span P Q x outer s mid t := by
  have hlt := R.lt_block hi hj htid hexec hx hy
  obtain ⟨before, mid, after, hevents, hbefore, hmid⟩ := exists_append_of_lt hi hj hlt
  obtain ⟨final, hrun⟩ := R.watched x.entry.tid
  rw [hevents] at hrun
  obtain ⟨r, s, hfront, hrecord, hrun⟩ := hrun.split
  obtain ⟨t, u, hspan, hblock, -⟩ := hrun.split
  have hstep := Watched.step hrecord rfl
  obtain ⟨hdistinct, hplanned⟩ := reached hfront ⟨Thread.distinct_start, Thread.planned_start⟩
  obtain ⟨inner, inner', outer, a, a', slots, hr, hs, -, hinner, hruns, hruns', -, -⟩ := hstep.of_record hx
  have hslots : Q slots := by
    obtain ⟨made, hmade⟩ := hplanned a (hr ▸ List.mem_append_cons_self) _ _ hruns
    exact hQ made slots hmade
  have hinside : s.Inside P Q x.exec outer :=
    ⟨hstep.distinct hdistinct, hstep.planned hplanned, inner', a', slots, hs, hruns', hslots⟩
  have hrunning : ¬t.Gone x.exec.number := fun hgone => hgone.not_mem (hexec ▸ (Watched.step hblock htid).exec_mem)
  have hrun := hspan.restrict (fun _ _ _ ha hnext => Watched.inside htail hnext ha)
    (fun _ _ _ ha hnext => Watched.gone hnext ha)
    hinside hrunning
  refine ⟨before, mid, after, outer, s, t, hevents, hbefore, hmid, hrun, ⟨inner', a', slots, hs, hruns', hslots, hinner⟩, ?_⟩
  obtain ⟨outer', b, ht, -, hruns, -⟩ := (Watched.step hblock htid).of_block hy
  have hlast := hrun.last_of_restrict hinside
  obtain ⟨inner, c, slots', ht', hruns', -⟩ := hlast.executing
  cases inner with
  | nil =>
      obtain ⟨rfl, rfl⟩ := List.cons.inj (ht.symm.trans ht')
      exact ⟨b, ht, hexec ▸ hruns⟩
  | cons first inner =>
      -- The activation on top runs the execution, and no other one does.
      exfalso
      obtain ⟨rfl, -⟩ := List.cons.inj (ht.symm.trans ht')
      have hnodup := hlast.distinct.nodup
      rw [Thread.numbers, ht', List.cons_append, List.flatMap_cons, Activation.numbers, hruns, List.cons_append] at hnodup
      refine (List.nodup_cons.mp (List.nodup_cons.mp hnodup).2).1 ?_
      change y.exec.number ∈ (⟨inner ++ c :: outer, 0⟩ : Thread).numbers
      rw [hexec]
      exact hruns'.mem_numbers rfl

/-! ### A function that calls itself -/

def recursiveSlots (block : UInt32) : List Slot :=
  if block = 2 then [⟨.stType, 3⟩, ⟨.ldType, 1⟩, ⟨.clType, 2⟩, ⟨.rtType, 2⟩] else []

/-- Block 1 is the entry. It goes on to block 2, with a store, a load and a call of the function, or to block 3. -/
def recursiveProgram : Program where
  records := fun block slots => slots = recursiveSlots block
  blockFunction := fun _ => 0x400600
  callee := fun _ => 0x400600
  indirect := fun _ => False

def recursiveRecord (type : RecordType) (id : UInt32) (address : UInt64) (number activation : Nat) (block : UInt32) : Event :=
  ⟨⟨type, id, 7, address, 8⟩, ⟨number, block⟩, activation⟩

def recursiveBlock (number activation : Nat) (block : UInt32) : Event :=
  recursiveRecord .bbType block 0x400600 number activation block

/-- The function calls itself twice. The second store overwrites the upper half of what the first one wrote. -/
def recursiveEvents : List Event :=
  [recursiveBlock 1 0 1, recursiveRecord .stType 3 0x601000 2 0 2, recursiveRecord .ldType 1 0x601000 2 0 2,
    recursiveRecord .clType 2 0x400600 2 0 2, recursiveBlock 4 3 1, recursiveRecord .stType 3 0x601004 5 3 2,
    recursiveRecord .ldType 1 0x601000 5 3 2, recursiveRecord .clType 2 0x400600 5 3 2, recursiveBlock 7 6 1,
    recursiveBlock 8 6 3, recursiveRecord .rtType 2 0x400600 5 3 2, recursiveBlock 5 3 2, recursiveBlock 9 3 3,
    recursiveRecord .rtType 2 0x400600 2 0 2, recursiveBlock 2 0 2, recursiveBlock 10 0 3]

def recursiveRecording : Recording UInt32 where
  trace := recursiveEvents.map Event.entry ++ [⟨.enType, 0, 0, 0, 0⟩]
  getInstByID := fun instID => instID
  getID := fun _ => 2
  trace_ne_nil := List.cons_ne_nil _ _
  length_lt := by decide

theorem Step.recursiveStart {number next : Nat} {call : Option UInt32} {stack : List Activation} (block : UInt32) :
    Step recursiveProgram 7 ⟨⟨number, 0x400600, call, none⟩ :: stack, next⟩ none
      ⟨⟨number, 0x400600, call, some (⟨next, block⟩, recursiveSlots block)⟩ :: stack, next + 1⟩ :=
  @Step.recordStartBB recursiveProgram 7 number call stack next block _ rfl

theorem Slot.not_call_of_access {slot : Slot} {C : Prop} (h : slot.type = .stType ∨ slot.type = .ldType) :
    slot.type = .clType ∨ slot.type = .rtType → C := by
  intro hcall
  rcases h with h | h <;> rw [h] at hcall <;> rcases hcall with h | h <;> cases h

/-- The records before the outer call. -/
theorem recursiveFirst : Emits (Step recursiveProgram 7) .start (recursiveEvents.take 3)
    ⟨[⟨0, 0x400600, none, some (⟨2, 2⟩, [⟨.clType, 2⟩, ⟨.rtType, 2⟩])⟩], 3⟩ :=
  .silent (.begin 0x400600) <| .silent (.recursiveStart 1) <| .emit (.recordBB rfl rfl rfl rfl) <|
  .silent (.recursiveStart 2) <|
  .emit (.record rfl (by decide) (by decide) rfl rfl (Slot.not_call_of_access (.inl rfl))) <|
  .emit (.record rfl (by decide) (by decide) rfl rfl (Slot.not_call_of_access (.inr rfl))) <| .refl _

/-- The records after it. -/
theorem recursiveRest : Emits (Step recursiveProgram 7)
    ⟨[⟨3, 0x400600, some 2, none⟩, ⟨0, 0x400600, none, some (⟨2, 2⟩, [⟨.rtType, 2⟩])⟩], 4⟩ (recursiveEvents.drop 4) ⟨[], 11⟩ :=
  .silent (.recursiveStart 1) <| .emit (.recordBB rfl rfl rfl rfl) <| .silent (.recursiveStart 2) <|
  .emit (.record rfl (by decide) (by decide) rfl rfl (Slot.not_call_of_access (.inl rfl))) <|
  .emit (.record rfl (by decide) (by decide) rfl rfl (Slot.not_call_of_access (.inr rfl))) <|
  .emit (.recordCall rfl rfl rfl rfl) <| .silent (.recursiveStart 1) <| .emit (.recordBB rfl rfl rfl rfl) <|
  .silent (.recursiveStart 3) <| .emit (.recordBB rfl rfl rfl rfl) <| .emit (.recordReturn rfl rfl rfl rfl) <|
  .emit (.recordBB rfl rfl rfl rfl) <| .silent (.recursiveStart 3) <| .emit (.recordBB rfl rfl rfl rfl) <|
  .emit (.recordReturn rfl rfl rfl rfl) <| .emit (.recordBB rfl rfl rfl rfl) <| .silent (.recursiveStart 3) <|
  .emit (.recordBB rfl rfl rfl rfl) <| .silent .exit <| .refl _

theorem recursiveRun : Emits (Step recursiveProgram 7) .start recursiveEvents ⟨[], 11⟩ :=
  recursiveFirst.append (.emit (.recordCall rfl rfl rfl rfl) recursiveRest)

def recursive : RecordedRun recursiveProgram recursiveRecording where
  events := recursiveEvents
  closing := []
  stop := ⟨.enType, 0, 0, 0, 0⟩
  closing_type := fun _ hmem => nomatch hmem
  stop_type := rfl
  trace_eq := rfl
  thread tid := by
    by_cases htid : tid = 7
    · subst htid
      exact ⟨_, recursiveRun⟩
    · have hown : ∀ x ∈ recursiveEvents, x.entry.tid = 7 := by decide
      have hnone : recursiveEvents.filter (fun x => x.entry.tid = tid) = [] :=
        List.filter_eq_nil_iff.mpr fun x hx htrue => htid ((of_decide_eq_true htrue).symm.trans (hown x hx))
      rw [hnone]
      exact ⟨_, .refl _⟩

end Witcher.Instrumentation
