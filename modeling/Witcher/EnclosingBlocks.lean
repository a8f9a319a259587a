import Witcher.Runs
import Witcher.TraceScan

/-! The recording of one thread (`Tracing.cpp`) and what `getDynValueFromIndex` finds in it. Every record is kept with
the execution of a block it belongs to and its call depth, which the trace itself does not have. -/

namespace Witcher.TraceScan

variable {ν : Type}

open Runs

/-- The execution of a block; every execution has its own number. -/
structure BlockExec where
  number : Nat
  block : UInt32
  deriving DecidableEq, Repr

/-- `current` runs. Each of `callers` waits for the function at its address, the innermost one first. -/
structure ThreadState where
  current : Option BlockExec
  callers : List (UInt64 × BlockExec)
  next : Nat

def ThreadState.start : ThreadState := ⟨none, [], 0⟩

/-- The executions that have not ended, the innermost one first. -/
def ThreadState.active (s : ThreadState) : List BlockExec := s.current.toList ++ s.callers.map Prod.snd

/-- A record, the execution it belongs to and the number of the calls that have not returned. A call and its return
are records of the caller. -/
structure Event where
  entry : Entry
  exec : BlockExec
  depth : Nat
  deriving DecidableEq, Repr

/-- The block record of the execution `e`. -/
def Event.Closes (x : Event) (e : BlockExec) : Prop := x.entry.type = .bbType ∧ x.exec = e

instance (x : Event) (e : BlockExec) : Decidable (x.Closes e) := inferInstanceAs (Decidable (_ ∧ _))

/-- What the thread does, with its record. `recordStartBB` has none. Where `abandons` is false, a function ends and goes
on to its next block only with a block record for the last one. -/
inductive Step (T : Recording ν) (abandons : Bool) : ThreadState → Option Event → ThreadState → Prop
  | recordStartBB {current : Option BlockExec} {callers : List (UInt64 × BlockExec)} {next : Nat} (block : UInt32)
      (hended : abandons = true ∨ current = none) :
      Step T abandons ⟨current, callers, next⟩ none ⟨some ⟨next, block⟩, callers, next + 1⟩
  | recordBB {e : BlockExec} {callers : List (UInt64 × BlockExec)} {next : Nat} {entry : Entry} (htype : entry.type = .bbType)
      (hid : entry.id = e.block) :
      Step T abandons ⟨some e, callers, next⟩ (some ⟨entry, e, callers.length⟩) ⟨none, callers, next⟩
  | recordCall {e : BlockExec} {callers : List (UInt64 × BlockExec)} {next : Nat} {entry : Entry}
    (htype : entry.type = .clType) :
      Step T abandons ⟨some e, callers, next⟩ (some ⟨entry, e, callers.length⟩) ⟨none, (entry.address, e) :: callers, next⟩
  | recordReturn {current : Option BlockExec} {address : UInt64} {e : BlockExec}
      {callers : List (UInt64 × BlockExec)} {next : Nat} {entry : Entry} (htype : entry.type = .rtType)
      (haddress : entry.address = address) (hended : abandons = true ∨ current = none) :
      Step T abandons ⟨current, (address, e) :: callers, next⟩ (some ⟨entry, e, callers.length⟩) ⟨some e, callers, next⟩
  | record {e : BlockExec} {callers : List (UInt64 × BlockExec)} {next : Nat} {entry : Entry} (hblock : entry.type ≠ .bbType)
      (hcall : entry.type ≠ .clType) (hreturn : entry.type ≠ .rtType)
      (haccess : entry.IsAccess → T.getID (T.getInstByID entry.id) = e.block) :
      Step T abandons ⟨some e, callers, next⟩ (some ⟨entry, e, callers.length⟩) ⟨some e, callers, next⟩

/-- A trace with the run that recorded it. At the end `closeCacheFile` writes block records for executions that are
still active, the innermost one first, but no returns. -/
structure TracedThread (T : Recording ν) (abandons : Bool) where
  events : List Event
  final : ThreadState
  run : Emits (Step T abandons) .start events final
  closing : List Event
  closing_active : (closing.map Event.exec).Sublist final.active
  closing_record : ∀ x ∈ closing, x.entry.type = .bbType ∧ x.entry.id = x.exec.block ∧ x.depth = final.callers.length
  stop : Entry
  stop_type : stop.type = .enType
  trace_eq : T.trace = (events ++ closing).map Event.entry ++ [stop]

def TracedThread.all {T : Recording ν} {abandons : Bool} (R : TracedThread T abandons) : List Event := R.events ++ R.closing

/-- The lookup returns the block record of the execution a load or store belongs to. It returns nothing where there is
none and no later block record of the same call depth is one of the block. -/
structure EnclosingLookup (T : Recording ν) (events : List Event) : Prop where
  closed : ∀ i j x y, events[i]? = some x → x.entry.IsAccess → events[j]? = some y → y.Closes x.exec →
    T.getDynValueFromIndex (T.getInstByID x.entry.id) i = some ⟨T.getInstByID x.entry.id, j⟩
  unclosed : ∀ i x, events[i]? = some x → x.entry.IsAccess → (∀ y ∈ events, ¬y.Closes x.exec) →
    (∀ j y, i < j → events[j]? = some y → y.entry.type = .bbType → y.exec.block = x.exec.block → y.depth ≠ x.depth) →
    T.getDynValueFromIndex (T.getInstByID x.entry.id) i = none

/-- The lookup returns the block record of the execution if it has the call depth of the load or store. It returns
nothing where there is none and every later block record of the block is from a deeper call. -/
structure DepthLookup (T : Recording ν) (events : List Event) : Prop where
  closed : ∀ i j x y, events[i]? = some x → x.entry.IsAccess → events[j]? = some y → y.Closes x.exec → y.depth = x.depth →
    T.getDynValueFromIndex (T.getInstByID x.entry.id) i = some ⟨T.getInstByID x.entry.id, j⟩
  unclosed : ∀ i x, events[i]? = some x → x.entry.IsAccess → (∀ y ∈ events, ¬y.Closes x.exec) →
    (∀ j y, i < j → events[j]? = some y → y.entry.type = .bbType → y.exec.block = x.exec.block → x.depth < y.depth) →
    T.getDynValueFromIndex (T.getInstByID x.entry.id) i = none

/-! ### Executions end once -/

variable {T : Recording ν} {abandons : Bool} {s s' : ThreadState} {label : Option Event} {x : Event} {e : BlockExec}
  {events : List Event}

/-- A step ends executions or begins one with the next number. -/
theorem Step.active_cases (h : Step T abandons s label s') :
    (s'.active.Sublist s.active ∧ s'.next = s.next) ∨
      ∃ block, ∃ rest : List BlockExec, rest.Sublist s.active ∧ s'.active = ⟨s.next, block⟩ :: rest ∧ s'.next = s.next + 1 := by
  cases h with
  | recordStartBB block hended => exact .inr ⟨block, _, List.sublist_append_right _ _, rfl, rfl⟩
  | recordBB htype hid => exact .inl ⟨List.sublist_cons_self _ _, rfl⟩
  | recordCall htype => exact .inl ⟨.refl _, rfl⟩
  | recordReturn htype haddress hended => exact .inl ⟨List.sublist_append_right _ _, rfl⟩
  | record hblock hcall hreturn haccess => exact .inl ⟨.refl _, rfl⟩

theorem Step.exec_mem (h : Step T abandons s (some x) s') : x.exec ∈ s.active := by
  cases h with
  | recordBB htype hid => exact List.mem_cons_self
  | recordCall htype => exact List.mem_cons_self
  | recordReturn htype haddress hended => exact List.mem_append_cons_self
  | record hblock hcall hreturn haccess => exact List.mem_cons_self

/-- The active executions differ, and a new one differs from all of them. -/
structure ThreadState.Distinct (s : ThreadState) : Prop where
  nodup : s.active.Nodup
  number_lt : ∀ e ∈ s.active, e.number < s.next

theorem ThreadState.distinct_start : ThreadState.start.Distinct := ⟨List.nodup_nil, fun _ hmem => nomatch hmem⟩

theorem Step.distinct (h : Step T abandons s label s') (hs : s.Distinct) : s'.Distinct := by
  rcases h.active_cases with ⟨hsub, hnext⟩ | ⟨block, rest, hsub, hactive, hnext⟩
  · refine ⟨hs.nodup.sublist hsub, fun e he => ?_⟩
    rw [hnext]
    exact hs.number_lt e (hsub.subset he)
  · have hlt : ∀ e ∈ rest, e.number < s.next := fun e he => hs.number_lt e (hsub.subset he)
    constructor
    · rw [hactive]
      exact List.nodup_cons.mpr ⟨fun hmem => Nat.lt_irrefl _ (hlt _ hmem), hs.nodup.sublist hsub⟩
    · rw [hactive, hnext]
      exact List.forall_mem_cons.mpr ⟨Nat.lt_succ_self _, fun e he => Nat.lt_succ_of_lt (hlt e he)⟩

/-- The execution `e` is over. -/
structure ThreadState.Gone (e : BlockExec) (s : ThreadState) : Prop where
  not_mem : e ∉ s.active
  number_lt : e.number < s.next

theorem Step.gone (h : Step T abandons s label s') (hgone : s.Gone e) : s'.Gone e := by
  rcases h.active_cases with ⟨hsub, hnext⟩ | ⟨block, rest, hsub, hactive, hnext⟩
  · exact ⟨fun hmem => hgone.not_mem (hsub.subset hmem), by rw [hnext]; exact hgone.number_lt⟩
  · refine ⟨?_, by rw [hnext]; exact Nat.lt_succ_of_lt hgone.number_lt⟩
    rw [hactive]
    refine List.not_mem_cons_of_ne_of_not_mem ?_ fun hmem => hgone.not_mem (hsub.subset hmem)
    rintro rfl
    exact Nat.lt_irrefl _ hgone.number_lt

theorem ThreadState.Distinct.not_mem_callers (hs : s.Distinct) (hcurrent : s.current = some e) :
    e ∉ s.callers.map Prod.snd := by
  have hnodup := hs.nodup
  rw [active, hcurrent] at hnodup
  exact (List.nodup_cons.mp hnodup).1

theorem ThreadState.mem_active (hcurrent : s.current = some e) : e ∈ s.active := by
  rw [active, hcurrent]
  exact List.mem_cons_self

/-- A block record ends the execution that runs. -/
theorem Step.of_block (h : Step T abandons s (some x) s') (hblock : x.entry.type = .bbType) :
    s.current = some x.exec ∧ s.callers.length = x.depth ∧ x.entry.id = x.exec.block ∧ s' = ⟨none, s.callers, s.next⟩ := by
  cases h with
  | recordBB htype hid => exact ⟨rfl, rfl, hid, rfl⟩
  | recordCall htype => cases htype.symm.trans hblock
  | recordReturn htype haddress hended => cases htype.symm.trans hblock
  | record htype hcall hreturn haccess => exact (htype hblock).elim

theorem Step.gone_of_closes (h : Step T abandons s (some x) s') (hs : s.Distinct) (hclose : x.Closes e) : s'.Gone e := by
  obtain ⟨hblock, rfl⟩ := hclose
  obtain ⟨hcurrent, -, -, rfl⟩ := h.of_block hblock
  exact ⟨hs.not_mem_callers hcurrent, hs.number_lt _ (ThreadState.mem_active hcurrent)⟩

theorem distinct_of_run (h : Emits (Step T abandons) s events s') (hs : s.Distinct) : s'.Distinct :=
  (h.invariant (Q := fun _ => True) (fun _ _ _ ht hstep => hstep.distinct ht) (fun _ _ _ _ _ => trivial) hs).1

/-- An execution that is over stays over and has no further record. -/
theorem gone_of_run (h : Emits (Step T abandons) s events s') (hgone : s.Gone e) : s'.Gone e ∧ ∀ x ∈ events, x.exec ≠ e := by
  refine h.invariant (fun _ _ _ ht hstep => hstep.gone ht) (fun t x _ ht hstep => ?_) hgone
  rintro rfl
  exact ht.not_mem hstep.exec_mem

/-- The block record is the last one of its execution. -/
theorem gone_of_closes (h : Emits (Step T abandons) s events s') (hs : s.Distinct) (hx : x ∈ events) (hclose : x.Closes e) :
    s'.Gone e := by
  obtain ⟨before, rest, rfl⟩ := List.append_of_mem hx
  obtain ⟨t, v, hbefore, hstep, hrest⟩ := h.split
  exact (gone_of_run hrest (hstep.gone_of_closes (distinct_of_run hbefore hs) hclose)).1

/-! ### The execution of the load or store -/

/-- The execution `e` has not ended: it runs below `depth` calls, or waits for a function it called there. -/
inductive ThreadState.Alive (e : BlockExec) (depth : Nat) (s : ThreadState) : Prop
  | running (hcurrent : s.current = some e) (hdepth : s.callers.length = depth)
  | waiting (inner : List (UInt64 × BlockExec)) (address : UInt64) (outer : List (UInt64 × BlockExec))
      (hcallers : s.callers = inner ++ (address, e) :: outer) (hdepth : outer.length = depth)

/-- The record is from below `depth` calls, a block record from a deeper one. -/
structure Event.Inside (depth : Nat) (x : Event) : Prop where
  le : depth ≤ x.depth
  lt_of_block : x.entry.type = .bbType → depth < x.depth

variable {depth : Nat}

theorem ThreadState.Alive.le_length (h : s.Alive e depth) : depth ≤ s.callers.length := by
  cases h with
  | running hcurrent hdepth => omega
  | waiting inner address outer hcallers hdepth =>
      rw [hcallers, List.length_append, List.length_cons]
      omega

/-- The execution that runs is at its own depth. -/
theorem ThreadState.Alive.length_of_current (h : s.Alive e depth) (hs : s.Distinct) (hcurrent : s.current = some e) :
    s.callers.length = depth := by
  cases h with
  | running _ hdepth => exact hdepth
  | waiting inner address outer hcallers hdepth =>
      refine (hs.not_mem_callers hcurrent (List.mem_map.mpr ⟨(address, e), ?_, rfl⟩)).elim
      rw [hcallers]
      exact List.mem_append_cons_self

theorem ThreadState.Alive.current_of_length (h : s.Alive e depth) (hdepth : s.callers.length = depth) : s.current = some e := by
  cases h with
  | running hcurrent _ => exact hcurrent
  | waiting inner address outer hcallers houter =>
      rw [hcallers, List.length_append, List.length_cons] at hdepth
      omega

/-- Only a return lowers the depth, by one call. -/
theorem Step.inside (h : Step T abandons s (some x) s') (hlt : depth < s.callers.length) : x.Inside depth := by
  cases h with
  | recordBB htype hid => exact ⟨Nat.le_of_lt hlt, fun _ => hlt⟩
  | recordCall htype => exact ⟨Nat.le_of_lt hlt, fun _ => hlt⟩
  | recordReturn htype haddress hended => exact ⟨Nat.le_of_lt_succ hlt, fun hblock => by cases htype.symm.trans hblock⟩
  | record hblock hcall hreturn haccess => exact ⟨Nat.le_of_lt hlt, fun _ => hlt⟩

/-- While the execution waits it is not ended. -/
theorem Step.alive_of_waiting (h : Step T abandons s label s') {inner outer : List (UInt64 × BlockExec)} {address : UInt64}
    (hcallers : s.callers = inner ++ (address, e) :: outer) (hdepth : outer.length = depth) : s'.Alive e depth := by
  cases h with
  | recordStartBB block hended => exact .waiting inner address outer hcallers hdepth
  | recordBB htype hid => exact .waiting inner address outer hcallers hdepth
  | @recordCall caller callers next entry htype =>
      exact .waiting ((entry.address, caller) :: inner) address outer (congrArg _ hcallers) hdepth
  | recordReturn htype haddress hended =>
      cases inner with
      | nil =>
          cases hcallers
          exact .running rfl hdepth
      | cons first inner => exact .waiting inner address outer (List.cons.inj hcallers).2 hdepth
  | record hblock hcall hreturn haccess => exact .waiting inner address outer hcallers hdepth

/-- The running execution goes on or calls a function. Otherwise it is over, with its block record or without one. -/
theorem Step.alive_of_running (h : Step T abandons s label s') (hs : s.Distinct) (hcurrent : s.current = some e)
    (hdepth : s.callers.length = depth) :
    (s'.Alive e depth ∧ ∀ x, label = some x → x.Inside depth) ∨
      s'.Gone e ∧ (abandons = true ∨ ∃ x, label = some x ∧ x.Closes e) := by
  have hnot := hs.not_mem_callers hcurrent
  have hlt := hs.number_lt e (ThreadState.mem_active hcurrent)
  cases h with
  | recordStartBB block hended =>
      refine .inr ⟨⟨List.not_mem_cons_of_ne_of_not_mem ?_ hnot, Nat.lt_succ_of_lt hlt⟩, .inl ?_⟩
      · rintro rfl
        exact Nat.lt_irrefl _ hlt
      · exact hended.resolve_right (by rintro rfl; cases hcurrent)
  | recordBB htype hid =>
      cases hcurrent
      exact .inr ⟨⟨hnot, hlt⟩, .inr ⟨_, rfl, htype, rfl⟩⟩
  | recordCall htype =>
      cases hcurrent
      refine .inl ⟨.waiting [] _ _ rfl hdepth, ?_⟩
      intro x hx
      cases hx
      exact ⟨Nat.le_of_eq hdepth.symm, fun hblock => by cases htype.symm.trans hblock⟩
  | recordReturn htype haddress hended =>
      refine .inr ⟨⟨hnot, hlt⟩, .inl ?_⟩
      exact hended.resolve_right (by rintro rfl; cases hcurrent)
  | record htype hcall hreturn haccess =>
      cases hcurrent
      refine .inl ⟨.running rfl hdepth, ?_⟩
      intro x hx
      cases hx
      exact ⟨Nat.le_of_eq hdepth.symm, fun hblock => (htype hblock).elim⟩

theorem Step.alive (h : Step T abandons s label s') (hs : s.Distinct) (halive : s.Alive e depth) :
    (s'.Alive e depth ∧ ∀ x, label = some x → x.Inside depth) ∨
      s'.Gone e ∧ (abandons = true ∨ ∃ x, label = some x ∧ x.Closes e) := by
  cases halive with
  | running hcurrent hdepth => exact h.alive_of_running hs hcurrent hdepth
  | waiting inner address outer hcallers hdepth =>
      refine .inl ⟨h.alive_of_waiting hcallers hdepth, ?_⟩
      rintro x rfl
      refine h.inside ?_
      rw [hcallers, List.length_append, List.length_cons]
      omega

/-- Until the execution is over, block records at its depth are its own. -/
theorem alive_of_run (h : Emits (Step T abandons) s events s') (hs : s.Distinct) (halive : s.Alive e depth)
    (hopen : ∀ x ∈ events, ¬x.Closes e) (hend : abandons = false ∨ ¬s'.Gone e) :
    s'.Alive e depth ∧ ∀ x ∈ events, x.Inside depth := by
  induction h with
  | refl s => exact ⟨halive, fun _ hmem => nomatch hmem⟩
  | silent hstep hrun ih =>
      rcases hstep.alive hs halive with ⟨halive, -⟩ | ⟨hgone, habandons | ⟨x, hx, -⟩⟩
      · exact ih (hstep.distinct hs) halive hopen hend
      · exact (hend.resolve_left (ne_false_of_eq_true habandons) (gone_of_run hrun hgone).1).elim
      · cases hx
  | emit hstep hrun ih =>
      obtain ⟨hfirst, hopen⟩ := List.forall_mem_cons.mp hopen
      rcases hstep.alive hs halive with ⟨halive, hinside⟩ | ⟨hgone, habandons | ⟨x, hx, hclose⟩⟩
      · obtain ⟨hlast, hrest⟩ := ih (hstep.distinct hs) halive hopen hend
        exact ⟨hlast, List.forall_mem_cons.mpr ⟨hinside _ rfl, hrest⟩⟩
      · exact (hend.resolve_left (ne_false_of_eq_true habandons) (gone_of_run hrun hgone).1).elim
      · cases hx
        exact (hfirst hclose).elim

/-! ### The scan and the calls -/

open Recording (scanForward)

/-- The stack of the scan has the calls that have not returned, without the `outermost` ones. -/
def ThreadState.Follows (outermost : Nat) (stack : List UInt64) (s : ThreadState) : Prop :=
  ∃ inner outer, s.callers = inner ++ outer ∧ inner.map Prod.fst = stack ∧ outer.length = outermost

variable {outermost : Nat} {stack : List UInt64} {id : UInt32}

theorem ThreadState.Follows.length_add (h : s.Follows outermost stack) : stack.length + outermost = s.callers.length := by
  obtain ⟨inner, outer, hcallers, rfl, rfl⟩ := h
  rw [hcallers, List.length_map, List.length_append]

/-- One record that is not found. A return that the stack has no call for lets the scan out of a function. -/
theorem Step.scan (h : Step T abandons s (some x) s') (hfollows : s.Follows outermost stack)
    (hdeeper : x.entry.type = .bbType → x.exec.block = id → outermost < x.depth) (index : Nat) (rest : List Entry) :
    ∃ outermost' stack', scanForward id stack index (x.entry :: rest) = scanForward id stack' (index + 1) rest ∧
      s'.Follows outermost' stack' ∧ outermost' ≤ outermost ∧ (outermost ≤ x.depth → outermost' = outermost) := by
  have hlength := hfollows.length_add
  obtain ⟨inner, outer, hcallers, rfl, rfl⟩ := hfollows
  cases h with
  | @recordBB e callers next entry htype hid =>
      refine ⟨_, _, Recording.scanForward_skip (by rw [htype]; decide) (by rw [htype]; rintro ⟨⟩) fun hstack _ heq => ?_,
        ⟨inner, outer, hcallers, rfl, rfl⟩, Nat.le_refl _, fun _ => rfl⟩
      rw [hstack, List.length_nil, Nat.zero_add] at hlength
      exact Nat.ne_of_lt (hdeeper htype (hid.symm.trans heq)) hlength
  | @recordCall e callers next entry htype =>
      exact ⟨_, _, Recording.scanForward_call htype, ⟨(entry.address, e) :: inner, outer, congrArg _ hcallers, rfl, rfl⟩,
        Nat.le_refl _, fun _ => rfl⟩
  | @recordReturn current address e callers next entry htype haddress hended =>
      subst haddress
      cases inner with
      | nil =>
          have hskip : scanForward id [] index (entry :: rest) = scanForward id [] (index + 1) rest :=
            Recording.scanForward_skip (by rw [htype]; decide) (fun _ => by rintro ⟨⟩)
              fun _ hblock => by cases htype.symm.trans hblock
          cases hcallers
          exact ⟨_, _, hskip, ⟨[], callers, rfl, rfl, rfl⟩, Nat.le_succ _, fun hle => (Nat.not_succ_le_self _ hle).elim⟩
      | cons first inner =>
          obtain ⟨rfl, hrest⟩ := List.cons.inj hcallers
          exact ⟨_, _, Recording.scanForward_return htype, ⟨inner, outer, hrest, rfl, rfl⟩, Nat.le_refl _, fun _ => rfl⟩
  | record hblock hcall hreturn haccess =>
      exact ⟨_, _, Recording.scanForward_skip hcall (fun htype => (hreturn htype).elim) fun _ htype => (hblock htype).elim,
        ⟨inner, outer, hcallers, rfl, rfl⟩, Nat.le_refl _, fun _ => rfl⟩

theorem Step.callers_of_silent (h : Step T abandons s none s') : s'.callers = s.callers := by
  cases h
  rfl

/-- The scan over the records of a run in which no block record of the block is from the depth of the scan. -/
theorem scan_of_run (h : Emits (Step T abandons) s events s') (hfollows : s.Follows outermost stack)
    (hdeeper : ∀ x ∈ events, x.entry.type = .bbType → x.exec.block = id → outermost < x.depth) (index : Nat)
    (rest : List Entry) :
    ∃ outermost' stack', scanForward id stack index (events.map Event.entry ++ rest) =
      scanForward id stack' (index + events.length) rest ∧
      s'.Follows outermost' stack' ∧ outermost' ≤ outermost ∧
        ((∀ x ∈ events, outermost ≤ x.depth) → outermost' = outermost) := by
  induction h generalizing outermost stack index with
  | refl s => exact ⟨outermost, stack, rfl, hfollows, Nat.le_refl _, fun _ => rfl⟩
  | silent hstep hrun ih =>
      refine ih ?_ hdeeper index
      rw [ThreadState.Follows, hstep.callers_of_silent]
      exact hfollows
  | @emit s t u x events hstep hrun ih =>
      obtain ⟨hfirst, hlater⟩ := List.forall_mem_cons.mp hdeeper
      obtain ⟨o₁, stack₁, hscan₁, hfollows₁, hle₁, heq₁⟩ := hstep.scan hfollows hfirst index (events.map Event.entry ++ rest)
      obtain ⟨o₂, stack₂, hscan₂, hfollows₂, hle₂, heq₂⟩ :=
        ih hfollows₁ (fun y hy hblock hid => Nat.lt_of_le_of_lt hle₁ (hlater y hy hblock hid)) (index + 1)
      refine ⟨o₂, stack₂, ?_, hfollows₂, Nat.le_trans hle₂ hle₁, fun hdepth => ?_⟩
      · rw [List.map_cons, List.cons_append, hscan₁, hscan₂, List.length_cons, Nat.add_right_comm, Nat.add_assoc]
      · obtain ⟨hdepth, hdepths⟩ := List.forall_mem_cons.mp hdepth
        have h₁ := heq₁ hdepth
        exact (heq₂ (by rwa [h₁])).trans h₁

/-- Block records below a call, or of other blocks, are passed over. -/
theorem scanForward_blocks {records : List Entry} (hblocks : ∀ entry ∈ records, entry.type = .bbType)
    (hskip : stack = [] → ∀ entry ∈ records, entry.id ≠ id) (index : Nat) : scanForward id stack index records = none := by
  induction records generalizing index with
  | nil => rfl
  | cons entry records ih =>
      obtain ⟨hblock, hblocks⟩ := List.forall_mem_cons.mp hblocks
      rw [Recording.scanForward_skip (by rw [hblock]; decide) (by rw [hblock]; rintro ⟨⟩)
        fun hstack _ => (List.forall_mem_cons.mp (hskip hstack)).1]
      exact ih hblocks (fun hstack => (List.forall_mem_cons.mp (hskip hstack)).2) _

/-! ### The lookup -/

theorem exists_append_of_getElem? {l : List Event} {k : Nat} (h : l[k]? = some x) :
    ∃ before rest, l = before ++ x :: rest ∧ before.length = k := by
  obtain ⟨hlt, hget⟩ := List.getElem?_eq_some_iff.mp h
  refine ⟨l.take k, l.drop (k + 1), ?_, List.length_take_of_le (Nat.le_of_lt hlt)⟩
  rw [← hget, List.getElem_cons_drop, List.take_append_drop]

theorem Step.of_access (h : Step T abandons s (some x) s') (haccess : x.entry.IsAccess) :
    s' = s ∧ s.current = some x.exec ∧ s.callers.length = x.depth ∧ T.getID (T.getInstByID x.entry.id) = x.exec.block := by
  have hother : ∀ type : RecordType, x.entry.type = type → type = .stType ∨ type = .ldType := fun _ htype => htype ▸ haccess
  cases h with
  | recordBB htype hid => rcases hother _ htype with h | h <;> cases h
  | recordCall htype => rcases hother _ htype with h | h <;> cases h
  | recordReturn htype haddress hended => rcases hother _ htype with h | h <;> cases h
  | record hblock hcall hreturn hid => exact ⟨rfl, rfl, rfl, hid haccess⟩

/-- The thread after the load or store `x` numbered `i`, and the records that follow. -/
structure TracedThread.AtAccess (R : TracedThread T abandons) (i : Nat) (x : Event) (before rest : List Event)
    (s : ThreadState) : Prop where
  events_eq : R.events = before ++ x :: rest
  length_before : before.length = i
  not_block : x.entry.type ≠ .bbType
  block_eq : T.getID (T.getInstByID x.entry.id) = x.exec.block
  distinct : s.Distinct
  current_eq : s.current = some x.exec
  length_callers : s.callers.length = x.depth
  not_closed : ∀ y ∈ before, ¬y.Closes x.exec
  run : Emits (Step T abandons) s rest R.final

theorem TracedThread.exec_mem_active (R : TracedThread T abandons) (h : x ∈ R.closing) : x.exec ∈ R.final.active :=
  R.closing_active.subset (List.mem_map_of_mem h)

/-- At the end the execution that runs gets its block record before those that wait. -/
theorem TracedThread.closes_current_first (R : TracedThread T abandons) (hdistinct : R.final.Distinct) {mid after : List Event}
    (hcurrent : R.final.current = some x.exec) (hclosing : R.closing = mid ++ x :: after) : mid = [] := by
  have hsublist := R.closing_active
  rw [ThreadState.active, hcurrent, hclosing, List.map_append, List.map_cons] at hsublist
  cases mid with
  | nil => rfl
  | cons first mid =>
      have hmem := hsublist.tail.subset (List.mem_append_cons_self)
      exact (hdistinct.not_mem_callers hcurrent hmem).elim

variable {R : TracedThread T abandons} {i : Nat} {before rest : List Event}

theorem TracedThread.exists_atAccess (R : TracedThread T abandons) (hget : R.all[i]? = some x) (haccess : x.entry.IsAccess) :
    ∃ before rest s, R.AtAccess i x before rest s := by
  have hnot : x.entry.type ≠ .bbType := by
    intro htype
    rcases haccess with h | h <;> cases htype.symm.trans h
  have hevent : R.events[i]? = some x := by
    rw [← hget, TracedThread.all, List.getElem?_append]
    split_ifs with hlt
    · rfl
    · rw [TracedThread.all, List.getElem?_append_right (Nat.le_of_not_lt hlt)] at hget
      exact (hnot (R.closing_record x (List.mem_of_getElem? hget)).1).elim
  obtain ⟨before, rest, hevents, hlength⟩ := exists_append_of_getElem? hevent
  have hrun := R.run
  rw [hevents] at hrun
  obtain ⟨s, s', hbefore, hstep, hrest⟩ := hrun.split
  obtain ⟨rfl, hcurrent, hcallers, hblock⟩ := hstep.of_access haccess
  have hdistinct := distinct_of_run hbefore ThreadState.distinct_start
  refine ⟨before, rest, s', hevents, hlength, hnot, hblock, hdistinct, hcurrent, hcallers, fun y hy hclose => ?_, hrest⟩
  exact (gone_of_closes hbefore ThreadState.distinct_start hy hclose).not_mem hstep.exec_mem

namespace TracedThread.AtAccess

theorem getDynValueFromIndex_eq (h : R.AtAccess i x before rest s) :
    T.getDynValueFromIndex (T.getInstByID x.entry.id) i =
      (scanForward x.exec.block [] (i + 1) (rest.map Event.entry ++ R.closing.map Event.entry)).map
        fun index => ⟨T.getInstByID x.entry.id, index⟩ := by
  have hrecords : T.trace.dropLast.drop (i + 1) = rest.map Event.entry ++ R.closing.map Event.entry := by
    rw [R.trace_eq, List.dropLast_concat, h.events_eq, List.append_assoc, List.map_append, List.cons_append, List.map_cons,
      List.map_append, ← List.singleton_append, ← List.append_assoc]
    refine List.drop_left' ?_
    rw [List.length_append, List.length_map, h.length_before, List.length_singleton]
  rw [Recording.getDynValueFromIndex, h.block_eq, hrecords]

theorem alive (h : R.AtAccess i x before rest s) : s.Alive x.exec x.depth := .running h.current_eq h.length_callers

theorem follows (h : R.AtAccess i x before rest s) : s.Follows x.depth [] := ⟨[], s.callers, rfl, rfl, h.length_callers⟩

theorem mem_events (h : R.AtAccess i x before rest s) {y : Event} (hy : y ∈ rest) : y ∈ R.events := by
  rw [h.events_eq]
  exact List.mem_append_right _ (List.mem_cons_of_mem _ hy)

/-! #### Where the records are -/

theorem getElem?_all (h : R.AtAccess i x before rest s) (k : Nat) : R.all[i + 1 + k]? = (rest ++ R.closing)[k]? := by
  have hlength : (before ++ [x]).length = i + 1 := by rw [List.length_append, h.length_before, List.length_singleton]
  have hall : R.all = (before ++ [x]) ++ (rest ++ R.closing) := by
    rw [TracedThread.all, h.events_eq, List.append_assoc, List.append_assoc, List.singleton_append, List.cons_append]
  rw [hall, ← hlength, List.getElem?_append_right (Nat.le_add_right _ _), Nat.add_sub_cancel_left]

theorem mem_later_iff (h : R.AtAccess i x before rest s) {y : Event} :
    (∃ j, i < j ∧ R.all[j]? = some y) ↔ y ∈ rest ∨ y ∈ R.closing := by
  rw [← List.mem_append, List.mem_iff_getElem?]
  constructor
  · rintro ⟨j, hij, hget⟩
    obtain ⟨k, rfl⟩ := Nat.exists_eq_add_of_le (Nat.succ_le_of_lt hij)
    exact ⟨k, (h.getElem?_all k).symm.trans hget⟩
  · rintro ⟨k, hget⟩
    exact ⟨i + 1 + k, by omega, (h.getElem?_all k).trans hget⟩

/-- The block record of the execution comes later, from the run or from its end. -/
theorem position (h : R.AtAccess i x before rest s) {j : Nat} {y : Event} (hget : R.all[j]? = some y)
    (hclose : y.Closes x.exec) :
    (∃ mid after, rest = mid ++ y :: after ∧ i + 1 + mid.length = j) ∨
      ∃ mid after, R.closing = mid ++ y :: after ∧ i + 1 + rest.length + mid.length = j := by
  have hlater : i < j := by
    refine Nat.lt_of_not_le fun hle => ?_
    rw [TracedThread.all, h.events_eq, List.append_assoc] at hget
    rcases Nat.lt_or_eq_of_le hle with hlt | rfl
    · rw [List.getElem?_append_left (by rw [h.length_before]; exact hlt)] at hget
      exact h.not_closed y (List.mem_of_getElem? hget) hclose
    · rw [List.getElem?_append_right (Nat.le_of_eq h.length_before), h.length_before, Nat.sub_self, List.cons_append,
        List.getElem?_cons_zero] at hget
      cases hget
      exact h.not_block hclose.1
  obtain ⟨k, rfl⟩ := Nat.exists_eq_add_of_le (Nat.succ_le_of_lt hlater)
  rw [Nat.succ_eq_add_one, h.getElem?_all, List.getElem?_append] at hget
  split_ifs at hget with hlt
  · obtain ⟨mid, after, heq, hlength⟩ := exists_append_of_getElem? hget
    exact .inl ⟨mid, after, heq, by rw [hlength]⟩
  · obtain ⟨mid, after, heq, hlength⟩ := exists_append_of_getElem? hget
    exact .inr ⟨mid, after, heq, by omega⟩

/-! #### What the scan finds -/

/-- As long as the execution has not ended the scan skips the calls in it and nothing else. -/
theorem scan_while_active (h : R.AtAccess i x before rest s) {mid : List Event} {t : ThreadState}
    (hrun : Emits (Step T abandons) s mid t) (hactive : x.exec ∈ t.active) (records : List Entry) :
    t.Alive x.exec x.depth ∧ ∃ stack, stack.length + x.depth = t.callers.length ∧
      scanForward x.exec.block [] (i + 1) (mid.map Event.entry ++ records) =
        scanForward x.exec.block stack (i + 1 + mid.length) records := by
  have hopen : ∀ y ∈ mid, ¬y.Closes x.exec := fun y hy hclose => (gone_of_closes hrun h.distinct hy hclose).not_mem hactive
  obtain ⟨halive, hinside⟩ := alive_of_run hrun h.distinct h.alive hopen (.inr fun hgone => hgone.not_mem hactive)
  obtain ⟨outermost, stack, hscan, hfollows, -, heq⟩ :=
    scan_of_run hrun h.follows (fun y hy hblock _ => (hinside y hy).lt_of_block hblock) (i + 1) records
  have hlength := hfollows.length_add
  rw [heq fun y hy => (hinside y hy).le] at hlength
  exact ⟨halive, stack, hlength, hscan⟩

/-- The block record that the run has of the execution. -/
theorem scan_closed (h : R.AtAccess i x before rest s) {mid after : List Event} {y : Event} (hrest : rest = mid ++ y :: after)
    (hclose : y.Closes x.exec) :
    y.depth = x.depth ∧ scanForward x.exec.block [] (i + 1) (rest.map Event.entry ++ R.closing.map Event.entry) =
      some (i + 1 + mid.length) := by
  have hrun := h.run
  rw [hrest] at hrun
  obtain ⟨t, v, hmid, hstep, -⟩ := hrun.split
  obtain ⟨hblock, hexec⟩ := hclose
  obtain ⟨hcurrent, hcallers, hid, -⟩ := hstep.of_block hblock
  rw [hexec] at hcurrent hid
  obtain ⟨halive, stack, hlength, hscan⟩ := h.scan_while_active hmid (ThreadState.mem_active hcurrent)
    ((y :: after).map Event.entry ++ R.closing.map Event.entry)
  have hdepth := halive.length_of_current (distinct_of_run hmid h.distinct) hcurrent
  have hstack : stack = [] := List.length_eq_zero_iff.mp (by omega)
  refine ⟨hcallers.symm.trans hdepth, ?_⟩
  rw [hrest, List.map_append, List.append_assoc, hscan, hstack, List.map_cons, List.cons_append, ← hid]
  exact Recording.scanForward_found hblock

/-- A block record from the end of the run, at the depth of the load or store. -/
theorem scan_closing (h : R.AtAccess i x before rest s) {mid after : List Event} {y : Event}
    (hclosing : R.closing = mid ++ y :: after) (hclose : y.Closes x.exec) (hdepth : y.depth = x.depth) :
    scanForward x.exec.block [] (i + 1) (rest.map Event.entry ++ R.closing.map Event.entry) =
      some (i + 1 + rest.length + mid.length) := by
  obtain ⟨hblock, hexec⟩ := hclose
  have hmem : y ∈ R.closing := by
    rw [hclosing]
    exact List.mem_append_cons_self
  obtain ⟨-, hid, hcallers⟩ := R.closing_record y hmem
  have hactive : x.exec ∈ R.final.active := hexec ▸ R.exec_mem_active hmem
  obtain ⟨halive, stack, hlength, hscan⟩ := h.scan_while_active h.run hactive (R.closing.map Event.entry)
  have hcurrent : R.final.current = some y.exec := by
    rw [hexec]
    exact halive.current_of_length (hcallers.symm.trans hdepth)
  have hmid : mid = [] := R.closes_current_first (distinct_of_run h.run h.distinct) hcurrent hclosing
  have hstack : stack = [] := List.length_eq_zero_iff.mp (by omega)
  rw [hscan, hstack, hclosing, hmid, List.nil_append, List.map_cons, ← hexec, ← hid]
  exact Recording.scanForward_found hblock

/-- Nothing is found if every later block record of the block is from a deeper call. -/
theorem scan_unclosed (h : R.AtAccess i x before rest s)
    (hdeeper : ∀ y, y ∈ rest ∨ y ∈ R.closing → y.entry.type = .bbType → y.exec.block = x.exec.block → x.depth < y.depth) :
    scanForward x.exec.block [] (i + 1) (rest.map Event.entry ++ R.closing.map Event.entry) = none := by
  obtain ⟨outermost, stack, hscan, hfollows, hle, -⟩ :=
    scan_of_run h.run h.follows (fun y hy => hdeeper y (.inl hy)) (i + 1) (R.closing.map Event.entry)
  rw [hscan]
  refine scanForward_blocks ?_ (fun hstack => ?_) _
  · exact List.forall_mem_map.mpr fun y hy => (R.closing_record y hy).1
  · refine List.forall_mem_map.mpr fun y hy hid => ?_
    obtain ⟨hblock, hblockid, hdepth⟩ := R.closing_record y hy
    have hlt := hdeeper y (.inr hy) hblock (hblockid.symm.trans hid)
    have hlength := hfollows.length_add
    rw [hstack, List.length_nil] at hlength
    omega

end TracedThread.AtAccess

theorem TracedThread.depthLookup (R : TracedThread T abandons) : DepthLookup T R.all where
  closed i j x y hget haccess hclosing hclose hdepth := by
    obtain ⟨before, rest, s, h⟩ := R.exists_atAccess hget haccess
    rw [h.getDynValueFromIndex_eq]
    rcases h.position hclosing hclose with ⟨mid, after, hrest, rfl⟩ | ⟨mid, after, hend, rfl⟩
    · rw [(h.scan_closed hrest hclose).2]
      rfl
    · rw [h.scan_closing hend hclose hdepth]
      rfl
  unclosed i x hget haccess _ hdeeper := by
    obtain ⟨before, rest, s, h⟩ := R.exists_atAccess hget haccess
    rw [h.getDynValueFromIndex_eq, h.scan_unclosed fun y hy hblock hid => ?_]
    · rfl
    · obtain ⟨j, hij, hget⟩ := h.mem_later_iff.mpr hy
      exact hdeeper j y hij hget hblock hid

/-- Where functions leave no block without its record, and no call is open when the blocks at the end get theirs, the
depth of a block record of the execution is no condition and the scan does not leave its function. -/
theorem TracedThread.enclosingLookup (R : TracedThread T false) (hend : R.closing = [] ∨ R.final.callers = []) :
    EnclosingLookup T R.all := by
  have hclosing : ∀ y ∈ R.closing, R.final.callers.length = 0 ∧ y.depth = 0 := by
    intro y hy
    have hcallers : R.final.callers.length = 0 := by
      rw [hend.resolve_left (List.ne_nil_of_mem hy), List.length_nil]
    exact ⟨hcallers, (R.closing_record y hy).2.2.trans hcallers⟩
  constructor
  · intro i j x y hget haccess hgety hclose
    obtain ⟨before, rest, s, h⟩ := R.exists_atAccess hget haccess
    refine R.depthLookup.closed i j x y hget haccess hgety hclose ?_
    rcases h.position hgety hclose with ⟨mid, after, hrest, -⟩ | ⟨mid, after, hend, -⟩
    · exact (h.scan_closed hrest hclose).1
    · have hy : y ∈ R.closing := by
        rw [hend]
        exact List.mem_append_cons_self
      obtain ⟨hcallers, hdepth⟩ := hclosing y hy
      have hle := (h.scan_while_active h.run (hclose.2 ▸ R.exec_mem_active hy) []).1.le_length
      omega
  · intro i x hget haccess hopen hdepth
    obtain ⟨before, rest, s, h⟩ := R.exists_atAccess hget haccess
    refine R.depthLookup.unclosed i x hget haccess hopen fun j y hij hgety hblock hid => ?_
    have hrest : ∀ y ∈ rest, ¬y.Closes x.exec := fun y hy => hopen y (List.mem_append_left _ (h.mem_events hy))
    obtain ⟨halive, hinside⟩ := alive_of_run h.run h.distinct h.alive hrest (.inl rfl)
    rcases h.mem_later_iff.mp ⟨j, hij, hgety⟩ with hy | hy
    · exact (hinside y hy).lt_of_block hblock
    · obtain ⟨hcallers, hzero⟩ := hclosing y hy
      have hle := halive.le_length
      have hne := hdepth j y hij hgety hblock hid
      omega

/-- The records of a function of one block, with a store and a call of the function. -/
def recursiveEntry (type : RecordType) : Entry := ⟨type, if type = .clType ∨ type = .rtType then 2 else 1, 7, 0x400600, 8⟩

def recursiveFunction (types : List RecordType) (hne : types ≠ []) (hlt : types.length < 2 ^ 64) : Recording UInt32 where
  trace := types.map recursiveEntry
  getInstByID := fun instID => instID
  getID := fun _ => 1
  trace_ne_nil := by rwa [Ne, List.map_eq_nil_iff]
  length_lt := by rwa [List.length_map]

def recursiveEvent (type : RecordType) (number depth : Nat) : Event := ⟨recursiveEntry type, ⟨number, 1⟩, depth⟩

def reenteredTrace : Recording UInt32 :=
  recursiveFunction [.stType, .clType, .stType, .bbType, .rtType, .bbType, .enType] (List.cons_ne_nil _ _) (by decide)

/-- The call enters the block again before the block of the first store ends. -/
def reentered : TracedThread reenteredTrace false where
  events := [recursiveEvent .stType 0 0, recursiveEvent .clType 0 0, recursiveEvent .stType 1 1, recursiveEvent .bbType 1 1,
    recursiveEvent .rtType 0 0, recursiveEvent .bbType 0 0]
  final := ⟨none, [], 2⟩
  run := .silent (.recordStartBB 1 (.inr rfl)) <| .emit (.record (by decide) (by decide) (by decide) fun _ => rfl) <|
    .emit (.recordCall rfl) <| .silent (.recordStartBB 1 (.inr rfl)) <|
    .emit (.record (by decide) (by decide) (by decide) fun _ => rfl) <| .emit (.recordBB rfl rfl) <|
    .emit (.recordReturn rfl rfl (.inr rfl)) <| .emit (.recordBB rfl rfl) <| .refl _
  closing := []
  closing_active := List.nil_sublist _
  closing_record := fun _ hmem => nomatch hmem
  stop := recursiveEntry .enType
  stop_type := rfl
  trace_eq := rfl

def unwoundTrace : Recording UInt32 :=
  recursiveFunction [.clType, .stType, .rtType, .bbType, .enType] (List.cons_ne_nil _ _) (by decide)

/-- The function that was called returns from the middle of its block. -/
def unwound : TracedThread unwoundTrace true where
  events := [recursiveEvent .clType 0 0, recursiveEvent .stType 1 1, recursiveEvent .rtType 0 0, recursiveEvent .bbType 0 0]
  final := ⟨none, [], 2⟩
  run := .silent (.recordStartBB 1 (.inr rfl)) <| .emit (.recordCall rfl) <| .silent (.recordStartBB 1 (.inr rfl)) <|
    .emit (.record (by decide) (by decide) (by decide) fun _ => rfl) <| .emit (.recordReturn rfl rfl (.inl rfl)) <|
    .emit (.recordBB rfl rfl) <| .refl _
  closing := []
  closing_active := List.nil_sublist _
  closing_record := fun _ hmem => nomatch hmem
  stop := recursiveEntry .enType
  stop_type := rfl
  trace_eq := rfl

def exitedTrace : Recording UInt32 :=
  recursiveFunction [.stType, .clType, .bbType, .bbType, .enType] (List.cons_ne_nil _ _) (by decide)

/-- The program ends in the block of the function that was called. -/
def exited : TracedThread exitedTrace false where
  events := [recursiveEvent .stType 0 0, recursiveEvent .clType 0 0]
  final := ⟨some ⟨1, 1⟩, [(0x400600, ⟨0, 1⟩)], 2⟩
  run := .silent (.recordStartBB 1 (.inr rfl)) <| .emit (.record (by decide) (by decide) (by decide) fun _ => rfl) <|
    .emit (.recordCall rfl) <| .silent (.recordStartBB 1 (.inr rfl)) <| .refl _
  closing := [recursiveEvent .bbType 1 1, recursiveEvent .bbType 0 1]
  closing_active := .refl _
  closing_record := by decide
  stop := recursiveEntry .enType
  stop_type := rfl
  trace_eq := rfl

end Witcher.TraceScan
