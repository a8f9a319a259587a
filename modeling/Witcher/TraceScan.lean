import Mathlib.Algebra.Group.Nat.Defs
import Witcher.DependenceGraph
import Witcher.Loops
import Witcher.Runtime

/-! The scans of a recorded trace for the loads and stores and for the blocks around them (`TraceFile.cpp`). The
cursor goes backwards and is unsigned, so the scan after the last one begins behind the end of the trace. A block
record follows the records of the block's execution. -/

namespace Witcher.TraceScan

variable {ν : Type}

/-- How a scan ends without a result. -/
inductive Stop where
  | readsOutside
  | outOfFuel
  deriving DecidableEq, Repr

/-- The mapped file with the numbers of instructions and of their blocks. Blocks are numbered from 1, so the assertion
that the block of an instruction has a number holds. -/
structure Recording (ν : Type) where
  trace : List Entry
  getInstByID : UInt32 → ν
  getID : ν → UInt32
  trace_ne_nil : trace ≠ []
  length_lt : trace.length < 2 ^ 64

namespace Recording

def maxIndex (T : Recording ν) : Nat := T.trace.length - 1

/-- The search forward for the record of the block `id` from the record numbered `index` on. `stack` has the addresses
of the functions that were called on the way. -/
def scanForward (id : UInt32) : List UInt64 → Nat → List Entry → Option Nat
  | _, _, [] => none
  | stack, index, entry :: rest =>
      if entry.type = .clType then scanForward id (entry.address :: stack) (index + 1) rest
      else if entry.type = .rtType ∧ stack.head? = some entry.address then scanForward id stack.tail (index + 1) rest
      else if stack ≠ [] then scanForward id stack (index + 1) rest
      else if entry.type = .bbType ∧ entry.id = id then some index
      else scanForward id stack (index + 1) rest

/-- The execution of `I` whose block record is found after `start`. The last record is not looked at. -/
def getDynValueFromIndex (T : Recording ν) (I : ν) (start : Nat) : Option (DynValue ν) :=
  (scanForward (T.getID I) [] (start + 1) (T.trace.dropLast.drop (start + 1))).map fun index => ⟨I, index⟩

/-- The loop of `getNextLoadOrStore`, which does not look at record 0. -/
def scanBackward (T : Recording ν) : Nat → Except Stop (Option (DynValue ν) × Nat)
  | 0 => .ok (none, 0)
  | index + 1 =>
      match T.trace[index + 1]? with
      | none => .error .readsOutside
      | some entry =>
          if entry.IsAccess then
            match T.getDynValueFromIndex (T.getInstByID entry.id) (index + 1) with
            | none => T.scanBackward index
            | some ret => .ok (some ret, index + 1)
          else T.scanBackward index

/-- The value, and the cursor for the next call. -/
def getNextLoadOrStore (T : Recording ν) (currIndex : UInt64) : Except Stop (Option (DynValue ν) × UInt64) := do
  let (ret, index) ← T.scanBackward currIndex.toNat
  .ok (ret, .ofNat index - 1)

/-- The cursor before the first call. -/
def lastIndex (T : Recording ν) : UInt64 := .ofNat T.maxIndex

end Recording

/-- The record that was found by the call that left the cursor. -/
def getIndexForTheLoadOrStore (currIndex : UInt64) : UInt64 := currIndex + 1

/-! ### One record of the scan forward -/

namespace Recording

section Scan

variable {id : UInt32} {stack : List UInt64} {index i : Nat} {entry : Entry} {rest records : List Entry}

theorem scanForward_call (htype : entry.type = .clType) :
    scanForward id stack index (entry :: rest) = scanForward id (entry.address :: stack) (index + 1) rest := by
  rw [scanForward, if_pos htype]

theorem scanForward_return (htype : entry.type = .rtType) :
    scanForward id (entry.address :: stack) index (entry :: rest) = scanForward id stack (index + 1) rest := by
  rw [scanForward, if_neg (by rw [htype]; decide), if_pos ⟨htype, rfl⟩, List.tail_cons]

theorem scanForward_found (htype : entry.type = .bbType) : scanForward entry.id [] index (entry :: rest) = some index := by
  rw [scanForward, if_neg (by rw [htype]; decide), if_neg (by rw [htype]; rintro ⟨h, -⟩; cases h), if_neg (not_not_intro rfl),
    if_pos ⟨htype, rfl⟩]

/-- A return that matches no call on the stack is passed over, and so is a block record below a call. -/
theorem scanForward_skip (hcall : entry.type ≠ .clType) (hreturn : entry.type = .rtType → stack.head? ≠ some entry.address)
    (hblock : stack = [] → entry.type = .bbType → entry.id ≠ id) :
    scanForward id stack index (entry :: rest) = scanForward id stack (index + 1) rest := by
  rw [scanForward, if_neg hcall, if_neg fun h => hreturn h.1 h.2]
  split_ifs with hstack hfound
  · rfl
  · exact (hblock (not_not.mp hstack) hfound.1 hfound.2).elim
  · rfl

theorem scanForward_record (h : scanForward id stack index records = some i) :
    ∃ n entry, i = index + n ∧ records[n]? = some entry ∧ entry.type = .bbType ∧ entry.id = id := by
  induction records generalizing stack index with
  | nil =>
      rw [scanForward] at h
      cases h
  | cons entry rest ih =>
      have later : ∀ {stack}, scanForward id stack (index + 1) rest = some i →
          ∃ n found, i = index + n ∧ (entry :: rest)[n]? = some found ∧ found.type = .bbType ∧ found.id = id := fun hrest => by
        obtain ⟨n, found, rfl, hget, hfound⟩ := ih hrest
        exact ⟨n + 1, found, by omega, List.getElem?_cons_succ.trans hget, hfound⟩
      rw [scanForward] at h
      split_ifs at h with hcall hreturn hstack hfound
      · exact later h
      · exact later h
      · exact later h
      · exact ⟨0, entry, (Option.some.inj h).symm, rfl, hfound⟩
      · exact later h

end Scan

end Recording

/-! ### The loads and stores with a value -/

namespace Recording

variable (T : Recording ν)

/-- The dynamic value of the load or store at `i`. -/
def valueAt (i : Nat) : Option (DynValue ν) :=
  T.trace[i]?.bind fun entry => if entry.IsAccess then T.getDynValueFromIndex (T.getInstByID entry.id) i else none

/-- The records up to `n`, without record 0, that have a value; the last one first. -/
def accesses : Nat → List (Nat × DynValue ν)
  | 0 => []
  | n + 1 => (T.valueAt (n + 1)).toList.map (fun d => (n + 1, d)) ++ accesses n

variable {T} {n i : Nat} {d : DynValue ν} {rest : List (Nat × DynValue ν)}

theorem accesses_succ_none (h : T.valueAt (n + 1) = none) : T.accesses (n + 1) = T.accesses n := by
  rw [accesses, h]
  rfl

theorem accesses_succ_some (h : T.valueAt (n + 1) = some d) : T.accesses (n + 1) = (n + 1, d) :: T.accesses n := by
  rw [accesses, h]
  rfl

theorem mem_accesses : (i, d) ∈ T.accesses n ↔ 0 < i ∧ i ≤ n ∧ T.valueAt i = some d := by
  induction n with
  | zero =>
      rw [accesses]
      constructor
      · intro h
        cases h
      · omega
  | succ n ih =>
      rw [accesses, List.mem_append, ih, List.mem_map]
      constructor
      · rintro (⟨d', hd', heq⟩ | ⟨hpos, hle, hvalue⟩)
        · cases heq
          exact ⟨Nat.succ_pos n, Nat.le_refl _, Option.mem_toList.mp hd'⟩
        · exact ⟨hpos, Nat.le_succ_of_le hle, hvalue⟩
      · rintro ⟨hpos, hle, hvalue⟩
        rcases Nat.le_succ_iff.mp hle with hle | rfl
        · exact .inr ⟨hpos, hle, hvalue⟩
        · exact .inl ⟨d, Option.mem_toList.mpr hvalue, rfl⟩

theorem accesses_descending (T : Recording ν) (n : Nat) : (T.accesses n).Pairwise fun a b => b.1 < a.1 := by
  induction n with
  | zero => exact .nil
  | succ n ih =>
      cases hvalue : T.valueAt (n + 1) with
      | none =>
          rw [accesses_succ_none hvalue]
          exact ih
      | some d =>
          rw [accesses_succ_some hvalue]
          refine List.pairwise_cons.mpr ⟨fun b hb => ?_, ih⟩
          have hle := (mem_accesses.mp hb).2.1
          omega

/-- What is left of the list is what the scan from before its head on finds. -/
theorem accesses_eq_cons (h : T.accesses n = (i, d) :: rest) : 0 < i ∧ i ≤ n ∧ rest = T.accesses (i - 1) := by
  induction n with
  | zero => cases h
  | succ n ih =>
      cases hvalue : T.valueAt (n + 1) with
      | none =>
          rw [accesses_succ_none hvalue] at h
          obtain ⟨hpos, hle, hrest⟩ := ih h
          exact ⟨hpos, Nat.le_succ_of_le hle, hrest⟩
      | some d' =>
          rw [accesses_succ_some hvalue] at h
          cases h
          exact ⟨Nat.succ_pos n, Nat.le_refl _, rfl⟩

variable {entry : Entry}

theorem valueAt_eq (hget : T.trace[i]? = some entry) (haccess : entry.IsAccess) :
    T.valueAt i = T.getDynValueFromIndex (T.getInstByID entry.id) i := by
  rw [valueAt, hget, Option.bind_some, if_pos haccess]

/-- The value is at a record of its block, which is not the last record of the trace. -/
theorem valueAt_record (h : T.valueAt i = some d) :
    d.index < T.maxIndex ∧ ∃ entry, T.trace[d.index]? = some entry ∧ entry.type = .bbType ∧ entry.id = T.getID d.V := by
  obtain ⟨access, -, hvalue⟩ := Option.bind_eq_some_iff.mp h
  split_ifs at hvalue
  obtain ⟨index, hscan, rfl⟩ := Option.map_eq_some_iff.mp hvalue
  obtain ⟨n, entry, rfl, hget, hentry⟩ := scanForward_record hscan
  rw [List.getElem?_drop] at hget
  have hlt : i + 1 + n < T.trace.length - 1 := by
    rw [← List.length_dropLast]
    exact (List.getElem?_eq_some_iff.mp hget).choose
  refine ⟨hlt, entry, ?_, hentry⟩
  rwa [List.getElem?_dropLast, if_pos hlt] at hget

theorem lt_of_valueAt (h : T.valueAt i = some d) : i < T.trace.length := by
  obtain ⟨entry, hget, -⟩ := Option.bind_eq_some_iff.mp h
  exact (List.getElem?_eq_some_iff.mp hget).choose

theorem mem_accesses_maxIndex : (i, d) ∈ T.accesses T.maxIndex ↔ 0 < i ∧ T.valueAt i = some d := by
  rw [mem_accesses, maxIndex]
  constructor
  · rintro ⟨hpos, -, hvalue⟩
    exact ⟨hpos, hvalue⟩
  · rintro ⟨hpos, hvalue⟩
    have hlt := lt_of_valueAt hvalue
    exact ⟨hpos, by omega, hvalue⟩

theorem mem_map_accesses (hget : T.trace[i]? = some entry) (haccess : entry.IsAccess) :
    i ∈ (T.accesses T.maxIndex).map Prod.fst ↔ 0 < i ∧ (T.getDynValueFromIndex (T.getInstByID entry.id) i).isSome := by
  rw [List.mem_map]
  constructor
  · rintro ⟨⟨i', d⟩, hmem, rfl⟩
    obtain ⟨hpos, hvalue⟩ := mem_accesses_maxIndex.mp hmem
    rw [valueAt_eq hget haccess] at hvalue
    exact ⟨hpos, by rw [hvalue]; rfl⟩
  · rintro ⟨hpos, hvalue⟩
    obtain ⟨d, hd⟩ := Option.isSome_iff_exists.mp hvalue
    exact ⟨(i, d), mem_accesses_maxIndex.mpr ⟨hpos, by rw [valueAt_eq hget haccess, hd]⟩, rfl⟩

theorem nodup_map_accesses (T : Recording ν) (n : Nat) : ((T.accesses n).map Prod.fst).Nodup := by
  rw [List.Nodup, List.pairwise_map]
  exact (T.accesses_descending n).imp fun hlt => Nat.ne_of_gt hlt

/-! ### The calls of `getNextLoadOrStore` -/

theorem scanBackward_succ (hn : n + 1 < T.trace.length) :
    T.scanBackward (n + 1) = (T.valueAt (n + 1)).elim (T.scanBackward n) fun d => .ok (some d, n + 1) := by
  rw [scanBackward, valueAt, List.getElem?_eq_getElem hn, Option.bind_some]
  simp only
  by_cases haccess : T.trace[n + 1].IsAccess
  · rw [if_pos haccess, if_pos haccess]
    cases T.getDynValueFromIndex (T.getInstByID T.trace[n + 1].id) (n + 1) <;> rfl
  · rw [if_neg haccess, if_neg haccess]
    rfl

theorem scanBackward_eq (hn : n < T.trace.length) :
    T.scanBackward n = .ok ((T.accesses n).head?.map Prod.snd, ((T.accesses n).head?.map Prod.fst).getD 0) := by
  induction n with
  | zero => rfl
  | succ n ih =>
      rw [scanBackward_succ hn]
      cases hvalue : T.valueAt (n + 1) with
      | none =>
          rw [accesses_succ_none hvalue]
          exact ih (by omega)
      | some d =>
          rw [accesses_succ_some hvalue]
          rfl

theorem toNat_ofNat_sub_one {i : Nat} (hpos : 0 < i) (hlt : i < 2 ^ 64) : (UInt64.ofNat i - 1).toNat = i - 1 := by
  rw [UInt64.toNat_sub, UInt64.toNat_ofNat', Nat.mod_eq_of_lt hlt]
  change (2 ^ 64 - 1 + i) % 2 ^ 64 = i - 1
  rw [show 2 ^ 64 - 1 + i = i - 1 + 2 ^ 64 by omega, Nat.add_mod_right, Nat.mod_eq_of_lt (by omega)]

theorem toNat_lastIndex (T : Recording ν) : T.lastIndex.toNat = T.trace.length - 1 := by
  rw [lastIndex, UInt64.toNat_ofNat', maxIndex]
  exact Nat.mod_eq_of_lt (by have := T.length_lt; omega)

/-- The next call finds the head of `rest`, or nothing if `rest` is empty. -/
structure At (T : Recording ν) (currIndex : UInt64) (rest : List (Nat × DynValue ν)) : Prop where
  inside : currIndex.toNat < T.trace.length
  rest_eq : T.accesses currIndex.toNat = rest

theorem at_lastIndex (T : Recording ν) : T.At T.lastIndex (T.accesses T.maxIndex) where
  inside := by
    have hpos := List.length_pos_iff.mpr T.trace_ne_nil
    rw [toNat_lastIndex]
    omega
  rest_eq := by rw [toNat_lastIndex, maxIndex]

variable {currIndex : UInt64}

/-- What a call leaves: the head of a list with its record, and the cursor at the rest. -/
inductive Holds (T : Recording ν) : Option (DynValue ν) → UInt64 → List (Nat × DynValue ν) → Prop
  | nothing : Holds T none (0 - 1) []
  | found {i : Nat} {d : DynValue ν} {currIndex : UInt64} {rest : List (Nat × DynValue ν)} (hat : T.At currIndex rest)
      (hindex : getIndexForTheLoadOrStore currIndex = .ofNat i) (hlt : i < 2 ^ 64) : Holds T (some d) currIndex ((i, d) :: rest)

theorem Holds.of_nil {ret : Option (DynValue ν)} (h : T.Holds ret currIndex []) : ret = none := by
  cases h
  rfl

theorem Holds.of_cons {ret : Option (DynValue ν)} (h : T.Holds ret currIndex ((i, d) :: rest)) :
    ret = some d ∧ T.At currIndex rest ∧ getIndexForTheLoadOrStore currIndex = .ofNat i ∧ i < 2 ^ 64 := by
  cases h with
  | found hat hindex hlt => exact ⟨rfl, hat, hindex, hlt⟩

theorem At.next (h : T.At currIndex rest) :
    ∃ ret currIndex', T.getNextLoadOrStore currIndex = .ok (ret, currIndex') ∧ T.Holds ret currIndex' rest := by
  have hnext : T.getNextLoadOrStore currIndex =
      .ok (rest.head?.map Prod.snd, UInt64.ofNat ((rest.head?.map Prod.fst).getD 0) - 1) := by
    rw [getNextLoadOrStore, scanBackward_eq h.inside, h.rest_eq]
    rfl
  refine ⟨_, _, hnext, ?_⟩
  cases rest with
  | nil => exact .nothing
  | cons a rest =>
      obtain ⟨hpos, hle, hrest⟩ := accesses_eq_cons h.rest_eq
      have hinside := h.inside
      have hlt := T.length_lt
      have htoNat : (UInt64.ofNat a.1 - 1).toNat = a.1 - 1 := toNat_ofNat_sub_one hpos (by omega)
      refine .found ⟨?_, ?_⟩ ?_ (by omega)
      · change (UInt64.ofNat a.1 - 1).toNat < _
        omega
      · change T.accesses (UInt64.ofNat a.1 - 1).toNat = rest
        rw [htoNat, hrest]
      · exact UInt64.sub_add_cancel _ _

/-- Once nothing was found, the next call reads outside of the trace. -/
theorem getNextLoadOrStore_wrapped (T : Recording ν) : T.getNextLoadOrStore (0 - 1) = .error .readsOutside := by
  have hlt := T.length_lt
  have hscan : T.scanBackward (UInt64.toNat (0 - 1)) = .error .readsOutside := by
    change T.scanBackward (2 ^ 64 - 2 + 1) = _
    rw [scanBackward, List.getElem?_eq_none (by omega)]
  rw [getNextLoadOrStore, hscan]
  rfl

end Recording

end Witcher.TraceScan
