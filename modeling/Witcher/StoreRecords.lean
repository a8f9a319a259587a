import Witcher.CMemory
import Witcher.Runtime

/-! The records of library calls that write memory (`Giri/TracingNoGiri.cpp`, `runtime/Giri/Tracing.cpp`). The pass
moves the call before the recording of its store, so that the recording finds the new value. The record of a
`strcat` is computed from the old contents of its destination, which are gone by then. -/

namespace Witcher.StoreRecords

open CMemory

/-! ### The calls -/

inductive Call where
  | memset (dst : Nat) (value : UInt8) (numElts : Nat)
  | memcpy (dst src numElts : Nat)
  | strcpy (dst src : Nat)
  | strcat (dst src : Nat)
  deriving DecidableEq, Repr

/-- Where a call writes, and what. -/
def Call.written (mem : Memory) : Call → Option (Nat × List UInt8)
  | .memset dst value numElts => some (dst, List.replicate numElts value)
  | .memcpy dst src numElts => some (dst, readBytes mem src numElts)
  | .strcpy dst src => do
      let length ← strlen mem src
      some (dst, readBytes mem src (length + 1))
  | .strcat dst src => do
      let dstLength ← strlen mem dst
      let length ← strlen mem src
      some (dst + dstLength, readBytes mem src (length + 1))

def Call.run (mem : Memory) (call : Call) : Option Memory := do
  let (dst, bytes) ← call.written mem
  some (writeBytes mem dst bytes)

/-- Two blocks that do not overlap. -/
def Apart (p length q length' : Nat) : Prop := p + length ≤ q ∨ q + length' ≤ p

/-- The arguments are valid: strings are terminated, blocks lie in the address space and do not overlap. -/
def Call.Valid (mem : Memory) : Call → Prop
  | .memset dst _ numElts => dst < addressSpace ∧ numElts < addressSpace ∧ dst + numElts ≤ addressSpace
  | .memcpy dst src numElts => dst < addressSpace ∧ numElts < addressSpace ∧ dst + numElts ≤ addressSpace ∧
      src + numElts ≤ addressSpace ∧ Apart dst numElts src numElts
  | .strcpy dst src => ∃ length, IsString mem src length ∧ src + length < addressSpace ∧ dst + length < addressSpace ∧
      Apart dst (length + 1) src (length + 1)
  | .strcat dst src => ∃ dstLength length, IsString mem dst dstLength ∧ IsString mem src length ∧ src + length < addressSpace ∧
      dst + dstLength + length < addressSpace ∧ Apart dst (dstLength + length + 1) src (length + 1)

/-! ### The recording functions -/

/-- `storeValues` are the values that were added to the store value cache. -/
structure Tracer where
  recording : Bool
  tid : UInt64
  entries : List Entry
  storeValues : List (List UInt8)
  deriving DecidableEq, Repr

namespace Tracer

def addToEntryCache (t : Tracer) (type : RecordType) (id : UInt32) (p length : Nat) : Tracer :=
  { t with entries := t.entries ++ [⟨type, id, t.tid, .ofNat p, .ofNat length⟩] }

def addToStoreValueCache (t : Tracer) (mem : Memory) (p length : Nat) : Tracer :=
  { t with storeValues := t.storeValues ++ [readBytes mem p length] }

def recordLoad (t : Tracer) (id : UInt32) (p length : Nat) : Tracer :=
  if !t.recording then t else t.addToEntryCache .ldType id p length

def recordStrLoad (t : Tracer) (mem : Memory) (id : UInt32) (p : Nat) : Option Tracer :=
  if !t.recording then some t
  else do
    let length ← strlen mem p
    some (t.addToEntryCache .ldType id p (length + 1))

def recordStore (t : Tracer) (mem : Memory) (id : UInt32) (p length : Nat) : Tracer :=
  if !t.recording then t else (t.addToEntryCache .stType id p length).addToStoreValueCache mem p length

def recordStrStore (t : Tracer) (mem : Memory) (id : UInt32) (p : Nat) : Option Tracer :=
  if !t.recording then some t
  else do
    let length ← strlen mem p
    some ((t.addToEntryCache .stType id p (length + 1)).addToStoreValueCache mem p (length + 1))

/-- The value is taken from `p`, not from `start`. -/
def recordStrcatStore (t : Tracer) (mem : Memory) (id : UInt32) (p s : Nat) : Option Tracer :=
  if !t.recording then some t
  else do
    let start := p + (← strlen mem p)
    let length := (← strlen mem s) + 1
    some ((t.addToEntryCache .stType id start length).addToStoreValueCache mem p length)

end Tracer

/-! ### The instrumented call -/

inductive Instruction where
  | load (p length : Nat)
  | strLoad (p : Nat)
  | store (p length : Nat)
  | strStore (p : Nat)
  | strcatStore (p s : Nat)
  | call (call : Call)
  deriving DecidableEq, Repr

/-- The instructions are inserted before the call; then `CI.moveBefore(recStore)`. -/
def instrument (loads : List Instruction) (recStore : Instruction) (call : Call) : List Instruction :=
  loads ++ [.call call, recStore]

def visitSpecialCall (call : Call) : List Instruction :=
  match call with
  | .memset dst _ numElts => instrument [] (.store dst numElts) call
  | .memcpy dst src numElts => instrument [.load src numElts] (.store dst numElts) call
  | .strcpy dst src => instrument [.strLoad src] (.strStore dst) call
  | .strcat dst src => instrument [.strLoad dst, .strLoad src] (.strcatStore dst src) call

def execute (id : UInt32) (s : Memory × Tracer) : Instruction → Option (Memory × Tracer)
  | .load p length => some (s.1, s.2.recordLoad id p length)
  | .strLoad p => do
      let t ← s.2.recordStrLoad s.1 id p
      some (s.1, t)
  | .store p length => some (s.1, s.2.recordStore s.1 id p length)
  | .strStore p => do
      let t ← s.2.recordStrStore s.1 id p
      some (s.1, t)
  | .strcatStore p q => do
      let t ← s.2.recordStrcatStore s.1 id p q
      some (s.1, t)
  | .call call => do
      let mem ← call.run s.1
      some (mem, s.2)

/-- The instrumented call at run time. -/
def runInstrumented (id : UInt32) (mem : Memory) (t : Tracer) (call : Call) : Option (Memory × Tracer) :=
  (visitSpecialCall call).foldlM (execute id) (mem, t)

/-! ### What a record is to describe -/

/-- The last record is a store record of the range the call wrote, and the value that was added is what the range
holds after the call. -/
structure Describes (id : UInt32) (mem : Memory) (t : Tracer) (call : Call) (mem' : Memory) (t' : Tracer) : Prop where
  ran : call.run mem = some mem'
  described : ∃ dst bytes entry, call.written mem = some (dst, bytes) ∧ t'.entries.getLast? = some entry ∧
    entry.type = .stType ∧ entry.id = id ∧ entry.address.toNat = dst ∧ entry.length.toNat = bytes.length ∧
    t'.storeValues = t.storeValues ++ [readBytes mem' dst bytes.length]

section Records

variable {id : UInt32} {mem : Memory} {t : Tracer}

theorem Call.run_eq {call : Call} {dst : Nat} {bytes : List UInt8} (h : call.written mem = some (dst, bytes)) :
    call.run mem = some (writeBytes mem dst bytes) := by
  rw [Call.run, h]
  rfl

/-- What an instrumented call leaves: the record of `length` bytes at `p` and a value, when it wrote `bytes` at `dst`. -/
structure Leaves (id : UInt32) (mem : Memory) (t : Tracer) (call : Call) (dst : Nat) (bytes : List UInt8) (p length : Nat)
    (value : List UInt8) : Prop where
  written : call.written mem = some (dst, bytes)
  address : p < addressSpace
  size : length < addressSpace
  run : ∃ entries, runInstrumented id mem t call = some (writeBytes mem dst bytes,
    { t with
      entries := entries ++ [⟨.stType, id, t.tid, .ofNat p, .ofNat length⟩]
      storeValues := t.storeValues ++ [value] })

theorem Leaves.outcome_iff {call : Call} {dst p length : Nat} {bytes value : List UInt8}
    (h : Leaves id mem t call dst bytes p length value) :
    (∃ mem' t', runInstrumented id mem t call = some (mem', t') ∧ Describes id mem t call mem' t') ↔
      p = dst ∧ length = bytes.length ∧ value = bytes := by
  obtain ⟨hwritten, hp, hlength, entries, hrun⟩ := h
  have haddress : (UInt64.ofNat p).toNat = p := UInt64.toNat_ofNat_of_lt' hp
  have hsize : (UInt64.ofNat length).toNat = length := UInt64.toNat_ofNat_of_lt' hlength
  constructor
  · rintro ⟨mem', t', hrun', -, dst', bytes', entry, hwritten', hlast, -, -, hstart, hcount, hvalue⟩
    rw [hwritten, Option.some_inj, Prod.mk.injEq] at hwritten'
    obtain ⟨rfl, rfl⟩ := hwritten'
    rw [hrun, Option.some_inj, Prod.mk.injEq] at hrun'
    obtain ⟨rfl, rfl⟩ := hrun'
    rw [List.getLast?_concat, Option.some_inj] at hlast
    subst hlast
    rw [readBytes_writeBytes] at hvalue
    exact ⟨haddress.symm.trans hstart, hsize.symm.trans hcount, List.singleton_inj.mp (List.append_cancel_left hvalue)⟩
  · rintro ⟨rfl, rfl, rfl⟩
    refine ⟨_, _, hrun, Call.run_eq hwritten, p, value, _, hwritten, List.getLast?_concat, rfl, rfl, haddress, hsize, ?_⟩
    rw [readBytes_writeBytes]

theorem memset_leaves (hrecording : t.recording = true) {dst numElts : Nat} {value : UInt8}
    (hvalid : (Call.memset dst value numElts).Valid mem) :
    Leaves id mem t (.memset dst value numElts) dst (List.replicate numElts value) dst numElts
      (List.replicate numElts value) := by
  obtain ⟨hdst, hsize, -⟩ := hvalid
  have hread := readBytes_writeBytes mem dst (List.replicate numElts value)
  rw [List.length_replicate] at hread
  refine ⟨rfl, hdst, hsize, t.entries, ?_⟩
  simp [runInstrumented, visitSpecialCall, instrument, execute, Call.run, Call.written, Tracer.recordStore, hrecording,
    Tracer.addToEntryCache, Tracer.addToStoreValueCache, hread]

theorem memcpy_leaves (hrecording : t.recording = true) {dst src numElts : Nat}
    (hvalid : (Call.memcpy dst src numElts).Valid mem) :
    ∃ bytes, Leaves id mem t (.memcpy dst src numElts) dst bytes dst numElts bytes ∧ bytes.length = numElts := by
  obtain ⟨hdst, hsize, -⟩ := hvalid
  have hread := readBytes_writeBytes mem dst (readBytes mem src numElts)
  rw [length_readBytes] at hread
  refine ⟨readBytes mem src numElts, ⟨rfl, hdst, hsize, t.entries ++ [⟨.ldType, id, t.tid, .ofNat src, .ofNat numElts⟩], ?_⟩,
    length_readBytes mem src numElts⟩
  simp only [runInstrumented, visitSpecialCall, instrument, execute, Call.run, Call.written, Tracer.recordLoad,
    Tracer.recordStore, hrecording, Tracer.addToEntryCache, Tracer.addToStoreValueCache, hread, List.singleton_append,
    List.foldlM_cons, List.foldlM_nil, Bool.not_true, Bool.false_eq_true, if_false, Option.bind_eq_bind,
    Option.bind_some, Option.pure_def]

/-- After the copy the destination is the string. -/
theorem strcpy_leaves (hrecording : t.recording = true) {dst src : Nat} (hvalid : (Call.strcpy dst src).Valid mem) :
    ∃ bytes, Leaves id mem t (.strcpy dst src) dst bytes dst bytes.length bytes := by
  obtain ⟨length, hstring, hsrc, hdst, hapart⟩ := hvalid
  have hread := readBytes_writeBytes mem dst (readBytes mem src (length + 1))
  rw [length_readBytes] at hread
  have hbefore := strlen_eq hstring hsrc
  have hafter := strlen_eq (hstring.copy dst) hdst
  refine ⟨readBytes mem src (length + 1), ?_, by omega, ?_,
    t.entries ++ [⟨.ldType, id, t.tid, .ofNat src, .ofNat (length + 1)⟩], ?_⟩
  · rw [Call.written, hbefore]
    rfl
  · rw [length_readBytes]
    rw [Apart] at hapart
    omega
  · simp only [runInstrumented, visitSpecialCall, instrument, execute, Call.run, Call.written, Tracer.recordStrLoad,
      Tracer.recordStrStore, hrecording, Tracer.addToEntryCache, Tracer.addToStoreValueCache, hread, hbefore, hafter,
      List.singleton_append, List.foldlM_cons, List.foldlM_nil, Bool.not_true, Bool.false_eq_true, if_false,
      Option.bind_eq_bind, Option.bind_some, Option.pure_def, length_readBytes]

/-- After the call the destination is the concatenation, so the record starts at its end. -/
theorem strcat_leaves (hrecording : t.recording = true) {dst src dstLength length : Nat} (hdst : IsString mem dst dstLength)
    (hsrc : IsString mem src length) (hsrcSpace : src + length < addressSpace)
    (hdstSpace : dst + dstLength + length < addressSpace) (hapart : Apart dst (dstLength + length + 1) src (length + 1)) :
    Leaves id mem t (.strcat dst src) (dst + dstLength) (readBytes mem src (length + 1))
      (dst + (dstLength + length)) (length + 1)
      (readBytes (writeBytes mem (dst + dstLength) (readBytes mem src (length + 1))) dst (length + 1)) := by
  rw [Apart] at hapart
  have hbefore := strlen_eq hdst (by omega)
  have hbefore' := strlen_eq hsrc hsrcSpace
  have hafter := strlen_eq (hdst.concat hsrc) (by omega)
  have hafter' : strlen (writeBytes mem (dst + dstLength) (readBytes mem src (length + 1))) src = some length := by
    refine strlen_eq (hsrc.congr fun i hi => writeBytes_outside ?_) hsrcSpace
    rw [length_readBytes]
    omega
  refine ⟨?_, by omega, by omega, t.entries ++ [⟨.ldType, id, t.tid, .ofNat dst, .ofNat (dstLength + 1)⟩] ++
    [⟨.ldType, id, t.tid, .ofNat src, .ofNat (length + 1)⟩], ?_⟩
  · rw [Call.written, hbefore, hbefore']
    rfl
  · simp only [runInstrumented, visitSpecialCall, instrument, execute, Call.run, Call.written, Tracer.recordStrLoad,
      Tracer.recordStrcatStore, hrecording, Tracer.addToEntryCache, Tracer.addToStoreValueCache, hbefore, hbefore',
      hafter, hafter', List.cons_append, List.nil_append, List.foldlM_cons, List.foldlM_nil, Bool.not_true,
      Bool.false_eq_true, if_false, Option.bind_eq_bind, Option.bind_some, Option.pure_def]

theorem strcat_value_iff {dst src dstLength length : Nat} (hdst : IsString mem dst dstLength) (hsrc : IsString mem src length) :
    (dst + (dstLength + length) = dst + dstLength ∧ length + 1 = (readBytes mem src (length + 1)).length ∧
        readBytes (writeBytes mem (dst + dstLength) (readBytes mem src (length + 1))) dst (length + 1) =
          readBytes mem src (length + 1)) ↔
      mem dst = 0 ∧ mem src = 0 := by
  rw [hdst.zero_iff, hsrc.zero_iff, length_readBytes]
  constructor
  · rintro ⟨hstart, -, hvalue⟩
    have hlength : length = 0 := by omega
    subst hlength
    refine ⟨?_, rfl⟩
    -- the first byte of a nonempty destination is not the terminator that was written
    by_contra hne
    have hfirst := congrArg (fun bytes => bytes[0]?) hvalue
    simp only [getElem?_readBytes, Nat.zero_add, Nat.zero_lt_one, if_true, Nat.add_zero, Option.some_inj] at hfirst
    rw [writeBytes_outside (by omega)] at hfirst
    have hterminator : mem src = 0 := hsrc.terminated
    exact hdst.nonzero 0 (by omega) (hfirst.trans hterminator)
  · rintro ⟨rfl, rfl⟩
    refine ⟨rfl, rfl, ?_⟩
    have hread := readBytes_writeBytes mem dst (readBytes mem src 1)
    rw [length_readBytes] at hread
    exact hread

end Records

/-- The record describes what the call wrote, unless the call is a `strcat` of strings that are not both empty. -/
theorem describes_iff (id : UInt32) (mem : Memory) (t : Tracer) (call : Call) (hrecording : t.recording = true)
    (hvalid : call.Valid mem) :
    (∃ mem' t', runInstrumented id mem t call = some (mem', t') ∧ Describes id mem t call mem' t') ↔
      ∀ dst src, call = .strcat dst src → mem dst = 0 ∧ mem src = 0 := by
  cases call with
  | memset dst value numElts =>
      rw [(memset_leaves hrecording hvalid).outcome_iff]
      exact iff_of_true ⟨rfl, by rw [List.length_replicate], rfl⟩ (by simp)
  | memcpy dst src numElts =>
      obtain ⟨bytes, hleaves, hlength⟩ := memcpy_leaves hrecording hvalid
      rw [hleaves.outcome_iff]
      exact iff_of_true ⟨rfl, hlength.symm, rfl⟩ (by simp)
  | strcpy dst src =>
      obtain ⟨bytes, hleaves⟩ := strcpy_leaves hrecording hvalid
      rw [hleaves.outcome_iff]
      exact iff_of_true ⟨rfl, rfl, rfl⟩ (by simp)
  | strcat dst src =>
      obtain ⟨dstLength, length, hdst, hsrc, hsrcSpace, hdstSpace, hapart⟩ := hvalid
      rw [(strcat_leaves hrecording hdst hsrc hsrcSpace hdstSpace hapart).outcome_iff, strcat_value_iff hdst hsrc]
      simp

/-- The strings "a" at 0 and "b" at 16. -/
def twoStrings : Memory := fun a => if a = 0 then 97 else if a = 16 then 98 else 0

theorem isString_a : IsString twoStrings 0 1 := ⟨rfl, by decide⟩

theorem isString_b : IsString twoStrings 16 1 := ⟨rfl, by decide⟩

theorem describes_strcpy : ∃ mem' t', runInstrumented 3 twoStrings ⟨true, 7, [], []⟩ (.strcpy 0 16) = some (mem', t') ∧
    Describes 3 twoStrings ⟨true, 7, [], []⟩ (.strcpy 0 16) mem' t' := by
  have hvalid : (Call.strcpy 0 16).Valid twoStrings := ⟨1, isString_b, by decide, by decide, .inl (by decide)⟩
  exact (describes_iff 3 twoStrings ⟨true, 7, [], []⟩ (.strcpy 0 16) rfl hvalid).mpr (by simp)

/-- The call writes "b" and the terminator at 1; the record is of two bytes at 2, with the value "ab". -/
theorem describes_fails_strcat : (Call.strcat 0 16).Valid twoStrings ∧
    ¬∃ mem' t', runInstrumented 3 twoStrings ⟨true, 7, [], []⟩ (.strcat 0 16) = some (mem', t') ∧
      Describes 3 twoStrings ⟨true, 7, [], []⟩ (.strcat 0 16) mem' t' := by
  refine ⟨⟨1, 1, isString_a, isString_b, by decide, by decide, .inl (by decide)⟩, ?_⟩
  have hleaves := @strcat_leaves 3 twoStrings ⟨true, 7, [], []⟩ rfl 0 16 1 1 isString_a isString_b (by decide) (by decide)
    (.inl (by decide))
  rw [hleaves.outcome_iff]
  rintro ⟨hstart, -⟩
  exact absurd hstart (by decide)

end Witcher.StoreRecords
