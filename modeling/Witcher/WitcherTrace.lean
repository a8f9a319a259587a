import Witcher.Loops
import Witcher.MemoryOperations

/-! Extraction of the operations of a trace (`replay/mem/witchertrace.py`). Every entry becomes one
operation of `ops` and one operation of `atomicWriteOps`, except that a store is split there into
chunks that do not cross an 8-byte word. The entries are taken after the split of a line at its
commas. -/

namespace Witcher

open TrueDivision

inductive TraceEntry where
  | store (tid address size : Nat) (value : List UInt8) (srcInfo : String)
  | flush (tid address : Nat) (srcInfo : String)
  | fence (tid : Nat) (srcInfo : String)
  | txStart (tid : Nat) (srcInfo : String)
  | txEnd (tid : Nat) (srcInfo : String)
  | txAlloc (tid address size : Nat) (srcInfo : String)
  | txAdd (tid address size : Nat) (srcInfo : String)
  | call (funcName : String) (tid : Nat) (srcInfo note : String)
  deriving DecidableEq, Repr

/-- The operation an entry stands for, at index `id`; a store here is the whole store. -/
def TraceEntry.op (id : Nat) : TraceEntry → Op
  | .store tid address size value srcInfo => .store ⟨⟨id, tid, srcInfo⟩, address, size, value⟩
  | .flush tid address srcInfo => .flush ⟨⟨id, tid, srcInfo⟩, address⟩
  | .fence tid srcInfo => .fence ⟨id, tid, srcInfo⟩
  | .txStart tid srcInfo => .txStart ⟨id, tid, srcInfo⟩
  | .txEnd tid srcInfo => .txEnd ⟨id, tid, srcInfo⟩
  | .txAlloc tid address size srcInfo => .pmdkTXAlloc ⟨⟨id, tid, srcInfo⟩, address, size⟩
  | .txAdd tid address size srcInfo => .pmdkTXAdd ⟨⟨id, tid, srcInfo⟩, address, size⟩
  | .call funcName tid srcInfo note => .pmdkCall ⟨⟨id, tid, srcInfo⟩, funcName, note⟩

@[simp] theorem TraceEntry.id_op (id : Nat) (e : TraceEntry) : (e.op id).id = id := by
  cases e <;> rfl

/-! ### Splitting a store into atomic writes -/

/-- The slice `value[offset:offset+size]` of the store as a store of its own. -/
def chunk (st : Store) (id offset size : Nat) : Store :=
  ⟨⟨id, st.tid, st.srcInfo⟩, st.address + offset, size, (st.valueBytes.drop offset).take size⟩

/-- The loop over whole words, `while curr_offset + ATOMIC_WRITE_BYTES <= size`. Every iteration
advances the offset, so `st.size` iterations are enough. Returns the chunks and the final offset. -/
def wordStores (st : Store) : Nat → Nat → Nat → List Store × Nat
  | 0, _, offset => ([], offset)
  | fuel + 1, id, offset =>
      if offset + atomicWriteBytes ≤ st.size then
        let (rest, last) := wordStores st fuel (id + 1) (offset + atomicWriteBytes)
        (chunk st id offset atomicWriteBytes :: rest, last)
      else ([], offset)

/-- `get_stores`: the atomic writes of a store, numbered from `id`. -/
def getStores (st : Store) (id : Nat) : List Store :=
  let low := trueDivInt st.address atomicWriteBytes * atomicWriteBytes
  let high := low + atomicWriteBytes
  let (first, offset) :=
    if st.address > low then ([chunk st id 0 (min st.size (high - st.address))], high - st.address)
    else ([], 0)
  let (words, offset) := wordStores st st.size (id + first.length) offset
  let last := if 0 < st.size - offset then [chunk st (id + first.length + words.length) offset (st.size - offset)]
    else []
  first ++ words ++ last

/-! ### The scan -/

structure WitcherTrace where
  ops : List Op
  opsTxRanges : List (Nat × Nat)
  atomicWriteOps : List Op
  atomicWriteOpsTxRanges : List (Nat × Nat)
  deriving DecidableEq, Repr

/-- The local variables of `extract_operations`; the start indices are `none` where the source
has `-1`. -/
structure ExtractState where
  trace : WitcherTrace
  opCurrIndex : Nat
  opCurrTxStartIndex : Option Nat
  atomicWriteOpCurrIndex : Int
  atomicWriteOpCurrTxStartIndex : Option Nat

def ExtractState.init : ExtractState := ⟨⟨[], [], [], []⟩, 0, none, 0, none⟩

/-- Append the operation of an entry that is not split. -/
def ExtractState.append (s : ExtractState) (e : TraceEntry) : ExtractState :=
  { s with trace :=
    { s.trace with
      ops := s.trace.ops ++ [e.op s.opCurrIndex]
      atomicWriteOps := s.trace.atomicWriteOps ++ [e.op s.atomicWriteOpCurrIndex.toNat] } }

def ExtractState.next (s : ExtractState) : ExtractState :=
  { s with opCurrIndex := s.opCurrIndex + 1, atomicWriteOpCurrIndex := s.atomicWriteOpCurrIndex + 1 }

/-- One iteration of the loop over the entries. -/
def extractEntry (s : ExtractState) (e : TraceEntry) : Except ReplayError ExtractState := do
  match e with
  | .store tid address size value srcInfo =>
      let store : Store := ⟨⟨s.opCurrIndex, tid, srcInfo⟩, address, size, value⟩
      let atomicStoreList := getStores store s.atomicWriteOpCurrIndex.toNat
      let s := { s with
        trace := { s.trace with
          ops := s.trace.ops ++ [Op.store store]
          atomicWriteOps := s.trace.atomicWriteOps ++ atomicStoreList.map Op.store }
        atomicWriteOpCurrIndex := s.atomicWriteOpCurrIndex + atomicStoreList.length - 1 }
      .ok s.next
  | .txStart _ _ =>
      let s := s.append e
      assert (s.opCurrTxStartIndex = none)
      let s := { s with opCurrTxStartIndex := some s.opCurrIndex }
      assert (s.atomicWriteOpCurrTxStartIndex = none)
      let s := { s with atomicWriteOpCurrTxStartIndex := some s.atomicWriteOpCurrIndex.toNat }
      .ok s.next
  | .txEnd _ _ =>
      let s := s.append e
      let some start := s.opCurrTxStartIndex | .error .assertion
      let s := { s with
        trace := { s.trace with opsTxRanges := s.trace.opsTxRanges ++ [(start, s.opCurrIndex)] }
        opCurrTxStartIndex := none }
      let some start := s.atomicWriteOpCurrTxStartIndex | .error .assertion
      let s := { s with
        trace := { s.trace with
          atomicWriteOpsTxRanges :=
            s.trace.atomicWriteOpsTxRanges ++ [(start, s.atomicWriteOpCurrIndex.toNat)] }
        atomicWriteOpCurrTxStartIndex := none }
      .ok s.next
  | _ => .ok (s.append e).next

def extractOperations (entries : List TraceEntry) : Except ReplayError WitcherTrace := do
  let s ← entries.foldlM extractEntry ExtractState.init
  .ok s.trace

/-! ### Chunks lie in words -/

/-- The store is not empty, or lies strictly inside its aligned word; either way it overlaps the
word. -/
def Store.OverlapsWord (st : Store) : Prop := 0 < st.size ∨ ¬8 ∣ st.address

/-- What every chunk of a store is: a slice of it inside one aligned word. -/
structure IsChunk (st c : Store) : Prop where
  low : st.address ≤ c.address
  high : c.address + c.size ≤ st.address + st.size
  word : c.address + c.size ≤ c.address / 8 * 8 + 8
  bytes : st.valueBytes.length = st.size → c.valueBytes.length = c.size
  overlap : c.OverlapsWord

theorem isChunk_chunk (st : Store) (id offset size : Nat) (hsize : offset + size ≤ st.size)
    (hword : st.address + offset + size ≤ (st.address + offset) / 8 * 8 + 8)
    (hoverlap : 0 < size ∨ ¬8 ∣ st.address + offset) : IsChunk st (chunk st id offset size) where
  low := Nat.le_add_right _ _
  high := by
    simp only [chunk]
    omega
  word := hword
  bytes h := by
    simp only [chunk, List.length_take, List.length_drop, h]
    omega
  overlap := hoverlap

/-- Slices of the store inside aligned words, numbered from `id`. -/
structure Chunks (st : Store) (id : Nat) (l : List Store) : Prop where
  chunk : ∀ c ∈ l, IsChunk st c
  ids : ∀ i c, l[i]? = some c → c.id = id + i

theorem Chunks.nil (st : Store) (id : Nat) : Chunks st id [] := ⟨by simp, by simp⟩

theorem Chunks.singleton {st c : Store} {id : Nat} (h : IsChunk st c) (hid : c.id = id) : Chunks st id [c] := by
  refine ⟨List.forall_mem_singleton.mpr h, ?_⟩
  intro i x hx
  cases i with
  | zero =>
      simp only [List.getElem?_cons_zero, Option.some.injEq] at hx
      rw [← hx, hid, Nat.add_zero]
  | succ i => simp at hx

theorem Chunks.append {st : Store} {id : Nat} {front back : List Store} (hfront : Chunks st id front)
    (hback : Chunks st (id + front.length) back) : Chunks st id (front ++ back) := by
  refine ⟨List.forall_mem_append.mpr ⟨hfront.chunk, hback.chunk⟩, ?_⟩
  intro i c h
  by_cases hi : i < front.length
  · rw [List.getElem?_append_left hi] at h
    exact hfront.ids i c h
  · rw [List.getElem?_append_right (by omega)] at h
    rw [hback.ids _ c h]
    omega

theorem wordStores_succ_pos (st : Store) (fuel id offset : Nat) (h : offset + 8 ≤ st.size) :
    wordStores st (fuel + 1) id offset =
      (chunk st id offset 8 :: (wordStores st fuel (id + 1) (offset + 8)).1,
        (wordStores st fuel (id + 1) (offset + 8)).2) := by
  rw [wordStores, atomicWriteBytes, if_pos h]

theorem wordStores_succ_neg (st : Store) (fuel id offset : Nat) (h : ¬offset + 8 ≤ st.size) :
    wordStores st (fuel + 1) id offset = ([], offset) := by
  rw [wordStores, atomicWriteBytes, if_neg h]

/-- The word loop stops at an aligned address and, with enough fuel, only when less than a word is left. -/
theorem wordStores_spec (st : Store) (fuel id offset : Nat) (halign : 8 ∣ st.address + offset) :
    Chunks st id (wordStores st fuel id offset).1 ∧ 8 ∣ st.address + (wordStores st fuel id offset).2 ∧
      (st.size < offset + 8 * fuel → st.size < (wordStores st fuel id offset).2 + 8) := by
  induction fuel generalizing id offset with
  | zero => exact ⟨Chunks.nil st id, halign, fun h => by simp [wordStores]; omega⟩
  | succ fuel ih =>
      obtain ⟨hchunks, hlast, hstop⟩ := ih (id + 1) (offset + 8) (by omega)
      by_cases hfit : offset + 8 ≤ st.size
      · rw [wordStores_succ_pos st fuel id offset hfit]
        have hfirst := isChunk_chunk st id offset 8 hfit (by omega) (.inl (by omega))
        exact ⟨(Chunks.singleton hfirst rfl).append hchunks, hlast, fun h => hstop (by omega)⟩
      · rw [wordStores_succ_neg st fuel id offset hfit]
        exact ⟨Chunks.nil st id, halign, fun _ => by simp only; omega⟩

/-- What is left after the last whole word. -/
theorem lastStore_spec (st : Store) (id offset : Nat) (halign : 8 ∣ st.address + offset)
    (hstop : 0 < st.size - offset → st.size < offset + 8) :
    Chunks st id (if 0 < st.size - offset then [chunk st id offset (st.size - offset)] else []) := by
  split_ifs with hpos
  · have hless := hstop hpos
    exact Chunks.singleton (isChunk_chunk st id offset _ (by omega) (by omega) (.inl hpos)) rfl
  · exact Chunks.nil st id

/-- `get_stores` numbers its chunks consecutively, and below `2^53` each is a slice of the store
inside one aligned word. -/
theorem getStores_spec (st : Store) (id : Nat) (haddr : st.address < 2 ^ 53) : Chunks st id (getStores st id) := by
  have hdiv : trueDivInt st.address 8 = st.address / 8 := trueDivInt_eq_div _ 8 (by decide) haddr
  simp only [getStores, atomicWriteBytes, hdiv]
  by_cases hlow : st.address > st.address / 8 * 8
  · simp only [if_pos hlow]
    have hfirst := isChunk_chunk st id 0 (min st.size (st.address / 8 * 8 + 8 - st.address)) (by omega) (by omega)
      (.inr (by omega))
    obtain ⟨hchunks, hlast, hstop⟩ := wordStores_spec st st.size (id + 1) (st.address / 8 * 8 + 8 - st.address) (by omega)
    apply ((Chunks.singleton hfirst rfl).append hchunks).append
    rw [List.length_append, List.length_singleton, ← Nat.add_assoc]
    exact lastStore_spec st _ _ hlast fun _ => hstop (by omega)
  · simp only [if_neg hlow]
    obtain ⟨hchunks, hlast, hstop⟩ := wordStores_spec st st.size id 0 (by omega)
    simp only [List.length_nil, List.nil_append, Nat.add_zero]
    exact hchunks.append (lastStore_spec st _ _ hlast fun _ => hstop (by omega))

/-! ### What the scan keeps -/

/-- A store entry inside the mapped range and below `2^53`, with as many bytes as its size. -/
def TraceEntry.Mapped (mapBase length : Nat) : TraceEntry → Prop
  | .store _ address size value _ =>
      mapBase ≤ address ∧ address + size ≤ mapBase + length ∧ address + size < 2 ^ 53 ∧ value.length = size
  | .flush _ address _ => address < 2 ^ 53
  | _ => True

/-- A store inside the mapped range, with as many bytes as its size. -/
structure Store.Mapped (mapBase length : Nat) (st : Store) : Prop where
  low : mapBase ≤ st.address
  high : st.address + st.size ≤ mapBase + length
  bytes : st.valueBytes.length = st.size

instance (mapBase length : Nat) (st : Store) : Decidable (st.Mapped mapBase length) :=
  decidable_of_iff (mapBase ≤ st.address ∧ st.address + st.size ≤ mapBase + length ∧
    st.valueBytes.length = st.size) ⟨fun ⟨h1, h2, h3⟩ => ⟨h1, h2, h3⟩, fun h => ⟨h.low, h.high, h.bytes⟩⟩

/-- What the replay needs to know of an operation of `atomicWriteOps`. -/
def Op.Replayable (mapBase length : Nat) : Op → Prop
  | .store st => st.Atomic ∧ st.Mapped mapBase length
  | .flush f => f.addressNotAligned < 2 ^ 53
  | _ => True

instance (mapBase length : Nat) : (op : Op) → Decidable (op.Replayable mapBase length)
  | .store st => inferInstanceAs (Decidable (st.Atomic ∧ st.Mapped mapBase length))
  | .flush f => inferInstanceAs (Decidable (f.addressNotAligned < 2 ^ 53))
  | .txStart _ | .txEnd _ | .pmdkCall _ | .pmdkTXAdd _ | .pmdkTXAlloc _ | .fence _ => .isTrue trivial

instance (mapBase length : Nat) : (e : TraceEntry) → Decidable (e.Mapped mapBase length)
  | .store _ address size value _ => inferInstanceAs (Decidable (mapBase ≤ address ∧
      address + size ≤ mapBase + length ∧ address + size < 2 ^ 53 ∧ value.length = size))
  | .flush _ address _ => inferInstanceAs (Decidable (address < 2 ^ 53))
  | .fence _ _ | .txStart _ _ | .txEnd _ _ | .txAlloc _ _ _ _ | .txAdd _ _ _ _ | .call _ _ _ _ => .isTrue trivial

theorem IsChunk.replayable {mapBase length : Nat} {st c : Store} (h : IsChunk st c)
    (hst : st.Mapped mapBase length) (haddr : st.address + st.size < 2 ^ 53) :
    (Op.store c).Replayable mapBase length := by
  have := h.low
  have := h.high
  have := hst.low
  have := hst.high
  exact ⟨⟨by omega, h.word⟩, ⟨by omega, by omega, h.bytes hst.bytes⟩⟩

/-- What one entry does to `atomicWriteOps`, its ranges and the open transaction: it appends
consecutively numbered operations; only a `TXStart` opens a transaction, only a `TXEnd` closes it. -/
structure Extracted (mapBase length : Nat) (s s' : ExtractState) (added : List Op) : Prop where
  ops : s'.trace.atomicWriteOps = s.trace.atomicWriteOps ++ added
  index : s'.atomicWriteOpCurrIndex = s'.trace.atomicWriteOps.length
  ids : ∀ (i : Nat) (op : Op), added[i]? = some op → op.id = s.trace.atomicWriteOps.length + i
  replayable : ∀ op ∈ added, op.Replayable mapBase length
  overlap : ∀ st, Op.store st ∈ added → st.OverlapsWord
  boundary :
    ((∀ op ∈ added, op.isBoundary = false) ∧
      s'.trace.atomicWriteOpsTxRanges = s.trace.atomicWriteOpsTxRanges ∧
      s'.atomicWriteOpCurrTxStartIndex = s.atomicWriteOpCurrTxStartIndex) ∨
    (∃ b, added = [.txStart b] ∧ s.atomicWriteOpCurrTxStartIndex = none ∧
      s'.atomicWriteOpCurrTxStartIndex = some s.trace.atomicWriteOps.length ∧
      s'.trace.atomicWriteOpsTxRanges = s.trace.atomicWriteOpsTxRanges) ∨
    (∃ b start, added = [.txEnd b] ∧ s.atomicWriteOpCurrTxStartIndex = some start ∧
      s'.atomicWriteOpCurrTxStartIndex = none ∧
      s'.trace.atomicWriteOpsTxRanges =
        s.trace.atomicWriteOpsTxRanges ++ [(start, s.trace.atomicWriteOps.length)])

theorem singleton_ids {e : TraceEntry} {n : Nat} (i : Nat) (op : Op) (h : [e.op n][i]? = some op) :
    op.id = n + i := by
  cases i with
  | zero =>
      simp only [List.getElem?_cons_zero, Option.some.injEq] at h
      rw [← h, TraceEntry.id_op, Nat.add_zero]
  | succ i => simp at h

/-- The entries that are appended as they are. -/
theorem plain_cases {mapBase length : Nat} {s s' : ExtractState} {e : TraceEntry}
    (h : Except.ok (s.append e).next = (Except.ok s' : Except ReplayError ExtractState))
    (hmap : ∀ id, (e.op id).Replayable mapBase length) (hplain : ∀ id, (e.op id).isBoundary = false)
    (hstore : ∀ id st, e.op id ≠ .store st)
    (hindex : s.atomicWriteOpCurrIndex = s.trace.atomicWriteOps.length) :
    ∃ added, Extracted mapBase length s s' added := by
  cases h
  refine ⟨_, rfl, ?_, ?_, ?_, ?_, .inl ⟨?_, rfl, rfl⟩⟩
  · simp [ExtractState.next, ExtractState.append, hindex]
  · rw [hindex, Int.toNat_natCast]
    exact singleton_ids
  · intro op hop
    rw [List.mem_singleton.mp hop]
    exact hmap _
  · intro st hst
    exact absurd (List.mem_singleton.mp hst).symm (hstore _ st)
  · intro op hop
    rw [List.mem_singleton.mp hop]
    exact hplain _

theorem extractEntry_cases {mapBase length : Nat} {s s' : ExtractState} {e : TraceEntry}
    (h : extractEntry s e = .ok s') (hindex : s.atomicWriteOpCurrIndex = s.trace.atomicWriteOps.length)
    (hmap : e.Mapped mapBase length) : ∃ added, Extracted mapBase length s s' added := by
  have htoNat : s.atomicWriteOpCurrIndex.toNat = s.trace.atomicWriteOps.length := by
    rw [hindex, Int.toNat_natCast]
  cases e with
  | store tid address size value srcInfo =>
      obtain ⟨hlow, hhigh, haddr, hbytes⟩ := hmap
      cases h
      obtain ⟨hchunks, hids⟩ := getStores_spec ⟨⟨s.opCurrIndex, tid, srcInfo⟩, address, size, value⟩
        s.trace.atomicWriteOps.length (by simp only; omega)
      refine ⟨_, rfl, ?_, ?_, ?_, ?_, .inl ⟨?_, rfl, rfl⟩⟩
      · simp [ExtractState.next, hindex]
      · intro i op hop
        rw [htoNat, List.getElem?_map] at hop
        obtain ⟨c, hc, rfl⟩ := Option.map_eq_some_iff.mp hop
        exact hids i c hc
      · intro op hop
        rw [htoNat] at hop
        obtain ⟨c, hc, rfl⟩ := List.mem_map.mp hop
        exact (hchunks c hc).replayable ⟨hlow, hhigh, hbytes⟩ haddr
      · intro st hst
        rw [htoNat] at hst
        obtain ⟨c, hc, heq⟩ := List.mem_map.mp hst
        cases heq
        exact (hchunks _ hc).overlap
      · intro op hop
        obtain ⟨c, _, rfl⟩ := List.mem_map.mp hop
        rfl
  | txStart tid srcInfo =>
      obtain ⟨_, _, h⟩ := Loops.bind_ok h
      obtain ⟨_, hstart, h⟩ := Loops.bind_ok h
      cases h
      refine ⟨_, rfl, ?_, ?_, ?_, ?_, .inr (.inl ⟨_, rfl, of_decide_eq_true (assert_ok hstart), ?_, rfl⟩)⟩
      · simp [ExtractState.next, ExtractState.append, hindex]
      · rw [htoNat]
        exact singleton_ids
      · simp [TraceEntry.op, Op.Replayable]
      · simp [TraceEntry.op]
      · simp [ExtractState.next, ExtractState.append, htoNat]
  | txEnd tid srcInfo =>
      cases hplain : s.opCurrTxStartIndex with
      | none => simp [extractEntry, ExtractState.append, hplain] at h
      | some plain =>
          cases hstart : s.atomicWriteOpCurrTxStartIndex with
          | none => simp [extractEntry, ExtractState.append, hplain, hstart] at h
          | some start =>
              simp only [extractEntry, ExtractState.append, hplain, hstart] at h
              cases h
              refine ⟨_, rfl, ?_, ?_, ?_, ?_, .inr (.inr ⟨_, start, rfl, hstart, rfl, ?_⟩)⟩
              · simp [ExtractState.next, hindex]
              · rw [htoNat]
                exact singleton_ids
              · simp [TraceEntry.op, Op.Replayable]
              · simp [TraceEntry.op]
              · simp [ExtractState.next, htoNat]
  | flush tid address srcInfo => exact plain_cases h (fun _ => hmap) (fun _ => rfl) (by simp [TraceEntry.op]) hindex
  | fence tid srcInfo => exact plain_cases h (fun _ => trivial) (fun _ => rfl) (by simp [TraceEntry.op]) hindex
  | txAlloc tid address size srcInfo => exact plain_cases h (fun _ => trivial) (fun _ => rfl) (by simp [TraceEntry.op]) hindex
  | txAdd tid address size srcInfo => exact plain_cases h (fun _ => trivial) (fun _ => rfl) (by simp [TraceEntry.op]) hindex
  | call funcName tid srcInfo note => exact plain_cases h (fun _ => trivial) (fun _ => rfl) (by simp [TraceEntry.op]) hindex

end Witcher
