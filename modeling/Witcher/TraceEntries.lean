import Witcher.TraceRoundTrip
import Witcher.WitcherTrace

/-! The entries of a trace, read from its text. The replay is modelled over entries that are split at their
commas; here each line of the text stands for an entry, and the two scans keep the same operations. -/

namespace Witcher.TraceText

open Loops TrueDivision PythonText

/-! ### Lines and entries -/

/-- The texts of the bytes, one for each; the value of a store of no bytes is one empty text. -/
def ReadsBytes (strs : List (List Char)) (bytes : List UInt8) : Prop :=
  List.Forall₂ (fun str b => fromHex str = some [b]) strs bytes ∨ (strs = [[]] ∧ bytes = [])

/-- The types that are not those of a library call. -/
def entryTypes : List (List Char) :=
  ["Store".toList, "TXStart".toList, "TXEnd".toList, "Flush".toList, "Fence".toList, "TXAlloc".toList, "TXAdd".toList]

/-- The fields of a line are those of the entry. -/
def ReadsEntry (table : CharTable) (strs : List (List Char)) : TraceEntry → Prop
  | .store tid address size value srcInfo =>
      item strs 0 = .ok "Store".toList ∧ intItem table 10 strs 1 = .ok tid ∧ intItem table 16 strs 2 = .ok address ∧
        intItem table 10 strs 3 = .ok size ∧ (∃ str, item strs 4 = .ok str ∧ ReadsBytes (str.splitOn ' ') value) ∧
        item strs 5 = .ok srcInfo.toList
  | .flush tid address srcInfo =>
      item strs 0 = .ok "Flush".toList ∧ intItem table 10 strs 1 = .ok tid ∧ intItem table 16 strs 2 = .ok address ∧
        item strs 3 = .ok srcInfo.toList
  | .fence tid srcInfo =>
      item strs 0 = .ok "Fence".toList ∧ intItem table 10 strs 1 = .ok tid ∧ item strs 2 = .ok srcInfo.toList
  | .txStart tid srcInfo =>
      item strs 0 = .ok "TXStart".toList ∧ intItem table 10 strs 1 = .ok tid ∧ item strs 2 = .ok srcInfo.toList
  | .txEnd tid srcInfo =>
      item strs 0 = .ok "TXEnd".toList ∧ intItem table 10 strs 1 = .ok tid ∧ item strs 2 = .ok srcInfo.toList
  | .txAlloc tid address size srcInfo =>
      item strs 0 = .ok "TXAlloc".toList ∧ intItem table 10 strs 1 = .ok tid ∧ intItem table 16 strs 2 = .ok address ∧
        intItem table 10 strs 3 = .ok size ∧ item strs 4 = .ok srcInfo.toList
  | .txAdd tid address size srcInfo =>
      item strs 0 = .ok "TXAdd".toList ∧ intItem table 10 strs 1 = .ok tid ∧ intItem table 16 strs 2 = .ok address ∧
        intItem table 10 strs 3 = .ok size ∧ item strs 4 = .ok srcInfo.toList
  | .call funcName tid srcInfo note =>
      item strs 0 = .ok funcName.toList ∧ funcName.toList ∉ entryTypes ∧ intItem table 10 strs 1 = .ok tid ∧
        item strs 2 = .ok srcInfo.toList ∧ item strs 3 = .ok note.toList

/-! ### Operations -/

inductive SameBody : OpBody → Op → Prop
  | txStart (b : BaseOperation) : SameBody .txStart (.txStart b)
  | txEnd (b : BaseOperation) : SameBody .txEnd (.txEnd b)
  | fence (b : BaseOperation) : SameBody .fence (.fence b)
  | pmdkCall (c : PMDKCall) : SameBody (.pmdkCall c.funcName.toList c.note.toList) (.pmdkCall c)
  | pmdkTXAdd (r : PMDKRange) : SameBody (.pmdkTXAdd r.address r.size) (.pmdkTXAdd r)
  | pmdkTXAlloc (r : PMDKRange) : SameBody (.pmdkTXAlloc r.address r.size) (.pmdkTXAlloc r)
  | store (st : Store) (value : List (List Char)) (hvalue : fromHex value.flatten = some st.valueBytes) :
      SameBody (.store ⟨st.address, st.size, value, st.valueBytes⟩) (.store st)
  | flush (f : Flush) : SameBody (.flush f.addressNotAligned f.address) (.flush f)

/-- The operation of the text is the one of the replay. -/
structure SameOp (x : TraceOp) (op : Op) : Prop where
  id : x.id = op.id
  tid : x.tid = op.base.tid
  srcInfo : x.srcInfo = op.base.srcInfo.toList
  body : SameBody x.body op

def castRange (r : Nat × Nat) : Int × Int := (r.1, r.2)

structure SameTrace (t : Trace) (trace : WitcherTrace) : Prop where
  ops : List.Forall₂ SameOp t.ops trace.ops
  opsTxRanges : t.opsTxRanges = trace.opsTxRanges.map castRange
  atomicWriteOps : List.Forall₂ SameOp t.atomicWriteOps trace.atomicWriteOps
  atomicWriteOpsTxRanges : t.atomicWriteOpsTxRanges = trace.atomicWriteOpsTxRanges.map castRange

/-- The start of a transaction, or `-1` outside. -/
def startIndex (start : Option Nat) : Int := start.elim (-1) Nat.cast

structure SameState (s : ScanState) (s' : ExtractState) : Prop where
  trace : SameTrace s.trace s'.trace
  opCurrIndex : s.opCurrIndex = s'.opCurrIndex
  opCurrTxStartIndex : s.opCurrTxStartIndex = startIndex s'.opCurrTxStartIndex
  atomicWriteOpCurrIndex : s.atomicWriteOpCurrIndex = s'.atomicWriteOpCurrIndex
  atomicWriteOpCurrTxStartIndex : s.atomicWriteOpCurrTxStartIndex = startIndex s'.atomicWriteOpCurrTxStartIndex
  low : 0 ≤ s'.atomicWriteOpCurrIndex

theorem sameState_init : SameState .init .init := ⟨⟨.nil, rfl, .nil, rfl⟩, rfl, rfl, rfl, rfl, le_refl 0⟩

theorem startIndex_eq_neg_one {start : Option Nat} : startIndex start = -1 ↔ start = none := by
  cases start with
  | none => simp [startIndex]
  | some i =>
      simp only [startIndex, Option.elim_some, reduceCtorEq]

/-! ### Chunks of a store -/

theorem ReadsBytes.flatten {strs : List (List Char)} {bytes : List UInt8} (h : ReadsBytes strs bytes) :
    fromHex strs.flatten = some bytes := by
  rcases h with h | ⟨rfl, rfl⟩
  · induction h with
    | nil => rfl
    | cons hstr _ ih => rw [List.flatten_cons, fromHex_append hstr, ih, Option.map_some, List.singleton_append]
  · rfl

/-- A slice of the texts is a slice of the bytes. -/
theorem ReadsBytes.slice {strs : List (List Char)} {bytes : List UInt8} (h : ReadsBytes strs bytes) (offset size : Nat)
    (hsize : offset + size ≤ bytes.length) :
    fromHex (PythonText.slice strs offset (offset + size : Nat)).flatten = some ((bytes.drop offset).take size) := by
  rw [slice_natCast, List.take_drop]
  rcases h with h | ⟨rfl, rfl⟩
  · exact ReadsBytes.flatten (.inl (List.forall₂_drop offset (List.forall₂_take (offset + size) h)))
  · rw [List.length_nil, Nat.le_zero] at hsize
    rw [hsize, List.take_zero, List.take_zero, List.drop_nil, List.drop_nil]
    rfl

/-- The fields of the line are those of the store. -/
structure SameStore (p : StoreParams) (st : Store) : Prop where
  tid : p.tid = st.tid
  address : p.address = st.address
  size : p.size = st.size
  value : ReadsBytes p.value st.valueBytes
  srcInfo : p.srcInfo = st.srcInfo.toList

section Chunks

variable {p : StoreParams} {st : Store}

theorem SameStore.store (h : SameStore p st) (id : Nat) :
    ∃ op, p.store p.address p.size p.value id = .ok op ∧ SameOp op (.store { st with id := id }) := by
  rw [StoreParams.store, h.value.flatten, h.address, h.size]
  exact ⟨_, rfl, rfl, h.tid, h.srcInfo, .store { st with id := id } p.value h.value.flatten⟩

theorem SameStore.chunk (h : SameStore p st) (hbytes : st.valueBytes.length = st.size) (id offset size : Nat)
    (hsize : offset + size ≤ st.size) :
    ∃ op, p.store (p.address + offset) size (PythonText.slice p.value offset (offset + size : Nat)) id = .ok op ∧
      SameOp op (.store (chunk st id offset size)) := by
  have hslice := h.value.slice offset size (by omega)
  rw [StoreParams.store, hslice, h.address]
  exact ⟨_, rfl, rfl, h.tid, h.srcInfo, .store (Witcher.chunk st id offset size) _ hslice⟩

theorem wordStores_stop (st : Store) (fuel id : Nat) {offset : Nat} (h : ¬offset + 8 ≤ st.size) :
    Witcher.wordStores st fuel id offset = ([], offset) := by
  cases fuel with
  | zero => rfl
  | succ fuel => exact wordStores_succ_neg st fuel id offset h

/-- The two loops over whole words, each with enough fuel. -/
theorem SameStore.wordStores (h : SameStore p st) (hbytes : st.valueBytes.length = st.size) (fuel fuel' id offset : Nat)
    (hfuel : st.size < offset + 8 * (fuel + 1)) (hfuel' : st.size < offset + 8 * (fuel' + 1)) :
    ∃ ops, wordStores p fuel id offset = .ok (ops, (id + (Witcher.wordStores st fuel' id offset).1.length : Nat),
        ((Witcher.wordStores st fuel' id offset).2 : Int)) ∧
      List.Forall₂ SameOp ops ((Witcher.wordStores st fuel' id offset).1.map Op.store) := by
  induction fuel generalizing fuel' id offset with
  | zero =>
      rw [wordStores_stop st fuel' id (by omega)]
      exact ⟨[], rfl, .nil⟩
  | succ fuel ih =>
      rw [TraceText.wordStores, h.size, atomicWriteBytes]
      by_cases hfit : offset + 8 ≤ st.size
      · rw [if_pos (by omega)]
        obtain ⟨fuel', rfl⟩ := Nat.exists_eq_succ_of_ne_zero (show fuel' ≠ 0 by omega)
        obtain ⟨op, hop, hsame⟩ := h.chunk hbytes id offset 8 hfit
        obtain ⟨ops, hops, hsames⟩ := ih fuel' (id + 1) (offset + 8) (by omega) (by omega)
        rw [wordStores_succ_pos st fuel' id offset hfit]
        refine ⟨op :: ops, ?_, .cons hsame hsames⟩
        rw [List.length_cons, Nat.add_comm _ 1, ← Nat.add_assoc]
        push_cast at hop hops ⊢
        rw [hop, ok_bind, hops, ok_bind]
      · rw [if_neg (by omega), wordStores_stop st fuel' id hfit]
        exact ⟨[], rfl, .nil⟩

/-- What is left after the last whole word. -/
theorem SameStore.lastStore (h : SameStore p st) (hbytes : st.valueBytes.length = st.size) (id offset : Nat) :
    ∃ ops, lastStore p id offset = .ok ops ∧ List.Forall₂ SameOp ops
      ((if 0 < st.size - offset then [Witcher.chunk st id offset (st.size - offset)] else []).map Op.store) := by
  rw [TraceText.lastStore, h.size]
  split_ifs with hrest hrest' hrest'
  · obtain ⟨op, hop, hsame⟩ := h.chunk hbytes id offset (st.size - offset) (by omega)
    have hlength : p.value.length = offset + (st.size - offset) := by
      rcases h.value with hvalue | ⟨-, hempty⟩
      · rw [hvalue.length_eq]
        omega
      · rw [hempty] at hbytes
        simp only [List.length_nil] at hbytes
        omega
    rw [← hlength, Nat.cast_sub (by omega)] at hop
    rw [hop, ok_bind]
    exact ⟨_, rfl, .cons hsame .nil⟩
  · omega
  · omega
  · exact ⟨_, rfl, .nil⟩

theorem SameStore.restStores (h : SameStore p st) (hbytes : st.valueBytes.length = st.size) (id offset : Nat) :
    ∃ words last index offset', TraceText.wordStores p (p.size - offset).toNat id offset = .ok (words, index, offset') ∧
      TraceText.lastStore p index offset' = .ok last ∧
      let result := Witcher.wordStores st st.size id offset
      List.Forall₂ SameOp (words ++ last) ((result.1 ++ if 0 < st.size - result.2 then
        [Witcher.chunk st (id + result.1.length) result.2 (st.size - result.2)] else []).map Op.store) := by
  have hsize := h.size
  obtain ⟨words, hwords, hsames⟩ := h.wordStores hbytes (p.size - offset).toNat st.size id offset (by omega) (by omega)
  obtain ⟨last, hlast, hsames'⟩ := h.lastStore hbytes (id + (Witcher.wordStores st st.size id offset).1.length)
    (Witcher.wordStores st st.size id offset).2
  refine ⟨words, last, _, _, hwords, hlast, ?_⟩
  simp only [List.map_append]
  exact List.rel_append hsames hsames'

/-- The atomic writes of a store are the same in the two readers. -/
theorem SameStore.atomicStores (h : SameStore p st) (hbytes : st.valueBytes.length = st.size)
    (haddr : st.address < 2 ^ 53) (id : Nat) :
    ∃ ops, atomicStores p id = .ok ops ∧ List.Forall₂ SameOp ops ((Witcher.getStores st id).map Op.store) := by
  have hdiv : trueDivInt st.address 8 = st.address / 8 := trueDivInt_eq_div _ 8 (by decide) haddr
  rw [TraceText.atomicStores, h.address, atomicWriteBytes, intTrueDiv_natCast (by omega), ok_bind, hdiv, firstStore, h.address,
    Witcher.getStores, Witcher.atomicWriteBytes, hdiv]
  by_cases hlow : st.address > st.address / 8 * 8
  · obtain ⟨op, hop, hsame⟩ := h.chunk hbytes id 0 (min st.size (st.address / 8 * 8 + 8 - st.address)) (by omega)
    obtain ⟨words, last, index, offset', hwords, hlast, hsames⟩ :=
      h.restStores hbytes (id + 1) (st.address / 8 * 8 + 8 - st.address)
    have hhigh : ((st.address / 8 * 8 + 8 - st.address : Nat) : Int) =
        (st.address / 8 : Nat) * (8 : Nat) + (8 : Nat) - st.address := by
      omega
    rw [Nat.cast_zero, Int.add_zero, Nat.zero_add, Nat.cast_min, hhigh, h.address] at hop
    rw [hhigh, h.size] at hwords
    rw [if_pos (by omega), if_pos hlow, h.size]
    simp only [atomicWriteBytes, hop, ok_bind]
    rw [← Nat.cast_one (R := Int), ← Nat.cast_add, hwords]
    simp only [hlast, ok_bind]
    exact ⟨_, rfl, .cons hsame hsames⟩
  · obtain ⟨words, last, index, offset', hwords, hlast, hsames⟩ := h.restStores hbytes id 0
    rw [if_neg (by omega), if_neg hlow, ok_bind]
    simp only [Nat.cast_zero] at hwords
    simp only [hwords, hlast, ok_bind, List.nil_append, List.length_nil, Nat.add_zero]
    exact ⟨_, rfl, hsames⟩

end Chunks

/-! ### The two scans -/

section Scan

variable {table : CharTable} {strs : List (List Char)} {e : TraceEntry} {s : ScanState} {s' : ExtractState} {tid : Int}
  {srcInfo : List Char} {body : OpBody} {mapBase length : Nat}

theorem SameState.append (h : SameState s s') (hop : ∀ id : Nat, SameOp ⟨id, tid, srcInfo, body⟩ (e.op id)) :
    SameState (s.append tid srcInfo body) (s'.append e) where
  trace := by
    obtain ⟨hops, hranges, hatomic, hatomicRanges⟩ := h.trace
    have hindex := h.opCurrIndex
    have hatomicIndex : s.atomicWriteOpCurrIndex = s'.atomicWriteOpCurrIndex.toNat := by
      rw [Int.toNat_of_nonneg h.low, h.atomicWriteOpCurrIndex]
    simp only [ScanState.append, ExtractState.append, hindex, hatomicIndex]
    exact ⟨List.rel_append hops (.cons (hop _) .nil), hranges, List.rel_append hatomic (.cons (hop _) .nil), hatomicRanges⟩
  opCurrIndex := h.opCurrIndex
  opCurrTxStartIndex := h.opCurrTxStartIndex
  atomicWriteOpCurrIndex := h.atomicWriteOpCurrIndex
  atomicWriteOpCurrTxStartIndex := h.atomicWriteOpCurrTxStartIndex
  low := h.low

def ScanState.next (s : ScanState) : ScanState :=
  { s with opCurrIndex := s.opCurrIndex + 1, atomicWriteOpCurrIndex := s.atomicWriteOpCurrIndex + 1 }

theorem SameState.next (h : SameState s s') : SameState s.next s'.next where
  trace := h.trace
  opCurrIndex := by rw [ScanState.next, ExtractState.next, h.opCurrIndex, Nat.cast_add, Nat.cast_one]
  opCurrTxStartIndex := h.opCurrTxStartIndex
  atomicWriteOpCurrIndex := by rw [ScanState.next, ExtractState.next, h.atomicWriteOpCurrIndex]
  atomicWriteOpCurrTxStartIndex := h.atomicWriteOpCurrTxStartIndex
  low := Int.add_nonneg h.low (by decide)

theorem getCachelineAddress_natCast {address : Nat} (h : address < 2 ^ 53) :
    TraceText.getCachelineAddress address = .ok (Witcher.getCachelineAddress address : Int) := by
  rw [TraceText.getCachelineAddress, intTrueDiv_natCast (by omega), ok_bind, Witcher.getCachelineAddress, Nat.cast_mul]
  rfl

/-- An entry that is appended as it is. -/
structure ReadsPlain (table : CharTable) (strs : List (List Char)) (e : TraceEntry) : Prop where
  fields : ∃ opType tid srcInfo body, item strs 0 = .ok opType ∧ opType ≠ "Store".toList ∧ opType ≠ "TXStart".toList ∧
    opType ≠ "TXEnd".toList ∧ plainFields table opType strs = .ok (tid, srcInfo, body) ∧
    ∀ id : Nat, SameOp ⟨id, tid, srcInfo, body⟩ (e.op id)
  plain : ∀ s : ExtractState, extractEntry s e = .ok (s.append e).next

theorem ReadsPlain.agree (h : ReadsPlain table strs e) (hs : SameState s s') :
    Agree SameState .assertion .assertion ((item strs 0 >>= fun opType => scanType table s opType strs) >>= fun s => .ok s.next)
      (extractEntry s' e) := by
  obtain ⟨opType, tid, srcInfo, body, htype, hstore, hstart, hend, hfields, hop⟩ := h.fields
  rw [htype, ok_bind, scanType, if_neg hstore, if_neg hstart, if_neg hend, scanPlain, hfields, ok_bind, h.plain]
  exact .ok (hs.append hop).next

theorem readsPlain_flush {tid address : Nat} {srcInfo : String} (h : ReadsEntry table strs (.flush tid address srcInfo))
    (haddr : address < 2 ^ 53) : ReadsPlain table strs (.flush tid address srcInfo) where
  fields := by
    obtain ⟨htype, htid, haddress, hsrc⟩ := h
    refine ⟨_, tid, srcInfo.toList, .flush address (Witcher.getCachelineAddress address),
      htype, by decide, by decide, by decide, ?_, fun id => ⟨rfl, rfl, rfl, .flush ⟨⟨id, tid, srcInfo⟩, address⟩⟩⟩
    rw [plainFields, if_pos rfl, htid, ok_bind, haddress, ok_bind, hsrc, ok_bind, getCachelineAddress_natCast haddr, ok_bind]
  plain _ := rfl

theorem readsPlain_fence {tid : Nat} {srcInfo : String} (h : ReadsEntry table strs (.fence tid srcInfo)) :
    ReadsPlain table strs (.fence tid srcInfo) where
  fields := by
    obtain ⟨htype, htid, hsrc⟩ := h
    refine ⟨_, tid, srcInfo.toList, .fence, htype, by decide, by decide, by decide, ?_,
      fun id => ⟨rfl, rfl, rfl, .fence ⟨id, tid, srcInfo⟩⟩⟩
    rw [plainFields, if_neg (by decide), if_pos rfl, htid, ok_bind, hsrc, ok_bind]
  plain _ := rfl

theorem readsPlain_txAlloc {tid address size : Nat} {srcInfo : String}
    (h : ReadsEntry table strs (.txAlloc tid address size srcInfo)) :
    ReadsPlain table strs (.txAlloc tid address size srcInfo) where
  fields := by
    obtain ⟨htype, htid, haddress, hsize, hsrc⟩ := h
    refine ⟨_, tid, srcInfo.toList, .pmdkTXAlloc address size, htype, by decide, by decide, by decide, ?_,
      fun id => ⟨rfl, rfl, rfl, .pmdkTXAlloc ⟨⟨id, tid, srcInfo⟩, address, size⟩⟩⟩
    rw [plainFields, if_neg (by decide), if_neg (by decide), if_pos rfl, htid, ok_bind, haddress, ok_bind, hsize, ok_bind, hsrc,
      ok_bind]
  plain _ := rfl

theorem readsPlain_txAdd {tid address size : Nat} {srcInfo : String}
    (h : ReadsEntry table strs (.txAdd tid address size srcInfo)) :
    ReadsPlain table strs (.txAdd tid address size srcInfo) where
  fields := by
    obtain ⟨htype, htid, haddress, hsize, hsrc⟩ := h
    refine ⟨_, tid, srcInfo.toList, .pmdkTXAdd address size, htype, by decide, by decide, by decide, ?_,
      fun id => ⟨rfl, rfl, rfl, .pmdkTXAdd ⟨⟨id, tid, srcInfo⟩, address, size⟩⟩⟩
    rw [plainFields, if_neg (by decide), if_neg (by decide), if_neg (by decide), if_pos rfl, htid, ok_bind, haddress,
      ok_bind, hsize, ok_bind, hsrc, ok_bind]
  plain _ := rfl

theorem readsPlain_call {tid : Nat} {funcName srcInfo note : String}
    (h : ReadsEntry table strs (.call funcName tid srcInfo note)) :
    ReadsPlain table strs (.call funcName tid srcInfo note) where
  fields := by
    obtain ⟨htype, hname, htid, hsrc, hnote⟩ := h
    simp only [entryTypes, List.mem_cons, List.not_mem_nil, or_false, not_or] at hname
    obtain ⟨hstore, hstart, hend, hflush, hfence, halloc, hadd⟩ := hname
    refine ⟨_, tid, srcInfo.toList, .pmdkCall funcName.toList note.toList, htype, hstore, hstart, hend, ?_,
      fun id => ⟨rfl, rfl, rfl, .pmdkCall ⟨⟨id, tid, srcInfo⟩, funcName, note⟩⟩⟩
    rw [plainFields, if_neg hflush, if_neg hfence, if_neg halloc, if_neg hadd, htid, ok_bind, hsrc, ok_bind, hnote, ok_bind]
  plain _ := rfl

theorem scanStore_agree {tid address size : Nat} {value : List UInt8} {srcInfo : String} (hs : SameState s s')
    (h : ReadsEntry table strs (.store tid address size value srcInfo))
    (hmap : (TraceEntry.store tid address size value srcInfo).Mapped mapBase length) :
    Agree SameState .assertion .assertion ((item strs 0 >>= fun opType => scanType table s opType strs) >>= fun s => .ok s.next)
      (extractEntry s' (.store tid address size value srcInfo)) := by
  obtain ⟨htype, htid, haddress, hsize, ⟨str, hstr, hvalue⟩, hsrc⟩ := h
  obtain ⟨-, -, haddr, hbytes⟩ := hmap
  have hsame : SameStore ⟨tid, address, size, str.splitOn ' ', srcInfo.toList⟩
      ⟨⟨s'.opCurrIndex, tid, srcInfo⟩, address, size, value⟩ := ⟨rfl, rfl, rfl, hvalue, rfl⟩
  have hatomicIndex : s.atomicWriteOpCurrIndex = s'.atomicWriteOpCurrIndex.toNat := by
    rw [Int.toNat_of_nonneg hs.low, hs.atomicWriteOpCurrIndex]
  obtain ⟨op, hop, hsameOp⟩ := hsame.store s'.opCurrIndex
  obtain ⟨ops, hops, hsameOps⟩ := hsame.atomicStores hbytes (show address < 2 ^ 53 by omega) s'.atomicWriteOpCurrIndex.toNat
  have hstores : getStores table strs s.opCurrIndex s.atomicWriteOpCurrIndex = .ok (op, ops) := by
    rw [hs.opCurrIndex, hatomicIndex, getStores, htid, ok_bind, haddress, ok_bind, hsize, ok_bind, hstr, ok_bind, hsrc, ok_bind]
    simp only [hop, hops, ok_bind]
  rw [htype, ok_bind, scanType, if_pos rfl, scanStore, hstores]
  obtain ⟨hopsTrace, hranges, hatomic, hatomicRanges⟩ := hs.trace
  have hlength : ops.length = (Witcher.getStores ⟨⟨s'.opCurrIndex, tid, srcInfo⟩, address, size, value⟩
      s'.atomicWriteOpCurrIndex.toNat).length := by rw [hsameOps.length_eq, List.length_map]
  have hlow := hs.low
  refine .ok ⟨⟨List.rel_append hopsTrace (.cons hsameOp .nil), hranges, List.rel_append hatomic hsameOps, hatomicRanges⟩, ?_,
    hs.opCurrTxStartIndex, ?_, hs.atomicWriteOpCurrTxStartIndex, ?_⟩
  · simp only [ScanState.next, ExtractState.next, hs.opCurrIndex, Nat.cast_add, Nat.cast_one]
  · simp only [ScanState.next, ExtractState.next, hs.atomicWriteOpCurrIndex, hlength]
  · simp only [ExtractState.next]
    omega

theorem assert_agree {β β' : Type} {R : β → β' → Prop} {b b' : Bool} {x : Except TraceError β} {y : Except ReplayError β'}
    (hb : b = b') (h : b = true → Agree R .assertion .assertion x y) :
    Agree R .assertion .assertion (assert b >>= fun _ => x) (Witcher.assert b' >>= fun _ => y) := by
  subst hb
  cases b with
  | true => exact h rfl
  | false => exact .error

/-- A transaction starts at the current indices. -/
theorem SameState.start (h : SameState s s') :
    SameState { s with opCurrTxStartIndex := s.opCurrIndex, atomicWriteOpCurrTxStartIndex := s.atomicWriteOpCurrIndex }
      { s' with
        opCurrTxStartIndex := some s'.opCurrIndex
        atomicWriteOpCurrTxStartIndex := some s'.atomicWriteOpCurrIndex.toNat } :=
  ⟨h.trace, h.opCurrIndex, h.opCurrIndex, h.atomicWriteOpCurrIndex,
    h.atomicWriteOpCurrIndex.trans (Int.toNat_of_nonneg h.low).symm, h.low⟩

/-- The transaction since these indices ends. -/
theorem SameState.finish {start atomicStart : Nat} (h : SameState s s') (hstart : s'.opCurrTxStartIndex = some start)
    (hatomicStart : s'.atomicWriteOpCurrTxStartIndex = some atomicStart) :
    SameState
      { s with
        trace := { s.trace with
          opsTxRanges := s.trace.opsTxRanges ++ [(s.opCurrTxStartIndex, s.opCurrIndex)]
          atomicWriteOpsTxRanges :=
            s.trace.atomicWriteOpsTxRanges ++ [(s.atomicWriteOpCurrTxStartIndex, s.atomicWriteOpCurrIndex)] }
        opCurrTxStartIndex := -1
        atomicWriteOpCurrTxStartIndex := -1 }
      { s' with
        trace := { s'.trace with
          opsTxRanges := s'.trace.opsTxRanges ++ [(start, s'.opCurrIndex)]
          atomicWriteOpsTxRanges := s'.trace.atomicWriteOpsTxRanges ++ [(atomicStart, s'.atomicWriteOpCurrIndex.toNat)] }
        opCurrTxStartIndex := none
        atomicWriteOpCurrTxStartIndex := none } := by
  obtain ⟨hops, hranges, hatomic, hatomicRanges⟩ := h.trace
  refine ⟨⟨hops, ?_, hatomic, ?_⟩, h.opCurrIndex, rfl, h.atomicWriteOpCurrIndex, rfl, h.low⟩
  · rw [hranges, h.opCurrTxStartIndex, hstart, h.opCurrIndex, List.map_append]
    rfl
  · rw [hatomicRanges, h.atomicWriteOpCurrTxStartIndex, hatomicStart, h.atomicWriteOpCurrIndex, List.map_append,
      ← Int.toNat_of_nonneg h.low]
    rfl

theorem scanTXStart_agree {tid : Nat} {srcInfo : String} (hs : SameState s s')
    (h : ReadsEntry table strs (.txStart tid srcInfo)) :
    Agree SameState .assertion .assertion ((item strs 0 >>= fun opType => scanType table s opType strs) >>= fun s => .ok s.next)
      (extractEntry s' (.txStart tid srcInfo)) := by
  obtain ⟨htype, htid, hsrc⟩ := h
  have happend : SameState (s.append tid srcInfo.toList .txStart) (s'.append (.txStart tid srcInfo)) :=
    hs.append fun id => ⟨rfl, rfl, rfl, .txStart ⟨id, tid, srcInfo⟩⟩
  rw [htype, ok_bind, scanType, if_neg (by decide), if_pos rfl, scanTXStart, htid, ok_bind, hsrc, ok_bind]
  simp only [bind_assoc]
  refine assert_agree (decide_eq_decide.mpr ?_) fun _ => assert_agree (decide_eq_decide.mpr ?_) fun _ => .ok happend.start.next
  · rw [happend.opCurrTxStartIndex, startIndex_eq_neg_one]
  · rw [happend.atomicWriteOpCurrTxStartIndex, startIndex_eq_neg_one]

theorem scanTXEnd_agree {tid : Nat} {srcInfo : String} (hs : SameState s s') (h : ReadsEntry table strs (.txEnd tid srcInfo)) :
    Agree SameState .assertion .assertion ((item strs 0 >>= fun opType => scanType table s opType strs) >>= fun s => .ok s.next)
      (extractEntry s' (.txEnd tid srcInfo)) := by
  obtain ⟨htype, htid, hsrc⟩ := h
  have happend : SameState (s.append tid srcInfo.toList .txEnd) (s'.append (.txEnd tid srcInfo)) :=
    hs.append fun id => ⟨rfl, rfl, rfl, .txEnd ⟨id, tid, srcInfo⟩⟩
  have hopen := happend.opCurrTxStartIndex
  have hatomicOpen := happend.atomicWriteOpCurrTxStartIndex
  rw [htype, ok_bind, scanType, if_neg (by decide), if_neg (by decide), if_pos rfl, scanTXEnd, htid, ok_bind, hsrc, ok_bind,
    extractEntry]
  simp only [bind_assoc]
  cases hstart : (s'.append (.txEnd tid srcInfo)).opCurrTxStartIndex with
  | none =>
      rw [assert, if_neg (by simp [hopen, hstart, startIndex])]
      exact .error
  | some start =>
      have hne := mt startIndex_eq_neg_one.mp (Option.some_ne_none start)
      rw [hstart] at hopen
      rw [assert, if_pos (decide_eq_true (hopen ▸ hne)), ok_bind]
      cases hatomicStart : (s'.append (.txEnd tid srcInfo)).atomicWriteOpCurrTxStartIndex with
      | none =>
          rw [assert, if_neg (by simp [hatomicOpen, hatomicStart, startIndex])]
          exact .error
      | some atomicStart =>
          have hne' := mt startIndex_eq_neg_one.mp (Option.some_ne_none atomicStart)
          rw [hatomicStart] at hatomicOpen
          rw [assert, if_pos (decide_eq_true (hatomicOpen ▸ hne')), ok_bind]
          exact .ok (happend.finish hstart hatomicStart).next

theorem scanEntry_eq (table : CharTable) (s : ScanState) (line : List Char) : scanEntry table s line =
    ((item (line.splitOn ',') 0 >>= fun opType => scanType table s opType (line.splitOn ',')) >>= fun s => .ok s.next) := by
  rw [scanEntry, bind_assoc]
  rfl

theorem scanEntry_agree {line : List Char} (hs : SameState s s') (h : ReadsEntry table (line.splitOn ',') e)
    (hmap : e.Mapped mapBase length) : Agree SameState .assertion .assertion (scanEntry table s line) (extractEntry s' e) := by
  rw [scanEntry_eq]
  cases e with
  | store tid address size value srcInfo => exact scanStore_agree hs h hmap
  | flush tid address srcInfo => exact (readsPlain_flush h hmap).agree hs
  | fence tid srcInfo => exact (readsPlain_fence h).agree hs
  | txStart tid srcInfo => exact scanTXStart_agree hs h
  | txEnd tid srcInfo => exact scanTXEnd_agree hs h
  | txAlloc tid address size srcInfo => exact (readsPlain_txAlloc h).agree hs
  | txAdd tid address size srcInfo => exact (readsPlain_txAdd h).agree hs
  | call funcName tid srcInfo note => exact (readsPlain_call h).agree hs

end Scan

/-- The lines of the text are those of the entries. -/
def ReadsEntries (table : CharTable) (text : List Char) (entries : List TraceEntry) : Prop :=
  List.Forall₂ (fun line e => ReadsEntry table (line.splitOn ',') e) (traceLines text) entries

/-- The reader of the text keeps the operations that the replay is about. -/
theorem witcherTrace_agree {table : CharTable} {text : List Char} {entries : List TraceEntry} {mapBase length : Nat}
    (hreads : ReadsEntries table text entries) (hmapped : ∀ e ∈ entries, e.Mapped mapBase length) :
    Agree SameTrace .assertion .assertion (witcherTrace table text) (extractOperations entries) := by
  have hboth := ((List.forall₂_and_left _ _).mpr ⟨hmapped, hreads.flip⟩).flip
  refine (Agree.foldlM hboth (fun s s' line e hs hline => ?_) sameState_init).bind fun s s' hs => .ok hs.trace
  exact scanEntry_agree hs hline.2 hline.1

/-- What holds of every run on the extracted operations holds of one on the trace that is read. -/
theorem extractOperations_of_witcherTrace {table : CharTable} {text : List Char} {entries : List TraceEntry}
    {mapBase length : Nat} {t : Trace} (hreads : ReadsEntries table text entries)
    (hmapped : ∀ e ∈ entries, e.Mapped mapBase length) (ht : witcherTrace table text = .ok t) :
    ∃ trace, extractOperations entries = .ok trace ∧ SameTrace t trace := by
  rcases witcherTrace_agree hreads hmapped with ⟨t', trace, ht', htrace, hsame⟩ | ⟨herror, -⟩
  · rw [ht] at ht'
    cases ht'
    exact ⟨trace, htrace, hsame⟩
  · rw [ht] at herror
    cases herror

example : ReadsEntries asciiTable "TXStart,7,a.c:1\nStore,7,0x10,2,0a ff,a.c:2\nTXEnd,7,a.c:3\n".toList
    [.txStart 7 "a.c:1", .store 7 16 2 [10, 255] "a.c:2", .txEnd 7 "a.c:3"] := by
  have hlines : traceLines "TXStart,7,a.c:1\nStore,7,0x10,2,0a ff,a.c:2\nTXEnd,7,a.c:3\n".toList =
      ["TXStart,7,a.c:1".toList, "Store,7,0x10,2,0a ff,a.c:2".toList, "TXEnd,7,a.c:3".toList] := by decide +kernel
  rw [ReadsEntries, hlines]
  refine .cons ⟨rfl, rfl, rfl⟩ (.cons ⟨rfl, rfl, rfl, rfl, ⟨_, rfl, .inl ?_⟩, rfl⟩ (.cons ⟨rfl, rfl, rfl⟩ .nil))
  exact .cons rfl (.cons rfl .nil)

end Witcher.TraceText
