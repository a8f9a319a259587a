import Witcher.PMTraceRecords
import Witcher.TraceRanges

/-! The text of the persistent memory trace read back by the replayer. Every field stands where it is
looked for, so each retained entry becomes one operation, except that the line of a flush is found by a
floating point division: it is the line of the double nearest to the address. -/

namespace Witcher.TraceText

open PythonText TrueDivision

/-! ### What is read -/

/-- What an operation says, without its id. -/
inductive SeenOp where
  | txStart
  | txEnd
  | fence
  | call (funcName note : List Char)
  | txAdd (address size : Int)
  | txAlloc (address size : Int)
  | store (address size : Int) (valueBytes : List UInt8)
  | flush (address : Int)
  deriving DecidableEq, Repr

structure Seen where
  tid : Int
  srcInfo : List Char
  op : SeenOp
  deriving DecidableEq, Repr

def OpBody.seen : OpBody → SeenOp
  | .txStart => .txStart
  | .txEnd => .txEnd
  | .fence => .fence
  | .pmdkCall funcName note => .call funcName note
  | .pmdkTXAdd address size => .txAdd address size
  | .pmdkTXAlloc address size => .txAlloc address size
  | .store st => .store st.address st.size st.valueBytes
  | .flush _ address => .flush address

def TraceOp.seen (op : TraceOp) : Seen := ⟨op.tid, op.srcInfo, op.body.seen⟩

/-- The operation of a retained entry: a flush is rounded down to its cache line. -/
def expectedOp : PMOp → SeenOp
  | .txStart => .txStart
  | .txEnd => .txEnd
  | .fence => .fence
  | .call funcName note => .call funcName note
  | .txAdd address length => .txAdd address.toNat length.toNat
  | .txAlloc address length => .txAlloc address.toNat length.toNat
  | .store address length value => .store address.toNat length.toNat value
  | .flush address => .flush (address.toNat / 64 * 64 : Nat)

def expected (r : PMRecord) : Seen := ⟨r.tid.toNat, r.srcInfo, expectedOp r.op⟩

/-- What the reader makes of a line. -/
def parsedBody : PMOp → OpBody
  | .txStart => .txStart
  | .txEnd => .txEnd
  | .fence => .fence
  | .call funcName note => .pmdkCall funcName note
  | .txAdd address length => .pmdkTXAdd address.toNat length.toNat
  | .txAlloc address length => .pmdkTXAlloc address.toNat length.toNat
  | .store address length value => .store ⟨address.toNat, length.toNat, value.map printByte, value⟩
  | .flush address => .flush address.toNat (nearestDouble address.toNat / 64 * 64 : Nat)

/-! ### Fields -/

theorem intItem_print (table : CharTable) {base : Nat} (hbase : 1 < base) (hbase' : base ≤ 16)
    {strs : List (List Char)} {i n : Nat} (h : item strs i = .ok (print base n)) :
    intItem table base strs i = .ok (n : Int) := by
  rw [intItem, h, Loops.ok_bind, int_print table hbase hbase' n]

theorem intTrueDiv_natCast {a : Nat} (ha : a < 2 ^ 64) (b : Nat) : intTrueDiv (a : Int) b = .ok (trueDivInt a b : Int) := by
  have hle := trueDivInt_le a b
  have hbound : 2 * 2 ^ 64 + 1 < 2 ^ 1024 := by decide +kernel
  rw [intTrueDiv, Int.natAbs_natCast, if_pos (by omega), if_neg (by omega)]

/-! ### The atomic writes of a printed store -/

theorem slice_map {α β : Type} (f : α → β) (l : List α) (i j : Int) : slice (l.map f) i j = (slice l i j).map f := by
  rw [slice, slice, List.length_map, List.map_drop, List.map_take]

theorem StoreParams.store_printed (p : StoreParams) (address size id : Int) (bytes : List UInt8) :
    p.store address size (bytes.map printByte) id =
      .ok ⟨id, p.tid, p.srcInfo, .store ⟨address, size, bytes.map printByte, bytes⟩⟩ := by
  rw [StoreParams.store, ← List.flatMap_def, fromHex_flatMap]

theorem wordStores_printed {p : StoreParams} {bytes : List UInt8} (hvalue : p.value = bytes.map printByte) (fuel : Nat)
    (index offset : Int) : ∃ result, wordStores p fuel index offset = .ok result := by
  induction fuel generalizing index offset with
  | zero => exact ⟨_, rfl⟩
  | succ fuel ih =>
      rw [wordStores]
      split_ifs
      · obtain ⟨rest, hrest⟩ := ih (index + 1) (offset + atomicWriteBytes)
        rw [hvalue, slice_map, StoreParams.store_printed, Loops.ok_bind, hrest]
        exact ⟨_, rfl⟩
      · exact ⟨_, rfl⟩

theorem firstStore_printed {p : StoreParams} {bytes : List UInt8} (hvalue : p.value = bytes.map printByte) (low index : Int) :
    ∃ result, firstStore p low index = .ok result := by
  rw [firstStore]
  split_ifs
  · simp only [hvalue, slice_map, StoreParams.store_printed, Loops.ok_bind]
    exact ⟨_, rfl⟩
  · exact ⟨_, rfl⟩

theorem lastStore_printed {p : StoreParams} {bytes : List UInt8} (hvalue : p.value = bytes.map printByte) (index offset : Int) :
    ∃ result, lastStore p index offset = .ok result := by
  rw [lastStore]
  split_ifs
  · rw [hvalue, slice_map, StoreParams.store_printed]
    exact ⟨_, rfl⟩
  · exact ⟨_, rfl⟩

theorem atomicStores_printed {p : StoreParams} {bytes : List UInt8} {a : Nat} (hvalue : p.value = bytes.map printByte)
    (haddr : p.address = a) (ha : a < 2 ^ 64) (index : Int) : ∃ stores, atomicStores p index = .ok stores := by
  rw [atomicStores, haddr, intTrueDiv_natCast ha, Loops.ok_bind]
  obtain ⟨⟨first, index₁, offset₁⟩, hfirst⟩ :=
    firstStore_printed hvalue (trueDivInt a atomicWriteBytes * atomicWriteBytes) index
  rw [hfirst, Loops.ok_bind]
  obtain ⟨⟨words, index₂, offset₂⟩, hwords⟩ := wordStores_printed hvalue (p.size - offset₁).toNat index₁ offset₁
  simp only [hwords, Loops.ok_bind]
  obtain ⟨last, hlast⟩ := lastStore_printed hvalue index₂ offset₂
  rw [hlast]
  exact ⟨_, rfl⟩

/-! ### Lines -/

/-- The types that have lines of their own. -/
def reservedNames : List (List Char) :=
  ["Store".toList, "Flush".toList, "Fence".toList, "TXStart".toList, "TXEnd".toList, "TXAlloc".toList, "TXAdd".toList]

/-- A record whose fields can be told apart in its line. -/
structure Readable (r : PMRecord) : Prop where
  comma : ∀ field ∈ r.fields, ',' ∉ field
  newline : ∀ field ∈ r.fields, '\n' ∉ field
  name : ∀ funcName note, r.op = .call funcName note → funcName ∉ reservedNames

theorem fields_ne_nil (r : PMRecord) : r.fields ≠ [] := by
  unfold PMRecord.fields
  split <;> simp

theorem Readable.splitOn_line {r : PMRecord} (h : Readable r) : r.line.splitOn ',' = r.fields :=
  List.splitOn_intercalate ',' h.comma (fields_ne_nil r)

theorem splitOn_printed_value {value : List UInt8} (hvalue : value ≠ []) :
    ([' '].intercalate (value.map printByte)).splitOn ' ' = value.map printByte := by
  apply List.splitOn_intercalate
  · intro field hfield hblank
    obtain ⟨b, -, rfl⟩ := List.mem_map.mp hfield
    have hhigh : b.toNat / 16 < 16 := by
      have := b.toNat_lt
      omega
    have hlow : b.toNat % 16 < 16 := Nat.mod_lt _ (by decide)
    rw [printByte, List.mem_cons, List.mem_singleton] at hblank
    rcases hblank with hblank | hblank
    · exact digitChar_ne hhigh (by decide) hblank.symm
    · exact digitChar_ne hlow (by decide) hblank.symm
  · simpa using hvalue

/-- A line that is neither a store nor a boundary. -/
theorem plainFields_record (table : CharTable) (r : PMRecord) (hplain : ((parsedBody r.op).isBoundary = false))
    (hstore : ∀ address length value, r.op ≠ .store address length value)
    (hname : ∀ funcName note, r.op = .call funcName note → funcName ∉ reservedNames) (opType : List Char)
    (htype : item r.fields 0 = .ok opType) :
    plainFields table opType r.fields = .ok (r.tid.toNat, r.srcInfo, parsedBody r.op) := by
  obtain ⟨tid, srcInfo, op⟩ := r
  cases op with
  | txStart => cases hplain
  | txEnd => cases hplain
  | store address length value => exact absurd rfl (hstore address length value)
  | fence =>
      cases htype
      rw [plainFields, if_neg (by decide), if_pos rfl, intItem_print table (by decide) (by decide) rfl]
      rfl
  | flush address =>
      cases htype
      rw [plainFields, if_pos rfl, intItem_print table (by decide) (by decide) rfl, Loops.ok_bind,
        intItem_print table (by decide) (by decide) rfl, Loops.ok_bind, getCachelineAddress, cachelineBytes,
        intTrueDiv_natCast address.toNat_lt, trueDivInt_sixtyFour]
      rfl
  | txAdd address length =>
      cases htype
      rw [plainFields, if_neg (by decide), if_neg (by decide), if_neg (by decide), if_pos rfl,
        intItem_print table (by decide) (by decide) rfl, Loops.ok_bind,
        intItem_print table (by decide) (by decide) rfl, Loops.ok_bind, intItem_print table (by decide) (by decide) rfl]
      rfl
  | txAlloc address length =>
      cases htype
      rw [plainFields, if_neg (by decide), if_neg (by decide), if_pos rfl,
        intItem_print table (by decide) (by decide) rfl, Loops.ok_bind,
        intItem_print table (by decide) (by decide) rfl, Loops.ok_bind, intItem_print table (by decide) (by decide) rfl]
      rfl
  | call funcName note =>
      cases htype
      have hne := hname opType note rfl
      simp only [reservedNames, List.mem_cons, not_or] at hne
      rw [plainFields, if_neg hne.2.1, if_neg hne.2.2.1, if_neg hne.2.2.2.2.2.1, if_neg hne.2.2.2.2.2.2.1,
        intItem_print table (by decide) (by decide) rfl]
      rfl

/-- The open transaction after an operation at `index`. -/
def nextStart (index start : Int) : PMOp → Int
  | .txStart => index
  | .txEnd => -1
  | _ => start

/-- The state after the line of a record. -/
structure Reads (s : ScanState) (r : PMRecord) (s' : ScanState) : Prop where
  ops : s'.trace.ops = s.trace.ops ++ [⟨s.opCurrIndex, r.tid.toNat, r.srcInfo, parsedBody r.op⟩]
  start : s'.opCurrTxStartIndex = nextStart s.opCurrIndex s.opCurrTxStartIndex r.op
  atomicStart : s'.atomicWriteOpCurrTxStartIndex = nextStart s.atomicWriteOpCurrIndex s.atomicWriteOpCurrTxStartIndex r.op

/-- A transaction that starts must find none open, and one that ends must find one open. -/
def Fits (s : ScanState) : PMOp → Prop
  | .txStart => s.opCurrTxStartIndex = -1 ∧ s.atomicWriteOpCurrTxStartIndex = -1
  | .txEnd => s.opCurrTxStartIndex ≠ -1 ∧ s.atomicWriteOpCurrTxStartIndex ≠ -1
  | .store _ _ value => value ≠ []
  | _ => True

theorem scanType_plain {table : CharTable} {s : ScanState} {r : PMRecord} {opType : List Char}
    (hplain : (parsedBody r.op).isBoundary = false) (hstore : ∀ address length value, r.op ≠ .store address length value)
    (hname : ∀ funcName note, r.op = .call funcName note → funcName ∉ reservedNames) (htype : item r.fields 0 = .ok opType) :
    scanType table s opType r.fields = .ok (s.append r.tid.toNat r.srcInfo (parsedBody r.op)) := by
  have hfields := plainFields_record table r hplain hstore hname opType htype
  have hne : opType ≠ "Store".toList ∧ opType ≠ "TXStart".toList ∧ opType ≠ "TXEnd".toList := by
    obtain ⟨tid, srcInfo, op⟩ := r
    cases op with
    | txStart => cases hplain
    | txEnd => cases hplain
    | store address length value => exact absurd rfl (hstore address length value)
    | call funcName note =>
        cases htype
        have hne := hname opType note rfl
        simp only [reservedNames, List.mem_cons, not_or] at hne
        exact ⟨hne.1, hne.2.2.2.1, hne.2.2.2.2.1⟩
    | _ =>
        cases htype
        decide
  rw [scanType, if_neg hne.1, if_neg hne.2.1, if_neg hne.2.2, scanPlain, hfields]
  rfl

theorem scanType_store {table : CharTable} {s : ScanState} {r : PMRecord} {address length : UInt64} {value : List UInt8}
    (hop : r.op = .store address length value) (hvalue : value ≠ []) :
    ∃ stores, scanType table s "Store".toList r.fields = .ok { s with
      trace := { s.trace with
        ops := s.trace.ops ++ [⟨s.opCurrIndex, r.tid.toNat, r.srcInfo, parsedBody r.op⟩]
        atomicWriteOps := s.trace.atomicWriteOps ++ stores }
      atomicWriteOpCurrIndex := s.atomicWriteOpCurrIndex + stores.length - 1 } := by
  obtain ⟨tid, srcInfo, op⟩ := r
  cases hop
  obtain ⟨stores, hstores⟩ := atomicStores_printed
    (p := ⟨tid.toNat, address.toNat, length.toNat, value.map printByte, srcInfo⟩) rfl rfl address.toNat_lt
      s.atomicWriteOpCurrIndex
  refine ⟨stores, ?_⟩
  have hget :
      getStores table (PMRecord.fields ⟨tid, srcInfo, .store address length value⟩) s.opCurrIndex
          s.atomicWriteOpCurrIndex =
        .ok (⟨s.opCurrIndex, tid.toNat, srcInfo, parsedBody (.store address length value)⟩, stores) := by
    have hitem : item (PMRecord.fields ⟨tid, srcInfo, .store address length value⟩) 4 =
        .ok ([' '].intercalate (value.map printByte)) := rfl
    have hitem' : item (PMRecord.fields ⟨tid, srcInfo, .store address length value⟩) 5 = .ok srcInfo := rfl
    rw [getStores, intItem_print table (by decide) (by decide) rfl, Loops.ok_bind,
      intItem_print table (by decide) (by decide) rfl, Loops.ok_bind,
      intItem_print table (by decide) (by decide) rfl, Loops.ok_bind, hitem, Loops.ok_bind, hitem', Loops.ok_bind]
    simp only [splitOn_printed_value hvalue, StoreParams.store_printed, Loops.ok_bind, hstores]
    rfl
  rw [scanType, if_pos rfl, scanStore, hget]
  rfl

theorem scanType_txStart {table : CharTable} {s : ScanState} {r : PMRecord} (hop : r.op = .txStart)
    (hstart : s.opCurrTxStartIndex = -1) (hatomic : s.atomicWriteOpCurrTxStartIndex = -1) :
    scanType table s "TXStart".toList r.fields = .ok { s.append r.tid.toNat r.srcInfo .txStart with
      opCurrTxStartIndex := s.opCurrIndex
      atomicWriteOpCurrTxStartIndex := s.atomicWriteOpCurrIndex } := by
  obtain ⟨tid, srcInfo, op⟩ := r
  cases hop
  rw [scanType, if_neg (by decide), if_pos rfl, scanTXStart, intItem_print table (by decide) (by decide) rfl, Loops.ok_bind]
  simp [item, PMRecord.fields, ScanState.append, hstart, hatomic, assert]

theorem scanType_txEnd {table : CharTable} {s : ScanState} {r : PMRecord} (hop : r.op = .txEnd)
    (hstart : s.opCurrTxStartIndex ≠ -1) (hatomic : s.atomicWriteOpCurrTxStartIndex ≠ -1) :
    scanType table s "TXEnd".toList r.fields = .ok { s.append r.tid.toNat r.srcInfo .txEnd with
      trace := { (s.append r.tid.toNat r.srcInfo .txEnd).trace with
        opsTxRanges := s.trace.opsTxRanges ++ [(s.opCurrTxStartIndex, s.opCurrIndex)]
        atomicWriteOpsTxRanges :=
          s.trace.atomicWriteOpsTxRanges ++ [(s.atomicWriteOpCurrTxStartIndex, s.atomicWriteOpCurrIndex)] }
      opCurrTxStartIndex := -1
      atomicWriteOpCurrTxStartIndex := -1 } := by
  obtain ⟨tid, srcInfo, op⟩ := r
  cases hop
  rw [scanType, if_neg (by decide), if_neg (by decide), if_pos rfl, scanTXEnd, intItem_print table (by decide) (by decide) rfl,
    Loops.ok_bind]
  simp [item, PMRecord.fields, ScanState.append, hstart, hatomic, assert]

theorem scanEntry_reads_plain (table : CharTable) {s : ScanState} {r : PMRecord} (hr : Readable r)
    (hplain : (parsedBody r.op).isBoundary = false) (hstore : ∀ address length value, r.op ≠ .store address length value)
    (hstart : ∀ index start, nextStart index start r.op = start) : ∃ s', scanEntry table s r.line = .ok s' ∧ Reads s r s' := by
  obtain ⟨opType, htype⟩ : ∃ opType, item r.fields 0 = .ok opType := by
    unfold PMRecord.fields
    split <;> exact ⟨_, rfl⟩
  rw [scanEntry, hr.splitOn_line, htype, Loops.ok_bind, scanType_plain hplain hstore hr.name htype]
  exact ⟨_, rfl, rfl, (hstart _ _).symm, (hstart _ _).symm⟩

/-- The line of a record is read as its operation. -/
theorem scanEntry_reads (table : CharTable) {s : ScanState} {r : PMRecord} (hr : Readable r) (hfits : Fits s r.op) :
    ∃ s', scanEntry table s r.line = .ok s' ∧ Reads s r s' := by
  obtain ⟨tid, srcInfo, op⟩ := r
  cases op with
  | txStart =>
      have htype : item (PMRecord.fields ⟨tid, srcInfo, .txStart⟩) 0 = .ok "TXStart".toList := rfl
      rw [scanEntry, hr.splitOn_line, htype, Loops.ok_bind, scanType_txStart rfl hfits.1 hfits.2]
      exact ⟨_, rfl, rfl, rfl, rfl⟩
  | txEnd =>
      have htype : item (PMRecord.fields ⟨tid, srcInfo, .txEnd⟩) 0 = .ok "TXEnd".toList := rfl
      rw [scanEntry, hr.splitOn_line, htype, Loops.ok_bind, scanType_txEnd rfl hfits.1 hfits.2]
      exact ⟨_, rfl, rfl, rfl, rfl⟩
  | store address length value =>
      have htype : item (PMRecord.fields ⟨tid, srcInfo, .store address length value⟩) 0 = .ok "Store".toList := rfl
      obtain ⟨stores, hstores⟩ := @scanType_store table s ⟨tid, srcInfo, .store address length value⟩ _ _ _ rfl hfits
      rw [scanEntry, hr.splitOn_line, htype, Loops.ok_bind, hstores]
      exact ⟨_, rfl, rfl, rfl, rfl⟩
  | _ => exact scanEntry_reads_plain table hr rfl (by simp) (fun _ _ => rfl)

/-! ### The whole text -/

/-- The calls of `witcher_tx_begin` and `witcher_tx_end` alternate; `opened` tells whether one is open. -/
def Alternates (opened : Bool) : List PMRecord → Prop
  | [] => True
  | r :: rs =>
      match r.op with
      | .txStart => opened = false ∧ Alternates true rs
      | .txEnd => opened = true ∧ Alternates false rs
      | _ => Alternates opened rs

/-- What is known of an operation of a trace that was printed. -/
def parsed (r : PMRecord) : Seen := ⟨r.tid.toNat, r.srcInfo, (parsedBody r.op).seen⟩

structure Parsed (s : ScanState) (records : List PMRecord) (opened : Bool) : Prop where
  scanned : Scanned s
  ops : s.trace.ops.map TraceOp.seen = records.map parsed
  start : s.opCurrTxStartIndex = -1 ↔ opened = false
  atomicStart : s.atomicWriteOpCurrTxStartIndex = -1 ↔ opened = false

theorem parsed_init : Parsed ScanState.init [] false := ⟨scanned_init, rfl, by simp [ScanState.init], by simp [ScanState.init]⟩

/-- The open transaction after a record. -/
def nextOpened (opened : Bool) : PMOp → Bool
  | .txStart => true
  | .txEnd => false
  | _ => opened

theorem nextStart_iff {index start : Int} {opened : Bool} (hindex : 0 ≤ index) (h : start = -1 ↔ opened = false) (op : PMOp) :
    nextStart index start op = -1 ↔ nextOpened opened op = false := by
  cases op with
  | txStart =>
      simp only [nextStart, nextOpened, Bool.true_eq_false, iff_false]
      omega
  | txEnd => simp [nextStart, nextOpened]
  | _ => exact h

theorem alternates_cons {opened : Bool} {r : PMRecord} {rs : List PMRecord} (h : Alternates opened (r :: rs)) :
    Alternates (nextOpened opened r.op) rs ∧ (r.op = .txStart → opened = false) ∧ (r.op = .txEnd → opened = true) := by
  obtain ⟨tid, srcInfo, op⟩ := r
  cases op with
  | txStart => exact ⟨h.2, fun _ => h.1, by simp⟩
  | txEnd => exact ⟨h.2, by simp, fun _ => h.1⟩
  | _ => exact ⟨h, by simp, by simp⟩

theorem Parsed.step (table : CharTable) {s : ScanState} {records : List PMRecord} {opened : Bool} (hs : Parsed s records opened)
    {r : PMRecord} (hr : Readable r) (hstore : ∀ address length value, r.op = .store address length value → value ≠ [])
    (hstart : r.op = .txStart → opened = false) (hend : r.op = .txEnd → opened = true) :
    ∃ s', scanEntry table s r.line = .ok s' ∧ Parsed s' (records ++ [r]) (nextOpened opened r.op) := by
  have hfits : Fits s r.op := by
    cases hop : r.op with
    | txStart => exact ⟨hs.start.mpr (hstart hop), hs.atomicStart.mpr (hstart hop)⟩
    | txEnd =>
        have hopen := hend hop
        exact ⟨fun h => by simp [hs.start.mp h] at hopen, fun h => by simp [hs.atomicStart.mp h] at hopen⟩
    | store address length value => exact hstore address length value hop
    | _ => trivial
  obtain ⟨s', hscan, hreads⟩ := scanEntry_reads table hr hfits
  have hindex := hs.scanned.plain.index_eq
  have hatomic := hs.scanned.atomic.index_eq
  refine ⟨s', hscan, scanEntry_scanned hs.scanned hscan, ?_, ?_, ?_⟩
  · rw [hreads.ops, List.map_append, hs.ops, List.map_append]
    rfl
  · rw [hreads.start]
    exact nextStart_iff (by omega) hs.start r.op
  · rw [hreads.atomicStart]
    exact nextStart_iff (by omega) hs.atomicStart r.op

theorem foldlM_scanEntry (table : CharTable) {rs : List PMRecord} {s : ScanState} {records : List PMRecord} {opened : Bool}
    (hs : Parsed s records opened) (hread : ∀ r ∈ rs, Readable r)
    (hstore : ∀ r ∈ rs, ∀ address length value, r.op = .store address length value → value ≠ []) (halt : Alternates opened rs) :
    ∃ s' opened', (rs.map PMRecord.line).foldlM (scanEntry table) s = .ok s' ∧ Parsed s' (records ++ rs) opened' := by
  induction rs generalizing s records opened with
  | nil => exact ⟨s, opened, rfl, by simpa using hs⟩
  | cons r rs ih =>
      obtain ⟨hrest, hstart, hend⟩ := alternates_cons halt
      obtain ⟨s', hscan, hs'⟩ := hs.step table (hread r List.mem_cons_self) (hstore r List.mem_cons_self) hstart hend
      obtain ⟨s'', opened', hfold, hs''⟩ := ih hs' (fun r hr => hread r (List.mem_cons_of_mem _ hr))
        (fun r hr => hstore r (List.mem_cons_of_mem _ hr)) hrest
      refine ⟨s'', opened', ?_, by simpa using hs''⟩
      rw [List.map_cons, Loops.foldlM_cons_ok hscan, hfold]

/-! ### Characters of the lines -/

theorem not_mem_printByte {c : Char} (hc : digitValue c = none) (b : UInt8) : c ∉ printByte b := by
  have hlt := b.toNat_lt
  intro hmem
  rw [printByte, List.mem_cons, List.mem_singleton] at hmem
  rcases hmem with hmem | hmem
  · exact digitChar_ne (by omega) hc hmem.symm
  · exact digitChar_ne (by omega) hc hmem.symm

/-- A character that is no digit and no blank stands only in the texts that are given. -/
theorem not_mem_fields {r : PMRecord} {c : Char} (hdigit : digitValue c = none) (hblank : c ≠ ' ')
    (hreserved : ∀ name ∈ reservedNames, c ∉ name) (hsrc : c ∉ r.srcInfo)
    (hcall : ∀ funcName note, r.op = .call funcName note → c ∉ funcName ∧ c ∉ note) : ∀ field ∈ r.fields, c ∉ field := by
  have hdec : ∀ n, c ∉ print 10 n := fun n => not_mem_print (by decide) (by decide) hdigit
  have hhex : ∀ n, c ∉ print 16 n := fun n => not_mem_print (by decide) (by decide) hdigit
  have hvalue : ∀ value : List UInt8, c ∉ [' '].intercalate (value.map printByte) := by
    intro value hmem
    rcases TextLines.mem_intercalate hmem with hmem | ⟨piece, hpiece, hmem⟩
    · exact hblank hmem
    · obtain ⟨b, -, rfl⟩ := List.mem_map.mp hpiece
      exact not_mem_printByte hdigit b hmem
  obtain ⟨tid, srcInfo, op⟩ := r
  simp only [reservedNames, List.forall_mem_cons] at hreserved
  obtain ⟨hst, hfl, hfe, hbegin, hend, halloc, hadd, -⟩ := hreserved
  cases op with
  | call funcName note =>
      obtain ⟨hname, hnote⟩ := hcall funcName note rfl
      simp only [PMRecord.fields, List.forall_mem_cons]
      exact ⟨hname, hdec _, hsrc, hnote, by simp⟩
  | _ =>
      simp only [PMRecord.fields, List.forall_mem_cons]
      simp_all

theorem Readable.of_texts {r : PMRecord} (hsrc : ',' ∉ r.srcInfo ∧ '\n' ∉ r.srcInfo)
    (hcall : ∀ funcName note, r.op = .call funcName note →
      ',' ∉ funcName ∧ '\n' ∉ funcName ∧ funcName ∉ reservedNames ∧ (note = "start".toList ∨ note = "end".toList)) :
    Readable r where
  comma := by
    apply not_mem_fields (by decide) (by decide) (by decide) hsrc.1
    intro funcName note hop
    obtain ⟨hname, -, -, hnote⟩ := hcall funcName note hop
    exact ⟨hname, by rcases hnote with rfl | rfl <;> decide⟩
  newline := by
    apply not_mem_fields (by decide) (by decide) (by decide) hsrc.2
    intro funcName note hop
    obtain ⟨-, hname, -, hnote⟩ := hcall funcName note hop
    exact ⟨hname, by rcases hnote with rfl | rfl <;> decide⟩
  name funcName note hop := (hcall funcName note hop).2.2.1

/-! ### The round trip -/

/-- The lines of records without carriage returns are read as they were printed. -/
theorem witcherTrace_lines (table : CharTable) {records : List PMRecord} (hread : ∀ r ∈ records, Readable r)
    (hstore : ∀ r ∈ records, ∀ address length value, r.op = .store address length value → value ≠ [])
    (halt : Alternates false records) (hreturn : ∀ r ∈ records, ∀ field ∈ r.fields, '\r' ∉ field) :
    ∃ t, witcherTrace table ((records.map PMRecord.line).flatMap (· ++ ['\n'])) = .ok t ∧
      t.ops.map TraceOp.seen = records.map parsed := by
  have hchars : ∀ c, c ≠ ',' → (∀ r ∈ records, ∀ field ∈ r.fields, c ∉ field) →
      ∀ line ∈ records.map PMRecord.line, c ∉ line := by
    intro c hcomma hfields line hline hmem
    obtain ⟨r, hr, rfl⟩ := List.mem_map.mp hline
    rcases TextLines.mem_intercalate hmem with hmem | ⟨field, hfield, hmem⟩
    · exact hcomma hmem
    · exact hfields r hr field hfield hmem
  have hnewline := hchars '\n' (by decide) fun r hr => (hread r hr).newline
  have htext : '\r' ∉ (records.map PMRecord.line).flatMap (· ++ ['\n']) := by
    intro hmem
    obtain ⟨line, hline, hmem⟩ := List.mem_flatMap.mp hmem
    rcases List.mem_append.mp hmem with hmem | hmem
    · exact hchars '\r' (by decide) hreturn line hline hmem
    · exact absurd (List.mem_singleton.mp hmem) (by decide)
  have hlines : traceLines ((records.map PMRecord.line).flatMap (· ++ ['\n'])) = records.map PMRecord.line := by
    rw [traceLines, TextLines.universalNewlines_eq htext, TextLines.splitOn_flatMap hnewline, List.dropLast_concat]
  obtain ⟨s, opened, hfold, hs⟩ := foldlM_scanEntry table parsed_init hread hstore halt
  refine ⟨s.trace, ?_, by simpa using hs.ops⟩
  rw [witcherTrace, hlines, hfold]
  rfl

/-- Nothing that is read contains a carriage return. -/
structure NoReturn (op : TraceOp) : Prop where
  srcInfo : '\r' ∉ op.srcInfo
  funcName : ∀ funcName note, op.body = .pmdkCall funcName note → '\r' ∉ funcName

theorem witcherTrace_noReturn {table : CharTable} {text : List Char} {t : Trace} (h : witcherTrace table text = .ok t) :
    ∀ op ∈ t.ops, NoReturn op := by
  obtain ⟨s, hscan, h⟩ := Loops.bind_ok h
  cases h
  refine Loops.foldlM_invariant (P := fun s => ∀ op ∈ s.trace.ops, NoReturn op) ?_ (by simp [ScanState.init]) hscan
  intro s entry hentry s' hs hstep
  have hline : '\r' ∉ entry := by
    intro hmem
    exact TextLines.not_mem_universalNewlines text (TextLines.mem_of_mem_splitOn (List.dropLast_subset _ hentry) hmem).1
  have hfield : ∀ field ∈ entry.splitOn ',', '\r' ∉ field :=
    fun field hfield hmem => hline (TextLines.mem_of_mem_splitOn hfield hmem).1
  -- every line adds one operation, whose texts are fields of the line
  have hadd : ∃ op, s'.trace.ops = s.trace.ops ++ [op] ∧ Quotes (entry.splitOn ',') op := by
    rcases scanEntry_cases hstep with ⟨op, piece, hquotes, -, -, -, -, -, rfl⟩ | ⟨tid, srcInfo, hsrc, -, -, rfl⟩ |
      ⟨tid, srcInfo, hsrc, -, -, rfl⟩
    · exact ⟨op, rfl, hquotes⟩
    · exact ⟨_, rfl, hsrc, by simp⟩
    · exact ⟨_, rfl, hsrc, by simp⟩
  obtain ⟨op, hops, hquotes⟩ := hadd
  intro op' hop'
  rw [hops] at hop'
  rcases List.mem_append.mp hop' with hop' | hop'
  · exact hs op' hop'
  · rw [List.mem_singleton.mp hop']
    exact ⟨hfield _ hquotes.srcInfo, fun funcName note hbody => hfield _ (hquotes.funcName funcName note hbody)⟩

theorem NoReturn.texts {op : TraceOp} (h : NoReturn op) {r : PMRecord} (hseen : op.seen = expected r) :
    '\r' ∉ r.srcInfo ∧ ∀ funcName note, r.op = .call funcName note → '\r' ∉ funcName := by
  obtain ⟨id, tid, srcInfo, body⟩ := op
  rw [TraceOp.seen, expected, Seen.mk.injEq] at hseen
  obtain ⟨-, hsrc, hbody⟩ := hseen
  refine ⟨hsrc ▸ h.srcInfo, ?_⟩
  intro funcName note hop
  rw [hop] at hbody
  cases body with
  | pmdkCall funcName' note' =>
      cases hbody
      exact h.funcName funcName note rfl
  | _ => cases hbody

/-- When a record comes through: its texts have no carriage return, and the double nearest to the address
of a flush lies in the cache line of the address. -/
structure Faithful (r : PMRecord) : Prop where
  srcInfo : '\r' ∉ r.srcInfo
  funcName : ∀ funcName note, r.op = .call funcName note → '\r' ∉ funcName
  flush : ∀ address, r.op = .flush address → nearestDouble address.toNat / 64 = address.toNat / 64

/-- The text that the pass emits for the entries is read as one operation for each record, in order. -/
def RoundTrips (table : CharTable) (I : PMTraceInput) (m : Mappings) (entries : List ReadEntry)
    (records : List PMRecord) : Prop :=
  ∃ text t, WitcherPMTrace.run I m entries = .ok text ∧ witcherTrace table text = .ok t ∧
    t.ops.map TraceOp.seen = records.map expected

theorem parsed_eq_expected_iff (r : PMRecord) :
    parsed r = expected r ↔ ∀ address, r.op = .flush address → nearestDouble address.toNat / 64 = address.toNat / 64 := by
  obtain ⟨tid, srcInfo, op⟩ := r
  cases op with
  | flush address =>
      simp only [parsed, expected, parsedBody, OpBody.seen, expectedOp, Seen.mk.injEq, SeenOp.flush.injEq, true_and,
        PMOp.flush.injEq, forall_eq']
      omega
  | _ => simp [parsed, expected, parsedBody, OpBody.seen, expectedOp]

/-- Entries that the pass runs through, with the records it retains: the texts can stand in a line, and the
transactions alternate. -/
structure Admitted (I : PMTraceInput) (m : Mappings) (entries : List ReadEntry) (records : List PMRecord) : Prop where
  retained : I.retained m entries = .ok records
  srcInfo : ∀ r ∈ records, ',' ∉ r.srcInfo ∧ '\n' ∉ r.srcInfo
  funcName : ∀ r ∈ records, ∀ funcName note, r.op = .call funcName note → ',' ∉ funcName ∧ funcName ∉ reservedNames
  alternates : Alternates false records

section

variable {I : PMTraceInput} {m : Mappings} {entries : List ReadEntry} {records : List PMRecord}

theorem Admitted.readable (h : Admitted I m entries records) : ∀ r ∈ records, Readable r := by
  intro r hr
  apply Readable.of_texts (h.srcInfo r hr)
  intro funcName note hop
  obtain ⟨hmem, hnote⟩ := (PMTraceInput.retained_kept h.retained r hr).call funcName note hop
  obtain ⟨hcomma, hreserved⟩ := h.funcName r hr funcName note hop
  exact ⟨hcomma, getLines_newline hmem, hreserved, hnote⟩

theorem Admitted.parses (h : Admitted I m entries records) (table : CharTable)
    (hreturn : ∀ r ∈ records, '\r' ∉ r.srcInfo ∧ ∀ funcName note, r.op = .call funcName note → '\r' ∉ funcName) :
    ∃ text t, WitcherPMTrace.run I m entries = .ok text ∧ witcherTrace table text = .ok t ∧
      t.ops.map TraceOp.seen = records.map parsed := by
  have hkept := PMTraceInput.retained_kept h.retained
  have hfields : ∀ r ∈ records, ∀ field ∈ r.fields, '\r' ∉ field := by
    intro r hr
    apply not_mem_fields (by decide) (by decide) (by decide) (hreturn r hr).1
    intro funcName note hop
    obtain ⟨-, hnote⟩ := (hkept r hr).call funcName note hop
    exact ⟨(hreturn r hr).2 funcName note hop, by rcases hnote with rfl | rfl <;> decide⟩
  obtain ⟨t, ht, hops⟩ := witcherTrace_lines table h.readable (fun r hr => (hkept r hr).store) h.alternates hfields
  exact ⟨_, t, WitcherPMTrace.run_eq h.retained, ht, hops⟩

theorem Admitted.roundTrips (h : Admitted I m entries records) (table : CharTable) (hfaithful : ∀ r ∈ records, Faithful r) :
    RoundTrips table I m entries records := by
  obtain ⟨text, t, hrun, ht, hops⟩ := h.parses table fun r hr => ⟨(hfaithful r hr).srcInfo, (hfaithful r hr).funcName⟩
  refine ⟨text, t, hrun, ht, ?_⟩
  rw [hops]
  exact List.map_inj_left.mpr fun r hr => (parsed_eq_expected_iff r).mpr (hfaithful r hr).flush

/-- A trace that comes through has no carriage returns, since the reader turns them into newlines; so it was
read as it was printed, and the lines of its flushes are right. -/
theorem Admitted.faithful (h : Admitted I m entries records) {table : CharTable}
    (hround : RoundTrips table I m entries records) :
    ∀ r ∈ records, Faithful r := by
  obtain ⟨text, t, hrun, ht, hops⟩ := hround
  have htexts : ∀ r ∈ records, '\r' ∉ r.srcInfo ∧ ∀ funcName note, r.op = .call funcName note → '\r' ∉ funcName := by
    intro r hr
    have hmem : expected r ∈ t.ops.map TraceOp.seen := hops ▸ List.mem_map_of_mem hr
    obtain ⟨op, hop, hseen⟩ := List.mem_map.mp hmem
    exact (witcherTrace_noReturn ht op hop).texts hseen
  obtain ⟨text', t', hrun', ht', hops'⟩ := h.parses table htexts
  rw [hrun] at hrun'
  cases hrun'
  rw [ht] at ht'
  cases ht'
  rw [hops] at hops'
  intro r hr
  have heq := List.map_inj_left.mp hops' r hr
  exact ⟨(htexts r hr).1, (htexts r hr).2, (parsed_eq_expected_iff r).mp heq.symm⟩

end

/-- The trace comes through exactly when each of its records does. -/
theorem roundTrips_iff (table : CharTable) (I : PMTraceInput) (m : Mappings) (entries : List ReadEntry)
    (records : List PMRecord) (h : Admitted I m entries records) : RoundTrips table I m entries records ↔
      ∀ r ∈ records, Faithful r :=
  ⟨h.faithful, h.roundTrips table⟩

/-- One source line, and the two transaction functions. -/
def oneLineInput : PMTraceInput := ⟨fun _ => "a.c:7".toList, "witcher_tx_begin\nwitcher_tx_end\n".toList⟩

/-- A transaction that stores two bytes through the second mapping and flushes them. -/
def dupTransaction : List ReadEntry :=
  [⟨⟨.mmapType, 1, 9, 0x40000000, 4096⟩, [], by decide⟩,
    ⟨⟨.clType, 2, 9, 0, 1⟩, [], by decide⟩,
    ⟨⟨.stType, 3, 9, 0x40000010, 2⟩, [0xab, 0x05], by decide⟩,
    ⟨⟨.flType, 4, 9, 0x40000011, 0⟩, [], by decide⟩,
    ⟨⟨.feType, 5, 9, 0, 0⟩, [], by decide⟩,
    ⟨⟨.clType, 6, 9, 0, 2⟩, [], by decide⟩,
    ⟨⟨.enType, 0, 0, 0, 0⟩, [], by decide⟩]

def dupRecords : List PMRecord :=
  [.txStart, .store 0x10000010 2 [0xab, 0x05], .flush 0x10000011, .fence, .txEnd].map fun op => ⟨9, "a.c:7".toList, op⟩

theorem roundTrips_dupTransaction :
    Admitted oneLineInput (.init 0x10000000 1) dupTransaction dupRecords ∧
      RoundTrips ⟨id, fun _ _ => rfl⟩ oneLineInput (.init 0x10000000 1) dupTransaction dupRecords := by
  have hadmitted : Admitted oneLineInput (.init 0x10000000 1) dupTransaction dupRecords :=
    ⟨by rfl, by decide, by simp [dupRecords], by simp [dupRecords, Alternates]⟩
  refine ⟨hadmitted, (roundTrips_iff _ _ _ _ _ hadmitted).mpr ?_⟩
  have hplain : ∀ op : PMOp, (∀ funcName note, op ≠ .call funcName note) → (∀ address, op ≠ .flush address) →
      Faithful ⟨9, "a.c:7".toList, op⟩ :=
    fun op hcall hflush => ⟨(by decide : '\r' ∉ "a.c:7".toList), fun f n h => absurd h (hcall f n),
      fun a h => absurd h (hflush a)⟩
  simp only [dupRecords, List.map_cons, List.map_nil, List.forall_mem_cons]
  refine ⟨hplain _ (by simp) (by simp), hplain _ (by simp) (by simp), ⟨by decide, by simp, ?_⟩, hplain _ (by simp) (by simp),
    hplain _ (by simp) (by simp), by simp⟩
  intro address haddress
  cases haddress
  decide +kernel

/-- The last byte of a line beyond `2^53`: the nearest double belongs to the next line. -/
def farFlush : List ReadEntry := [⟨⟨.flType, 4, 9, 0x2000000000003f, 0⟩, [], by decide⟩]

theorem roundTrips_fails_farFlush :
    Admitted oneLineInput (.init 0x20000000000000 1) farFlush [⟨9, "a.c:7".toList, .flush 0x2000000000003f⟩] ∧
      ¬RoundTrips ⟨id, fun _ _ => rfl⟩ oneLineInput (.init 0x20000000000000 1) farFlush
        [⟨9, "a.c:7".toList, .flush 0x2000000000003f⟩] := by
  have hadmitted : Admitted oneLineInput (.init 0x20000000000000 1) farFlush
      [⟨9, "a.c:7".toList, .flush 0x2000000000003f⟩] :=
    ⟨by rfl, by decide, by simp, by simp [Alternates]⟩
  refine ⟨hadmitted, ?_⟩
  intro hround
  have hflush := (hadmitted.faithful hround _ List.mem_cons_self).flush 0x2000000000003f rfl
  revert hflush
  decide +kernel

end Witcher.TraceText
