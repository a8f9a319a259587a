import Mathlib.Data.List.Forall2
import Witcher.Loops
import Witcher.TraceText

/-! The indices of a trace that was read. In both lists of operations the id of an operation is its
position, the recorded transactions are disjoint and ascending, and each transaction of the atomic list
is the transaction of the plain list with every store replaced by its atomic writes. -/

namespace Witcher.TraceText

open PythonText TrueDivision

/-! ### Numbered operations -/

/-- The ids count up from `start`. -/
def Numbered (start : Int) (ops : List TraceOp) : Prop := ∀ (i : Nat) (op : TraceOp), ops[i]? = some op → op.id = start + i

theorem Numbered.nil (start : Int) : Numbered start [] := by
  intro i op h
  simp at h

theorem Numbered.singleton {start : Int} {op : TraceOp} (hid : op.id = start) : Numbered start [op] := by
  intro i op' h
  cases i with
  | zero =>
      rw [List.getElem?_cons_zero, Option.some.injEq] at h
      rw [← h, hid]
      simp
  | succ i => simp at h

theorem Numbered.append {start : Int} {front back : List TraceOp} (hfront : Numbered start front)
    (hback : Numbered (start + front.length) back) : Numbered start (front ++ back) := by
  intro i op h
  by_cases hi : i < front.length
  · rw [List.getElem?_append_left hi] at h
    exact hfront i op h
  · rw [List.getElem?_append_right (by omega)] at h
    rw [hback _ op h]
    omega

/-! ### The atomic writes of a store -/

/-- A store of the thread and the source line of the line it was read from. -/
structure StoreParams.Owns (p : StoreParams) (op : TraceOp) : Prop where
  tid : op.tid = p.tid
  srcInfo : op.srcInfo = p.srcInfo
  store : ∃ body, op.body = .store body

theorem StoreParams.store_ok {p : StoreParams} {address size id : Int} {value : List (List Char)} {op : TraceOp}
    (h : p.store address size value id = .ok op) :
    ∃ valueBytes, fromHex value.flatten = some valueBytes ∧
      op = ⟨id, p.tid, p.srcInfo, .store ⟨address, size, value, valueBytes⟩⟩ := by
  unfold StoreParams.store at h
  split at h
  · rename_i valueBytes hhex
    cases h
    exact ⟨valueBytes, hhex, rfl⟩
  · cases h

theorem StoreParams.store_numbered {p : StoreParams} {address size id : Int} {value : List (List Char)} {op : TraceOp}
    (h : p.store address size value id = .ok op) : Numbered id [op] ∧ p.Owns op := by
  obtain ⟨valueBytes, -, rfl⟩ := StoreParams.store_ok h
  exact ⟨Numbered.singleton rfl, rfl, rfl, _, rfl⟩

/-- The loop over whole words, when it returns. -/
theorem wordStores_induction {p : StoreParams} {motive : Nat → Int → Int → List TraceOp → Int → Int → Prop}
    (stop : ∀ fuel index offset, fuel = 0 ∨ p.size < offset + 8 → motive fuel index offset [] index offset)
    (word : ∀ fuel index offset op rest index' offset', offset + 8 ≤ p.size →
      p.store (p.address + offset) 8 (slice p.value offset (offset + 8)) index = .ok op →
      motive fuel (index + 1) (offset + 8) rest index' offset' → motive (fuel + 1) index offset (op :: rest) index' offset')
    {fuel : Nat} {index index' offset offset' : Int} {ops : List TraceOp}
    (h : wordStores p fuel index offset = .ok (ops, index', offset')) : motive fuel index offset ops index' offset' := by
  induction fuel generalizing index offset ops index' offset' with
  | zero =>
      cases h
      exact stop 0 index offset (.inl rfl)
  | succ fuel ih =>
      rw [wordStores, atomicWriteBytes] at h
      split_ifs at h with hfit
      · obtain ⟨op, hop, h⟩ := Loops.bind_ok h
        obtain ⟨⟨rest, next, last⟩, hrest, h⟩ := Loops.bind_ok h
        cases h
        exact word fuel index offset op rest _ _ hfit hop (ih hrest)
      · cases h
        exact stop (fuel + 1) index offset (.inr (by omega))

theorem wordStores_numbered {p : StoreParams} {fuel : Nat} {index index' offset offset' : Int} {ops : List TraceOp}
    (h : wordStores p fuel index offset = .ok (ops, index', offset')) :
    Numbered index ops ∧ index' = index + ops.length ∧ ∀ op ∈ ops, p.Owns op := by
  refine wordStores_induction (motive := fun _ index _ ops index' _ =>
    Numbered index ops ∧ index' = index + ops.length ∧ ∀ op ∈ ops, p.Owns op) ?_ ?_ h
  · intro fuel index offset _
    exact ⟨Numbered.nil _, by simp, by simp⟩
  · intro fuel index offset op rest index' offset' _ hop ih
    obtain ⟨hnum, howns⟩ := StoreParams.store_numbered hop
    obtain ⟨hrestNum, hindex, hrestOwns⟩ := ih
    refine ⟨hnum.append (by simpa using hrestNum), ?_, List.forall_mem_cons.mpr ⟨howns, hrestOwns⟩⟩
    rw [hindex, List.length_cons]
    omega

/-- The atomic writes are numbered from the index that was given. -/
theorem atomicStores_numbered {p : StoreParams} {index : Int} {ops : List TraceOp} (h : atomicStores p index = .ok ops) :
    Numbered index ops ∧ ∀ op ∈ ops, p.Owns op := by
  obtain ⟨q, hq, h⟩ := Loops.bind_ok h
  obtain ⟨⟨first, index₁, offset₁⟩, hfirst, h⟩ := Loops.bind_ok h
  obtain ⟨⟨words, index₂, offset₂⟩, hwords, h⟩ := Loops.bind_ok h
  obtain ⟨last, hlast, h⟩ := Loops.bind_ok h
  cases h
  have hfirst' : Numbered index first ∧ index₁ = index + first.length ∧ ∀ op ∈ first, p.Owns op := by
    unfold firstStore at hfirst
    split_ifs at hfirst
    · obtain ⟨op, hop, h⟩ := Loops.bind_ok hfirst
      cases h
      obtain ⟨hnum, howns⟩ := StoreParams.store_numbered hop
      exact ⟨hnum, by simp, by simpa using howns⟩
    · cases hfirst
      exact ⟨Numbered.nil _, by simp, by simp⟩
  obtain ⟨hnum₁, hindex₁, howns₁⟩ := hfirst'
  obtain ⟨hnum₂, hindex₂, howns₂⟩ := wordStores_numbered hwords
  have hlast' : Numbered index₂ last ∧ ∀ op ∈ last, p.Owns op := by
    unfold lastStore at hlast
    split_ifs at hlast
    · obtain ⟨op, hop, h⟩ := Loops.bind_ok hlast
      cases h
      obtain ⟨hnum, howns⟩ := StoreParams.store_numbered hop
      exact ⟨hnum, by simpa using howns⟩
    · cases hlast
      exact ⟨Numbered.nil index₂, by simp⟩
  obtain ⟨hnum₃, howns₃⟩ := hlast'
  refine ⟨(hnum₁.append (hindex₁ ▸ hnum₂)).append ?_, ?_⟩
  · rw [List.length_append]
    have heq : index + ((first.length + words.length : Nat) : Int) = index₂ := by omega
    rw [heq]
    exact hnum₃
  · intro op hop
    rcases List.mem_append.mp hop with hop | hop
    · rcases List.mem_append.mp hop with hop | hop
      · exact howns₁ op hop
      · exact howns₂ op hop
    · exact howns₃ op hop

/-! ### Recorded transactions -/

def BodyAt (ops : List TraceOp) (i : Int) (body : OpBody) : Prop := ∃ op, ops[i.toNat]? = some op ∧ op.body = body

/-- No transaction starts or ends strictly between `i` and `j`. -/
def Quiet (ops : List TraceOp) (i j : Int) : Prop :=
  ∀ (k : Nat) (op : TraceOp), i < k → (k : Int) < j → ops[k]? = some op → op.body.isBoundary = false

structure TxRange (ops : List TraceOp) (r : Int × Int) : Prop where
  low : 0 ≤ r.1
  order : r.1 < r.2
  starts : BodyAt ops r.1 .txStart
  ends : BodyAt ops r.2 .txEnd
  quiet : Quiet ops r.1 r.2

structure TxRanges (ops : List TraceOp) (ranges : List (Int × Int)) : Prop where
  ascending : ranges.Pairwise fun r r' => r.2 < r'.1
  range : ∀ r ∈ ranges, TxRange ops r

theorem BodyAt.lt {ops : List TraceOp} {i : Int} {body : OpBody} (h : BodyAt ops i body) : i < ops.length := by
  obtain ⟨op, hop, -⟩ := h
  have hlt := (List.getElem?_eq_some_iff.mp hop).choose
  omega

theorem BodyAt.append {ops : List TraceOp} {i : Int} {body : OpBody} (h : BodyAt ops i body) (added : List TraceOp) :
    BodyAt (ops ++ added) i body := by
  obtain ⟨op, hop, hbody⟩ := h
  refine ⟨op, ?_, hbody⟩
  rw [List.getElem?_append_left (List.getElem?_eq_some_iff.mp hop).choose]
  exact hop

theorem bodyAt_concat (ops : List TraceOp) (op : TraceOp) : BodyAt (ops ++ [op]) ops.length op.body :=
  ⟨op, by simp, rfl⟩

theorem Quiet.append {ops : List TraceOp} {i j : Int} (h : Quiet ops i j) (hj : j ≤ ops.length) (added : List TraceOp) :
    Quiet (ops ++ added) i j := by
  intro k op hik hkj hop
  rw [List.getElem?_append_left (by omega)] at hop
  exact h k op hik hkj hop

theorem TxRange.append {ops : List TraceOp} {r : Int × Int} (h : TxRange ops r) (added : List TraceOp) :
    TxRange (ops ++ added) r where
  low := h.low
  order := h.order
  starts := h.starts.append added
  ends := h.ends.append added
  quiet := h.quiet.append (le_of_lt h.ends.lt) added

theorem TxRanges.append {ops : List TraceOp} {ranges : List (Int × Int)} (h : TxRanges ops ranges) (added : List TraceOp) :
    TxRanges (ops ++ added) ranges where
  ascending := h.ascending
  range r hr := (h.range r hr).append added

/-- One list of operations during the scan: `index` is the next position, `start` the open transaction
or `-1`. -/
structure Tracked (ops : List TraceOp) (ranges : List (Int × Int)) (index start : Int) : Prop where
  index_eq : index = ops.length
  ids : Numbered 0 ops
  recorded : TxRanges ops ranges
  opened : start ≠ -1 → 0 ≤ start ∧ BodyAt ops start .txStart ∧ Quiet ops start ops.length ∧ ∀ r ∈ ranges, r.2 < start

theorem Tracked.nil : Tracked [] [] 0 (-1) where
  index_eq := rfl
  ids := Numbered.nil 0
  recorded := ⟨List.Pairwise.nil, by simp⟩
  opened h := absurd rfl h

theorem Tracked.numbered_append {ops added : List TraceOp} {ranges : List (Int × Int)} {index start : Int}
    (h : Tracked ops ranges index start) (hadded : Numbered index added) : Numbered 0 (ops ++ added) := by
  apply h.ids.append
  rw [Int.zero_add, ← h.index_eq]
  exact hadded

/-- Operations that are no boundaries. -/
theorem Tracked.append {ops added : List TraceOp} {ranges : List (Int × Int)} {index start : Int}
    (h : Tracked ops ranges index start) (hadded : Numbered index added) (hquiet : ∀ op ∈ added, op.body.isBoundary = false) :
    Tracked (ops ++ added) ranges (index + added.length) start where
  index_eq := by
    rw [h.index_eq, List.length_append, Nat.cast_add]
  ids := h.numbered_append hadded
  recorded := h.recorded.append added
  opened hstart := by
    obtain ⟨hlow, hat, hq, hbefore⟩ := h.opened hstart
    refine ⟨hlow, hat.append added, ?_, hbefore⟩
    intro k op hik _ hop
    by_cases hk : k < ops.length
    · rw [List.getElem?_append_left hk] at hop
      exact hq k op hik (by omega) hop
    · rw [List.getElem?_append_right (by omega)] at hop
      exact hquiet op (List.mem_of_getElem? hop)

theorem Tracked.txStart {ops : List TraceOp} {ranges : List (Int × Int)} {index : Int} {op : TraceOp}
    (h : Tracked ops ranges index (-1)) (hid : op.id = index) (hbody : op.body = .txStart) :
    Tracked (ops ++ [op]) ranges (index + 1) index where
  index_eq := by
    rw [h.index_eq, List.length_append, List.length_singleton, Nat.cast_add, Nat.cast_one]
  ids := h.numbered_append (Numbered.singleton hid)
  recorded := h.recorded.append [op]
  opened _ := by
    rw [h.index_eq]
    refine ⟨by omega, hbody ▸ bodyAt_concat ops op, ?_, fun r hr => (h.recorded.range r hr).ends.lt⟩
    intro k op' hik hk _
    rw [List.length_append, List.length_singleton] at hk
    omega

theorem Tracked.txEnd {ops : List TraceOp} {ranges : List (Int × Int)} {index start : Int} {op : TraceOp}
    (h : Tracked ops ranges index start) (hstart : start ≠ -1) (hid : op.id = index) (hbody : op.body = .txEnd) :
    Tracked (ops ++ [op]) (ranges ++ [(start, index)]) (index + 1) (-1) where
  index_eq := by
    rw [h.index_eq, List.length_append, List.length_singleton, Nat.cast_add, Nat.cast_one]
  ids := h.numbered_append (Numbered.singleton hid)
  recorded := by
    obtain ⟨hlow, hat, hq, hbefore⟩ := h.opened hstart
    refine ⟨?_, ?_⟩
    · rw [List.pairwise_append]
      refine ⟨h.recorded.ascending, List.pairwise_singleton _ _, ?_⟩
      intro r hr r' hr'
      rw [List.mem_singleton.mp hr']
      exact hbefore r hr
    · intro r hr
      rcases List.mem_append.mp hr with hr | hr
      · exact (h.recorded.range r hr).append [op]
      · rw [List.mem_singleton.mp hr, h.index_eq]
        exact ⟨hlow, hat.lt, hat.append [op], hbody ▸ bodyAt_concat ops op, hq.append (le_refl _) [op]⟩
  opened habsurd := absurd rfl habsurd

/-! ### Stores and their atomic writes -/

/-- What stands for an operation in the atomic list: the atomic writes of a store, and any other
operation itself with the id of that list. -/
def AtomicPieces (op : TraceOp) (pieces : List TraceOp) : Prop :=
  match op.body with
  | .store st => ∃ index, atomicStores ⟨op.tid, st.address, st.size, st.value, op.srcInfo⟩ index = .ok pieces
  | _ => ∃ index, pieces = [{ op with id := index }]

theorem atomicPieces_of_ne_store {op : TraceOp} (h : ∀ st, op.body ≠ .store st) (index : Int) :
    AtomicPieces op [{ op with id := index }] := by
  unfold AtomicPieces
  split
  · rename_i st hst
    exact absurd hst (h st)
  · exact ⟨index, rfl⟩

/-- Where the pieces of operation `i` start. -/
def position (pieces : List (List TraceOp)) (i : Int) : Int := (pieces.take i.toNat).flatten.length

theorem position_concat {pieces : List (List TraceOp)} {i : Int} (hi : i ≤ pieces.length) (piece : List TraceOp) :
    position (pieces ++ [piece]) i = position pieces i := by
  rw [position, position, List.take_append_of_le_length (by omega)]

theorem position_length (pieces : List (List TraceOp)) : position pieces pieces.length = pieces.flatten.length := by
  rw [position, Int.toNat_natCast, List.take_length]

/-- The two lists during the scan. -/
structure Split (t : Trace) (start atomicStart : Int) (pieces : List (List TraceOp)) : Prop where
  each : List.Forall₂ AtomicPieces t.ops pieces
  flatten : t.atomicWriteOps = pieces.flatten
  ranges : t.atomicWriteOpsTxRanges = t.opsTxRanges.map fun r => (position pieces r.1, position pieces r.2)
  start : start ≠ -1 → atomicStart = position pieces start

theorem Split.length_eq {t : Trace} {start atomicStart : Int} {pieces : List (List TraceOp)}
    (h : Split t start atomicStart pieces) : pieces.length = t.ops.length := h.each.length_eq.symm

/-- The two lists with one more operation and its pieces. -/
def Trace.extend (t : Trace) (op : TraceOp) (piece : List TraceOp) : Trace :=
  { t with ops := t.ops ++ [op], atomicWriteOps := t.atomicWriteOps ++ piece }

section

variable {t : Trace} {index start atomicStart : Int} {pieces : List (List TraceOp)} {op : TraceOp} {piece : List TraceOp}

theorem Split.each_concat (h : Split t start atomicStart pieces) (hpiece : AtomicPieces op piece) :
    List.Forall₂ AtomicPieces (t.extend op piece).ops (pieces ++ [piece]) :=
  List.rel_append h.each (List.Forall₂.cons hpiece List.Forall₂.nil)

theorem Split.flatten_concat (h : Split t start atomicStart pieces) :
    t.atomicWriteOps ++ piece = (pieces ++ [piece]).flatten := by
  rw [h.flatten, List.flatten_append, List.flatten_singleton]

/-- The recorded ranges lie before the operation that is added. -/
theorem Split.ranges_concat (h : Split t start atomicStart pieces) (hplain : Tracked t.ops t.opsTxRanges index start) :
    t.atomicWriteOpsTxRanges =
      t.opsTxRanges.map fun r => (position (pieces ++ [piece]) r.1, position (pieces ++ [piece]) r.2) := by
  rw [h.ranges]
  apply List.map_congr_left
  intro r hr
  have hrange := hplain.recorded.range r hr
  have hend := hrange.ends.lt
  have horder := hrange.order
  have hlen := h.length_eq
  rw [position_concat (by omega), position_concat (by omega)]

theorem Split.start_concat (h : Split t start atomicStart pieces) (hplain : Tracked t.ops t.opsTxRanges index start)
    (hstart : start ≠ -1) : atomicStart = position (pieces ++ [piece]) start := by
  have hlt := (hplain.opened hstart).2.1.lt
  have hlen := h.length_eq
  rw [position_concat (by omega)]
  exact h.start hstart

/-- The position of the operation that is added. -/
theorem Split.position_last (h : Split t start atomicStart pieces) (hplain : Tracked t.ops t.opsTxRanges index start) :
    position (pieces ++ [piece]) index = t.atomicWriteOps.length := by
  have hlen := h.length_eq
  rw [hplain.index_eq, position_concat (by omega), ← hlen, position_length, h.flatten]

end

/-! ### The scan -/

structure Scanned (s : ScanState) : Prop where
  plain : Tracked s.trace.ops s.trace.opsTxRanges s.opCurrIndex s.opCurrTxStartIndex
  atomic : Tracked s.trace.atomicWriteOps s.trace.atomicWriteOpsTxRanges s.atomicWriteOpCurrIndex
    s.atomicWriteOpCurrTxStartIndex
  split : ∃ pieces, Split s.trace s.opCurrTxStartIndex s.atomicWriteOpCurrTxStartIndex pieces

theorem scanned_init : Scanned ScanState.init where
  plain := Tracked.nil
  atomic := Tracked.nil
  split := ⟨[], List.Forall₂.nil, rfl, rfl, fun h => absurd rfl h⟩

/-- The state after a line that adds `op` to the plain list and `piece` to the atomic one. -/
def ScanState.extend (s : ScanState) (op : TraceOp) (piece : List TraceOp) : ScanState :=
  { s with
    trace := s.trace.extend op piece
    opCurrIndex := s.opCurrIndex + 1
    atomicWriteOpCurrIndex := s.atomicWriteOpCurrIndex + piece.length }

def ScanState.opBoundary (s : ScanState) (tid : Int) (srcInfo : List Char) (body : OpBody) : ScanState :=
  s.extend ⟨s.opCurrIndex, tid, srcInfo, body⟩ [⟨s.atomicWriteOpCurrIndex, tid, srcInfo, body⟩]

theorem item_mem {strs : List (List Char)} {i : Nat} {str : List Char} (h : item strs i = .ok str) : str ∈ strs := by
  unfold item at h
  split at h
  · rename_i hstr
    cases h
    exact List.mem_of_getElem? hstr
  · cases h

/-- The source line of an operation, and the name of a called function, are fields of its line. -/
structure Quotes (strs : List (List Char)) (op : TraceOp) : Prop where
  srcInfo : op.srcInfo ∈ strs
  funcName : ∀ funcName note, op.body = .pmdkCall funcName note → funcName ∈ strs

/-- What a line that is neither a store nor a boundary becomes. -/
theorem plainFields_cases {table : CharTable} {opType srcInfo : List Char} {strs : List (List Char)} {tid : Int}
    {body : OpBody} (h : plainFields table opType strs = .ok (tid, srcInfo, body)) :
    srcInfo ∈ strs ∧ ((∃ address cacheline, getCachelineAddress address = .ok cacheline ∧ body = .flush address cacheline) ∨
      body = .fence ∨ (∃ address size, body = .pmdkTXAlloc address size) ∨ (∃ address size, body = .pmdkTXAdd address size) ∨
      ∃ note, body = .pmdkCall opType note) := by
  unfold plainFields at h
  split_ifs at h
  · obtain ⟨_, -, h⟩ := Loops.bind_ok h
    obtain ⟨address, -, h⟩ := Loops.bind_ok h
    obtain ⟨_, hsrc, h⟩ := Loops.bind_ok h
    obtain ⟨cacheline, hline, h⟩ := Loops.bind_ok h
    cases h
    exact ⟨item_mem hsrc, .inl ⟨address, cacheline, hline, rfl⟩⟩
  · obtain ⟨_, -, h⟩ := Loops.bind_ok h
    obtain ⟨_, hsrc, h⟩ := Loops.bind_ok h
    cases h
    exact ⟨item_mem hsrc, .inr (.inl rfl)⟩
  · obtain ⟨_, -, h⟩ := Loops.bind_ok h
    obtain ⟨address, -, h⟩ := Loops.bind_ok h
    obtain ⟨size, -, h⟩ := Loops.bind_ok h
    obtain ⟨_, hsrc, h⟩ := Loops.bind_ok h
    cases h
    exact ⟨item_mem hsrc, .inr (.inr (.inl ⟨address, size, rfl⟩))⟩
  · obtain ⟨_, -, h⟩ := Loops.bind_ok h
    obtain ⟨address, -, h⟩ := Loops.bind_ok h
    obtain ⟨size, -, h⟩ := Loops.bind_ok h
    obtain ⟨_, hsrc, h⟩ := Loops.bind_ok h
    cases h
    exact ⟨item_mem hsrc, .inr (.inr (.inr (.inl ⟨address, size, rfl⟩)))⟩
  · obtain ⟨_, -, h⟩ := Loops.bind_ok h
    obtain ⟨_, hsrc, h⟩ := Loops.bind_ok h
    obtain ⟨note, -, h⟩ := Loops.bind_ok h
    cases h
    exact ⟨item_mem hsrc, .inr (.inr (.inr (.inr ⟨note, rfl⟩)))⟩

theorem plainFields_plain {table : CharTable} {opType srcInfo : List Char} {strs : List (List Char)} {tid : Int}
    {body : OpBody} (h : plainFields table opType strs = .ok (tid, srcInfo, body)) (htype : opType ∈ strs) :
    body.isBoundary = false ∧ (∀ st, body ≠ .store st) ∧ ∀ id, Quotes strs ⟨id, tid, srcInfo, body⟩ := by
  obtain ⟨hsrc, ⟨_, _, -, rfl⟩ | rfl | ⟨_, _, rfl⟩ | ⟨_, _, rfl⟩ | ⟨_, rfl⟩⟩ := plainFields_cases h
  all_goals exact ⟨rfl, by simp, fun _ => ⟨hsrc, by simp [htype]⟩⟩

/-- The flushes of a trace carry the address of a line. -/
def Aligned (op : TraceOp) : Prop := ∀ unaligned address, op.body = .flush unaligned address → 64 ∣ address

theorem plainFields_aligned {table : CharTable} {opType srcInfo : List Char} {strs : List (List Char)} {tid : Int}
    {body : OpBody} (h : plainFields table opType strs = .ok (tid, srcInfo, body)) (id : Int) :
    Aligned ⟨id, tid, srcInfo, body⟩ := by
  intro unaligned address hflush
  obtain ⟨-, ⟨_, _, hline, rfl⟩ | rfl | ⟨_, _, rfl⟩ | ⟨_, _, rfl⟩ | ⟨_, rfl⟩⟩ := plainFields_cases h
  · cases hflush
    obtain ⟨q, -, hline⟩ := Loops.bind_ok hline
    cases hline
    exact Dvd.intro_left q rfl
  all_goals cases hflush

/-- What one line does: it adds an operation that is no boundary and the pieces that stand for it, or it
opens a transaction, or it closes the open one. -/
theorem scanEntry_cases {table : CharTable} {s s' : ScanState} {entry : List Char} (h : scanEntry table s entry = .ok s') :
    (∃ op piece, Quotes (entry.splitOn ',') op ∧ op.id = s.opCurrIndex ∧ op.body.isBoundary = false ∧ AtomicPieces op piece ∧
      Numbered s.atomicWriteOpCurrIndex piece ∧ (∀ p ∈ piece, p.body.isBoundary = false ∧ Aligned p) ∧ s' = s.extend op piece) ∨
    (∃ tid, ∃ srcInfo ∈ entry.splitOn ',', s.opCurrTxStartIndex = -1 ∧ s.atomicWriteOpCurrTxStartIndex = -1 ∧
      s' = { s.opBoundary tid srcInfo .txStart with
        opCurrTxStartIndex := s.opCurrIndex
        atomicWriteOpCurrTxStartIndex := s.atomicWriteOpCurrIndex }) ∨
    (∃ tid, ∃ srcInfo ∈ entry.splitOn ',', s.opCurrTxStartIndex ≠ -1 ∧ s.atomicWriteOpCurrTxStartIndex ≠ -1 ∧
      s' = { s.opBoundary tid srcInfo .txEnd with
        trace := { (s.opBoundary tid srcInfo .txEnd).trace with
          opsTxRanges := s.trace.opsTxRanges ++ [(s.opCurrTxStartIndex, s.opCurrIndex)]
          atomicWriteOpsTxRanges :=
            s.trace.atomicWriteOpsTxRanges ++ [(s.atomicWriteOpCurrTxStartIndex, s.atomicWriteOpCurrIndex)] }
        opCurrTxStartIndex := -1
        atomicWriteOpCurrTxStartIndex := -1 }) := by
  obtain ⟨opType, htype, h⟩ := Loops.bind_ok h
  obtain ⟨s₁, hscan, h⟩ := Loops.bind_ok h
  cases h
  unfold scanType at hscan
  split_ifs at hscan
  · left
    obtain ⟨⟨store, stores⟩, hget, hscan⟩ := Loops.bind_ok hscan
    cases hscan
    obtain ⟨tid, -, hget⟩ := Loops.bind_ok hget
    obtain ⟨address, -, hget⟩ := Loops.bind_ok hget
    obtain ⟨size, -, hget⟩ := Loops.bind_ok hget
    obtain ⟨value, -, hget⟩ := Loops.bind_ok hget
    obtain ⟨srcInfo, hsrc, hget⟩ := Loops.bind_ok hget
    obtain ⟨op, hop, hget⟩ := Loops.bind_ok hget
    obtain ⟨pieces, hpieces, hget⟩ := Loops.bind_ok hget
    cases hget
    obtain ⟨valueBytes, -, rfl⟩ := StoreParams.store_ok hop
    obtain ⟨hnum, howns⟩ := atomicStores_numbered hpieces
    refine ⟨⟨s.opCurrIndex, tid, srcInfo, .store ⟨address, size, value.splitOn ' ', valueBytes⟩⟩, stores,
      ⟨item_mem hsrc, by simp⟩, rfl, rfl, ⟨_, hpieces⟩, hnum, ?_, ?_⟩
    · intro p hp
      obtain ⟨body, hbody⟩ := (howns p hp).store
      rw [Aligned, hbody]
      exact ⟨rfl, by simp⟩
    · simp only [ScanState.extend, Trace.extend, Int.sub_add_cancel]
  · right
    left
    obtain ⟨tid, -, hscan⟩ := Loops.bind_ok hscan
    obtain ⟨srcInfo, hsrc, hscan⟩ := Loops.bind_ok hscan
    obtain ⟨_, hstart, hscan⟩ := Loops.bind_ok hscan
    obtain ⟨_, hatomic, hscan⟩ := Loops.bind_ok hscan
    cases hscan
    exact ⟨tid, srcInfo, item_mem hsrc, of_decide_eq_true (assert_ok hstart), of_decide_eq_true (assert_ok hatomic), rfl⟩
  · right
    right
    obtain ⟨tid, -, hscan⟩ := Loops.bind_ok hscan
    obtain ⟨srcInfo, hsrc, hscan⟩ := Loops.bind_ok hscan
    obtain ⟨_, hstart, hscan⟩ := Loops.bind_ok hscan
    obtain ⟨_, hatomic, hscan⟩ := Loops.bind_ok hscan
    cases hscan
    exact ⟨tid, srcInfo, item_mem hsrc, of_decide_eq_true (assert_ok hstart), of_decide_eq_true (assert_ok hatomic), rfl⟩
  · left
    obtain ⟨⟨tid, srcInfo, body⟩, hfields, hscan⟩ := Loops.bind_ok hscan
    cases hscan
    obtain ⟨hplain, hstore, hquotes⟩ := plainFields_plain hfields (item_mem htype)
    refine ⟨⟨_, tid, srcInfo, body⟩, _, hquotes _, rfl, hplain, atomicPieces_of_ne_store hstore s.atomicWriteOpCurrIndex,
      Numbered.singleton rfl, ?_, rfl⟩
    intro p hp
    rw [List.mem_singleton.mp hp]
    exact ⟨hplain, plainFields_aligned hfields _⟩

theorem scanEntry_scanned {table : CharTable} {s s' : ScanState} {entry : List Char} (hs : Scanned s)
    (h : scanEntry table s entry = .ok s') : Scanned s' := by
  obtain ⟨hplain, hatomic, pieces, hsplit⟩ := hs
  rcases scanEntry_cases h with ⟨op, piece, -, hid, hbody, hpiece, hnum, hquiet, rfl⟩ |
    ⟨tid, srcInfo, -, hstart, hatomicStart, rfl⟩ | ⟨tid, srcInfo, -, hstart, hatomicStart, rfl⟩
  · refine ⟨?_, hatomic.append hnum fun p hp => (hquiet p hp).1, pieces ++ [piece], hsplit.each_concat hpiece,
      hsplit.flatten_concat, hsplit.ranges_concat hplain, hsplit.start_concat hplain⟩
    exact hplain.append (Numbered.singleton hid) (by simpa using hbody)
  · rw [hstart] at hplain
    rw [hatomicStart] at hatomic
    refine ⟨hplain.txStart rfl rfl, hatomic.txStart rfl rfl, pieces ++ [[_]],
      hsplit.each_concat (atomicPieces_of_ne_store (by simp) _), hsplit.flatten_concat, ?_, ?_⟩
    · rw [hstart] at hsplit
      exact hsplit.ranges_concat hplain
    · intro _
      rw [hstart] at hsplit
      rw [hsplit.position_last hplain]
      exact hatomic.index_eq
  · refine ⟨hplain.txEnd hstart rfl rfl, hatomic.txEnd hatomicStart rfl rfl, pieces ++ [[_]],
      hsplit.each_concat (atomicPieces_of_ne_store (by simp) _), hsplit.flatten_concat, ?_, fun habsurd => absurd rfl habsurd⟩
    rw [List.map_append, ← hsplit.ranges_concat hplain, List.map_singleton, ← hsplit.start_concat hplain hstart,
      hsplit.position_last hplain, ← hatomic.index_eq]

/-! ### The atomic writes tile a store -/

/-- Stores one after the other from `low` to `high`, none of them empty and each inside one aligned word. -/
def Tiles (low high : Int) : List TraceOp → Prop
  | [] => low = high
  | op :: ops => ∃ st, op.body = .store st ∧ st.address = low ∧ 0 < st.size ∧ low + st.size ≤ low / 8 * 8 + 8 ∧
      Tiles (low + st.size) high ops

theorem Tiles.append {low mid high : Int} {front back : List TraceOp} (hfront : Tiles low mid front)
    (hback : Tiles mid high back) : Tiles low high (front ++ back) := by
  induction front generalizing low with
  | nil =>
      rw [Tiles] at hfront
      rw [hfront]
      exact hback
  | cons op ops ih =>
      obtain ⟨st, hbody, haddr, hsize, hword, hrest⟩ := hfront
      exact ⟨st, hbody, haddr, hsize, hword, ih hrest⟩

/-- The bytes a store writes, as they stand in its line. -/
def TraceOp.value (op : TraceOp) : List (List Char) :=
  match op.body with
  | .store st => st.value
  | _ => []

theorem StoreParams.store_tiles {p : StoreParams} {address size id : Int} {value : List (List Char)} {op : TraceOp}
    (h : p.store address size value id = .ok op) (hsize : 0 < size) (hword : address + size ≤ address / 8 * 8 + 8) :
    Tiles address (address + size) [op] ∧ [op].flatMap TraceOp.value = value := by
  obtain ⟨valueBytes, -, rfl⟩ := StoreParams.store_ok h
  exact ⟨⟨_, rfl, rfl, hsize, hword, rfl⟩, by simp [TraceOp.value]⟩

/-- The loop over whole words goes on until less than a word is left. -/
theorem wordStores_tiles {p : StoreParams} {fuel : Nat} {index index' offset offset' : Int} {ops : List TraceOp}
    (h : wordStores p fuel index offset = .ok (ops, index', offset')) (hlow : 0 ≤ offset) (halign : 8 ∣ p.address + offset)
    (hfuel : p.size - offset ≤ fuel) :
    Tiles (p.address + offset) (p.address + offset') ops ∧ ops.flatMap TraceOp.value = slice p.value offset offset' ∧
      offset ≤ offset' ∧ 8 ∣ p.address + offset' ∧ p.size < offset' + 8 ∧ offset' ≤ max offset p.size := by
  revert hlow halign hfuel
  refine wordStores_induction (motive := fun fuel _ offset ops _ offset' =>
    0 ≤ offset → 8 ∣ p.address + offset → p.size - offset ≤ fuel →
      Tiles (p.address + offset) (p.address + offset') ops ∧ ops.flatMap TraceOp.value = slice p.value offset offset' ∧
        offset ≤ offset' ∧ 8 ∣ p.address + offset' ∧ p.size < offset' + 8 ∧ offset' ≤ max offset p.size) ?_ ?_ h
  · intro fuel index offset hstop hlow halign hfuel
    exact ⟨rfl, (slice_self p.value hlow).symm, le_refl _, halign, by omega, by omega⟩
  · intro fuel index offset op rest index' offset' hfit hop ih hlow halign hfuel
    obtain ⟨htile, hvalue⟩ := StoreParams.store_tiles hop (by omega) (by omega)
    obtain ⟨hrestTiles, hrestValue, hle, halign', hsize, hmax⟩ := ih (by omega) (by omega) (by omega)
    refine ⟨?_, ?_, by omega, halign', hsize, by omega⟩
    · rw [← List.singleton_append]
      apply htile.append
      rw [Int.add_assoc]
      exact hrestTiles
    · rw [← List.singleton_append, List.flatMap_append, hvalue, hrestValue,
        slice_append p.value hlow (by omega) hle]

/-- The first chunk ends at the word boundary, or with the store. -/
theorem firstStore_tiles {p : StoreParams} {index index' offset : Int} {ops : List TraceOp}
    (h : firstStore p (p.address / 8 * 8) index = .ok (ops, index', offset)) (hsize : 0 < p.size)
    (hvalue : p.value.length = p.size) :
    Tiles p.address (p.address + min p.size offset) ops ∧
      ops.flatMap TraceOp.value = slice p.value 0 (min p.size offset) ∧ 0 ≤ offset ∧ 8 ∣ p.address + offset := by
  rw [firstStore, atomicWriteBytes] at h
  split_ifs at h with hpos
  · obtain ⟨op, hop, h⟩ := Loops.bind_ok h
    cases h
    obtain ⟨htile, hval⟩ := StoreParams.store_tiles hop (by omega) (by omega)
    exact ⟨htile, hval, by omega, by omega⟩
  · cases h
    rw [min_eq_right (le_of_lt hsize), Int.add_zero, slice_self p.value (le_refl 0)]
    exact ⟨rfl, rfl, le_refl _, by omega⟩

/-- Below `2^53` the word of an address is found by an exact division. -/
theorem intTrueDiv_word {address q : Int} (hlow : 0 ≤ address) (hhigh : address < 2 ^ 53)
    (h : intTrueDiv address atomicWriteBytes = .ok q) : q = address / 8 := by
  have hdiv : trueDivInt address.natAbs 8 = address.natAbs / 8 := trueDivInt_eq_div _ 8 (by decide) (by omega)
  rw [intTrueDiv, atomicWriteBytes, hdiv] at h
  split_ifs at h
  · omega
  · cases h
    omega

/-- Below `2^53` the atomic writes of a store are its slices at the word boundaries, in order. -/
theorem atomicStores_tiles {p : StoreParams} {index : Int} {ops : List TraceOp} (h : atomicStores p index = .ok ops)
    (hlow : 0 ≤ p.address) (hhigh : p.address < 2 ^ 53) (hsize : 0 < p.size) (hvalue : p.value.length = p.size) :
    Tiles p.address (p.address + p.size) ops ∧ ops.flatMap TraceOp.value = p.value := by
  obtain ⟨q, hq, h⟩ := Loops.bind_ok h
  obtain ⟨⟨first, index₁, offset₁⟩, hfirst, h⟩ := Loops.bind_ok h
  obtain ⟨⟨words, index₂, offset₂⟩, hwords, h⟩ := Loops.bind_ok h
  obtain ⟨last, hlast, h⟩ := Loops.bind_ok h
  cases h
  rw [intTrueDiv_word hlow hhigh hq] at hfirst
  obtain ⟨htiles₁, hvalue₁, hoffset₁, halign₁⟩ := firstStore_tiles hfirst hsize hvalue
  have hall : slice p.value 0 p.size = p.value := by
    rw [slice_of_nonneg p.value (le_refl 0) (le_of_lt hsize), ← hvalue, Int.toNat_natCast, List.take_length]
    rfl
  rw [lastStore] at hlast
  by_cases hone : p.size ≤ offset₁
  · have hfuel : (p.size - offset₁).toNat = 0 := by omega
    rw [hfuel, wordStores] at hwords
    cases hwords
    rw [if_neg (by omega)] at hlast
    cases hlast
    rw [min_eq_left hone] at htiles₁ hvalue₁
    rw [List.append_nil, List.append_nil]
    exact ⟨htiles₁, hvalue₁.trans hall⟩
  · obtain ⟨htiles₂, hvalue₂, hle₂, halign₂, hstop₂, hmax₂⟩ := wordStores_tiles hwords hoffset₁ halign₁ (by omega)
    rw [min_eq_right (by omega)] at htiles₁ hvalue₁
    have htiles := htiles₁.append htiles₂
    have hvalues : (first ++ words).flatMap TraceOp.value = slice p.value 0 offset₂ := by
      rw [List.flatMap_append, hvalue₁, hvalue₂, slice_append p.value (le_refl 0) hoffset₁ hle₂]
    split_ifs at hlast with hrest
    · obtain ⟨op, hop, h⟩ := Loops.bind_ok hlast
      cases h
      obtain ⟨htile, hval⟩ := StoreParams.store_tiles hop (by omega) (by omega)
      refine ⟨?_, ?_⟩
      · have hend : p.address + offset₂ + (p.size - offset₂) = p.address + p.size := by omega
        rw [hend] at htile
        exact htiles.append htile
      · rw [List.flatMap_append, hvalues, hval, hvalue, slice_append p.value (le_refl 0) (by omega) (by omega), hall]
    · cases hlast
      have hend : offset₂ = p.size := by omega
      rw [List.append_nil]
      rw [hend] at htiles hvalues
      exact ⟨htiles, hvalues.trans hall⟩

/-! ### The transactions of the two lists -/

theorem flatten_take_drop {α : Type} (pieces : List (List α)) {i j : Nat} (hij : i ≤ j) :
    (pieces.flatten.take (pieces.take j).flatten.length).drop (pieces.take i).flatten.length =
      ((pieces.take j).drop i).flatten := by
  have htake : pieces.flatten.take (pieces.take j).flatten.length = (pieces.take j).flatten := by
    calc pieces.flatten.take (pieces.take j).flatten.length
        = ((pieces.take j).flatten ++ (pieces.drop j).flatten).take (pieces.take j).flatten.length := by
          rw [← List.flatten_append, List.take_append_drop]
      _ = (pieces.take j).flatten := List.take_left
  have hsplit : (pieces.take j).flatten = (pieces.take i).flatten ++ ((pieces.take j).drop i).flatten := by
    rw [← List.flatten_append]
    congr 1
    conv_lhs => rw [← List.take_append_drop i (pieces.take j), List.take_take, Nat.min_eq_left hij]
  rw [htake, hsplit, List.drop_left]

/-- The piece of an operation that is not a store is one operation. -/
theorem position_succ {ops : List TraceOp} {pieces : List (List TraceOp)} (heach : List.Forall₂ AtomicPieces ops pieces)
    {i : Int} (hi : 0 ≤ i) (hend : BodyAt ops i .txEnd) : position pieces (i + 1) = position pieces i + 1 := by
  obtain ⟨op, hop, hbody⟩ := hend
  have hlt : i.toNat < ops.length := (List.getElem?_eq_some_iff.mp hop).choose
  have hlt' : i.toNat < pieces.length := heach.length_eq ▸ hlt
  have hpiece : AtomicPieces ops[i.toNat] pieces[i.toNat] := heach.get hlt hlt'
  rw [(List.getElem?_eq_some_iff.mp hop).choose_spec, AtomicPieces, hbody] at hpiece
  obtain ⟨index, hone⟩ := hpiece
  have hnext : (i + 1).toNat = i.toNat + 1 := by omega
  rw [position, position, hnext, List.take_succ_eq_append_getElem hlt', List.flatten_append, List.length_append,
    List.flatten_singleton, hone, List.length_singleton, Nat.cast_add, Nat.cast_one]

/-- What the indices of a trace are good for. -/
structure Indexed (t : Trace) : Prop where
  ids : Numbered 0 t.ops
  atomicIds : Numbered 0 t.atomicWriteOps
  ranges : TxRanges t.ops t.opsTxRanges
  atomicRanges : TxRanges t.atomicWriteOps t.atomicWriteOpsTxRanges
  sameLength : t.opsTxRanges.length = t.atomicWriteOpsTxRanges.length
  sameOps : ∀ (k : Nat) (r r' : Int × Int), t.opsTxRanges[k]? = some r → t.atomicWriteOpsTxRanges[k]? = some r' →
    ∃ pieces, List.Forall₂ AtomicPieces (slice t.ops r.1 (r.2 + 1)) pieces ∧
      slice t.atomicWriteOps r'.1 (r'.2 + 1) = pieces.flatten
  -- the division by the word size is exact below `2^53` only
  chunks : ∀ op ∈ t.ops, ∀ st pieces, op.body = .store st → AtomicPieces op pieces → 0 ≤ st.address →
    st.address < 2 ^ 53 → 0 < st.size → st.value.length = st.size →
    Tiles st.address (st.address + st.size) pieces ∧ pieces.flatMap TraceOp.value = st.value

theorem Scanned.indexed {s : ScanState} (h : Scanned s) : Indexed s.trace where
  ids := h.plain.ids
  atomicIds := h.atomic.ids
  ranges := h.plain.recorded
  atomicRanges := h.atomic.recorded
  sameLength := by
    obtain ⟨pieces, hsplit⟩ := h.split
    rw [hsplit.ranges, List.length_map]
  sameOps k r r' hr hr' := by
    obtain ⟨pieces, hsplit⟩ := h.split
    rw [hsplit.ranges, List.getElem?_map, hr, Option.map_some, Option.some.injEq] at hr'
    have hrange := h.plain.recorded.range r (List.mem_of_getElem? hr)
    have hlow := hrange.low
    have horder := hrange.order
    refine ⟨(pieces.take (r.2 + 1).toNat).drop r.1.toNat, ?_, ?_⟩
    · rw [slice_of_nonneg _ hlow (by omega)]
      exact List.forall₂_drop _ (List.forall₂_take _ hsplit.each)
    · rw [← hr']
      show slice s.trace.atomicWriteOps (position pieces r.1) (position pieces r.2 + 1) = _
      rw [← position_succ hsplit.each (by omega) hrange.ends, position, position, slice_natCast, hsplit.flatten]
      exact flatten_take_drop pieces (by omega)
  chunks op _ st pieces hbody hpieces hlow hhigh hsize hvalue := by
    rw [AtomicPieces, hbody] at hpieces
    obtain ⟨index, hstores⟩ := hpieces
    exact atomicStores_tiles hstores hlow hhigh hsize hvalue

/-- Every trace that the reader accepts is indexed. -/
theorem witcherTrace_indexed (table : CharTable) (text : List Char) (t : Trace) (h : witcherTrace table text = .ok t) :
    Indexed t := by
  obtain ⟨s, hscan, h⟩ := Loops.bind_ok h
  cases h
  have hs : Scanned s := Loops.foldlM_invariant (fun s entry _ s' hs hentry => scanEntry_scanned hs hentry) scanned_init hscan
  exact hs.indexed

/-- A transaction with a store of twelve bytes across three words, and a call outside of it. -/
def unalignedTrace : List Char :=
  ["pmemobj_open,7,a.c:1,start".toList, "TXStart,7,a.c:2".toList,
    "Store,7,1006,12,00 01 02 03 04 05 06 07 08 09 0a 0b,a.c:3".toList, "TXEnd,7,a.c:4".toList].flatMap (· ++ ['\n'])

theorem witcherTrace_indexed_unaligned :
    ∃ t, witcherTrace ⟨id, fun _ _ => rfl⟩ unalignedTrace = .ok t ∧ t.opsTxRanges = [(1, 3)] ∧
      t.atomicWriteOpsTxRanges = [(1, 5)] ∧ Indexed t := by
  have hread : (witcherTrace ⟨id, fun _ _ => rfl⟩ unalignedTrace).toOption.map
      (fun t => (t.opsTxRanges, t.atomicWriteOpsTxRanges)) = some ([(1, 3)], [(1, 5)]) := by decide +kernel
  cases ht : witcherTrace ⟨id, fun _ _ => rfl⟩ unalignedTrace with
  | error e =>
      rw [ht] at hread
      cases hread
  | ok t =>
      rw [ht] at hread
      obtain ⟨hranges, hatomic⟩ := Prod.mk.inj (Option.some.inj hread)
      exact ⟨t, rfl, hranges, hatomic, witcherTrace_indexed _ _ t ht⟩

end Witcher.TraceText
