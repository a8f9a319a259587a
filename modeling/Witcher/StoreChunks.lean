import Witcher.TraceRoundTrip
import Witcher.YatCache

/-! The atomic writes of a store line are an exact tiling. Every piece is a slice of the line's bytes
inside one aligned word, so that the caches take it: the replay cache into the line of its address, the
counting cache into one bucket. -/

namespace Witcher.TraceText

open TrueDivision PythonText

/-! ### Pieces -/

/-- The bytes `i` to `j` of the line as a store of their own; the cut before them is the start of the line
or of a word. -/
structure IsPiece (p : StoreParams) (i j : Int) (op : TraceOp) : Prop where
  low : 0 ≤ i
  order : i ≤ j
  high : j ≤ p.size
  cut : i = 0 ∨ 8 ∣ p.address + i
  body : ∃ valueBytes, fromHex (PythonText.slice p.value i j).flatten = some valueBytes ∧
    op.body = .store ⟨p.address + i, j - i, PythonText.slice p.value i j, valueBytes⟩

theorem StoreParams.store_piece {p : StoreParams} {i j address size id : Int} {op : TraceOp}
    (h : p.store address size (PythonText.slice p.value i j) id = .ok op) (haddress : address = p.address + i)
    (hsize : size = j - i) (hlow : 0 ≤ i) (horder : i ≤ j) (hhigh : j ≤ p.size) (hcut : i = 0 ∨ 8 ∣ p.address + i) :
    IsPiece p i j op := by
  obtain ⟨valueBytes, hhex, rfl⟩ := StoreParams.store_ok h
  refine ⟨hlow, horder, hhigh, hcut, valueBytes, hhex, ?_⟩
  rw [haddress, hsize]

theorem firstStore_pieces {p : StoreParams} {index index' offset : Int} {ops : List TraceOp}
    (h : firstStore p (p.address / 8 * 8) index = .ok (ops, index', offset)) (hsize : 0 < p.size) :
    ∀ op ∈ ops, ∃ i j, IsPiece p i j op := by
  rw [firstStore, atomicWriteBytes] at h
  split_ifs at h with hpos
  · obtain ⟨op, hop, h⟩ := Loops.bind_ok h
    cases h
    intro op' hop'
    rw [List.mem_singleton.mp hop']
    exact ⟨_, _, StoreParams.store_piece hop (by omega) (by omega) (le_refl 0) (by omega) (by omega) (.inl rfl)⟩
  · cases h
    simp

theorem wordStores_pieces {p : StoreParams} {fuel : Nat} {index index' offset offset' : Int} {ops : List TraceOp}
    (h : wordStores p fuel index offset = .ok (ops, index', offset')) (hlow : 0 ≤ offset) (halign : 8 ∣ p.address + offset) :
    ∀ op ∈ ops, ∃ i j, IsPiece p i j op := by
  revert hlow halign
  refine wordStores_induction (motive := fun _ _ offset ops _ _ => 0 ≤ offset → 8 ∣ p.address + offset →
    ∀ op ∈ ops, ∃ i j, IsPiece p i j op) ?_ ?_ h
  · intro fuel index offset _ _ _ op hop
    cases hop
  · intro fuel index offset op rest index' offset' hfit hop ih hlow halign
    refine List.forall_mem_cons.mpr ⟨⟨offset, offset + 8, ?_⟩, ih (by omega) (by omega)⟩
    exact StoreParams.store_piece hop rfl (by omega) hlow (by omega) (by omega) (.inr halign)

theorem lastStore_pieces {p : StoreParams} {index offset : Int} {ops : List TraceOp} (h : lastStore p index offset = .ok ops)
    (hvalue : p.value.length = p.size) (hlow : 0 ≤ offset) (halign : 8 ∣ p.address + offset) :
    ∀ op ∈ ops, ∃ i j, IsPiece p i j op := by
  rw [lastStore] at h
  split_ifs at h with hrest
  · obtain ⟨op, hop, h⟩ := Loops.bind_ok h
    cases h
    intro op' hop'
    rw [List.mem_singleton.mp hop']
    exact ⟨_, _, StoreParams.store_piece hop rfl (by omega) hlow (by omega) (by omega) (.inr halign)⟩
  · cases h
    simp

theorem atomicStores_pieces {p : StoreParams} {index : Int} {ops : List TraceOp} (h : atomicStores p index = .ok ops)
    (hlow : 0 ≤ p.address) (hhigh : p.address < 2 ^ 53) (hsize : 0 < p.size) (hvalue : p.value.length = p.size) :
    ∀ op ∈ ops, ∃ i j, IsPiece p i j op := by
  obtain ⟨q, hq, h⟩ := Loops.bind_ok h
  obtain ⟨⟨first, index₁, offset₁⟩, hfirst, h⟩ := Loops.bind_ok h
  obtain ⟨⟨words, index₂, offset₂⟩, hwords, h⟩ := Loops.bind_ok h
  obtain ⟨last, hlast, h⟩ := Loops.bind_ok h
  cases h
  rw [intTrueDiv_word hlow hhigh hq] at hfirst
  obtain ⟨-, -, hoffset₁, halign₁⟩ := firstStore_tiles hfirst hsize hvalue
  obtain ⟨-, -, hle₂, halign₂, -, -⟩ := wordStores_tiles hwords hoffset₁ halign₁ (by omega)
  intro op hop
  rcases List.mem_append.mp hop with hop | hop
  · rcases List.mem_append.mp hop with hop | hop
    · exact firstStore_pieces hfirst hsize op hop
    · exact wordStores_pieces hwords hoffset₁ halign₁ op hop
  · exact lastStore_pieces hlast hvalue (by omega) halign₂ op hop

theorem length_slice {α : Type} (l : List α) {i j : Int} (hi : 0 ≤ i) (hij : i ≤ j) (hj : j ≤ l.length) :
    ((PythonText.slice l i j).length : Int) = j - i := by
  rw [slice_of_nonneg l hi (le_trans hi hij), List.length_drop, List.length_take]
  omega

theorem IsPiece.printed {p : StoreParams} {bytes : List UInt8} {i j : Int} {op : TraceOp} (h : IsPiece p i j op)
    (hvalue : p.value = bytes.map printByte) :
    op.body = .store ⟨p.address + i, j - i, (PythonText.slice bytes i j).map printByte, PythonText.slice bytes i j⟩ := by
  obtain ⟨valueBytes, hhex, hbody⟩ := h.body
  rw [hvalue, slice_map, ← List.flatMap_def, fromHex_flatMap] at hhex
  cases hhex
  rw [hbody, hvalue, slice_map]

/-! ### Tilings -/

theorem Tiles.mem {low high : Int} {ops : List TraceOp} (h : Tiles low high ops) {op : TraceOp} (hop : op ∈ ops) :
    ∃ st, op.body = .store st ∧ low ≤ st.address ∧ 0 < st.size ∧ st.address + st.size ≤ st.address / 8 * 8 + 8 := by
  induction ops generalizing low with
  | nil => cases hop
  | cons a ops ih =>
      obtain ⟨st, hbody, haddress, hsize, hword, hrest⟩ := h
      rcases List.mem_cons.mp hop with rfl | hop
      · exact ⟨st, hbody, le_of_eq haddress.symm, hsize, haddress ▸ hword⟩
      · obtain ⟨st', hbody', hle, hsize', hword'⟩ := ih hrest hop
        exact ⟨st', hbody', by omega, hsize', hword'⟩

/-- The range of one store ends where that of the other starts, or before. -/
def Before (op op' : TraceOp) : Prop :=
  ∀ st st', op.body = .store st → op'.body = .store st' → st.address + st.size ≤ st'.address

theorem Tiles.pairwise {low high : Int} {ops : List TraceOp} (h : Tiles low high ops) : ops.Pairwise Before := by
  induction ops generalizing low with
  | nil => exact List.Pairwise.nil
  | cons a ops ih =>
      obtain ⟨st, hbody, haddress, -, -, hrest⟩ := h
      refine List.Pairwise.cons ?_ (ih hrest)
      intro op hop s s' hs hs'
      obtain ⟨st', hbody', hle, -, -⟩ := hrest.mem hop
      rw [hbody] at hs
      rw [hbody'] at hs'
      cases hs
      cases hs'
      omega

/-! ### The caches take every piece -/

/-- A store inside one word at a double that is exact lies in the line that is computed for it. -/
theorem getCachelineAddress_piece {address : Nat} (h : address < 2 ^ 53 ∨ 8 ∣ address ∧ address < 2 ^ 56) :
    Witcher.getCachelineAddress address = address / 64 * 64 := by
  have hexact : nearestDouble address = address := by
    rcases h with h | ⟨hdvd, hlt⟩
    · rw [nearestDouble, if_pos h]
    · exact nearestDouble_of_dvd (show 2 ^ 3 ∣ address from hdvd) hlt
  rw [Witcher.getCachelineAddress, Witcher.cachelineBytes, trueDivInt_sixtyFour, hexact]

/-- The replay line and the counting line at the line of the store take it. No aligned line of the counting
cache fails an assertion on it. -/
structure Accepted (s : Store) : Prop where
  witcher : ∀ l : WitcherCacheline, l.address = s.address / 64 * 64 → l.size = Witcher.cachelineBytes → l.canAcceptStoreOp s
  yat : ∀ l : YatCacheline, l.Shape → l.address = s.address / 64 * 64 → ∃ i < 8, l.getBucket s = .ok (some i)
  yatOther : ∀ l : YatCacheline, l.Shape → l.address ≠ s.address / 64 * 64 → l.getBucket s = .ok none

theorem accepted_of_word {s : Store} (hsize : 0 < s.size) (hword : s.address + s.size ≤ s.address / 8 * 8 + 8) :
    Accepted s where
  witcher := by
    intro l haddress hlsize
    rw [WitcherCacheline.canAcceptStoreOp, haddress, hlsize, Witcher.cachelineBytes]
    simp only [Bool.and_eq_true, decide_eq_true_eq]
    omega
  yat l hl := (hl.getBucket_word hword (.inl hsize)).2
  yatOther l hl := (hl.getBucket_word hword (.inl hsize)).1

/-! ### The tiling of a line -/

/-- The fields of a store line with the given bytes. -/
def storeFields (tid address : Nat) (bytes : List UInt8) (srcInfo : List Char) : List (List Char) :=
  ["Store".toList, print 10 tid, print 16 address, print 10 bytes.length, [' '].intercalate (bytes.map printByte), srcInfo]

def TraceOp.valueBytes (op : TraceOp) : List UInt8 :=
  match op.body with
  | .store st => st.valueBytes
  | _ => []

/-- The chunks of a store of `bytes` at `address`, numbered from `index`. -/
structure ExactTiling (address : Nat) (bytes : List UInt8) (index : Int) (chunks : List TraceOp) : Prop where
  tiles : Tiles address (address + bytes.length) chunks
  disjoint : chunks.Pairwise Before
  ids : Numbered index chunks
  chunk : ∀ op ∈ chunks, ∃ st, op.body = .store st ∧ 0 < st.size ∧ st.address + st.size ≤ st.address / 8 * 8 + 8 ∧
    st.valueBytes.length = st.size ∧ st.value = st.valueBytes.map printByte
  values : chunks.flatMap TraceOp.value = bytes.map printByte
  bytes : chunks.flatMap TraceOp.valueBytes = bytes
  accepted : ∀ op ∈ chunks, ∀ st, op.body = .store st → ∀ s : Store, (s.address : Int) = st.address →
    (s.size : Int) = st.size → Accepted s
  -- where the division is exact, the line is the one the caches compute
  line : ∀ op ∈ chunks, ∀ st, op.body = .store st → ∀ s : Store, (s.address : Int) = st.address →
    s.address < 2 ^ 56 → s.line = s.address / 64 * 64

section Printed

variable {p : StoreParams} {address : Nat} {bytes : List UInt8} {index : Int} {chunks : List TraceOp}

theorem printed_chunk (hpieces : ∀ op ∈ chunks, ∃ i j, IsPiece p i j op) (hvalue : p.value = bytes.map printByte)
    (hsize : p.size = bytes.length) {op : TraceOp} (hop : op ∈ chunks) :
    ∃ st, op.body = .store st ∧ st.valueBytes.length = st.size ∧ st.value = st.valueBytes.map printByte ∧
      (st.address = p.address ∨ 8 ∣ st.address) := by
  obtain ⟨i, j, hpiece⟩ := hpieces op hop
  refine ⟨_, hpiece.printed hvalue, ?_, rfl, ?_⟩
  · exact length_slice bytes hpiece.low hpiece.order (hsize ▸ hpiece.high)
  · rcases hpiece.cut with rfl | hcut
    · exact .inl (Int.add_zero _)
    · exact .inr hcut

/-- Bytes are told apart by how they are printed. -/
theorem map_printByte_injective {l l' : List UInt8} (h : l.map printByte = l'.map printByte) : l = l' := by
  have hl := fromHex_flatMap l
  rw [List.flatMap_def, h, ← List.flatMap_def, fromHex_flatMap] at hl
  exact (Option.some.inj hl).symm

theorem flatMap_valueBytes (hchunk : ∀ op ∈ chunks, op.value = op.valueBytes.map printByte)
    (hvalues : chunks.flatMap TraceOp.value = bytes.map printByte) : chunks.flatMap TraceOp.valueBytes = bytes := by
  apply map_printByte_injective
  rw [List.map_flatMap, ← hvalues]
  exact List.flatMap_congr fun op hop => (hchunk op hop).symm

theorem atomicStores_exact (h : atomicStores p index = .ok chunks) (haddress : p.address = address)
    (hlt : address < 2 ^ 53) (hvalue : p.value = bytes.map printByte) (hsize : p.size = bytes.length)
    (hpos : 1 ≤ bytes.length) : ExactTiling address bytes index chunks := by
  have hlength : (p.value.length : Int) = p.size := by rw [hvalue, List.length_map, hsize]
  have hpieces := atomicStores_pieces h (by omega) (by omega) (by omega) hlength
  obtain ⟨htiles, hvalues⟩ := atomicStores_tiles h (by omega) (by omega) (by omega) hlength
  rw [haddress, hsize] at htiles
  rw [hvalue] at hvalues
  have hword : ∀ op ∈ chunks, ∀ st, op.body = .store st → 0 < st.size ∧ st.address + st.size ≤ st.address / 8 * 8 + 8 := by
    intro op hop st hst
    obtain ⟨st', hst', -, hsize', hword'⟩ := htiles.mem hop
    rw [hst] at hst'
    cases hst'
    exact ⟨hsize', hword'⟩
  constructor
  · exact htiles
  · exact htiles.pairwise
  · exact (atomicStores_numbered h).1
  · intro op hop
    obtain ⟨st, hst, hbytes, htext, -⟩ := printed_chunk hpieces hvalue hsize hop
    obtain ⟨hst0, hstword⟩ := hword op hop st hst
    exact ⟨st, hst, hst0, hstword, hbytes, htext⟩
  · exact hvalues
  · apply flatMap_valueBytes _ hvalues
    intro op hop
    obtain ⟨st, hst, -, htext, -⟩ := printed_chunk hpieces hvalue hsize hop
    rw [TraceOp.value, TraceOp.valueBytes, hst]
    exact htext
  · intro op hop st hst s hs hs'
    obtain ⟨hst0, hstword⟩ := hword op hop st hst
    exact accepted_of_word (by omega) (by omega)
  · intro op hop st hst s hs hs56
    obtain ⟨st', hst', -, -, hcut⟩ := printed_chunk hpieces hvalue hsize hop
    rw [hst] at hst'
    cases hst'
    apply getCachelineAddress_piece
    rcases hcut with hcut | hcut
    · left
      omega
    · right
      exact ⟨by omega, hs56⟩

end Printed

/-- Every store line below `2^53` is split, and the chunks tile it. -/
theorem getStores_exact (table : CharTable) (tid address : Nat) (bytes : List UInt8) (srcInfo : List Char)
    (opCurrIndex atomicWriteOpCurrIndex : Int) (hlt : address < 2 ^ 53) (hpos : 1 ≤ bytes.length) :
    ∃ chunks, getStores table (storeFields tid address bytes srcInfo) opCurrIndex atomicWriteOpCurrIndex =
      .ok (⟨opCurrIndex, tid, srcInfo, .store ⟨address, bytes.length, bytes.map printByte, bytes⟩⟩, chunks) ∧
        ExactTiling address bytes atomicWriteOpCurrIndex chunks := by
  have hne : bytes ≠ [] := List.ne_nil_of_length_pos hpos
  have htid : intItem table 10 (storeFields tid address bytes srcInfo) 1 = .ok (tid : Int) :=
    intItem_print table (by decide) (by decide) rfl
  have haddress : intItem table 16 (storeFields tid address bytes srcInfo) 2 = .ok (address : Int) :=
    intItem_print table (by decide) (by decide) rfl
  have hsize : intItem table 10 (storeFields tid address bytes srcInfo) 3 = .ok (bytes.length : Int) :=
    intItem_print table (by decide) (by decide) rfl
  have hvalue : item (storeFields tid address bytes srcInfo) 4 = .ok ([' '].intercalate (bytes.map printByte)) := rfl
  have hsrc : item (storeFields tid address bytes srcInfo) 5 = .ok srcInfo := rfl
  obtain ⟨chunks, hchunks⟩ := atomicStores_printed
    (p := ⟨tid, address, bytes.length, bytes.map printByte, srcInfo⟩) rfl rfl (by omega) atomicWriteOpCurrIndex
  refine ⟨chunks, ?_, atomicStores_exact hchunks rfl hlt rfl rfl hpos⟩
  simp only [getStores, htid, haddress, hsize, hvalue, hsrc, Loops.ok_bind, splitOn_printed_value hne,
    StoreParams.store_printed, hchunks]

/-- Twelve bytes across three words. -/
theorem getStores_exact_three_words :
    ∃ chunks, getStores ⟨id, fun _ _ => rfl⟩ (storeFields 7 0x1006 (List.replicate 12 0xff) []) 3 5 =
      .ok (⟨3, 7, [], .store ⟨0x1006, 12, (List.replicate 12 0xff).map printByte, List.replicate 12 0xff⟩⟩, chunks) ∧
        ExactTiling 0x1006 (List.replicate 12 0xff) 5 chunks :=
  getStores_exact ⟨id, fun _ _ => rfl⟩ 7 0x1006 (List.replicate 12 0xff) [] 3 5 (by decide) (by decide)

end Witcher.TraceText
