import Witcher.FixedRecords
import Witcher.Runtime
import Witcher.StoreValues

/-! Trace files (`Giri/Runtime.h`, `EntryCache` of `runtime/Giri/Tracing.cpp`, the constructor of `TraceFile`). The tracer maps
the file one segment at a time, as it does for the store values, but it counts entries and it counts them in 32 bits. -/

namespace Witcher

open Bytes FixedRecords

/-! ### The format -/

def RecordType.code : RecordType → UInt32
  | .bbType => 66
  | .ldType => 76
  | .stType => 83
  | .clType => 67
  | .rtType => 82
  | .enType => 69
  | .pdType => 80
  | .flType => 72
  | .feType => 70
  | .txaddType => 84
  | .txallocType => 65
  | .mmapType => 77
  | .other code => code

def RecordType.ofCode (code : UInt32) : RecordType :=
  if code = 66 then .bbType
  else if code = 76 then .ldType
  else if code = 83 then .stType
  else if code = 67 then .clType
  else if code = 82 then .rtType
  else if code = 69 then .enType
  else if code = 80 then .pdType
  else if code = 72 then .flType
  else if code = 70 then .feType
  else if code = 84 then .txaddType
  else if code = 65 then .txallocType
  else if code = 77 then .mmapType
  else .other code

/-- The type is the one that its code stands for. -/
def RecordType.Valid (type : RecordType) : Prop := .ofCode type.code = type

instance (type : RecordType) : Decidable type.Valid := inferInstanceAs (Decidable (_ = _))

namespace Entry

/-- The layout of the structure in memory, without the padding of machines with short words. -/
def encode (entry : Entry) : List UInt8 :=
  littleEndian 4 entry.type.code.toNat ++ (littleEndian 4 entry.id.toNat ++
    (littleEndian 8 entry.tid.toNat ++ (littleEndian 8 entry.address.toNat ++ littleEndian 8 entry.length.toNat)))

def decode (bytes : List UInt8) : Entry :=
  let id := bytes.drop 4
  let tid := id.drop 4
  let address := tid.drop 8
  let length := address.drop 8
  ⟨.ofCode (.ofNat (ofLittleEndian (bytes.take 4))), .ofNat (ofLittleEndian (id.take 4)), .ofNat (ofLittleEndian (tid.take 8)),
    .ofNat (ofLittleEndian (address.take 8)), .ofNat (ofLittleEndian (length.take 8))⟩

def format : Format Entry where
  size := 32
  size_pos := by decide
  encode := encode
  decode := decode
  length_encode entry := by simp only [encode, List.length_append, length_littleEndian]

theorem decode_encode {entry : Entry} (h : entry.type.Valid) : decode entry.encode = entry := by
  have hword (w : UInt32) : UInt32.ofNat (ofLittleEndian (littleEndian 4 w.toNat)) = w := by
    rw [ofLittleEndian_littleEndian w.toNat_lt, UInt32.ofNat_toNat]
  have hlong (w : UInt64) : UInt64.ofNat (ofLittleEndian (littleEndian 8 w.toNat)) = w := by
    rw [ofLittleEndian_littleEndian w.toNat_lt, UInt64.ofNat_toNat]
  have hlast : (littleEndian 8 entry.length.toNat).take 8 = littleEndian 8 entry.length.toNat :=
    List.take_of_length_le (length_littleEndian 8 _).le
  simp only [decode, encode, take_littleEndian, drop_littleEndian, hlast, hword, hlong]
  rw [h]

end Entry

/-- The entries that the constructor of `TraceFile` maps. What is left of the file behind the last whole one is not
looked at. -/
def mapTrace (file : List UInt8) : List Entry := Entry.format.records file

/-! ### The writer -/

structure EntryCache where
  index : Nat
  fileOffset : Nat
  fd : OpenFile
  entryCacheBytes : Nat

namespace EntryCache

def entryCacheSize (c : EntryCache) : Nat := c.entryCacheBytes / Entry.format.size

/-- As for the store values, the descriptor goes back to where the byte was written. -/
def mapCache (c : EntryCache) : EntryCache :=
  let currentPosition := c.fd.position + (c.entryCacheBytes + 1)
  let fd := OpenFile.write { c.fd with position := currentPosition } [0]
  { c with fd := { fd with position := currentPosition }, index := 0 }

/-- The cache takes `cachePages` pages. The tracer aborts if the entries do not divide the pages or if there is
nothing to map. -/
def init (cachePages pageSize : Nat) : Option EntryCache :=
  if pageSize % Entry.format.size ≠ 0 then none
  else if cachePages * pageSize = 0 then none
  else some (mapCache ⟨0, 0, ⟨[], 0⟩, cachePages * pageSize⟩)

/-- `index` is an unsigned number of 32 bits. -/
def addToEntryCache (c : EntryCache) (entry : Entry) : EntryCache :=
  let c := if c.index = c.entryCacheSize then mapCache { c with fileOffset := c.fileOffset + c.entryCacheBytes } else c
  { c with
    fd := { c.fd with bytes := patch c.fd.bytes (c.fileOffset + c.index * Entry.format.size) entry.encode }
    index := (c.index + 1) % 2 ^ 32 }

def addAll (c : EntryCache) (entries : List Entry) : EntryCache := entries.foldl addToEntryCache c

/-- The file after the truncation at the end of `closeCacheFile`. -/
def truncated (c : EntryCache) : List UInt8 := c.fd.bytes.take (Entry.format.size * c.index + c.fileOffset)

end EntryCache

/-! ### The cache of store values -/

/-- The file up to the end of a value that was added. -/
theorem StoreValueCache.Added.take_eq {c c' : StoreValueCache} {place : Nat} {value : List UInt8} (h : Added c c' place value)
    (hinside : place ≤ c.fd.bytes.length) : c'.fd.bytes.take (place + value.length) = c.fd.bytes.take place ++ value := by
  have hfront : (c.fd.bytes.take place).length = place := by rw [List.length_take, Nat.min_eq_left hinside]
  apply List.ext_getElem?
  intro i
  by_cases hlow : i < place
  · rw [List.getElem?_append_left (by rw [hfront]; exact hlow), List.getElem?_take_of_lt (by omega),
      List.getElem?_take_of_lt hlow]
    exact h.before i hlow (Nat.lt_of_lt_of_le hlow hinside)
  · obtain ⟨k, rfl⟩ := Nat.exists_eq_add_of_le (Nat.le_of_not_lt hlow)
    rw [List.getElem?_append_right (by rw [hfront]; omega), hfront, Nat.add_sub_cancel_left]
    by_cases hhigh : k < value.length
    · rw [List.getElem?_take_of_lt (by omega)]
      exact h.value_at k hhigh
    · rw [List.getElem?_eq_none (by rw [List.length_take]; omega), List.getElem?_eq_none (by omega)]

namespace EntryCache

variable {c : EntryCache} {entry : Entry} {entries : List Entry}

/-- The cache without the counting: a cache of values that happen to be entries. -/
def values (c : EntryCache) : StoreValueCache := ⟨c.entryCacheBytes, c.index * Entry.format.size, c.fileOffset, c.fd⟩

theorem values_mapCache (c : EntryCache) : c.mapCache.values = c.values.mapCache := by
  rw [values, mapCache, StoreValueCache.mapCache]
  simp only [values, Nat.zero_mul]

theorem entryCacheBytes_addToEntryCache (c : EntryCache) (entry : Entry) :
    (c.addToEntryCache entry).entryCacheBytes = c.entryCacheBytes := by
  rw [addToEntryCache]
  split_ifs <;> rfl

/-- The entries so far are at the beginning of the file, one after the other, and the next one goes behind them. -/
structure Written (c : EntryCache) (entries : List Entry) : Prop where
  inv : c.values.Inv
  dvd : Entry.format.size ∣ c.entryCacheBytes
  pos : 0 < c.entryCacheBytes
  stop : c.fileOffset + c.index * Entry.format.size = entries.length * Entry.format.size
  bytes : c.fd.bytes.take (c.fileOffset + c.index * Entry.format.size) = Entry.format.encodeAll entries

theorem Written.index_le (h : Written c entries) : c.index ≤ c.entryCacheSize :=
  (Nat.le_div_iff_mul_le Entry.format.size_pos).mpr h.inv.offset_le

/-- Unless the index would wrap, the two caches start a new segment at the same entries. -/
theorem Written.values_add (h : Written c entries) (hwrap : c.entryCacheSize < 2 ^ 32 ∨ entries.length + 1 < 2 ^ 32) :
    (c.addToEntryCache entry).values = c.values.addToStoreValueCache entry.encode := by
  have hsize : Entry.format.size = 32 := rfl
  have hlength : entry.encode.length = 32 := Entry.format.length_encode entry
  have hB : c.entryCacheSize * 32 = c.entryCacheBytes := Nat.div_mul_cancel h.dvd
  have hpos := h.pos
  have hle := h.index_le
  have hstop := h.stop
  rw [hsize] at hstop
  rw [addToEntryCache, StoreValueCache.addToStoreValueCache]
  by_cases hfull : c.index = c.entryCacheSize
  · have hfull' : c.values.currOffset + entry.encode.length > c.values.storeValueCacheBytes := by
      simp only [values, hsize, hlength]
      omega
    rw [if_pos hfull, if_pos hfull', hlength]
    simp only [values, mapCache, StoreValueCache.mapCache, hsize, Nat.zero_mul, Nat.zero_add]
    rfl
  · have hfit : ¬c.values.currOffset + entry.encode.length > c.values.storeValueCacheBytes := by
      simp only [values, hsize, hlength]
      omega
    have hindex : (c.index + 1) % 2 ^ 32 = c.index + 1 := Nat.mod_eq_of_lt (by omega)
    rw [if_neg hfull, if_neg hfit, hlength]
    simp only [values, hsize, hindex, Nat.succ_mul]

/-- The place of the next entry is behind the others, in the same segment or at the beginning of the next one. -/
theorem Written.added (h : Written c entries) (entry : Entry)
    (hwrap : c.entryCacheSize < 2 ^ 32 ∨ entries.length + 1 < 2 ^ 32) :
    StoreValueCache.Added c.values (c.addToEntryCache entry).values (entries.length * Entry.format.size) entry.encode := by
  have hlength : entry.encode.length = Entry.format.size := Entry.format.length_encode entry
  have hB : c.entryCacheSize * Entry.format.size = c.entryCacheBytes := Nat.div_mul_cancel h.dvd
  have hfits : entry.encode.length ≤ c.values.storeValueCacheBytes := hlength ▸ Nat.le_of_dvd h.pos h.dvd
  obtain ⟨hfull, hfit⟩ := h.inv.add hfits
  rw [h.values_add hwrap, ← h.stop]
  by_cases hnext : c.values.currOffset + entry.encode.length > c.values.storeValueCacheBytes
  · have hlast : c.index = c.entryCacheSize := by
      refine Nat.le_antisymm h.index_le (Nat.le_of_lt_succ ?_)
      refine Nat.lt_of_mul_lt_mul_right (a := Entry.format.size) ?_
      rw [hB, Nat.succ_mul, ← hlength]
      exact hnext
    rw [hlast, hB]
    exact (hfull hnext).2.2
  · exact (hfit hnext).2.2

theorem Written.add (h : Written c entries) (hwrap : c.entryCacheSize < 2 ^ 32 ∨ entries.length + 1 < 2 ^ 32) :
    Written (c.addToEntryCache entry) (entries ++ [entry]) := by
  have hadded := h.added entry hwrap
  have hlength : entry.encode.length = Entry.format.size := Entry.format.length_encode entry
  have hstop : (c.addToEntryCache entry).fileOffset + (c.addToEntryCache entry).index * Entry.format.size =
      (entries ++ [entry]).length * Entry.format.size := by
    rw [List.length_append, List.length_singleton, Nat.succ_mul, ← hlength]
    exact hadded.stop
  refine ⟨hadded.inv, by rw [entryCacheBytes_addToEntryCache]; exact h.dvd,
    by rw [entryCacheBytes_addToEntryCache]; exact h.pos, hstop, ?_⟩
  have hinside : entries.length * Entry.format.size ≤ c.fd.bytes.length := by
    have hposition := h.inv.position
    have hbytes := h.inv.length
    have hoffset := h.inv.offset_le
    rw [← h.stop]
    simp only [values] at hposition hbytes hoffset
    omega
  have hsingle : Entry.format.encodeAll [entry] = entry.encode := List.append_nil _
  rw [hstop, Format.encodeAll_append, hsingle, ← h.bytes, h.stop, List.length_append, List.length_singleton,
    Nat.succ_mul, ← hlength]
  exact hadded.take_eq hinside

theorem Written.addAll {done : List Entry} (h : Written c done)
    (hwrap : c.entryCacheSize < 2 ^ 32 ∨ (done ++ entries).length < 2 ^ 32) : Written (c.addAll entries) (done ++ entries) := by
  induction entries generalizing c done with
  | nil =>
      rw [List.append_nil]
      exact h
  | cons entry entries ih =>
      rw [List.append_cons] at hwrap ⊢
      refine ih (h.add (hwrap.imp_right fun hlt => ?_)) ?_
      · rw [List.length_append, List.length_append, List.length_singleton] at hlt
        omega
      · rw [entryCacheSize, entryCacheBytes_addToEntryCache]
        exact hwrap

theorem Written.truncated_eq (h : Written c entries) : c.truncated = Entry.format.encodeAll entries := by
  rw [truncated, Nat.mul_comm, Nat.add_comm, h.bytes]

variable {cachePages pageSize : Nat}

theorem init_eq (h : init cachePages pageSize = some c) :
    Entry.format.size ∣ cachePages * pageSize ∧ 0 < cachePages * pageSize ∧
      c = mapCache ⟨0, 0, ⟨[], 0⟩, cachePages * pageSize⟩ := by
  rw [init] at h
  split_ifs at h with hsize hzero
  exact ⟨Nat.dvd_mul_left_of_dvd (Nat.dvd_of_mod_eq_zero (Decidable.not_not.mp hsize)) _, Nat.pos_of_ne_zero hzero,
    (Option.some.inj h).symm⟩

theorem written_init (h : init cachePages pageSize = some c) : Written c [] := by
  obtain ⟨hdvd, hpos, rfl⟩ := init_eq h
  have hvalues : (mapCache ⟨0, 0, ⟨[], 0⟩, cachePages * pageSize⟩).values = .init (cachePages * pageSize) := by
    rw [values_mapCache, StoreValueCache.init, values, Nat.zero_mul]
  exact ⟨hvalues ▸ .init _, hdvd, hpos, rfl, rfl⟩

/-- A segment of `2 ^ 32` entries or more is never left: the index wraps before it gets there. -/
theorem addAll_first_segment (hsize : 2 ^ 32 ≤ c.entryCacheSize) (hindex : c.index < 2 ^ 32) (hoffset : c.fileOffset = 0) :
    (c.addAll entries).index < 2 ^ 32 ∧ (c.addAll entries).fileOffset = 0 := by
  induction entries generalizing c with
  | nil => exact ⟨hindex, hoffset⟩
  | cons entry entries ih =>
      have hne : c.index ≠ c.entryCacheSize := by omega
      have hadd : (c.addToEntryCache entry).index < 2 ^ 32 ∧ (c.addToEntryCache entry).fileOffset = 0 := by
        rw [addToEntryCache, if_neg hne]
        exact ⟨Nat.mod_lt _ (by decide), hoffset⟩
      refine ih ?_ hadd.1 hadd.2
      rw [entryCacheSize, entryCacheBytes_addToEntryCache]
      exact hsize

theorem length_mapTrace_truncated_le (hoffset : c.fileOffset = 0) : (mapTrace c.truncated).length ≤ c.index := by
  rw [mapTrace, Format.records, List.length_map, List.length_range, truncated, hoffset, Nat.add_zero]
  calc (c.fd.bytes.take (Entry.format.size * c.index)).length / Entry.format.size
      ≤ Entry.format.size * c.index / Entry.format.size := Nat.div_le_div_right (List.length_take_le _ _)
    _ = c.index := Nat.mul_div_cancel_left _ Entry.format.size_pos

/-- The entries that were added are read back from the file exactly if their numbers in a segment never need more than
32 bits: the segments are small enough, or the trace is. -/
theorem mapTrace_truncated_iff (hinit : init cachePages pageSize = some c) (hvalid : ∀ entry ∈ entries, entry.type.Valid) :
    mapTrace (c.addAll entries).truncated = entries ↔
      cachePages * pageSize / Entry.format.size < 2 ^ 32 ∨ entries.length < 2 ^ 32 := by
  obtain ⟨-, -, hc⟩ := init_eq hinit
  have hsize : c.entryCacheSize = cachePages * pageSize / Entry.format.size := by rw [hc]; rfl
  rw [← hsize]
  constructor
  · intro hread
    by_contra hlarge
    rw [not_or, Nat.not_lt, Nat.not_lt] at hlarge
    have hfirst : (c.addAll entries).index < 2 ^ 32 ∧ (c.addAll entries).fileOffset = 0 := by
      refine addAll_first_segment hlarge.1 ?_ ?_
      · rw [hc]
        exact Nat.two_pow_pos 32
      · rw [hc]
        rfl
    have hlength := length_mapTrace_truncated_le hfirst.2
    rw [hread] at hlength
    omega
  · intro hwrap
    rw [mapTrace, ((written_init hinit).addAll hwrap).truncated_eq]
    exact Format.records_encodeAll fun entry hmem => Entry.decode_encode (hvalid entry hmem)

/-- Two segments of one page each. -/
theorem mapTrace_truncated_iff_two_segments :
    mapTrace ((mapCache ⟨0, 0, ⟨[], 0⟩, 1 * 4096⟩).addAll (List.replicate 200 ⟨.bbType, 1, 7, 0x400000, 0⟩)).truncated =
        List.replicate 200 ⟨.bbType, 1, 7, 0x400000, 0⟩ ↔
      1 * 4096 / Entry.format.size < 2 ^ 32 ∨ (List.replicate 200 (⟨.bbType, 1, 7, 0x400000, 0⟩ : Entry)).length < 2 ^ 32 :=
  mapTrace_truncated_iff rfl fun entry hmem => List.eq_of_mem_replicate hmem ▸ by decide

end EntryCache

end Witcher
