import Witcher.Bytes
import Mathlib.Algebra.Order.Group.Nat

/-! The store value stream (`runtime/Giri/Tracing.cpp`, `Utility/StoreValueReader.h`). The tracer maps
the file one segment at a time and starts a new segment when a value would not fit in the current
one. The reader maps the whole file and skips to the next multiple of the segment size when a value
would straddle one, but it looks for the multiples among the addresses of its mapping, not among the
file offsets. -/

namespace Witcher

open Bytes

/-! ### The tracer -/

/-- A file and the position of its descriptor. -/
structure OpenFile where
  bytes : List UInt8
  position : Nat

/-- `write`; what lies between the end of the file and the position reads as zeros. -/
def OpenFile.write (f : OpenFile) (buf : List UInt8) : OpenFile :=
  ⟨patch (f.bytes ++ List.replicate (f.position + buf.length - f.bytes.length) 0) f.position buf,
    f.position + buf.length⟩

structure StoreValueCache where
  storeValueCacheBytes : Nat
  currOffset : Nat
  fileOffset : Nat
  fd : OpenFile

namespace StoreValueCache

/-- Extends the file past the next segment and maps that segment at `fileOffset`. The descriptor goes
back to where the byte was written, not to where it was before. -/
def mapCache (c : StoreValueCache) : StoreValueCache :=
  let currentPosition := c.fd.position + (c.storeValueCacheBytes + 1)
  let fd := OpenFile.write { c.fd with position := currentPosition } [0]
  { c with fd := { fd with position := currentPosition }, currOffset := 0 }

def init (storeValueCacheBytes : Nat) : StoreValueCache := mapCache ⟨storeValueCacheBytes, 0, 0, [], 0⟩

def addToStoreValueCache (c : StoreValueCache) (value : List UInt8) : StoreValueCache :=
  let c :=
    if c.currOffset + value.length > c.storeValueCacheBytes then
      mapCache { c with fileOffset := c.fileOffset + c.storeValueCacheBytes }
    else c
  { c with
    fd := { c.fd with bytes := patch c.fd.bytes (c.fileOffset + c.currOffset) value }
    currOffset := c.currOffset + value.length }

/-- The file after the final truncation. -/
def closeCacheFile (c : StoreValueCache) : List UInt8 := c.fd.bytes.take (c.currOffset + c.fileOffset)

end StoreValueCache

/-- The file the tracer leaves for a sequence of store values. -/
def recordStoreValues (storeValueCacheBytes : Nat) (values : List (List UInt8)) : List UInt8 :=
  (values.foldl StoreValueCache.addToStoreValueCache (StoreValueCache.init storeValueCacheBytes)).closeCacheFile

/-! ### The reader -/

/-- `values` is the address of the mapping of `file`. -/
structure StoreValueReader where
  storeValueCacheBytes : Nat
  pageSize : Nat
  file : List UInt8
  values : Nat
  currOffset : Nat

namespace StoreValueReader

def init (storeValueCacheBytes pageSize : Nat) (file : List UInt8) (values : Nat) : StoreValueReader :=
  ⟨storeValueCacheBytes, pageSize, file, values, 0⟩

/-- One byte of the mapping: the rest of the last page reads as zeros, and behind it the access faults. -/
def readByte (pageSize : Nat) (file : List UInt8) (offset : Nat) : Option UInt8 :=
  if offset < file.length then file[offset]?
  else if offset < (file.length + pageSize - 1) / pageSize * pageSize then some 0
  else none

def readBytes (pageSize : Nat) (file : List UInt8) : Nat → Nat → Option (List UInt8)
  | _, 0 => some []
  | offset, len + 1 => do
      let b ← readByte pageSize file offset
      let bs ← readBytes pageSize file (offset + 1) len
      some (b :: bs)

/-- The new `currOffset`. -/
def checkCacheBoundaryAndUpdateCurrOffset (r : StoreValueReader) (len : Nat) : Nat :=
  let currAddr := r.values + r.currOffset
  let nextAddr := currAddr + len
  if nextAddr % r.storeValueCacheBytes > 0 ∧
      nextAddr / r.storeValueCacheBytes > currAddr / r.storeValueCacheBytes then
    nextAddr - nextAddr % r.storeValueCacheBytes - r.values
  else r.currOffset

def getNextValue (r : StoreValueReader) (len : Nat) : Option (List UInt8 × StoreValueReader) := do
  let currOffset := r.checkCacheBoundaryAndUpdateCurrOffset len
  let dest ← readBytes r.pageSize r.file currOffset len
  some (dest, { r with currOffset := currOffset + len })

def moveCurrOffset (r : StoreValueReader) (len : Nat) : StoreValueReader :=
  { r with currOffset := r.checkCacheBoundaryAndUpdateCurrOffset len + len }

end StoreValueReader

/-- The use of the reader in `processStoreEntry`, for an entry inside or outside the persistent range.
Returns the value read, if one is read. -/
def processStoreEntry (r : StoreValueReader) (isPMAddr : Bool) (length : Nat) :
    Option (Option (List UInt8) × StoreValueReader) :=
  if !isPMAddr then some (none, r.moveCurrOffset length)
  else if length = 0 then some (none, r)
  else do
    let (val, r) ← r.getNextValue length
    some (some val, r)

def processStoreEntries : StoreValueReader → List (Bool × Nat) → Option (List (Option (List UInt8)))
  | _, [] => some []
  | r, e :: es => do
      let (val, r) ← processStoreEntry r e.1 e.2
      let vals ← processStoreEntries r es
      some (val :: vals)

/-- What reading back should give: the value of each nonempty store to the persistent range. -/
def expectedValues (stores : List (Bool × List UInt8)) : List (Option (List UInt8)) :=
  stores.map fun s => if s.1 && s.2.length ≠ 0 then some s.2 else none

/-- Stores of these lengths are read back as recorded, whatever their values and whichever of them
are persistent, when the file is mapped at `values`. -/
def RoundTrip (storeValueCacheBytes pageSize values : Nat) (lens : List Nat) : Prop :=
  ∀ stores : List (Bool × List UInt8), stores.map (fun s => s.2.length) = lens →
    processStoreEntries (.init storeValueCacheBytes pageSize
        (recordStoreValues storeValueCacheBytes (stores.map Prod.snd)) values)
      (stores.map fun s => (s.1, s.2.length)) = some (expectedValues stores)

/-! ### Where values are written -/

/-- The file offsets of values of the given lengths, from offset `o` of the segment at `seg` on. -/
def writerPlaces (B : Nat) : Nat → Nat → List Nat → List Nat
  | _, _, [] => []
  | seg, o, n :: ns =>
      if o + n > B then (seg + B) :: writerPlaces B (seg + B) n ns
      else (seg + o) :: writerPlaces B seg (o + n) ns

/-- The mapped segment lies in the file, and the file ends just after the position of the descriptor. -/
structure StoreValueCache.Inv (c : StoreValueCache) : Prop where
  offset_le : c.currOffset ≤ c.storeValueCacheBytes
  position : c.fileOffset + c.storeValueCacheBytes ≤ c.fd.position
  length : c.fd.bytes.length = c.fd.position + 1

namespace StoreValueCache

/-- Mapping the next segment only adds zeros at the end of the file. -/
theorem mapCache_fd {c : StoreValueCache} (h : c.fd.bytes.length ≤ c.fd.position + 1) :
    c.mapCache.fd = ⟨c.fd.bytes ++
      List.replicate (c.fd.position + (c.storeValueCacheBytes + 1) + 1 - c.fd.bytes.length) 0,
      c.fd.position + (c.storeValueCacheBytes + 1)⟩ := by
  simp only [mapCache, OpenFile.write, List.length_singleton]
  congr 1
  apply List.ext_getElem?
  intro i
  rw [getElem?_patch _ _ _ (by simp only [List.length_append, List.length_replicate, List.length_singleton]; omega)]
  split_ifs with hi
  · obtain rfl : i = c.fd.position + (c.storeValueCacheBytes + 1) := by
      simp only [List.length_singleton] at hi
      omega
    rw [Nat.sub_self, List.getElem?_append_right (by omega), List.getElem?_replicate, if_pos (by omega)]
    rfl
  · rfl

theorem Inv.init (B : Nat) : (StoreValueCache.init B).Inv where
  offset_le := Nat.zero_le _
  position := by
    rw [StoreValueCache.init, mapCache_fd (Nat.zero_le _)]
    simp only [mapCache]
    omega
  length := by
    rw [StoreValueCache.init, mapCache_fd (Nat.zero_le _)]
    simp

/-- What adding one value does: it is written at its place, and everything before stays. -/
structure Added (c c' : StoreValueCache) (place : Nat) (value : List UInt8) : Prop where
  inv : c'.Inv
  bytes : c'.storeValueCacheBytes = c.storeValueCacheBytes
  le_place : c.fileOffset + c.currOffset ≤ place
  stop : c'.fileOffset + c'.currOffset = place + value.length
  value_at : ∀ j, j < value.length → c'.fd.bytes[place + j]? = value[j]?
  before : ∀ i, i < place → i < c.fd.bytes.length → c'.fd.bytes[i]? = c.fd.bytes[i]?
  origin : ∀ (i : Nat) (b : UInt8), c'.fd.bytes[i]? = some b →
    c.fd.bytes[i]? = some b ∨ b = 0 ∨ (place ≤ i ∧ value[i - place]? = some b)

/-- Writing the value into the mapped segment. -/
theorem Inv.write {c : StoreValueCache} (h : c.Inv) (value : List UInt8)
    (hfit : c.currOffset + value.length ≤ c.storeValueCacheBytes) :
    Added c { c with
      fd := { c.fd with bytes := patch c.fd.bytes (c.fileOffset + c.currOffset) value }
      currOffset := c.currOffset + value.length } (c.fileOffset + c.currOffset) value := by
  have hlen : c.fileOffset + c.currOffset + value.length ≤ c.fd.bytes.length := by
    have := h.position
    have := h.length
    omega
  refine ⟨⟨hfit, h.position, ?_⟩, rfl, le_rfl, by simp only; omega, ?_, ?_, ?_⟩
  · rw [length_patch _ _ _ hlen]
    exact h.length
  · intro j hj
    rw [getElem?_patch _ _ _ hlen, if_pos (by omega), Nat.add_sub_cancel_left]
  · intro i hi _
    rw [getElem?_patch _ _ _ hlen, if_neg (by omega)]
  · intro i b hb
    rw [getElem?_patch _ _ _ hlen] at hb
    split_ifs at hb with hin
    · exact .inr (.inr ⟨hin.1, hb⟩)
    · exact .inl hb

theorem Inv.add {c : StoreValueCache} (h : c.Inv) {value : List UInt8}
    (hvalue : value.length ≤ c.storeValueCacheBytes) :
    (c.currOffset + value.length > c.storeValueCacheBytes →
      (c.addToStoreValueCache value).fileOffset = c.fileOffset + c.storeValueCacheBytes ∧
      (c.addToStoreValueCache value).currOffset = value.length ∧
      Added c (c.addToStoreValueCache value) (c.fileOffset + c.storeValueCacheBytes) value) ∧
    (¬c.currOffset + value.length > c.storeValueCacheBytes →
      (c.addToStoreValueCache value).fileOffset = c.fileOffset ∧
      (c.addToStoreValueCache value).currOffset = c.currOffset + value.length ∧
      Added c (c.addToStoreValueCache value) (c.fileOffset + c.currOffset) value) := by
  refine ⟨fun hfull => ?_, fun hfit => ?_⟩
  · have hfd := mapCache_fd (c := { c with fileOffset := c.fileOffset + c.storeValueCacheBytes }) (by
      have := h.length
      simp only
      omega)
    have hmapped : Inv (mapCache { c with fileOffset := c.fileOffset + c.storeValueCacheBytes }) := by
      have := h.position
      have := h.length
      refine ⟨Nat.zero_le _, ?_, ?_⟩
      · rw [hfd]
        simp only [mapCache]
        omega
      · rw [hfd]
        simp only [List.length_append, List.length_replicate]
        omega
    have hadded := hmapped.write value (by simpa [mapCache] using hvalue)
    simp only [addToStoreValueCache, if_pos hfull]
    refine ⟨rfl, Nat.zero_add _, hadded.inv, rfl, ?_, hadded.stop, hadded.value_at, ?_, ?_⟩
    · have := h.offset_le
      omega
    · intro i hi hlen
      rw [hadded.before i hi (by rw [hfd]; simp only [List.length_append]; omega), hfd]
      exact List.getElem?_append_left hlen
    · intro i b hb
      rcases hadded.origin i b hb with hold | hzero | hvalue
      · rw [hfd] at hold
        simp only [List.getElem?_append] at hold
        split_ifs at hold
        · exact .inl hold
        · exact .inr (.inl (List.eq_of_mem_replicate (List.mem_of_getElem? hold)))
      · exact .inr (.inl hzero)
      · exact .inr (.inr hvalue)
  · simp only [addToStoreValueCache, if_neg hfit]
    exact ⟨trivial, trivial, h.write value (by omega)⟩

end StoreValueCache

/-- What a whole recording does, from a given state of the tracer. -/
structure Recorded (c c' : StoreValueCache) (values : List (List UInt8)) : Prop where
  inv : c'.Inv
  le_stop : c.fileOffset + c.currOffset ≤ c'.fileOffset + c'.currOffset
  before : ∀ i, i < c.fileOffset + c.currOffset → c'.fd.bytes[i]? = c.fd.bytes[i]?
  value_at : ∀ (k p : Nat) (v : List UInt8),
    (writerPlaces c.storeValueCacheBytes c.fileOffset c.currOffset (values.map List.length))[k]? = some p →
      values[k]? = some v →
      p + v.length ≤ c'.fileOffset + c'.currOffset ∧ ∀ j, j < v.length → c'.fd.bytes[p + j]? = v[j]?
  origin : ∀ (i : Nat) (b : UInt8), c'.fd.bytes[i]? = some b → c.fd.bytes[i]? = some b ∨ b = 0 ∨
    ∃ (k p : Nat) (v : List UInt8),
      (writerPlaces c.storeValueCacheBytes c.fileOffset c.currOffset (values.map List.length))[k]? = some p ∧
        values[k]? = some v ∧ p ≤ i ∧ v[i - p]? = some b

/-- One more value in front of a recording. -/
theorem Recorded.cons {c c₁ c' : StoreValueCache} {place : Nat} {value : List UInt8} {values : List (List UInt8)}
    (hc : c.Inv) (hadd : StoreValueCache.Added c c₁ place value) (h : Recorded c₁ c' values)
    (hplaces : writerPlaces c.storeValueCacheBytes c.fileOffset c.currOffset ((value :: values).map List.length) =
      place :: writerPlaces c₁.storeValueCacheBytes c₁.fileOffset c₁.currOffset (values.map List.length)) :
    Recorded c c' (value :: values) := by
  have hle := hadd.le_place
  have hstop := hadd.stop
  refine ⟨h.inv, by have := h.le_stop; omega, ?_, ?_, ?_⟩
  · intro i hi
    have hlen : i < c.fd.bytes.length := by
      have := hc.offset_le
      have := hc.position
      have := hc.length
      omega
    rw [h.before i (by omega), hadd.before i (by omega) hlen]
  · intro k p v hp hv
    rw [hplaces] at hp
    cases k with
    | zero =>
        simp only [List.getElem?_cons_zero, Option.some.injEq] at hp hv
        subst hp hv
        refine ⟨by have := h.le_stop; omega, ?_⟩
        intro j hj
        rw [h.before _ (by omega), hadd.value_at j hj]
    | succ k =>
        rw [List.getElem?_cons_succ] at hp hv
        exact h.value_at k p v hp hv
  · intro i b hb
    rcases h.origin i b hb with hold | hzero | ⟨k, p, v, hp, hv, hi⟩
    · rcases hadd.origin i b hold with hold | hzero | hvalue
      · exact .inl hold
      · exact .inr (.inl hzero)
      · refine .inr (.inr ⟨0, place, value, ?_, rfl, hvalue⟩)
        rw [hplaces]
        rfl
    · exact .inr (.inl hzero)
    · refine .inr (.inr ⟨k + 1, p, v, ?_, ?_, hi⟩)
      · rw [hplaces]
        exact hp
      · exact hv

theorem recorded_foldl (values : List (List UInt8)) {c : StoreValueCache} (h : c.Inv)
    (hvalues : ∀ v ∈ values, v.length ≤ c.storeValueCacheBytes) :
    Recorded c (values.foldl StoreValueCache.addToStoreValueCache c) values := by
  induction values generalizing c with
  | nil => exact ⟨h, le_rfl, fun _ _ => rfl, fun _ _ _ hp => by simp [writerPlaces] at hp, fun _ _ hb => .inl hb⟩
  | cons value values ih =>
      obtain ⟨hfull, hfit⟩ := h.add (hvalues value List.mem_cons_self)
      by_cases hcase : c.currOffset + value.length > c.storeValueCacheBytes
      · obtain ⟨hfile, hcurr, hadd⟩ := hfull hcase
        refine Recorded.cons h hadd (ih hadd.inv ?_) ?_
        · intro v hv
          rw [hadd.bytes]
          exact hvalues v (List.mem_cons_of_mem value hv)
        · rw [List.map_cons, writerPlaces, if_pos hcase, hfile, hcurr, hadd.bytes]
      · obtain ⟨hfile, hcurr, hadd⟩ := hfit hcase
        refine Recorded.cons h hadd (ih hadd.inv ?_) ?_
        · intro v hv
          rw [hadd.bytes]
          exact hvalues v (List.mem_cons_of_mem value hv)
        · rw [List.map_cons, writerPlaces, if_neg hcase, hfile, hcurr, hadd.bytes]

/-- Every value is in the file at its place, and a nonzero byte of the file is a byte of a value. -/
theorem recordStoreValues_spec (B : Nat) {values : List (List UInt8)} (hvalues : ∀ v ∈ values, v.length ≤ B) :
    (∀ (k p : Nat) (v : List UInt8), (writerPlaces B 0 0 (values.map List.length))[k]? = some p →
      values[k]? = some v → ∀ j, j < v.length → (recordStoreValues B values)[p + j]? = v[j]?) ∧
    ∀ (i : Nat) (b : UInt8), (recordStoreValues B values)[i]? = some b → b ≠ 0 →
      ∃ (k p : Nat) (v : List UInt8), (writerPlaces B 0 0 (values.map List.length))[k]? = some p ∧
        values[k]? = some v ∧ p ≤ i ∧ v[i - p]? = some b := by
  have hrec := recorded_foldl values (StoreValueCache.Inv.init B) hvalues
  refine ⟨?_, ?_⟩
  · intro k p v hp hv j hj
    obtain ⟨hstop, hvalue⟩ := hrec.value_at k p v hp hv
    rw [recordStoreValues, StoreValueCache.closeCacheFile, List.getElem?_take, if_pos (by omega), hvalue j hj]
  · intro i b hb hne
    rw [recordStoreValues, StoreValueCache.closeCacheFile, List.getElem?_take] at hb
    split_ifs at hb
    rcases hrec.origin i b hb with hold | hzero | hvalue
    · rw [StoreValueCache.init, StoreValueCache.mapCache_fd (Nat.zero_le _), List.nil_append] at hold
      exact absurd (List.eq_of_mem_replicate (List.mem_of_getElem? hold)) hne
    · exact absurd hzero hne
    · exact hvalue

/-! ### Where values are read -/

/-- The reader's place for a value of length `n` at offset `r`. -/
def readerPlace (B values r n : Nat) : Nat :=
  if (values + r + n) % B > 0 ∧ (values + r + n) / B > (values + r) / B then
    values + r + n - (values + r + n) % B - values
  else r

def readerPlaces (B values : Nat) : Nat → List Nat → List Nat
  | _, [] => []
  | r, n :: ns => readerPlace B values r n :: readerPlaces B values (readerPlace B values r n + n) ns

/-- An empty value moves nothing. -/
theorem readerPlace_zero (B values r : Nat) : readerPlace B values r 0 = r := by
  rw [readerPlace, if_neg]
  simp

theorem readBytes_eq_some_iff (pageSize : Nat) (file bs : List UInt8) (offset : Nat) :
    StoreValueReader.readBytes pageSize file offset bs.length = some bs ↔
      ∀ j, j < bs.length → StoreValueReader.readByte pageSize file (offset + j) = bs[j]? := by
  induction bs generalizing offset with
  | nil => simp [StoreValueReader.readBytes]
  | cons b bs ih =>
      rw [List.length_cons, StoreValueReader.readBytes]
      constructor
      · intro h j hj
        rw [Option.bind_eq_bind, Option.bind_eq_some_iff] at h
        obtain ⟨b', hb', h⟩ := h
        rw [Option.bind_eq_bind, Option.bind_eq_some_iff] at h
        obtain ⟨bs', hbs', h⟩ := h
        cases h
        cases j with
        | zero => simpa using hb'
        | succ j =>
            have hrest := (ih (offset + 1)).mp hbs' j (by omega)
            rw [Nat.add_assoc, Nat.add_comm 1] at hrest
            rw [hrest, List.getElem?_cons_succ]
      · intro h
        have hhead := h 0 (by omega)
        have htail := (ih (offset + 1)).mpr fun j hj => by
          have := h (j + 1) (by omega)
          rwa [List.getElem?_cons_succ, ← Nat.add_assoc, Nat.add_right_comm] at this
        rw [Nat.add_zero, List.getElem?_cons_zero] at hhead
        simp only [hhead, htail, Option.bind_eq_bind, Option.bind_some]

/-- One entry: the value at the reader's place if one is read, and the offset behind it. -/
theorem processStoreEntry_eq (B pageSize values r : Nat) (file : List UInt8) (isPMAddr : Bool) (len : Nat) :
    processStoreEntry ⟨B, pageSize, file, values, r⟩ isPMAddr len =
      (if isPMAddr && len ≠ 0 then
        (StoreValueReader.readBytes pageSize file (readerPlace B values r len) len).map some
      else some none).map fun val => (val, ⟨B, pageSize, file, values, readerPlace B values r len + len⟩) := by
  cases isPMAddr with
  | false => rfl
  | true =>
      by_cases hlen : len = 0
      · subst hlen
        simp only [processStoreEntry, readerPlace_zero]
        rfl
      · simp only [processStoreEntry, hlen, StoreValueReader.getNextValue]
        change ((StoreValueReader.readBytes pageSize file (readerPlace B values r len) len).bind _).bind _ = _
        cases StoreValueReader.readBytes pageSize file (readerPlace B values r len) len with
        | none => simp [hlen]
        | some dest =>
            simp [hlen]
            rfl

/-- Reading back gives what was recorded exactly when each value read is found at the reader's place
for it. -/
theorem processStoreEntries_iff (B pageSize values : Nat) (file : List UInt8) (stores : List (Bool × List UInt8))
    (r : Nat) :
    processStoreEntries ⟨B, pageSize, file, values, r⟩ (stores.map fun s => (s.1, s.2.length)) =
        some (expectedValues stores) ↔
      ∀ (k q : Nat) (v : List UInt8),
        (readerPlaces B values r (stores.map fun s => s.2.length))[k]? = some q → stores[k]? = some (true, v) →
        v ≠ [] → StoreValueReader.readBytes pageSize file q v.length = some v := by
  induction stores generalizing r with
  | nil => simp [processStoreEntries, expectedValues]
  | cons s stores ih =>
      obtain ⟨isPM, v⟩ := s
      -- the head entry, and what the others have to satisfy after it
      have hsplit : (∀ (k q : Nat) (w : List UInt8),
          (readerPlaces B values r (((isPM, v) :: stores).map fun s => s.2.length))[k]? = some q →
          ((isPM, v) :: stores)[k]? = some (true, w) → w ≠ [] →
          StoreValueReader.readBytes pageSize file q w.length = some w) ↔
          (isPM = true → v ≠ [] →
            StoreValueReader.readBytes pageSize file (readerPlace B values r v.length) v.length = some v) ∧
          processStoreEntries ⟨B, pageSize, file, values, readerPlace B values r v.length + v.length⟩
            (stores.map fun s => (s.1, s.2.length)) = some (expectedValues stores) := by
        rw [ih, List.map_cons, readerPlaces]
        constructor
        · intro h
          refine ⟨fun hPM hne => ?_, fun k q w hq hw hne => h (k + 1) q w hq hw hne⟩
          subst hPM
          exact h 0 _ v rfl rfl hne
        · rintro ⟨hhead, htail⟩ k q w hq hw hne
          cases k with
          | zero =>
              simp only [List.getElem?_cons_zero, Option.some.injEq, Prod.mk.injEq] at hq hw
              obtain ⟨hPM, rfl⟩ := hw
              exact hq ▸ hhead hPM hne
          | succ k => exact htail k q w hq hw hne
      have hexpected : expectedValues ((isPM, v) :: stores) =
          (if isPM && v.length ≠ 0 then some v else none) :: expectedValues stores := rfl
      have hread : (isPM && decide (v.length ≠ 0)) = true ↔ isPM = true ∧ v ≠ [] := by simp
      rw [hsplit, List.map_cons, processStoreEntries, processStoreEntry_eq, hexpected]
      by_cases hcase : isPM = true ∧ v ≠ []
      · rw [if_pos (hread.mpr hcase), if_pos (hread.mpr hcase)]
        simp only [hcase, true_implies, not_false_eq_true, ne_eq]
        cases hbytes : StoreValueReader.readBytes pageSize file (readerPlace B values r v.length) v.length with
        | none => simp
        | some w =>
            simp only [Option.map_some, Option.bind_eq_bind, Option.bind_some, Option.some.injEq,
              Option.bind_eq_some_iff, List.cons.injEq]
            constructor
            · rintro ⟨vals, hvals, rfl, rfl⟩
              exact ⟨rfl, hvals⟩
            · rintro ⟨rfl, h⟩
              exact ⟨_, h, rfl, rfl⟩
      · have hvacuous : (isPM = true → v ≠ [] →
            StoreValueReader.readBytes pageSize file (readerPlace B values r v.length) v.length = some v) :=
          fun hPM hne => absurd ⟨hPM, hne⟩ hcase
        rw [if_neg (mt hread.mp hcase), if_neg (mt hread.mp hcase)]
        simp only [Option.map_some, Option.bind_eq_bind, Option.bind_some, Option.bind_eq_some_iff, Option.some.injEq,
          List.cons.injEq, true_and, and_iff_right hvacuous]
        constructor
        · rintro ⟨vals, hvals, rfl⟩
          exact hvals
        · exact fun h => ⟨_, h, rfl⟩

/-! ### Same places -/

/-- The tracer and the reader use the same place for every nonempty value. -/
def SamePlaces (B values : Nat) (lens : List Nat) : Prop :=
  ∀ k n : Nat, lens[k]? = some n → 0 < n → (readerPlaces B values 0 lens)[k]? = (writerPlaces B 0 0 lens)[k]?

theorem length_readerPlaces (B values r : Nat) (lens : List Nat) : (readerPlaces B values r lens).length = lens.length := by
  induction lens generalizing r with
  | nil => rfl
  | cons n ns ih => rw [readerPlaces, List.length_cons, ih, List.length_cons]

/-- Values with a single nonzero byte, the first one of value `k`. -/
def markedStores (k : Nat) (lens : List Nat) : List (Bool × List UInt8) :=
  lens.mapIdx fun j n => (true, if j = k ∧ 0 < n then 1 :: List.replicate (n - 1) 0 else List.replicate n 0)

theorem markedStores_lengths (k : Nat) (lens : List Nat) : (markedStores k lens).map (fun s => s.2.length) = lens := by
  apply List.ext_getElem?
  intro j
  rw [List.getElem?_map, markedStores, List.getElem?_mapIdx]
  cases lens[j]? with
  | none => rfl
  | some n =>
      simp only [Option.map_some, Option.some.injEq]
      split_ifs with h
      · rw [List.length_cons, List.length_replicate]
        omega
      · exact List.length_replicate

/-- The mark is found in no other value and at no other index. -/
theorem markedStores_mark {k j i : Nat} {lens : List Nat} {v : List UInt8}
    (hv : ((markedStores k lens).map Prod.snd)[j]? = some v) (hone : v[i]? = some 1) : j = k ∧ i = 0 := by
  rw [List.getElem?_map, markedStores, List.getElem?_mapIdx, Option.map_map, Option.map_eq_some_iff] at hv
  obtain ⟨n, _, rfl⟩ := hv
  simp only [Function.comp] at hone
  split_ifs at hone with h
  · refine ⟨h.1, ?_⟩
    cases i with
    | zero => rfl
    | succ i =>
        rw [List.getElem?_cons_succ] at hone
        exact absurd (List.eq_of_mem_replicate (List.mem_of_getElem? hone)) (by decide)
  · exact absurd (List.eq_of_mem_replicate (List.mem_of_getElem? hone)) (by decide)

/-- If the mark comes back, the reader's place for it is the tracer's. -/
theorem samePlace_of_mark {B values k n : Nat} {lens : List Nat} (pageSize : Nat) (hlens : ∀ n ∈ lens, n ≤ B)
    (hn : lens[k]? = some n) (hpos : 0 < n)
    (h : processStoreEntries (.init B pageSize (recordStoreValues B ((markedStores k lens).map Prod.snd)) values)
      ((markedStores k lens).map fun s => (s.1, s.2.length)) = some (expectedValues (markedStores k lens))) :
    (readerPlaces B values 0 lens)[k]? = (writerPlaces B 0 0 lens)[k]? := by
  have hk : k < lens.length := (List.getElem?_eq_some_iff.mp hn).1
  obtain ⟨q, hq⟩ : ∃ q, (readerPlaces B values 0 lens)[k]? = some q :=
    ⟨_, List.getElem?_eq_getElem (by rw [length_readerPlaces]; exact hk)⟩
  have hlengths := markedStores_lengths k lens
  have hvalues : ∀ v ∈ (markedStores k lens).map Prod.snd, v.length ≤ B := by
    intro v hv
    obtain ⟨s, hs, rfl⟩ := List.mem_map.mp hv
    exact hlens _ (by rw [← hlengths]; exact List.mem_map_of_mem hs)
  have hmark : (markedStores k lens)[k]? = some (true, 1 :: List.replicate (n - 1) 0) := by
    rw [markedStores, List.getElem?_mapIdx, hn]
    simp [hpos]
  have hread := (processStoreEntries_iff B pageSize values _ _ 0).mp h k q _
    (by rw [hlengths]; exact hq) hmark (List.cons_ne_nil _ _)
  have hbyte := (readBytes_eq_some_iff pageSize _ _ q).mp hread 0 (Nat.succ_pos _)
  rw [Nat.add_zero, List.getElem?_cons_zero, StoreValueReader.readByte] at hbyte
  have hfile : (recordStoreValues B ((markedStores k lens).map Prod.snd))[q]? = some 1 := by
    split_ifs at hbyte with hin
    · exact hbyte
    · exact absurd hbyte (by decide)
  obtain ⟨j, p, v, hp, hv, hle, hone⟩ := (recordStoreValues_spec B hvalues).2 q 1 hfile (by decide)
  obtain ⟨rfl, hzero⟩ := markedStores_mark hv hone
  have hmap : ((markedStores j lens).map Prod.snd).map List.length = lens := by
    rw [List.map_map]
    exact hlengths
  rw [hmap] at hp
  rw [hq, hp]
  congr 1
  omega

/-- Every recorded stream of these lengths is read back exactly when the places are the same. -/
theorem roundTrip_iff_samePlaces (B pageSize values : Nat) {lens : List Nat} (hlens : ∀ n ∈ lens, n ≤ B) :
    RoundTrip B pageSize values lens ↔ SamePlaces B values lens := by
  constructor
  · intro h k n hn hpos
    exact samePlace_of_mark pageSize hlens hn hpos (h (markedStores k lens) (markedStores_lengths k lens))
  · intro h stores hstores
    have hvalues : ∀ v ∈ stores.map Prod.snd, v.length ≤ B := by
      intro v hv
      obtain ⟨s, hs, rfl⟩ := List.mem_map.mp hv
      exact hlens _ (by rw [← hstores]; exact List.mem_map_of_mem hs)
    rw [StoreValueReader.init, processStoreEntries_iff, hstores]
    intro k q v hq hv hne
    have hn : lens[k]? = some v.length := by
      rw [← hstores, List.getElem?_map, hv]
      rfl
    rw [h k v.length hn (List.length_pos_iff.mpr hne)] at hq
    rw [readBytes_eq_some_iff]
    intro j hj
    have hmap : (stores.map Prod.snd).map List.length = lens := by
      rw [List.map_map]
      exact hstores
    have hvalue := (recordStoreValues_spec B hvalues).1 k q v (by rw [hmap]; exact hq)
      (by rw [List.getElem?_map, hv]; rfl) j hj
    have hin : q + j < (recordStoreValues B (stores.map Prod.snd)).length := by
      rw [List.getElem?_eq_getElem hj] at hvalue
      exact (List.getElem?_eq_some_iff.mp hvalue).1
    rw [StoreValueReader.readByte, if_pos hin, hvalue]

/-! ### When the places are the same -/

/-- A multiple of `B` lies strictly inside the range of length `n` at `x`. -/
def Straddles (B x n : Nat) : Prop := ∃ k, x < k * B ∧ k * B < x + n

/-- Laid end to end from `x` on, no value straddles a multiple of `B`. -/
def Unbroken (B : Nat) : Nat → List Nat → Prop
  | _, [] => True
  | x, n :: ns => ¬Straddles B x n ∧ Unbroken B (x + n) ns

/-- A range of length at most `B` holds at most one multiple of `B`, the last one before its end. -/
theorem div_eq_of_straddles {B x n k : Nat} (hn : n ≤ B) (hlow : x < k * B) (hhigh : k * B < x + n) :
    (x + n) / B = k := by
  have hB : 0 < B := by omega
  have hle : k ≤ (x + n) / B := (Nat.le_div_iff_mul_le hB).mpr hhigh.le
  have hlt : (x + n) / B < k + 1 := by
    rw [Nat.div_lt_iff_lt_mul hB, Nat.add_mul, Nat.one_mul]
    omega
  omega

/-- The reader's test. -/
theorem straddles_iff {B x n : Nat} (hn : n ≤ B) :
    (x + n) % B > 0 ∧ (x + n) / B > x / B ↔ Straddles B x n := by
  have hdiv := Nat.div_add_mod (x + n) B
  rw [Nat.mul_comm] at hdiv
  constructor
  · rintro ⟨hmod, hlt⟩
    have hB : 0 < B := by
      rcases Nat.eq_zero_or_pos B with rfl | hB
      · simp at hlt
      · exact hB
    exact ⟨(x + n) / B, (Nat.div_lt_iff_lt_mul hB).mp hlt, by omega⟩
  · rintro ⟨k, hlow, hhigh⟩
    have hB : 0 < B := by omega
    have heq := div_eq_of_straddles hn hlow hhigh
    rw [heq] at hdiv ⊢
    exact ⟨by omega, (Nat.div_lt_iff_lt_mul hB).mpr hlow⟩

theorem readerPlace_of_straddles {B values r n k : Nat} (hn : n ≤ B) (hlow : values + r < k * B)
    (hhigh : k * B < values + r + n) : readerPlace B values r n + values = k * B := by
  have hdiv := Nat.div_add_mod (values + r + n) B
  rw [Nat.mul_comm, div_eq_of_straddles hn hlow hhigh] at hdiv
  rw [readerPlace, if_pos ((straddles_iff hn).mpr ⟨k, hlow, hhigh⟩)]
  omega

theorem readerPlace_of_not_straddles {B values r n : Nat} (hn : n ≤ B) (h : ¬Straddles B (values + r) n) :
    readerPlace B values r n = r := by
  rw [readerPlace, if_neg (mt (straddles_iff hn).mp h)]

/-- The tracer skips to the next multiple of `B` exactly when the value straddles it; a full segment
is left without a gap. -/
theorem writer_step {B seg o n : Nat} (hseg : B ∣ seg) (ho : o ≤ B) (hn : n ≤ B) (ns : List Nat) :
    ∃ place seg' o', writerPlaces B seg o (n :: ns) = place :: writerPlaces B seg' o' ns ∧ B ∣ seg' ∧ o' ≤ B ∧
      seg' + o' = place + n ∧ (∀ k, seg + o < k * B → k * B < seg + o + n → place = k * B) ∧
      (¬Straddles B (seg + o) n → place = seg + o) := by
  obtain ⟨q, rfl⟩ := hseg
  rw [writerPlaces]
  split_ifs with hfull
  · have hmul : (q + 1) * B = B * q + B := by rw [Nat.add_mul, Nat.one_mul, Nat.mul_comm]
    refine ⟨_, _, _, rfl, ⟨q + 1, by rw [Nat.mul_add, Nat.mul_one]⟩, hn, rfl, ?_, ?_⟩
    · intro k hlow hhigh
      -- `k * B` lies between `q * B` and `(q + 2) * B`
      have h1 : q < k := by
        by_contra hle
        have := Nat.mul_le_mul_right B (Nat.le_of_not_lt hle)
        rw [Nat.mul_comm q B] at this
        omega
      have h2 : k < q + 2 := by
        by_contra hle
        have := Nat.mul_le_mul_right B (Nat.le_of_not_lt hle)
        rw [Nat.add_mul, Nat.mul_comm q B] at this
        omega
      obtain rfl : k = q + 1 := by omega
      exact hmul.symm
    · intro hnot
      by_contra hne
      exact hnot ⟨q + 1, by omega, by omega⟩
  · refine ⟨_, _, _, rfl, ⟨q, rfl⟩, by omega, by omega, ?_, fun _ => rfl⟩
    intro k hlow hhigh
    exfalso
    have h1 : q < k := by
      by_contra hle
      have := Nat.mul_le_mul_right B (Nat.le_of_not_lt hle)
      rw [Nat.mul_comm q B] at this
      omega
    have := Nat.mul_le_mul_right B h1
    rw [Nat.succ_mul, Nat.mul_comm q B] at this
    omega

/-- With the file mapped at a multiple of `B` the two computations agree. -/
theorem readerPlaces_eq_of_dvd {B values : Nat} (hvalues : B ∣ values) {lens : List Nat} (hlens : ∀ n ∈ lens, n ≤ B)
    {seg o : Nat} (hseg : B ∣ seg) (ho : o ≤ B) : readerPlaces B values (seg + o) lens = writerPlaces B seg o lens := by
  induction lens generalizing seg o with
  | nil => rfl
  | cons n ns ih =>
      have hn := hlens n List.mem_cons_self
      obtain ⟨place, seg', o', hplaces, hseg', ho', hnext, hjump, hstay⟩ := writer_step hseg ho hn ns
      have hsame : readerPlace B values (seg + o) n = place := by
        obtain ⟨w, rfl⟩ := hvalues
        by_cases hcase : Straddles B (B * w + (seg + o)) n
        · obtain ⟨k, hlow, hhigh⟩ := hcase
          have hreader := readerPlace_of_straddles hn hlow hhigh
          have hle : w ≤ k := by
            by_contra hlt
            have := Nat.mul_le_mul_right B (Nat.le_of_lt (Nat.lt_of_not_le hlt))
            rw [Nat.mul_comm w B] at this
            omega
          have hsub : (k - w) * B = k * B - B * w := by rw [Nat.sub_mul, Nat.mul_comm w B]
          have hwriter := hjump (k - w) (by omega) (by omega)
          omega
        · have hnot : ¬Straddles B (seg + o) n := by
            rintro ⟨k, hlow, hhigh⟩
            have hadd : (w + k) * B = B * w + k * B := by rw [Nat.add_mul, Nat.mul_comm w B]
            exact hcase ⟨w + k, by omega, by omega⟩
          rw [readerPlace_of_not_straddles hn hcase, hstay hnot]
      rw [readerPlaces, hplaces, hsame, ← hnext, ih (fun m hm => hlens m (List.mem_cons_of_mem n hm)) hseg' ho']

/-- Otherwise the places are the same exactly when nobody ever skips. -/
theorem samePlaces_iff_unbroken {B values : Nat} (hvalues : ¬B ∣ values) {lens : List Nat}
    (hlens : ∀ n ∈ lens, n ≤ B) {seg o : Nat} (hseg : B ∣ seg) (ho : o ≤ B) :
    (∀ k n : Nat, lens[k]? = some n → 0 < n →
      (readerPlaces B values (seg + o) lens)[k]? = (writerPlaces B seg o lens)[k]?) ↔
    Unbroken B (seg + o) lens ∧ Unbroken B (values + (seg + o)) lens := by
  induction lens generalizing seg o with
  | nil => simp [Unbroken]
  | cons n ns ih =>
      have hn := hlens n List.mem_cons_self
      obtain ⟨place, seg', o', hplaces, hseg', ho', hnext, hjump, hstay⟩ := writer_step hseg ho hn ns
      have hrest := ih (fun m hm => hlens m (List.mem_cons_of_mem n hm)) hseg' ho'
      rw [hplaces, readerPlaces, Unbroken, Unbroken]
      constructor
      · intro h
        have hhead : 0 < n → readerPlace B values (seg + o) n = place := by
          intro hpos
          simpa using h 0 n rfl hpos
        -- a skip of the tracer ends at a multiple of `B` in the file, one of the reader never does
        have hfile : ¬Straddles B (seg + o) n := by
          rintro ⟨k, hlow, hhigh⟩
          have hplace := hjump k hlow hhigh
          have hreader := hhead (by omega)
          by_cases hcase : Straddles B (values + (seg + o)) n
          · obtain ⟨k', hlow', hhigh'⟩ := hcase
            have hskip := readerPlace_of_straddles hn hlow' hhigh'
            rw [hreader, hplace] at hskip
            refine hvalues ((Nat.dvd_add_right (Nat.dvd_mul_left B k)).mp ?_)
            rw [hskip]
            exact Nat.dvd_mul_left B k'
          · rw [readerPlace_of_not_straddles hn hcase] at hreader
            omega
        have haddress : ¬Straddles B (values + (seg + o)) n := by
          rintro ⟨k, hlow, hhigh⟩
          have hskip := readerPlace_of_straddles hn hlow hhigh
          rw [hhead (by omega), hstay hfile] at hskip
          omega
        have hmove : seg' + o' = seg + o + n := by rw [hnext, hstay hfile]
        have htail := hrest.mp fun k m hm hpos => by
          have := h (k + 1) m hm hpos
          rwa [List.getElem?_cons_succ, List.getElem?_cons_succ, readerPlace_of_not_straddles hn haddress,
            ← hmove] at this
        rw [hmove, ← Nat.add_assoc values] at htail
        exact ⟨⟨hfile, htail.1⟩, haddress, htail.2⟩
      · rintro ⟨⟨hfile, hrestFile⟩, haddress, hrestAddress⟩ k m hm hpos
        have hmove : seg' + o' = seg + o + n := by rw [hnext, hstay hfile]
        rw [readerPlace_of_not_straddles hn haddress, hstay hfile, ← hmove]
        cases k with
        | zero => rfl
        | succ k =>
            rw [List.getElem?_cons_succ] at hm ⊢
            rw [List.getElem?_cons_succ]
            refine hrest.mpr ⟨?_, ?_⟩ k m hm hpos
            · rw [hmove]
              exact hrestFile
            · rw [hmove, ← Nat.add_assoc values]
              exact hrestAddress

/-- Store values of given lengths survive the round trip exactly when the file is mapped at a
multiple of the segment size, or when nobody ever has to skip: laid end to end, no value straddles a
multiple of the segment size, neither in file offsets nor in addresses of the mapping. -/
theorem roundTrip_iff (B pageSize values : Nat) {lens : List Nat} (hlens : ∀ n ∈ lens, n ≤ B) :
    RoundTrip B pageSize values lens ↔ B ∣ values ∨ (Unbroken B 0 lens ∧ Unbroken B values lens) := by
  rw [roundTrip_iff_samePlaces B pageSize values hlens]
  by_cases hvalues : B ∣ values
  · refine ⟨fun _ => .inl hvalues, fun _ k n _ _ => ?_⟩
    have hsame := readerPlaces_eq_of_dvd hvalues hlens (Nat.dvd_zero B) (Nat.zero_le B)
    exact congrArg (·[k]?) hsame
  · rw [or_iff_right hvalues]
    exact samePlaces_iff_unbroken hvalues hlens (Nat.dvd_zero B) (Nat.zero_le B)

theorem roundTrip_iff_two_pages :
    (∀ n ∈ [4000, 200], n ≤ 8192) ∧ RoundTrip 8192 4096 0x7f0000002000 [4000, 200] :=
  ⟨by decide, (roundTrip_iff 8192 4096 0x7f0000002000 (by decide)).mpr (.inl (by decide))⟩

/-- Segments of two pages, mapped one page off: the second value is written at offset 4000 and looked
for at offset 4096, where the addresses of the mapping reach a multiple of the segment size. -/
theorem roundTrip_fails_one_page_off :
    4096 ∣ 8192 ∧ 4096 ∣ 0x7f0000001000 ∧ writerPlaces 8192 0 0 [4000, 200] = [0, 4000] ∧
      readerPlaces 8192 0x7f0000001000 0 [4000, 200] = [0, 4096] ∧
      processStoreEntries (.init 8192 4096
          (recordStoreValues 8192 [List.replicate 4000 0, 1 :: List.replicate 199 0]) 0x7f0000001000)
        [(true, 4000), (true, 200)] ≠
          some [some (List.replicate 4000 0), some (1 :: List.replicate 199 0)] := by
  refine ⟨by decide, by decide, by decide, by decide, ?_⟩
  have hmarked : markedStores 1 [4000, 200] =
      [(true, List.replicate 4000 0), (true, 1 :: List.replicate 199 0)] := by
    rfl
  intro h
  have hplace : (readerPlaces 8192 0x7f0000001000 0 [4000, 200])[1]? = (writerPlaces 8192 0 0 [4000, 200])[1]? := by
    refine samePlace_of_mark 4096 (by decide) rfl (by decide) ?_
    simp only [hmarked, expectedValues, List.map_cons, List.map_nil, List.length_cons, List.length_replicate]
    exact h
  exact absurd hplace (by decide)

end Witcher
