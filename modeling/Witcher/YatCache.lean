import Witcher.CacheRuns

/-! The counting cache (`engines/yat/yatengine.py`). It only counts: a line is cut into buckets of one
atomic word each, a store goes to the bucket it overlaps, and a fence drops the stores marked by a
flush. It counts as many pending stores on each line as the replay cache holds there. -/

namespace Witcher

open Persistency TrueDivision

/-! ### Buckets -/

structure YatCachelineBucket where
  address : Nat
  size : Nat
  storesList : List Store
  deriving DecidableEq, Repr

namespace YatCachelineBucket

def acceptStore (b : YatCachelineBucket) (st : Store) : YatCachelineBucket :=
  { b with storesList := b.storesList ++ [st] }

/-- Marks the stores in place, without a check of their state. -/
def acceptFlush (flushed : Nat → Flushed) (b : YatCachelineBucket) : Nat → Flushed :=
  b.storesList.foldl (fun flushed st => Function.update flushed st.id .flushing) flushed

def flush (flushed : Nat → Flushed) (b : YatCachelineBucket) : YatCachelineBucket :=
  { b with storesList := b.storesList.filter fun st => flushed st.id = .clear }

def isEmpty (b : YatCachelineBucket) : Bool := b.storesList.length = 0

def getNumOfStores (b : YatCachelineBucket) : Nat := b.storesList.length

end YatCachelineBucket

/-! ### Cachelines -/

structure YatCacheline where
  address : Nat
  size : Nat
  sizePerBucket : Nat
  buckets : List YatCachelineBucket
  deriving DecidableEq, Repr

namespace YatCacheline

def new (address size sizePerBucket : Nat) : YatCacheline :=
  ⟨address, size, sizePerBucket,
    (List.range (trueDivInt size sizePerBucket)).map fun index => ⟨address + index * sizePerBucket, sizePerBucket, []⟩⟩

/-- The first bucket the store overlaps, which must contain it; the bucket is given by its position. -/
def getBucket (l : YatCacheline) (st : Store) : Except ReplayError (Option Nat) :=
  match l.buckets.findIdx? fun b => rangeCmp b.address (b.address + b.size) st.address (st.address + st.size) = 0 with
  | none => .ok none
  | some i =>
      match l.buckets[i]? with
      | none => .ok none
      | some b => do
          assert (b.address ≤ st.address)
          assert (b.address + b.size ≥ st.address + st.size)
          .ok (some i)

def canAcceptStore (l : YatCacheline) (st : Store) : Except ReplayError Bool := do
  let bucket ← l.getBucket st
  .ok bucket.isSome

def canAcceptFlush (l : YatCacheline) (f : Flush) : Bool :=
  l.address = f.address && l.address + l.size = f.address + f.size

def acceptStore (l : YatCacheline) (st : Store) : Except ReplayError YatCacheline := do
  match ← l.getBucket st with
  | none => .error .assertion
  | some i => .ok { l with buckets := l.buckets.modify i (·.acceptStore st) }

def acceptFlush (flushed : Nat → Flushed) (l : YatCacheline) : Nat → Flushed :=
  l.buckets.foldl YatCachelineBucket.acceptFlush flushed

def flush (flushed : Nat → Flushed) (l : YatCacheline) : YatCacheline :=
  { l with buckets := l.buckets.map (YatCachelineBucket.flush flushed) }

def isEmpty (l : YatCacheline) : Bool := l.buckets.all YatCachelineBucket.isEmpty

def getNumOfStores (l : YatCacheline) : Nat := l.buckets.foldl (fun n b => n + b.getNumOfStores) 0

end YatCacheline

/-! ### The cache -/

/-- The lines in the order they were created, and the `flushed` field of each store, by id. -/
structure YatCache where
  cachelines : List YatCacheline
  flushed : Nat → Flushed

namespace YatCache

def new : YatCache := ⟨[], fun _ => .clear⟩

/-- The store goes to the first line that can take it, or to a new line at the end. -/
def acceptStoreLines (st : Store) : List YatCacheline → Except ReplayError (List YatCacheline)
  | [] => do
      let l ← (YatCacheline.new (getCachelineAddress st.address) cachelineBytes atomicWriteBytes).acceptStore st
      .ok [l]
  | l :: ls => do
      if ← l.canAcceptStore st then
        let l ← l.acceptStore st
        .ok (l :: ls)
      else
        let ls ← acceptStoreLines st ls
        .ok (l :: ls)

def acceptStore (c : YatCache) (st : Store) : Except ReplayError YatCache := do
  let ls ← acceptStoreLines st c.cachelines
  .ok { c with cachelines := ls }

def acceptFlush (c : YatCache) (f : Flush) : YatCache :=
  match c.cachelines.find? (·.canAcceptFlush f) with
  | some l => { c with flushed := l.acceptFlush c.flushed }
  | none => c

/-- Returns whether the operation is a fence. Logged ranges are not supported. -/
def accept (c : YatCache) : Op → Except ReplayError (Bool × YatCache)
  | .txStart _ | .txEnd _ | .pmdkCall _ => .ok (false, c)
  | .store st => do
      let c ← c.acceptStore st
      .ok (false, c)
  | .flush f => .ok (false, c.acceptFlush f)
  | .fence _ => .ok (true, c)
  | .pmdkTXAdd _ | .pmdkTXAlloc _ => .error .notSupportedOperation

/-- Drops the marked stores and then the lines left empty, which are removed by identity. -/
def flush (c : YatCache) : YatCache :=
  { c with cachelines := (c.cachelines.map (YatCacheline.flush c.flushed)).filter fun l => !l.isEmpty }

def flushAll (c : YatCache) : YatCache := { c with cachelines := [] }

end YatCache

/-- `YatPermutator.run`. -/
def YatPermutator.run (c : YatCache) : Nat :=
  c.cachelines.foldl (fun n l => n * (l.getNumOfStores + 1)) 1 - 1

/-! ### Lines and buckets -/

/-- The stores of a line, bucket by bucket. -/
def YatCacheline.stores (l : YatCacheline) : List Store := l.buckets.flatMap (·.storesList)

/-- Eight buckets of eight bytes at an aligned address. -/
structure YatCacheline.Shape (l : YatCacheline) : Prop where
  aligned : 64 ∣ l.address
  size : l.size = 64
  length : l.buckets.length = 8
  bucket : ∀ i b, l.buckets[i]? = some b → b.address = l.address + i * 8 ∧ b.size = 8

theorem YatCacheline.shape_new {address : Nat} (h : 64 ∣ address) :
    (YatCacheline.new address cachelineBytes atomicWriteBytes).Shape where
  aligned := h
  size := rfl
  length := by
    simp [YatCacheline.new, cachelineBytes, atomicWriteBytes, trueDivInt_eq_div 64 8 (by decide) (by decide)]
  bucket := by
    intro i b hb
    rw [YatCacheline.new, List.getElem?_map] at hb
    obtain ⟨j, hj, rfl⟩ := Option.map_eq_some_iff.mp hb
    obtain ⟨_, rfl⟩ := List.getElem?_eq_some_iff.mp hj
    rw [List.getElem_range]
    exact ⟨rfl, rfl⟩

/-- An atomic store overlaps a bucket exactly when the bucket is its word, and then lies in it. -/
theorem rangeCmp_word_iff {st : Store} (hword : st.address + st.size ≤ st.address / 8 * 8 + 8)
    (hoverlap : st.OverlapsWord) {address i : Nat} (haligned : 64 ∣ address) :
    rangeCmp (address + i * 8) (address + i * 8 + 8) st.address (st.address + st.size) = 0 ↔
      address + i * 8 = st.address / 8 * 8 := by
  have hnonempty : 0 < st.size ∨ st.address % 8 ≠ 0 := by
    rcases hoverlap with h | h
    · exact .inl h
    · exact .inr fun hmod => h (Nat.dvd_of_mod_eq_zero hmod)
  obtain ⟨q, rfl⟩ := haligned
  rw [rangeCmp_eq_zero_iff]
  omega

/-- A line finds a bucket exactly for the stores inside one of its words; its assertions never fail. -/
theorem YatCacheline.Shape.getBucket_word {l : YatCacheline} (h : l.Shape) {st : Store}
    (hword : st.address + st.size ≤ st.address / 8 * 8 + 8) (hoverlap : st.OverlapsWord) :
    (l.address ≠ st.address / 64 * 64 → l.getBucket st = .ok none) ∧
      (l.address = st.address / 64 * 64 → ∃ i < 8, l.getBucket st = .ok (some i)) := by
  have hmatch : ∀ i b, l.buckets[i]? = some b →
      (rangeCmp b.address (b.address + b.size) st.address (st.address + st.size) = 0 ↔
        l.address + i * 8 = st.address / 8 * 8) := by
    intro i b hb
    obtain ⟨haddress, hsize⟩ := h.bucket i b hb
    rw [haddress, hsize, rangeCmp_word_iff hword hoverlap h.aligned]
  constructor
  · intro hne
    have hnone : (l.buckets.findIdx? fun b =>
        decide (rangeCmp b.address (b.address + b.size) st.address (st.address + st.size) = 0)) = none := by
      rw [List.findIdx?_eq_none_iff]
      intro b hb
      obtain ⟨i, hi⟩ := List.mem_iff_getElem?.mp hb
      rw [decide_eq_false_iff_not, hmatch i b hi]
      have hlt := (List.getElem?_eq_some_iff.mp hi).1
      obtain ⟨q, hq⟩ := h.aligned
      have := h.length
      omega
    simp only [YatCacheline.getBucket, hnone]
  · intro heq
    obtain ⟨q, hq⟩ := h.aligned
    have hlen := h.length
    obtain ⟨i, hi, hword'⟩ : ∃ i < 8, l.address + i * 8 = st.address / 8 * 8 :=
      ⟨(st.address / 8 * 8 - l.address) / 8, by omega, by omega⟩
    obtain ⟨b, hb⟩ : ∃ b, l.buckets[i]? = some b := ⟨_, List.getElem?_eq_getElem (by omega)⟩
    have hfind : (l.buckets.findIdx? fun b =>
        decide (rangeCmp b.address (b.address + b.size) st.address (st.address + st.size) = 0)) = some i := by
      obtain ⟨hlt, hget⟩ := List.getElem?_eq_some_iff.mp hb
      rw [List.findIdx?_eq_some_iff_getElem]
      refine ⟨hlt, by rw [hget, decide_eq_true_eq, hmatch i b hb]; exact hword', ?_⟩
      intro j hj
      have hjget : l.buckets[j]? = some l.buckets[j] := List.getElem?_eq_getElem (by omega)
      rw [decide_eq_true_eq, hmatch j _ hjget]
      omega
    obtain ⟨haddress, hsize⟩ := h.bucket i b hb
    refine ⟨i, hi, ?_⟩
    have hlow : b.address ≤ st.address := by omega
    have hhigh : b.address + b.size ≥ st.address + st.size := by omega
    simp only [YatCacheline.getBucket, hfind, hb, hlow, hhigh, decide_true, assert_true, Loops.ok_bind]

/-- A line finds a bucket exactly for the atomic stores of its own address. -/
theorem YatCacheline.Shape.getBucket {l : YatCacheline} (h : l.Shape) {st : Store} (hatomic : st.Atomic)
    (hoverlap : st.OverlapsWord) :
    (l.address ≠ st.line → l.getBucket st = .ok none) ∧
      (l.address = st.line → ∃ i < 8, l.getBucket st = .ok (some i)) := by
  rw [hatomic.line_eq]
  exact h.getBucket_word hatomic.in_word hoverlap

/-- The store is added to one bucket of its line. -/
theorem YatCacheline.Shape.acceptStore {l : YatCacheline} (h : l.Shape) {st : Store} (hatomic : st.Atomic)
    (hoverlap : st.OverlapsWord) (hline : l.address = st.line) :
    ∃ l', l.acceptStore st = .ok l' ∧ l'.Shape ∧ l'.address = l.address ∧ l'.stores.Perm (l.stores ++ [st]) := by
  obtain ⟨i, hi, hbucket⟩ := (h.getBucket hatomic hoverlap).2 hline
  have hlt : i < l.buckets.length := by rw [h.length]; exact hi
  refine ⟨{ l with buckets := l.buckets.modify i (·.acceptStore st) },
    by simp only [YatCacheline.acceptStore, hbucket, Loops.ok_bind], ⟨h.aligned, h.size, ?_, ?_⟩, rfl, ?_⟩
  · rw [List.length_modify, h.length]
  · intro j b hb
    simp only [List.getElem?_modify] at hb
    cases hget : l.buckets[j]? with
    | none => simp [hget] at hb
    | some b' =>
        have hshape := h.bucket j b' hget
        simp only [hget, Option.map_eq_map, Option.map_some, Option.some.injEq] at hb
        rw [← hb]
        split_ifs <;> exact hshape
  · have hsplit : l.buckets = l.buckets.take i ++ l.buckets[i] :: l.buckets.drop (i + 1) := by
      rw [List.getElem_cons_drop, List.take_append_drop]
    simp only [YatCacheline.stores, List.modify_eq_take_cons_drop hlt]
    conv_rhs => rw [hsplit]
    simp only [List.flatMap_append, List.flatMap_cons, YatCachelineBucket.acceptStore, List.append_assoc]
    refine List.Perm.append_left _ (List.Perm.append_left _ ?_)
    exact List.perm_append_comm

theorem YatCacheline.getNumOfStores_eq (l : YatCacheline) : l.getNumOfStores = l.stores.length := by
  have hloop : ∀ (bs : List YatCachelineBucket) (n : Nat),
      bs.foldl (fun n b => n + b.getNumOfStores) n = n + (bs.flatMap (·.storesList)).length := by
    intro bs
    induction bs with
    | nil => simp
    | cons b bs ih =>
        intro n
        rw [List.foldl_cons, ih, List.flatMap_cons, List.length_append, YatCachelineBucket.getNumOfStores, Nat.add_assoc]
  rw [YatCacheline.getNumOfStores, hloop, YatCacheline.stores, Nat.zero_add]

theorem YatCacheline.isEmpty_iff (l : YatCacheline) : l.isEmpty = true ↔ l.stores = [] := by
  simp [YatCacheline.isEmpty, YatCacheline.stores, YatCachelineBucket.isEmpty]

theorem YatCacheline.stores_flush (flushed : Nat → Flushed) (l : YatCacheline) :
    (l.flush flushed).stores = l.stores.filter fun st => flushed st.id = .clear := by
  simp only [YatCacheline.stores, YatCacheline.flush, List.flatMap_map, YatCachelineBucket.flush, List.filter_flatMap]

theorem YatCacheline.Shape.flush {l : YatCacheline} (h : l.Shape) (flushed : Nat → Flushed) : (l.flush flushed).Shape where
  aligned := h.aligned
  size := h.size
  length := by rw [YatCacheline.flush, List.length_map, h.length]
  bucket := by
    intro i b hb
    rw [YatCacheline.flush, List.getElem?_map] at hb
    obtain ⟨b', hb', rfl⟩ := Option.map_eq_some_iff.mp hb
    exact h.bucket i b' hb'

/-- A flush marks the stores of the line and no other. -/
theorem YatCacheline.acceptFlush_apply (flushed : Nat → Flushed) (l : YatCacheline) (i : Nat) :
    l.acceptFlush flushed i = if ∃ st ∈ l.stores, st.id = i then .flushing else flushed i := by
  have hbucket : ∀ (sts : List Store) (flushed : Nat → Flushed),
      sts.foldl (fun flushed st => Function.update flushed st.id .flushing) flushed i =
        if ∃ st ∈ sts, st.id = i then .flushing else flushed i := by
    intro sts
    induction sts with
    | nil => simp
    | cons st sts ih =>
        intro flushed
        rw [List.foldl_cons, ih]
        by_cases h : i = st.id
        · simp [h]
        · simp [Function.update_of_ne h, Ne.symm h]
  have hlines : l.acceptFlush flushed =
      l.stores.foldl (fun flushed st => Function.update flushed st.id .flushing) flushed := by
    rw [YatCacheline.stores, List.foldl_flatMap]
    rfl
  rw [hlines, hbucket]

end Witcher
