import Mathlib.Algebra.Order.Group.Nat
import Mathlib.Data.List.Basic

/-! Files of records of one size. The records stand one after the other, so record `index` begins at `index * size`. -/

namespace Witcher.FixedRecords

/-! ### Numbers -/

/-- The number in so many bytes, the lowest one first. -/
def littleEndian : Nat → Nat → List UInt8
  | 0, _ => []
  | width + 1, n => UInt8.ofNat n :: littleEndian width (n / 256)

def ofLittleEndian : List UInt8 → Nat
  | [] => 0
  | byte :: bytes => byte.toNat + 256 * ofLittleEndian bytes

@[simp]
theorem length_littleEndian (width n : Nat) : (littleEndian width n).length = width := by
  induction width generalizing n with
  | zero => rfl
  | succ width ih => rw [littleEndian, List.length_cons, ih]

theorem ofLittleEndian_littleEndian {width n : Nat} (h : n < 256 ^ width) : ofLittleEndian (littleEndian width n) = n := by
  induction width generalizing n with
  | zero =>
      rw [Nat.pow_zero] at h
      exact (Nat.lt_one_iff.mp h).symm
  | succ width ih =>
      have hrest : n / 256 < 256 ^ width := by
        rw [Nat.pow_succ] at h
        omega
      rw [littleEndian, ofLittleEndian, ih hrest, UInt8.toNat_ofNat']
      omega

theorem take_littleEndian (width n : Nat) (rest : List UInt8) :
    (littleEndian width n ++ rest).take width = littleEndian width n :=
  List.take_left' (length_littleEndian width n)

theorem drop_littleEndian (width n : Nat) (rest : List UInt8) : (littleEndian width n ++ rest).drop width = rest :=
  List.drop_left' (length_littleEndian width n)

/-! ### Records -/

/-- How a record is laid out. Bytes of the right number are always read as some record. -/
structure Format (α : Type) where
  size : Nat
  size_pos : 0 < size
  encode : α → List UInt8
  decode : List UInt8 → α
  length_encode : ∀ a, (encode a).length = size

namespace Format

variable {α : Type} (F : Format α)

def encodeAll (as : List α) : List UInt8 := as.flatMap F.encode

def record (file : List UInt8) (index : Nat) : α := F.decode ((file.drop (index * F.size)).take F.size)

/-- All records that the file has room for. -/
def records (file : List UInt8) : List α := (List.range (file.length / F.size)).map (F.record file)

variable {F} {as : List α}

theorem encodeAll_append (as bs : List α) : F.encodeAll (as ++ bs) = F.encodeAll as ++ F.encodeAll bs := List.flatMap_append

theorem length_encodeAll (as : List α) : (F.encodeAll as).length = as.length * F.size := by
  induction as with
  | nil => exact (Nat.zero_mul _).symm
  | cons a as ih =>
      rw [encodeAll, List.flatMap_cons, List.length_append, F.length_encode, ← encodeAll, ih, List.length_cons,
        Nat.succ_mul, Nat.add_comm]

theorem record_encodeAll {index : Nat} {a : α} (h : as[index]? = some a) :
    F.record (F.encodeAll as) index = F.decode (F.encode a) := by
  obtain ⟨hlt, rfl⟩ := List.getElem?_eq_some_iff.mp h
  have hsplit : as = as.take index ++ as[index] :: as.drop (index + 1) := by
    rw [List.getElem_cons_drop, List.take_append_drop]
  have hlength : (F.encodeAll (as.take index)).length = index * F.size := by
    rw [length_encodeAll, List.length_take, Nat.min_eq_left (Nat.le_of_lt hlt)]
  have hfile : F.encodeAll as = F.encodeAll (as.take index) ++ (F.encode as[index] ++ F.encodeAll (as.drop (index + 1))) := by
    calc F.encodeAll as = F.encodeAll (as.take index ++ as[index] :: as.drop (index + 1)) := congrArg _ hsplit
      _ = _ := by rw [encodeAll_append, encodeAll, encodeAll, encodeAll, List.flatMap_cons]
  rw [record, hfile, ← hlength, List.drop_left, ← F.length_encode as[index], List.take_left]

/-- What was written is read, record by record, if every single one is. -/
theorem records_encodeAll (h : ∀ a ∈ as, F.decode (F.encode a) = a) : F.records (F.encodeAll as) = as := by
  apply List.ext_getElem?
  intro index
  rw [records, length_encodeAll, Nat.mul_div_cancel _ F.size_pos, List.getElem?_map]
  by_cases hlt : index < as.length
  · have hget := List.getElem?_eq_getElem hlt
    rw [List.getElem?_range hlt, Option.map_some, record_encodeAll hget, hget, h _ (List.getElem_mem hlt)]
  · rw [List.getElem?_eq_none (by rw [List.length_range]; omega), List.getElem?_eq_none (by omega), Option.map_none]

end Format

end Witcher.FixedRecords
