import Mathlib.Order.Defs.LinearOrder
import Witcher.TrueDivision

/-! The operations of a replayed trace and the cache geometry (`replay/mem`). An operation object is
identified by its `id`; the one mutable field, `flushed` of a store, is kept by the caches that change
it. -/

namespace Witcher

open TrueDivision

/-! ### Cache numbers -/

def cachelineBytes : Nat := 64

def atomicWriteBytes : Nat := 8

/-- The cacheline start address: `int(address / CACHELINE_BYTES) * CACHELINE_BYTES`. -/
def getCachelineAddress (address : Nat) : Nat := trueDivInt address cachelineBytes * cachelineBytes

theorem getCachelineAddress_eq (address : Nat) (h : address < 2 ^ 53) :
    getCachelineAddress address = address / 64 * 64 := by
  rw [getCachelineAddress, cachelineBytes, trueDivInt_eq_div address 64 (by decide) h]

theorem getCachelineAddress_nearest (address : Nat) : getCachelineAddress address = nearestDouble address / 64 * 64 := by
  rw [getCachelineAddress, cachelineBytes, trueDivInt_sixtyFour]

/-- The start of a line is taken to the double nearest to it. -/
theorem getCachelineAddress_of_dvd {address : Nat} (h : 64 ∣ address) :
    getCachelineAddress address = nearestDouble address := by
  rw [getCachelineAddress_nearest, Nat.div_mul_cancel (dvd_nearestDouble h)]

theorem dvd_getCachelineAddress (address : Nat) : 64 ∣ getCachelineAddress address :=
  Nat.dvd_mul_left cachelineBytes _

theorem getCachelineAddress_idem (address : Nat) :
    getCachelineAddress (getCachelineAddress address) = getCachelineAddress address := by
  rw [getCachelineAddress_of_dvd (dvd_getCachelineAddress address), getCachelineAddress_nearest, nearestDouble_floor]

/-! ### Ranges -/

/-- `range_cmp` of `misc/utils.py`, on the base and the maximal addresses of the two ranges. -/
def rangeCmp {α : Type} [LinearOrder α] (base max base' max' : α) : Int :=
  if max ≤ base' then -1 else if base ≥ max' then 1 else 0

section Ranges

variable {α : Type} [LinearOrder α] {base max base' max' : α}

/-- The comparison is about overlap. -/
theorem rangeCmp_eq_zero_iff : rangeCmp base max base' max' = 0 ↔ base' < max ∧ base < max' := by
  rw [rangeCmp]
  split_ifs with hbefore hafter
  · exact iff_of_false (by decide) fun h => not_lt_of_ge hbefore h.1
  · exact iff_of_false (by decide) fun h => not_lt_of_ge hafter h.2
  · exact iff_of_true rfl ⟨lt_of_not_ge hbefore, lt_of_not_ge hafter⟩

theorem rangeCmp_eq_neg_one_iff : rangeCmp base max base' max' = -1 ↔ max ≤ base' := by
  rw [rangeCmp]
  split_ifs with hbefore hafter
  · exact iff_of_true rfl hbefore
  · exact iff_of_false (by decide) hbefore
  · exact iff_of_false (by decide) hbefore

theorem le_of_rangeCmp_eq_one (h : rangeCmp base max base' max' = 1) : max' ≤ base := by
  rw [rangeCmp] at h
  split_ifs at h with hbefore hafter
  · exact hafter
  · cases h

theorem rangeCmp_cases (base max base' max' : α) :
    rangeCmp base max base' max' = -1 ∨ rangeCmp base max base' max' = 0 ∨ rangeCmp base max base' max' = 1 := by
  rw [rangeCmp]
  split_ifs <;> decide

end Ranges

/-! ### Operations -/

structure BaseOperation where
  id : Nat
  tid : Nat
  srcInfo : String
  deriving DecidableEq, Repr

structure PMDKCall extends BaseOperation where
  funcName : String
  note : String
  deriving DecidableEq, Repr

/-- `PMDKTXAdd` and `PMDKTXAlloc`: a logged range. -/
structure PMDKRange extends BaseOperation where
  address : Nat
  size : Nat
  deriving DecidableEq, Repr

structure Store extends BaseOperation where
  address : Nat
  size : Nat
  valueBytes : List UInt8
  deriving DecidableEq, Repr

structure Flush extends BaseOperation where
  addressNotAligned : Nat
  deriving DecidableEq, Repr

def Flush.address (f : Flush) : Nat := getCachelineAddress f.addressNotAligned

def Flush.size (_ : Flush) : Nat := cachelineBytes

inductive Op where
  | txStart (op : BaseOperation)
  | txEnd (op : BaseOperation)
  | pmdkCall (op : PMDKCall)
  | pmdkTXAdd (op : PMDKRange)
  | pmdkTXAlloc (op : PMDKRange)
  | fence (op : BaseOperation)
  | store (op : Store)
  | flush (op : Flush)
  deriving DecidableEq, Repr

def Op.base : Op → BaseOperation
  | .txStart op | .txEnd op | .fence op => op
  | .pmdkCall op => op.toBaseOperation
  | .pmdkTXAdd op | .pmdkTXAlloc op => op.toBaseOperation
  | .store op => op.toBaseOperation
  | .flush op => op.toBaseOperation

def Op.id (op : Op) : Nat := op.base.id

@[simp] theorem Op.id_fence (op : BaseOperation) : (Op.fence op).id = op.id := rfl

@[simp] theorem Op.id_store (op : Store) : (Op.store op).id = op.id := rfl

def Op.isTXEnd : Op → Bool
  | .txEnd _ => true
  | _ => false

def Op.isStore : Op → Bool
  | .store _ => true
  | _ => false

def Op.isFence : Op → Bool
  | .fence _ => true
  | _ => false

/-- A `TXStart` or a `TXEnd`. -/
def Op.isBoundary : Op → Bool
  | .txStart _ | .txEnd _ => true
  | _ => false

/-- `filter(lambda op: isinstance(op, Store), ops)`. -/
def storesOf : List Op → List Store
  | [] => []
  | .store st :: ops => st :: storesOf ops
  | _ :: ops => storesOf ops

theorem storesOf_append (front back : List Op) : storesOf (front ++ back) = storesOf front ++ storesOf back := by
  induction front with
  | nil => rfl
  | cons op ops ih => cases op <;> simp [storesOf, ih]

theorem storesOf_cons (op : Op) (ops : List Op) : storesOf (op :: ops) = storesOf [op] ++ storesOf ops :=
  storesOf_append [op] ops

theorem mem_storesOf {ops : List Op} {st : Store} : st ∈ storesOf ops ↔ Op.store st ∈ ops := by
  induction ops with
  | nil => simp [storesOf]
  | cons op ops ih => cases op <;> simp [storesOf, ih]

/-- A store with a new id extends a list of distinct stores. -/
theorem nodup_ids_concat {hist : List Store} {st : Store} (h : (hist.map (·.id)).Nodup)
    (hfresh : ∀ s ∈ hist, s.id ≠ st.id) : ((hist ++ [st]).map (·.id)).Nodup := by
  rw [List.map_append, List.nodup_append]
  refine ⟨h, by simp, ?_⟩
  intro i hi j hj
  obtain ⟨s, hs, rfl⟩ := List.mem_map.mp hi
  rw [List.map_singleton, List.mem_singleton] at hj
  exact hj ▸ hfresh s hs

/-! ### Flush state of a store -/

/-- The `flushed` field: 0 clear, 1 to be written back at the next fence, 2 written back. -/
inductive Flushed where
  | clear
  | flushing
  | fenced
  deriving DecidableEq, Repr

inductive ReplayError where
  | assertion
  | notSupportedOperation
  | indexError
  | keyError
  | valueError
  | attributeError
  deriving DecidableEq, Repr

def assert (b : Bool) : Except ReplayError Unit := if b then .ok () else .error .assertion

@[simp] theorem assert_true : assert true = .ok () := rfl

theorem assert_ok {b : Bool} {u : Unit} (h : assert b = .ok u) : b = true := by
  cases b with
  | true => rfl
  | false => cases h

/-- `Store.accept_flush` on the current `flushed` field. -/
def Flushed.acceptFlush (f : Flushed) : Except ReplayError Flushed := do
  assert (f = .clear || f = .flushing)
  .ok .flushing

/-- `Store.accept_fence` on the current `flushed` field. -/
def Flushed.acceptFence (f : Flushed) : Except ReplayError Flushed := do
  assert (f = .clear || f = .flushing)
  .ok .fenced

/-- The store lies inside one aligned 8-byte word at an address a double represents exactly. -/
structure Store.Atomic (st : Store) : Prop where
  address_lt : st.address < 2 ^ 53
  in_word : st.address + st.size ≤ st.address / 8 * 8 + 8

instance (st : Store) : Decidable st.Atomic :=
  decidable_of_iff (st.address < 2 ^ 53 ∧ st.address + st.size ≤ st.address / 8 * 8 + 8)
    ⟨fun ⟨h1, h2⟩ => ⟨h1, h2⟩, fun h => ⟨h.address_lt, h.in_word⟩⟩

/-- The line a store belongs to. -/
def Store.line (st : Store) : Nat := getCachelineAddress st.address

theorem Store.Atomic.line_eq {st : Store} (h : st.Atomic) : st.line = st.address / 64 * 64 :=
  getCachelineAddress_eq st.address h.address_lt

/-- The store lies inside the line it belongs to. -/
structure Store.InLine (st : Store) : Prop where
  line_eq : st.line = st.address / 64 * 64
  high : st.address + st.size ≤ st.address / 64 * 64 + 64

theorem Store.Atomic.inLine {st : Store} (h : st.Atomic) : st.InLine := by
  refine ⟨h.line_eq, ?_⟩
  have := h.in_word
  omega

/-- Every byte of the store lies in the store's own line. -/
theorem Store.InLine.byte_line {st : Store} (h : st.InLine) {b : Nat} (hlow : st.address ≤ b)
    (hhigh : b < st.address + st.size) : b / 64 * 64 = st.line := by
  have := h.high
  rw [h.line_eq]
  omega

end Witcher
