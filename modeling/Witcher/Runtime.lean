/-! The entries of a recorded trace (`Giri/Runtime.h`) and the ranges of `Giri/TraceFile.h`. -/

namespace Witcher

/-- `other` are the codes outside of the enumeration; a file that is not full ends with zeros. -/
inductive RecordType where
  | bbType
  | ldType
  | stType
  | clType
  | rtType
  | enType
  | pdType
  | flType
  | feType
  | txaddType
  | txallocType
  | mmapType
  | other (code : UInt32)
  deriving DecidableEq, Repr

structure Entry where
  type : RecordType
  id : UInt32
  tid : UInt64
  address : UInt64
  length : UInt64
  deriving DecidableEq, Repr

/-- The entries the graph has vertices for. -/
def Entry.IsAccess (entry : Entry) : Prop := entry.type = .stType ∨ entry.type = .ldType

instance (entry : Entry) : Decidable entry.IsAccess := inferInstanceAs (Decidable (_ ∨ _))

/-- Both ends are inside. -/
structure Range where
  start : UInt64
  stop : UInt64
  deriving DecidableEq, Repr

def Range.isInRange (r : Range) (index : UInt64) : Bool := index ≥ r.start && index ≤ r.stop

def Range.isValid (r : Range) : Bool := !(r.start == 0 && r.stop == 0)

def Range.startLargerThan (r : Range) (index : UInt64) : Bool := r.start > index

theorem Range.isInRange_iff (r : Range) (index : UInt64) : r.isInRange index = true ↔ r.start ≤ index ∧ index ≤ r.stop := by
  rw [isInRange, Bool.and_eq_true, decide_eq_true_eq, decide_eq_true_eq]

theorem Range.startLargerThan_iff (r : Range) (index : UInt64) : r.startLargerThan index = true ↔ index < r.start := by
  rw [startLargerThan, decide_eq_true_eq]

/-- The trace index, the entry there and the source line of a vertex. -/
structure TraceInfo where
  traceIndex : Nat
  traceEntry : Entry
  srcInfo : String
  deriving DecidableEq, Repr

end Witcher
