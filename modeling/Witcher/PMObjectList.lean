import Witcher.Bisection
import Witcher.Intervals
import Witcher.Loops
import Witcher.MemoryOperations

/-! The persistent objects of a belief database (`PMObjectList` of
`engines/witcher/witcherbeliefdatabase.py`). Inserting an object puts it at the position of its address
and merges it with the objects it overlaps; looking up a range bisects the list. -/

namespace Witcher

open Bisection Intervals

/-- `id` is the position in the list once the list is complete, and -1 before. -/
structure PMObject where
  address : Int
  size : Int
  id : Int
  deriving DecidableEq, Repr

namespace PMObject

/-- `PMObject(address, size)`. -/
def new (address size : Int) : PMObject := ⟨address, size, -1⟩

def getBaseAddress (o : PMObject) : Int := o.address

def getMaxAddress (o : PMObject) : Int := o.address + o.size

def rangeCmp (lhs rhs : PMObject) : Int :=
  Witcher.rangeCmp lhs.getBaseAddress lhs.getMaxAddress rhs.getBaseAddress rhs.getMaxAddress

def span (o : PMObject) : Span Int := ⟨o.getBaseAddress, o.getMaxAddress⟩

end PMObject

namespace PMObjectList

def item (list : List PMObject) (index : Nat) : Except ReplayError PMObject :=
  match list[index]? with
  | some o => .ok o
  | none => .error .indexError

/-! ### Lookup -/

/-- The comparison in the loop of `find`. A position outside the list ends the search, and reading it
then raises. -/
def findProbe (list : List PMObject) (tgtObj : PMObject) (mid : Nat) : Ordering :=
  match list[mid]? with
  | none => .eq
  | some midObj =>
      let cmpRes := midObj.rangeCmp tgtObj
      if cmpRes = 0 then .eq else if cmpRes = 1 then .gt else .lt

/-- The object contains the target it overlaps. -/
def assertContains (o tgtObj : PMObject) : Except ReplayError Unit := do
  assert (o.getBaseAddress ≤ tgtObj.getBaseAddress)
  assert (o.getMaxAddress ≥ tgtObj.getMaxAddress)

def find (list : List PMObject) (address size : Int) : Except ReplayError (Option PMObject) := do
  assert (0 < list.length)
  let tgtObj := PMObject.new address size
  match search (findProbe list tgtObj) (list.length - 1) 0 (list.length - 1) with
  | .found mid =>
      let midObj ← item list mid
      .ok (some midObj)
  | .gap left right =>
      let leftObj ← item list left
      if leftObj.rangeCmp tgtObj = 0 then
        assertContains leftObj tgtObj
        .ok (some leftObj)
      else
        let rightObj ← item list right
        if rightObj.rangeCmp tgtObj = 0 then
          assertContains rightObj tgtObj
          .ok (some rightObj)
        else .ok none

/-! ### Insertion -/

/-- The first object grows to the end of the second. -/
def extend (o p : PMObject) : PMObject :=
  { o with size := max o.getMaxAddress p.getMaxAddress - o.getBaseAddress }

/-- The merge with the object on the left; returns the list and the current position. -/
def mergeLeft (list : List PMObject) (curr : Nat) : Except ReplayError (List PMObject × Nat) :=
  match curr with
  | 0 => .ok (list, 0)
  | left + 1 => do
      let objL ← item list left
      let objC ← item list (left + 1)
      if objL.rangeCmp objC = 0 then
        assert (objL.getBaseAddress ≤ objC.getBaseAddress)
        .ok ((list.set left (extend objL objC)).eraseIdx (left + 1), left)
      else .ok (list, left + 1)

/-- The loop over the objects on the right. Every iteration deletes one of them, so `list.length`
iterations are enough. -/
def mergeRight (curr : Nat) : Nat → List PMObject → Except ReplayError (List PMObject)
  | 0, list => .ok list
  | fuel + 1, list =>
      if curr + 1 < list.length then do
        let objR ← item list (curr + 1)
        let objC ← item list curr
        if objC.rangeCmp objR ≠ 0 then .ok list
        else
          assert (objC.getBaseAddress ≤ objR.getBaseAddress)
          mergeRight curr fuel ((list.set curr (extend objC objR)).eraseIdx (curr + 1))
      else .ok list

def tryMerge (list : List PMObject) (index : Nat) : Except ReplayError (List PMObject) := do
  let (list, curr) ← mergeLeft list index
  mergeRight curr list.length list

/-- The comparison in the loop of `insert`. -/
def insertProbe (list : List PMObject) (pmObject : PMObject) (mid : Nat) : Ordering :=
  match list[mid]? with
  | none => .eq
  | some midObj => if pmObject.getBaseAddress ≤ midObj.getBaseAddress then .gt else .lt

def insert (list : List PMObject) (pmObject : PMObject) : Except ReplayError (List PMObject) :=
  if list.length = 0 then .ok [pmObject]
  else do
    let first ← item list 0
    let last ← item list (list.length - 1)
    if pmObject.getBaseAddress ≤ first.getBaseAddress then tryMerge (list.insertIdx 0 pmObject) 0
    else if pmObject.getBaseAddress ≥ last.getBaseAddress then
      tryMerge (list.insertIdx list.length pmObject) list.length
    else
      match search (insertProbe list pmObject) (list.length - 1) 0 (list.length - 1) with
      | .found _ => .error .indexError
      | .gap _ right => tryMerge (list.insertIdx right pmObject) right

/-- The objects inserted one after another into the empty list. -/
def insertAll (objects : List PMObject) : Except ReplayError (List PMObject) := objects.foldlM insert []

end PMObjectList

end Witcher
