import Witcher.TraceScan
import Witcher.WitcherParallelPPDG

/-! The two passes over the trace of one transaction. `generatePDG` slices what the backward scan finds
(`WitcherParallelPDG.cpp`); `generateVertices` goes forward over all records (`WitcherParallelPPDG.cpp`). The trace is
cut at both ends, so blocks may begin before it and end after it. -/

namespace Witcher.TraceScan

variable {ν : Type}

/-- The trace of one transaction. -/
structure TxRecording (ν : Type) extends Recording ν where
  ends : ∃ stop, trace.getLast? = some stop ∧ stop.type = .enType

namespace Recording

/-- The loop of `generatePDG`. Slicing a value does not move the cursor; the records whose values are sliced are
listed. -/
def generatePDGLoop (T : Recording ν) : Nat → Option (DynValue ν) → UInt64 → List (Nat × DynValue ν) →
    Except Stop (List (Nat × DynValue ν))
  | 0, _, _, _ => .error .outOfFuel
  | _ + 1, none, _, sliced => .ok sliced
  | fuel + 1, some currLoadOrStore, currIndex, sliced => do
      let (next, currIndex') ← T.getNextLoadOrStore currIndex
      T.generatePDGLoop fuel next currIndex' (sliced ++ [((getIndexForTheLoadOrStore currIndex).toNat, currLoadOrStore)])

def generatePDG (T : Recording ν) (fuel : Nat) : Except Stop (List (Nat × DynValue ν)) := do
  let (currLoadOrStore, currIndex) ← T.getNextLoadOrStore T.lastIndex
  T.generatePDGLoop fuel currLoadOrStore currIndex []

variable {T : Recording ν}

theorem generatePDGLoop_eq {fuel : Nat} {ret : Option (DynValue ν)} {currIndex : UInt64} {sliced rest : List (Nat × DynValue ν)}
    (h : T.Holds ret currIndex rest) :
    T.generatePDGLoop fuel ret currIndex sliced = if rest.length < fuel then .ok (sliced ++ rest) else .error .outOfFuel := by
  induction fuel generalizing ret currIndex sliced rest with
  | zero =>
      rw [generatePDGLoop, if_neg (by omega)]
  | succ fuel ih =>
      cases h with
      | nothing => rw [generatePDGLoop, List.length_nil, if_pos (Nat.succ_pos fuel), List.append_nil]
      | @found i d _ rest hat hindex hlt =>
          obtain ⟨next, currIndex', hnext, hholds⟩ := hat.next
          have hstep : T.generatePDGLoop (fuel + 1) (some d) currIndex sliced =
              T.generatePDGLoop fuel next currIndex' (sliced ++ [((getIndexForTheLoadOrStore currIndex).toNat, d)]) := by
            rw [generatePDGLoop, hnext]
            rfl
          rw [hstep, ih hholds, hindex, UInt64.toNat_ofNat', Nat.mod_eq_of_lt hlt, List.append_assoc, List.singleton_append,
            List.length_cons]
          simp only [Nat.add_lt_add_iff_right]

/-- The pass slices every load and store after record 0 that has a value, from the last one on. -/
theorem generatePDG_eq (T : Recording ν) (fuel : Nat) :
    T.generatePDG fuel = if (T.accesses T.maxIndex).length < fuel then .ok (T.accesses T.maxIndex) else .error .outOfFuel := by
  obtain ⟨ret, currIndex, hnext, hholds⟩ := T.at_lastIndex.next
  have hrun : T.generatePDG fuel = T.generatePDGLoop fuel ret currIndex [] := by
    rw [generatePDG, hnext]
    rfl
  rw [hrun, generatePDGLoop_eq hholds, List.nil_append]

end Recording

/-! ### Closed blocks -/

/-- Every call has returned, and every return is from a call. -/
inductive Balanced : List Entry → Prop
  | nil : Balanced []
  | record {entry : Entry} {rest : List Entry} (hcall : entry.type ≠ .clType) (hreturn : entry.type ≠ .rtType)
      (hrest : Balanced rest) : Balanced (entry :: rest)
  | call {call ret : Entry} {inner rest : List Entry} (hcall : call.type = .clType) (hreturn : ret.type = .rtType)
      (haddress : ret.address = call.address) (hinner : Balanced inner) (hrest : Balanced rest) :
      Balanced (call :: (inner ++ ret :: rest))

namespace Recording

/-- A call that returns leaves the stack as it was; below it nothing is found. -/
theorem scanForward_balanced {records : List Entry} (h : Balanced records) (id : UInt32) (stack : List UInt64)
    (hstack : stack ≠ []) (index : Nat) (rest : List Entry) :
    scanForward id stack index (records ++ rest) = scanForward id stack (index + records.length) rest := by
  induction h generalizing stack index rest with
  | nil => rfl
  | @record entry records hcall hreturn hrest ih =>
      rw [List.cons_append, scanForward_skip hcall (fun hrt => (hreturn hrt).elim) (fun hnil => (hstack hnil).elim),
        ih stack hstack, List.length_cons, Nat.add_right_comm, Nat.add_assoc]
  | @call call ret inner records hcall hreturn haddress hinner hrest ihinner ihrest =>
      rw [List.cons_append, List.append_assoc, scanForward_call hcall, ihinner _ (List.cons_ne_nil _ _),
        List.cons_append, ← haddress, scanForward_return hreturn, ihrest stack hstack]
      congr 1
      simp only [List.length_cons, List.length_append]
      omega

/-- A block record after balanced records is found, if none before it is. -/
theorem scanForward_isSome {records : List Entry} (h : Balanced records) {block : Entry} (htype : block.type = .bbType)
    (index : Nat) (rest : List Entry) : (scanForward block.id [] index (records ++ block :: rest)).isSome := by
  induction h generalizing index with
  | nil =>
      rw [List.nil_append, scanForward_found htype]
      rfl
  | @record entry records hcall hreturn hrest ih =>
      rw [List.cons_append, scanForward, if_neg hcall, if_neg fun hrt => hreturn hrt.1, if_neg (not_not_intro rfl)]
      split_ifs
      · rfl
      · exact ih (index + 1)
  | @call call ret inner records hcall hreturn haddress hinner hrest ihinner ihrest =>
      rw [List.cons_append, List.append_assoc, scanForward_call hcall, scanForward_balanced hinner _ _ (List.cons_ne_nil _ _),
        List.cons_append, ← haddress, scanForward_return hreturn]
      exact ihrest _

/-- The block of the instruction of record `i` ends in the trace: its record comes after balanced records. -/
def BlockCloses (T : Recording ν) (i : Nat) (entry : Entry) : Prop :=
  ∃ j block, i < j ∧ T.trace[j]? = some block ∧ block.type = .bbType ∧ block.id = T.getID (T.getInstByID entry.id) ∧
    Balanced ((T.trace.take j).drop (i + 1))

end Recording

theorem TxRecording.isSome_of_blockCloses (T : TxRecording ν) {i : Nat} {entry : Entry} (h : T.BlockCloses i entry) :
    (T.getDynValueFromIndex (T.getInstByID entry.id) i).isSome := by
  obtain ⟨j, block, hij, hblock, htype, hid, hbalanced⟩ := h
  obtain ⟨stop, hstop, hend⟩ := T.ends
  have hj : j < T.trace.length := (List.getElem?_eq_some_iff.mp hblock).choose
  have hlast : j ≠ T.trace.length - 1 := by
    rintro rfl
    rw [List.getLast?_eq_getElem?, hblock, Option.some_inj] at hstop
    rw [← hstop, htype] at hend
    cases hend
  have hrecords : T.trace.dropLast.drop (i + 1) =
      (T.trace.take j).drop (i + 1) ++ block :: (T.trace.dropLast).drop (j + 1) := by
    have hget : T.trace.dropLast[j]? = some block := by
      rw [List.getElem?_dropLast, if_pos (by omega), hblock]
    obtain ⟨hlt, hget⟩ := List.getElem?_eq_some_iff.mp hget
    have hsplit : T.trace.dropLast = T.trace.take j ++ block :: T.trace.dropLast.drop (j + 1) := by
      conv_lhs => rw [← List.take_append_drop j T.trace.dropLast, List.drop_eq_getElem_cons hlt, hget]
      rw [List.dropLast_eq_take, List.take_take, Nat.min_eq_left (by omega)]
    conv_lhs => rw [hsplit]
    rw [List.drop_append_of_le_length (by rw [List.length_take]; omega)]
  rw [Recording.getDynValueFromIndex, Option.isSome_map, ← hid, hrecords]
  exact Recording.scanForward_isSome hbalanced htype _ _

/-! ### Vertices -/

variable [DecidableEq ν]

/-- The value that `generateVertices` makes a vertex for; `none` if it reads through the missing one. -/
def foundVertex (S : SlicerInput ν) (entry : Entry × Nat) : Option (Option (DynValue ν)) :=
  if entry.1.IsAccess ∧ S.pmAddrRange.isInRange entry.1.address then
    (S.getDynValueFromIndex entry.1.id entry.2).map fun dynValue => if S.pdg.contains dynValue then some dynValue else none
  else some none

/-- A record is skipped, or a vertex is made for the value that is found. -/
theorem generateVertex_eq (S : SlicerInput ν) (g : PPDG ν) (entry : Entry × Nat) :
    generateVertex S g entry = (foundVertex S entry).bind fun found =>
      found.elim (some g) fun dynValue => g.createVertex dynValue ⟨entry.2, entry.1, S.locateSrcInfo entry.1.id⟩ := by
  obtain ⟨entry, index⟩ := entry
  rw [generateVertex, foundVertex]
  simp only
  by_cases haccess : entry.IsAccess
  · rw [if_neg fun h => not_or.mpr h haccess]
    cases hrange : S.pmAddrRange.isInRange entry.address with
    | false => rw [Bool.not_false, if_pos rfl, if_neg fun h => (by cases h.2), Option.bind_some, Option.elim_none]
    | true =>
        rw [if_neg (by simp), if_pos ⟨haccess, rfl⟩]
        cases hvalue : S.getDynValueFromIndex entry.id index with
        | none => rfl
        | some dynValue =>
            cases hcontains : S.pdg.contains dynValue <;> simp [hcontains]
  · rw [if_pos (not_or.mp haccess), if_neg fun h => haccess h.1, Option.bind_some, Option.elim_none]

/-- The inputs of the pass over a trace. -/
def Recording.slicerInput (T : Recording ν) (pdg : PDG ν) (heap : Nat → DynValue ν) (locateSrcInfo : UInt32 → String)
    (pmAddrRange : Range) : SlicerInput ν where
  pdg
  heap
  getDynValueFromIndex id index := T.getDynValueFromIndex (T.getInstByID id) index
  locateSrcInfo
  pmAddrRange

/-! ### Agreement -/

/-- A vertex is made only of a value that was sliced; every load or store whose block closes is sliced once; one without
a value is skipped by both passes. -/
structure PassesAgree (T : TxRecording ν) (S : SlicerInput ν) (sliced : List (Nat × DynValue ν)) : Prop where
  vertices : ∀ (i : Nat) (entry : Entry) (d : DynValue ν), T.trace[i]? = some entry → foundVertex S (entry, i) = some (some d) →
    (i, d) ∈ sliced
  once : ∀ (i : Nat) (entry : Entry), T.trace[i]? = some entry → entry.IsAccess → T.BlockCloses i entry →
    (sliced.map Prod.fst).count i = 1
  missing : ∀ (i : Nat) (entry : Entry), T.trace[i]? = some entry → entry.IsAccess →
    T.getDynValueFromIndex (T.getInstByID entry.id) i = none → i ∉ sliced.map Prod.fst ∧ foundVertex S (entry, i) ≠ none

/-- Every persistent load or store has a value, and record 0 is none that the passes should have looked at. -/
structure Whole (T : TxRecording ν) (pdg : PDG ν) (pmAddrRange : Range) : Prop where
  values : ∀ (i : Nat) (entry : Entry), T.trace[i]? = some entry → entry.IsAccess → pmAddrRange.isInRange entry.address →
    (T.getDynValueFromIndex (T.getInstByID entry.id) i).isSome
  first : ∀ entry, T.trace[0]? = some entry → entry.IsAccess → ¬T.BlockCloses 0 entry ∧
    ∀ d, T.getDynValueFromIndex (T.getInstByID entry.id) 0 = some d → pmAddrRange.isInRange entry.address →
      pdg.contains d = false

section Agreement

variable {T : TxRecording ν} {pdg : PDG ν} {heap : Nat → DynValue ν} {locateSrcInfo : UInt32 → String} {pmAddrRange : Range}
  {i : Nat} {entry : Entry} {d : DynValue ν}

theorem foundVertex_eq_none_iff : foundVertex (T.slicerInput pdg heap locateSrcInfo pmAddrRange) (entry, i) = none ↔
    entry.IsAccess ∧ pmAddrRange.isInRange entry.address ∧ T.getDynValueFromIndex (T.getInstByID entry.id) i = none := by
  rw [foundVertex]
  split_ifs with h
  · rw [Option.map_eq_none_iff, ← and_assoc]
    exact ⟨fun hnone => ⟨h, hnone⟩, And.right⟩
  · exact ⟨fun hsome => (by cases hsome), fun hnone => absurd ⟨hnone.1, hnone.2.1⟩ h⟩

theorem foundVertex_eq_some_iff : foundVertex (T.slicerInput pdg heap locateSrcInfo pmAddrRange) (entry, i) = some (some d) ↔
    entry.IsAccess ∧ pmAddrRange.isInRange entry.address ∧ T.getDynValueFromIndex (T.getInstByID entry.id) i = some d ∧
      pdg.contains d = true := by
  rw [foundVertex]
  split_ifs with h
  · rw [Option.map_eq_some_iff, ← and_assoc]
    constructor
    · rintro ⟨d', hvalue, hfound⟩
      split_ifs at hfound with hcontains
      cases hfound
      exact ⟨h, hvalue, hcontains⟩
    · rintro ⟨-, hvalue, hcontains⟩
      exact ⟨d, hvalue, if_pos hcontains⟩
  · constructor
    · intro hsome
      cases hsome
    · intro hsome
      exact absurd ⟨hsome.1, hsome.2.1⟩ h

end Agreement

/-- A load with its block, then a store whose block is cut off at the end of the trace. -/
def cutRecording : TxRecording UInt32 where
  trace := [⟨.bbType, 1, 0, 0, 0⟩, ⟨.ldType, 4, 0, 72, 8⟩, ⟨.bbType, 2, 0, 0, 0⟩, ⟨.stType, 5, 0, 64, 8⟩, ⟨.enType, 0, 0, 0, 0⟩]
  getInstByID id := id
  getID _ := 2
  trace_ne_nil := by decide
  length_lt := by decide
  ends := ⟨⟨.enType, 0, 0, 0, 0⟩, by decide⟩

/-- The graph that has the load. -/
def cutGraph : PDG UInt32 := (PDG.empty.getVertexOrCreate (fun _ => ⟨4, 2⟩) 0).2

end Witcher.TraceScan
