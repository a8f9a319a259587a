import Witcher.TraceScan

/-! The serial pass over a trace with many transactions (`WitcherPDG::generatePDGs`, `WitcherPPDG::generatePPDGs`).
One cursor goes backwards over the loads and stores, another one over the ranges of the transactions; a graph is
begun when the second one moves. -/

namespace Witcher.TraceScan

variable {ν : Type}

/-! ### The ranges that are left -/

/-- The ranges in the order of the list, which is rotated, and how many were not returned. -/
structure TXs where
  txSegment : List Range
  currTXs : Nat
  currTXs_le : currTXs ≤ txSegment.length

/-- All ranges, as `initTXSegment` leaves them. -/
def TXs.all (ranges : List Range) : TXs := ⟨ranges, ranges.length, Nat.le_refl _⟩

theorem TXs.ne_nil (s : TXs) (h : s.currTXs ≠ 0) : s.txSegment ≠ [] := by
  intro hnil
  have hle := s.currTXs_le
  rw [hnil, List.length_nil] at hle
  omega

/-- `[0, 0]` means that all ranges have been returned. -/
def TXs.getNextTXRange (s : TXs) : Range × TXs :=
  if h : s.currTXs = 0 then (⟨0, 0⟩, s)
  else (s.txSegment.getLast (s.ne_nil h), ⟨s.txSegment.getLast (s.ne_nil h) :: s.txSegment.dropLast, s.currTXs - 1, by
    have hpos := List.length_pos_iff.mpr (s.ne_nil h)
    have hle := s.currTXs_le
    rw [List.length_cons, List.length_dropLast]
    omega⟩)

/-- `remaining` are the first ranges; the others are in front of them in the list. -/
structure TXs.Left (s : TXs) (remaining returned : List Range) : Prop where
  segment : s.txSegment = returned ++ remaining
  count : s.currTXs = remaining.length

theorem TXs.Left.next_nil {s : TXs} {returned : List Range} (h : s.Left [] returned) : s.getNextTXRange = (⟨0, 0⟩, s) := by
  have hcount : s.currTXs = 0 := h.count
  rw [getNextTXRange, dif_pos hcount]

theorem TXs.Left.next_concat {s : TXs} {remaining returned : List Range} {r : Range} (h : s.Left (remaining ++ [r]) returned) :
    ∃ s', s.getNextTXRange = (r, s') ∧ s'.Left remaining (r :: returned) := by
  have hcount := h.count
  rw [List.length_append, List.length_singleton] at hcount
  have hlast : ∀ hne, s.txSegment.getLast hne = r := by
    rw [h.segment, ← List.append_assoc]
    exact fun hne => List.getLast_concat
  have hdrop : s.txSegment.dropLast = returned ++ remaining := by
    rw [h.segment, ← List.append_assoc, List.dropLast_concat]
  rw [getNextTXRange, dif_neg (by omega)]
  refine ⟨_, Prod.ext (hlast _) rfl, ?_, ?_⟩
  · change _ :: s.txSegment.dropLast = _
    rw [hlast, hdrop, List.cons_append]
  · exact Nat.sub_eq_of_eq_add hcount

/-! ### The pass -/

/-- The state of `generatePDGs`. A graph is the list of the records whose values were sliced into it; `graphs` are the
ones behind the current one. -/
structure PDGState (ν : Type) where
  currLoadOrStore : Option (DynValue ν)
  currIndex : UInt64
  txs : TXs
  currRange : Range
  graph : List (Nat × DynValue ν)
  graphs : List (List (Nat × DynValue ν))

namespace Recording

/-- The loop up to the last load or store in the last range. -/
def skipToRange (T : Recording ν) (currRange : Range) : Nat → Option (DynValue ν) → UInt64 →
    Except Stop (Option (DynValue ν) × UInt64)
  | 0, _, _ => .error .outOfFuel
  | fuel + 1, currLoadOrStore, currIndex =>
      if currRange.isInRange (getIndexForTheLoadOrStore currIndex) then .ok (currLoadOrStore, currIndex)
      else do
        let (next, currIndex') ← T.getNextLoadOrStore currIndex
        T.skipToRange currRange fuel next currIndex'

/-- The next load or store. -/
def advance (T : Recording ν) (s : PDGState ν) : Except Stop (PDGState ν) := do
  let (next, currIndex') ← T.getNextLoadOrStore s.currIndex
  .ok { s with currLoadOrStore := next, currIndex := currIndex' }

/-- `slicing`, of which the first value is recorded: it is at its own block record, where `normalize` leaves it, and is
dropped if that is outside of the range. The values that it depends on move neither cursor. -/
def slicing (currRange : Range) (graph : List (Nat × DynValue ν)) (index : Nat) (initial : DynValue ν) :
    List (Nat × DynValue ν) :=
  if !currRange.isInRange (.ofNat initial.index) then graph else graph ++ [(index, initial)]

/-- One iteration of the loop; `false` if it was left. -/
def sliceStep (T : Recording ν) (s : PDGState ν) : Except Stop (PDGState ν × Bool) :=
  match s.currLoadOrStore with
  | none => .ok (s, false)
  | some val =>
      let index := getIndexForTheLoadOrStore s.currIndex
      if !s.currRange.isInRange index then
        if s.currRange.startLargerThan index then
          let (currRange, txs) := s.txs.getNextTXRange
          if !currRange.isValid then .ok ({ s with currRange, txs }, false)
          else .ok ({ s with currRange, txs, graph := [], graphs := s.graph :: s.graphs }, true)
        else do .ok (← T.advance s, true)
      else do .ok (← T.advance { s with graph := slicing s.currRange s.graph index.toNat val }, true)

def sliceLoop (T : Recording ν) : Nat → PDGState ν → Except Stop (PDGState ν)
  | 0, _ => .error .outOfFuel
  | fuel + 1, s => do
      let (s', again) ← T.sliceStep s
      if again then T.sliceLoop fuel s' else .ok s'

/-- The two loops; the graphs, and the list of ranges as the pass leaves it. -/
def slicePDGs (T : Recording ν) (fuel : Nat) (currRange : Range) (txs : TXs) (currLoadOrStore : Option (DynValue ν))
    (currIndex : UInt64) : Except Stop (List (List (Nat × DynValue ν)) × List Range) := do
  let (currLoadOrStore, currIndex) ← T.skipToRange currRange fuel currLoadOrStore currIndex
  let s ← T.sliceLoop fuel ⟨currLoadOrStore, currIndex, txs, currRange, [], []⟩
  .ok (s.graph :: s.graphs, s.txs.txSegment)

def generatePDGs (T : Recording ν) (ranges : List Range) (fuel : Nat) :
    Except Stop (List (List (Nat × DynValue ν)) × List Range) := do
  let (currRange, txs) := (TXs.all ranges).getNextTXRange
  let (currLoadOrStore, currIndex) ← T.getNextLoadOrStore T.lastIndex
  T.slicePDGs fuel currRange txs currLoadOrStore currIndex

end Recording

/-- The loop of `generatePPDGs`, which takes a graph and a range at a time; `none` if it reads behind the end of one
of the lists, or if its assertion fails. -/
def generatePPDGs : List (List (Nat × DynValue ν)) → List Range → Option (List (List (Nat × DynValue ν) × Range))
  | pdg :: pdgs, txRange :: txRanges =>
      if pdgs ≠ [] ∧ txRanges ≠ [] then (generatePPDGs pdgs txRanges).map ((pdg, txRange) :: ·)
      else if pdgs = [] ∧ txRanges = [] then some [(pdg, txRange)] else none
  | _, _ => none

/-! ### The first loop -/

/-- The record of the pair is inside the range. -/
def inRange (r : Range) (a : Nat × DynValue ν) : Bool := r.isInRange (.ofNat a.1)

/-- The block record of the value is inside the range, too. -/
def slicedInto (r : Range) (a : Nat × DynValue ν) : Bool := inRange r a && r.isInRange (.ofNat a.2.index)

namespace Recording

variable {T : Recording ν} {currLoadOrStore : Option (DynValue ν)} {currIndex : UInt64} {r : Range}
  {list : List (Nat × DynValue ν)}

theorem skipToRange_succ (fuel : Nat) (h : r.isInRange (getIndexForTheLoadOrStore currIndex) = false)
    {next : Option (DynValue ν)} {currIndex' : UInt64} (hnext : T.getNextLoadOrStore currIndex = .ok (next, currIndex')) :
    T.skipToRange r (fuel + 1) currLoadOrStore currIndex = T.skipToRange r fuel next currIndex' := by
  rw [skipToRange, h, if_neg (by decide), hnext]
  rfl

/-- The loop passes over records that are not in the range. It stops behind the first record only if that is in the
range. -/
theorem skipToRange_ok {fuel : Nat} (h : T.Holds currLoadOrStore currIndex list) {out : Option (DynValue ν) × UInt64}
    (hrun : T.skipToRange r fuel currLoadOrStore currIndex = .ok out) :
    ∃ skipped rest, list = skipped ++ rest ∧ (∀ a ∈ skipped, inRange r a = false) ∧ T.Holds out.1 out.2 rest ∧
      (∀ a ∈ rest.head?, inRange r a = true) ∧ (rest = [] → r.isInRange 0 = true) := by
  induction fuel generalizing currLoadOrStore currIndex list with
  | zero => cases hrun
  | succ fuel ih =>
      cases h with
      | nothing =>
          cases hzero : r.isInRange 0 with
          | true =>
              rw [skipToRange, show getIndexForTheLoadOrStore (0 - 1) = 0 from rfl, hzero, if_pos rfl] at hrun
              cases hrun
              exact ⟨[], [], rfl, fun a ha => (by cases ha), .nothing, fun a ha => (by cases ha), fun _ => rfl⟩
          | false =>
              rw [skipToRange, show getIndexForTheLoadOrStore (0 - 1) = 0 from rfl, hzero, if_neg (by decide),
                getNextLoadOrStore_wrapped] at hrun
              cases hrun
      | @found i d _ rest hat hindex hlt =>
          cases hin : r.isInRange (.ofNat i) with
          | true =>
              rw [skipToRange, hindex, hin, if_pos rfl] at hrun
              cases hrun
              refine ⟨[], (i, d) :: rest, rfl, fun a ha => (by cases ha), .found hat hindex hlt,
                ?_, fun hnil => (by cases hnil)⟩
              intro a ha
              rw [List.head?_cons, Option.mem_some_iff] at ha
              rw [← ha]
              exact hin
          | false =>
              obtain ⟨next, currIndex', hnext, hholds⟩ := hat.next
              rw [skipToRange_succ fuel (by rw [hindex]; exact hin) hnext] at hrun
              obtain ⟨skipped, rest', hlist, hskipped, hrest⟩ := ih hholds hrun
              refine ⟨(i, d) :: skipped, rest', by rw [hlist, List.cons_append], ?_, hrest⟩
              exact List.forall_mem_cons.mpr ⟨hin, hskipped⟩

theorem skipToRange_terminates {fuel : Nat} (h : T.Holds currLoadOrStore currIndex list) (hfuel : list.length < fuel)
    (hstop : (∃ a ∈ list, inRange r a = true) ∨ r.isInRange 0 = true) :
    ∃ out, T.skipToRange r fuel currLoadOrStore currIndex = .ok out := by
  induction fuel generalizing currLoadOrStore currIndex list with
  | zero => omega
  | succ fuel ih =>
      cases h with
      | nothing =>
          have hzero : r.isInRange 0 = true := hstop.resolve_left fun ⟨a, ha, _⟩ => (by cases ha)
          refine ⟨(none, 0 - 1), ?_⟩
          rw [skipToRange, show getIndexForTheLoadOrStore (0 - 1) = 0 from rfl, hzero, if_pos rfl]
      | @found i d _ rest hat hindex hlt =>
          cases hin : r.isInRange (.ofNat i) with
          | true => exact ⟨_, by rw [skipToRange, hindex, hin, if_pos rfl]⟩
          | false =>
              obtain ⟨next, currIndex', hnext, hholds⟩ := hat.next
              rw [skipToRange_succ fuel (by rw [hindex]; exact hin) hnext]
              refine ih hholds (Nat.lt_of_succ_lt_succ hfuel) (hstop.imp_left ?_)
              rintro ⟨a, ha, hina⟩
              rcases List.mem_cons.mp ha with rfl | ha
              · rw [inRange, hin] at hina
                cases hina
              · exact ⟨a, ha, hina⟩

end Recording

/-! ### The second loop -/

/-- Ranges in the order of the trace that do not overlap. -/
def Ascending (ranges : List Range) : Prop := ranges.Pairwise fun r r' => r.start < r'.start ∧ r.stop < r'.start

/-- The loop's invariant. `processed` are the records that were passed, `done` the ranges behind the current one and
`remaining` the ranges that were not returned. -/
structure Slicing (T : Recording ν) (ranges : List Range) (s : PDGState ν) (processed rest : List (Nat × DynValue ν))
    (remaining done : List Range) : Prop where
  accesses : T.accesses T.maxIndex = processed ++ rest
  holds : T.Holds s.currLoadOrStore s.currIndex rest
  ranges_eq : ranges = remaining ++ s.currRange :: done
  left : s.txs.Left remaining (s.currRange :: done)
  graph : s.graph = processed.filter (slicedInto s.currRange)
  graphs : s.graphs = done.map fun r => processed.filter (slicedInto r)
  above : ∀ a ∈ processed, s.currRange.start ≤ .ofNat a.1
  below : ∀ r ∈ done, ∀ a ∈ rest, UInt64.ofNat a.1 < r.start
  moved : ∀ r more, done = r :: more → s.currRange.isValid = true ∧ ∃ a ∈ T.accesses T.maxIndex, UInt64.ofNat a.1 < r.start

/-- What the loop leaves: the graphs of the last ranges from `curr` on. Ranges remain only if no load or store is below
`curr`, or if the next one looks like the mark for the end. -/
structure Finished (T : Recording ν) (ranges : List Range) (s : PDGState ν) (remaining : List Range) (curr : Range)
    (done : List Range) : Prop where
  ranges_eq : ranges = remaining ++ curr :: done
  graphs : s.graph :: s.graphs = (curr :: done).map fun r => (T.accesses T.maxIndex).filter (slicedInto r)
  segment : remaining = [] → s.txs.txSegment = ranges
  stopped : remaining = [] ∨ (∀ a ∈ T.accesses T.maxIndex, curr.start ≤ .ofNat a.1) ∨
    ∃ front r, remaining = front ++ [r] ∧ r.isValid = false
  moved : ∀ r more, done = r :: more → curr.isValid = true ∧ ∃ a ∈ T.accesses T.maxIndex, UInt64.ofNat a.1 < r.start

theorem slicedInto_iff {r : Range} {a : Nat × DynValue ν} :
    slicedInto r a = true ↔ r.isInRange (.ofNat a.1) = true ∧ r.isInRange (.ofNat a.2.index) = true := by
  rw [slicedInto, inRange, Bool.and_eq_true]

theorem inRange_of_lt_start {r : Range} {a : Nat × DynValue ν} (h : UInt64.ofNat a.1 < r.start) : inRange r a = false := by
  rw [inRange, Bool.eq_false_iff, Ne, Range.isInRange_iff]
  intro hin
  exact absurd (UInt64.lt_of_lt_of_le h hin.1) (UInt64.lt_irrefl _)

theorem inRange_of_stop_lt {r : Range} {a : Nat × DynValue ν} (h : r.stop < UInt64.ofNat a.1) : inRange r a = false := by
  rw [inRange, Bool.eq_false_iff, Ne, Range.isInRange_iff]
  intro hin
  exact absurd (UInt64.lt_of_lt_of_le h hin.2) (UInt64.lt_irrefl _)

theorem filter_eq_nil {r : Range} {list : List (Nat × DynValue ν)} (h : ∀ a ∈ list, inRange r a = false) :
    list.filter (slicedInto r) = [] := by
  rw [List.filter_eq_nil_iff]
  intro a ha
  rw [slicedInto, h a ha, Bool.false_and]
  decide

namespace Slicing

variable {T : Recording ν} {ranges : List Range} {s : PDGState ν} {processed rest : List (Nat × DynValue ν)}
  {remaining done : List Range} {i : Nat} {d : DynValue ν}

/-- A record that is passed is in none of the graphs behind the current one. -/
theorem graphs_concat (h : Slicing T ranges s processed ((i, d) :: rest) remaining done) :
    s.graphs = done.map fun r => (processed ++ [(i, d)]).filter (slicedInto r) := by
  rw [h.graphs]
  refine List.map_congr_left fun r hr => ?_
  have hhead : [(i, d)].filter (slicedInto r) = [] := by
    refine filter_eq_nil fun a ha => ?_
    rw [List.mem_singleton.mp ha]
    exact inRange_of_lt_start (h.below r hr _ (List.mem_cons_self ..))
  rw [List.filter_append, hhead, List.append_nil]

/-- The records that are left are not behind the head. -/
theorem le_head (h : Slicing T ranges s processed ((i, d) :: rest) remaining done) {a : Nat × DynValue ν}
    (ha : a ∈ (i, d) :: rest) : UInt64.ofNat a.1 ≤ .ofNat i := by
  have hdesc := T.accesses_descending T.maxIndex
  rw [h.accesses] at hdesc
  have hhead := (List.pairwise_cons.mp (List.pairwise_append.mp hdesc).2.1).1
  obtain ⟨-, -, -, hlt⟩ := h.holds.of_cons
  have hle : a.1 ≤ i := by
    rcases List.mem_cons.mp ha with rfl | ha
    · exact Nat.le_refl _
    · exact Nat.le_of_lt (hhead a ha)
  rw [UInt64.le_iff_toNat_le, UInt64.toNat_ofNat', UInt64.toNat_ofNat', Nat.mod_eq_of_lt hlt, Nat.mod_eq_of_lt (by omega)]
  exact hle

/-- The head is passed, whether it was sliced or not. -/
theorem pass (h : Slicing T ranges s processed ((i, d) :: rest) remaining done) (hstart : s.currRange.start ≤ .ofNat i)
    {next : Option (DynValue ν)} {currIndex : UInt64} (hholds : T.Holds next currIndex rest) {graph : List (Nat × DynValue ν)}
    (hgraph : graph = (processed ++ [(i, d)]).filter (slicedInto s.currRange)) :
    Slicing T ranges { s with currLoadOrStore := next, currIndex, graph } (processed ++ [(i, d)]) rest remaining done where
  accesses := by rw [h.accesses, List.append_assoc, List.singleton_append]
  holds := hholds
  ranges_eq := h.ranges_eq
  left := h.left
  graph := hgraph
  graphs := h.graphs_concat
  above := by
    intro a ha
    rcases List.mem_append.mp ha with ha | ha
    · exact h.above a ha
    · rw [List.mem_singleton.mp ha]
      exact hstart
  below := fun r hr a ha => h.below r hr a (List.mem_cons_of_mem _ ha)
  moved := h.moved

/-- The range before the current one becomes the current one. -/
theorem move {r : Range} (hasc : Ascending ranges) (h : Slicing T ranges s processed ((i, d) :: rest) (remaining ++ [r]) done)
    (hstart : UInt64.ofNat i < s.currRange.start) (hvalid : r.isValid = true) {txs : TXs}
    (hleft : txs.Left remaining (r :: s.currRange :: done)) :
    Slicing T ranges { s with currRange := r, txs, graph := [], graphs := s.graph :: s.graphs } processed ((i, d) :: rest)
      remaining (s.currRange :: done) := by
  have hranges := h.ranges_eq
  rw [List.append_assoc, List.singleton_append] at hranges
  have hbefore : r.start < s.currRange.start ∧ r.stop < s.currRange.start := by
    rw [Ascending, hranges] at hasc
    exact (List.pairwise_cons.mp (List.pairwise_append.mp hasc).2.1).1 _ (List.mem_cons_self ..)
  exact {
    accesses := h.accesses
    holds := h.holds
    ranges_eq := hranges
    left := hleft
    graph := (filter_eq_nil fun a ha => inRange_of_stop_lt (UInt64.lt_of_lt_of_le hbefore.2 (h.above a ha))).symm
    graphs := by
      rw [List.map_cons, ← h.graph, ← h.graphs]
    above := fun a ha => UInt64.le_of_lt (UInt64.lt_of_lt_of_le hbefore.1 (h.above a ha))
    below := by
      intro r' hr' a ha
      rcases List.mem_cons.mp hr' with rfl | hr'
      · exact UInt64.lt_of_le_of_lt (h.le_head ha) hstart
      · exact h.below r' hr' a ha
    moved := by
      intro r' more hdone
      cases hdone
      refine ⟨hvalid, (i, d), ?_, hstart⟩
      rw [h.accesses]
      exact List.mem_append_right _ (List.mem_cons_self ..) }

/-- No load or store is left. -/
theorem finish (h : Slicing T ranges s processed [] remaining done) : Finished T ranges s remaining s.currRange done := by
  have haccesses := h.accesses
  rw [List.append_nil] at haccesses
  exact {
    ranges_eq := h.ranges_eq
    graphs := by rw [haccesses, List.map_cons, h.graph, h.graphs]
    segment := by
      rintro rfl
      rw [h.left.segment, h.ranges_eq, List.append_nil, List.nil_append]
    stopped := .inr (.inl (by rw [haccesses]; exact h.above))
    moved := h.moved }

/-- The loop is left at a record before the current range. -/
theorem leave (h : Slicing T ranges s processed ((i, d) :: rest) remaining done) (hstart : UInt64.ofNat i < s.currRange.start)
    (currRange : Range) {txs : TXs} (hsegment : remaining = [] → txs.txSegment = s.currRange :: done)
    (hstopped : remaining = [] ∨ ∃ front r, remaining = front ++ [r] ∧ r.isValid = false) :
    Finished T ranges { s with currRange, txs } remaining s.currRange done := by
  have hgraphs : ∀ r ∈ s.currRange :: done,
      processed.filter (slicedInto r) = (T.accesses T.maxIndex).filter (slicedInto r) := by
    intro r hr
    have hrest : ((i, d) :: rest).filter (slicedInto r) = [] := by
      refine filter_eq_nil fun a ha => ?_
      rcases List.mem_cons.mp hr with rfl | hr
      · exact inRange_of_lt_start (UInt64.lt_of_le_of_lt (h.le_head ha) hstart)
      · exact inRange_of_lt_start (h.below r hr a ha)
    rw [h.accesses, List.filter_append, hrest, List.append_nil]
  exact {
    ranges_eq := h.ranges_eq
    graphs := by
      rw [← List.map_congr_left hgraphs, List.map_cons, ← h.graph, ← h.graphs]
    segment := by
      rintro rfl
      rw [h.ranges_eq, List.nil_append]
      exact hsegment rfl
    stopped := hstopped.imp_right .inr
    moved := h.moved }

/-- An iteration passes a record or takes the range before the current one, or the loop is left. -/
theorem step (hasc : Ascending ranges) (h : Slicing T ranges s processed rest remaining done) :
    (∃ s' remaining' curr done', T.sliceStep s = .ok (s', false) ∧ Finished T ranges s' remaining' curr done') ∨
    ∃ s' processed' rest' remaining' done', T.sliceStep s = .ok (s', true) ∧
      Slicing T ranges s' processed' rest' remaining' done' ∧
      rest'.length + remaining'.length < rest.length + remaining.length := by
  cases rest with
  | nil =>
      refine .inl ⟨s, remaining, s.currRange, done, ?_, h.finish⟩
      rw [Recording.sliceStep, h.holds.of_nil]
  | cons a rest =>
      obtain ⟨i, d⟩ := a
      obtain ⟨hval, hat, hindex, hlt⟩ := h.holds.of_cons
      obtain ⟨next, currIndex', hnext, hholds⟩ := hat.next
      have hstep : T.sliceStep s =
          if !s.currRange.isInRange (.ofNat i) then
            if s.currRange.startLargerThan (.ofNat i) then
              if !s.txs.getNextTXRange.1.isValid then
                .ok ({ s with currRange := s.txs.getNextTXRange.1, txs := s.txs.getNextTXRange.2 }, false)
              else .ok ({ s with currRange := s.txs.getNextTXRange.1, txs := s.txs.getNextTXRange.2, graph := [],
                                 graphs := s.graph :: s.graphs }, true)
            else .ok ({ s with currLoadOrStore := next, currIndex := currIndex' }, true)
          else .ok ({ s with currLoadOrStore := next, currIndex := currIndex',
                             graph := Recording.slicing s.currRange s.graph i d }, true) := by
        rw [Recording.sliceStep, hval]
        simp only [hindex, Recording.advance, hnext, UInt64.toNat_ofNat', Nat.mod_eq_of_lt hlt]
        rfl
      cases hin : s.currRange.isInRange (.ofNat i) with
      | true =>
          rw [hin, Bool.not_true, if_neg (by decide)] at hstep
          refine .inr ⟨_, _, rest, remaining, done, hstep, h.pass ((Range.isInRange_iff _ _).mp hin).1 hholds ?_, ?_⟩
          · rw [List.filter_append, ← h.graph, List.filter_singleton, slicedInto, inRange, hin, Bool.true_and,
              Recording.slicing]
            cases s.currRange.isInRange (.ofNat d.index) with
            | true => rfl
            | false => exact (List.append_nil _).symm
          · rw [List.length_cons]
            omega
      | false =>
          rw [hin, Bool.not_false, if_pos rfl] at hstep
          by_cases hstart : UInt64.ofNat i < s.currRange.start
          · rw [if_pos ((Range.startLargerThan_iff _ _).mpr hstart)] at hstep
            rcases List.eq_nil_or_concat remaining with rfl | ⟨remaining, r, rfl⟩
            · rw [h.left.next_nil, if_pos (show (!(⟨0, 0⟩ : Range).isValid) = true by decide)] at hstep
              refine .inl ⟨_, [], s.currRange, done, hstep, h.leave hstart _ (fun _ => ?_) (.inl rfl)⟩
              rw [h.left.segment, List.append_nil]
            · rw [List.concat_eq_append] at h ⊢
              obtain ⟨txs, htxs, hleft⟩ := h.left.next_concat
              rw [htxs] at hstep
              cases hvalid : r.isValid with
              | true =>
                  rw [hvalid, Bool.not_true, if_neg (by decide)] at hstep
                  refine .inr ⟨_, _, _, remaining, _, hstep, h.move hasc hstart hvalid hleft, ?_⟩
                  rw [List.length_append, List.length_singleton]
                  omega
              | false =>
                  rw [hvalid, Bool.not_false, if_pos rfl] at hstep
                  refine .inl ⟨_, _, _, done, hstep, h.leave hstart _ (fun hnil => ?_) (.inr ⟨remaining, r, rfl, hvalid⟩)⟩
                  exact absurd hnil (List.append_ne_nil_of_right_ne_nil _ (List.cons_ne_nil r []))
          · rw [if_neg (by rwa [Range.startLargerThan_iff])] at hstep
            refine .inr ⟨_, _, rest, remaining, done, hstep, h.pass (UInt64.not_lt.mp hstart) hholds ?_, ?_⟩
            · rw [List.filter_append, ← h.graph, List.filter_singleton, slicedInto, inRange, hin, Bool.false_and, cond_false,
                List.append_nil]
            · rw [List.length_cons]
              omega

theorem run (hasc : Ascending ranges) {fuel : Nat} (h : Slicing T ranges s processed rest remaining done) {s' : PDGState ν}
    (hrun : T.sliceLoop fuel s = .ok s') : ∃ remaining' curr done', Finished T ranges s' remaining' curr done' := by
  induction fuel generalizing s processed rest remaining done with
  | zero => cases hrun
  | succ fuel ih =>
      rcases h.step hasc with
        ⟨t, remaining', curr, done', hstep, hfinished⟩ | ⟨t, processed', rest', remaining', done', hstep, hslicing, -⟩
      · rw [Recording.sliceLoop, hstep] at hrun
        cases hrun
        exact ⟨remaining', curr, done', hfinished⟩
      · rw [Recording.sliceLoop, hstep] at hrun
        exact ih hslicing hrun

theorem terminates (hasc : Ascending ranges) {fuel : Nat} (h : Slicing T ranges s processed rest remaining done)
    (hfuel : rest.length + remaining.length < fuel) : ∃ s', T.sliceLoop fuel s = .ok s' := by
  induction fuel generalizing s processed rest remaining done with
  | zero => omega
  | succ fuel ih =>
      rcases h.step hasc with
        ⟨t, remaining', curr, done', hstep, -⟩ | ⟨t, processed', rest', remaining', done', hstep, hslicing, hless⟩
      · exact ⟨t, by rw [Recording.sliceLoop, hstep]; rfl⟩
      · rw [Recording.sliceLoop, hstep]
        exact ih hslicing (by omega)

end Slicing

/-! ### Attribution -/

/-- The ranges of the transactions. -/
structure RangeList where
  ranges : List Range
  ne_nil : ranges ≠ []
  ascending : Ascending ranges

/-- A graph for every range, in their order; a load or store with a value is sliced into the graph of its range and
into no other. -/
structure Attributed (T : Recording ν) (ranges : List Range) (graphs : List (List (Nat × DynValue ν))) : Prop where
  length : graphs.length = ranges.length
  own : ∀ (k : Nat) (r : Range) (graph : List (Nat × DynValue ν)) (i : Nat) (d : DynValue ν), ranges[k]? = some r →
    graphs[k]? = some graph → T.valueAt i = some d → r.isInRange (.ofNat i) = true → (i, d) ∈ graph
  others : ∀ (k k' : Nat) (r : Range) (graph : List (Nat × DynValue ν)) (i : Nat) (d : DynValue ν),
    k' ≠ k → ranges[k]? = some r →
    graphs[k']? = some graph → T.valueAt i = some d → r.isInRange (.ofNat i) = true → (i, d) ∉ graph

/-- A load or store after record 0 with a value is in the last range, or the last range begins at 0; one is below the
second range, and the first is not the mark for the end; record 0 is not a load or store of the first; and the block
of a load or store closes inside of its range. -/
structure Reached (T : Recording ν) (L : RangeList) : Prop where
  last : (∃ i d, 0 < i ∧ T.valueAt i = some d ∧ (L.ranges.getLast L.ne_nil).isInRange (.ofNat i) = true) ∨
    (L.ranges.getLast L.ne_nil).isInRange 0 = true
  first : ∀ r r' more, L.ranges = r :: r' :: more →
    r.isValid = true ∧ ∃ i d, 0 < i ∧ T.valueAt i = some d ∧ UInt64.ofNat i < r'.start
  zero : ∀ d r, T.valueAt 0 = some d → r ∈ L.ranges → r.isInRange 0 = false
  closes : ∀ i d r, T.valueAt i = some d → r ∈ L.ranges → r.isInRange (.ofNat i) = true → r.isInRange (.ofNat d.index) = true

section Attribution

variable {T : Recording ν} {L : RangeList} {fuel : Nat}

theorem generatePPDGs_eq {graphs : List (List (Nat × DynValue ν))} {ranges : List Range}
    (hlength : graphs.length = ranges.length) (hne : ranges ≠ []) : generatePPDGs graphs ranges = some (graphs.zip ranges) := by
  induction ranges generalizing graphs with
  | nil => exact absurd rfl hne
  | cons r ranges ih =>
      cases graphs with
      | nil => cases hlength
      | cons graph graphs =>
          rw [List.length_cons, List.length_cons, Nat.succ_inj] at hlength
          rw [generatePPDGs]
          cases ranges with
          | nil =>
              rw [List.length_nil, List.length_eq_zero_iff] at hlength
              subst hlength
              rfl
          | cons r' ranges =>
              have hgraphs : graphs ≠ [] := by
                rintro rfl
                cases hlength
              rw [if_pos ⟨hgraphs, List.cons_ne_nil _ _⟩, ih hlength (List.cons_ne_nil _ _)]
              rfl

/-- The first loop leaves the invariant of the second one. -/
theorem slicing_of_skipped {front : List Range} {r : Range} (hranges : L.ranges = front ++ [r]) {txs : TXs}
    (hleft : txs.Left front [r]) {skipped rest : List (Nat × DynValue ν)} (haccesses : T.accesses T.maxIndex = skipped ++ rest)
    (hskipped : ∀ a ∈ skipped, inRange r a = false) {currLoadOrStore : Option (DynValue ν)} {currIndex : UInt64}
    (hholds : T.Holds currLoadOrStore currIndex rest) (hhead : ∀ a ∈ rest.head?, inRange r a = true)
    (hzero : rest = [] → r.isInRange 0 = true) :
    Slicing T L.ranges ⟨currLoadOrStore, currIndex, txs, r, [], []⟩ skipped rest front [] where
  accesses := haccesses
  holds := hholds
  ranges_eq := hranges
  left := hleft
  graph := (filter_eq_nil hskipped).symm
  graphs := rfl
  above := by
    intro a ha
    cases rest with
    | nil => exact UInt64.le_trans ((Range.isInRange_iff _ _).mp (hzero rfl)).1 UInt64.zero_le
    | cons b rest =>
        obtain ⟨-, -, -, hlt⟩ := hholds.of_cons
        have hdesc := T.accesses_descending T.maxIndex
        have hbound : a.1 < T.trace.length :=
          Recording.lt_of_valueAt (Recording.mem_accesses_maxIndex.mp (haccesses ▸ List.mem_append_left _ ha)).2
        have hlength := T.length_lt
        rw [haccesses] at hdesc
        have hba : b.1 < a.1 := (List.pairwise_append.mp hdesc).2.2 a ha b (List.mem_cons_self ..)
        have hstart := ((Range.isInRange_iff _ _).mp (hhead b (by rw [List.head?_cons, Option.mem_some_iff]))).1
        refine UInt64.le_trans hstart ?_
        rw [UInt64.le_iff_toNat_le, UInt64.toNat_ofNat', UInt64.toNat_ofNat', Nat.mod_eq_of_lt hlt, Nat.mod_eq_of_lt (by omega)]
        exact Nat.le_of_lt hba
  below := fun r hr => (by cases hr)
  moved := fun r more h => (by cases h)

/-- The last range is taken, then the two loops run. -/
theorem generatePDGs_start (T : Recording ν) (L : RangeList) :
    ∃ txs currLoadOrStore currIndex, txs.Left L.ranges.dropLast [L.ranges.getLast L.ne_nil] ∧
      T.Holds currLoadOrStore currIndex (T.accesses T.maxIndex) ∧
      ∀ fuel, T.generatePDGs L.ranges fuel = T.slicePDGs fuel (L.ranges.getLast L.ne_nil) txs currLoadOrStore currIndex := by
  have hleft : (TXs.all L.ranges).Left (L.ranges.dropLast ++ [L.ranges.getLast L.ne_nil]) [] := by
    rw [List.dropLast_append_getLast]
    exact ⟨rfl, rfl⟩
  obtain ⟨txs, htxs, hleft'⟩ := hleft.next_concat
  obtain ⟨currLoadOrStore, currIndex, hnext, hholds⟩ := T.at_lastIndex.next
  refine ⟨txs, currLoadOrStore, currIndex, hleft', hholds, fun fuel => ?_⟩
  rw [Recording.generatePDGs, htxs, hnext]
  rfl

/-- What a run that ends leaves. -/
theorem generatePDGs_ok {out : List (List (Nat × DynValue ν)) × List Range} (h : T.generatePDGs L.ranges fuel = .ok out) :
    ((∃ a ∈ T.accesses T.maxIndex, inRange (L.ranges.getLast L.ne_nil) a = true) ∨
      (L.ranges.getLast L.ne_nil).isInRange 0 = true) ∧
    ∃ s remaining curr done, Finished T L.ranges s remaining curr done ∧ out = (s.graph :: s.graphs, s.txs.txSegment) := by
  obtain ⟨txs, currLoadOrStore, currIndex, hleft, hholds, hrun⟩ := generatePDGs_start T L
  rw [hrun, Recording.slicePDGs] at h
  obtain ⟨mid, hskip, h⟩ := Loops.bind_ok h
  obtain ⟨s, hloop, h⟩ := Loops.bind_ok h
  cases h
  obtain ⟨skipped, rest, haccesses, hskipped, hrest, hhead, hzero⟩ := Recording.skipToRange_ok hholds hskip
  have hslicing := slicing_of_skipped (L.ranges.dropLast_append_getLast L.ne_nil).symm hleft haccesses hskipped
    hrest hhead hzero
  obtain ⟨remaining, curr, done, hfinished⟩ := hslicing.run L.ascending hloop
  refine ⟨?_, s, remaining, curr, done, hfinished, rfl⟩
  cases rest with
  | nil => exact .inr (hzero rfl)
  | cons a rest =>
      refine .inl ⟨a, ?_, hhead a (by rw [List.head?_cons, Option.mem_some_iff])⟩
      rw [haccesses]
      exact List.mem_append_right _ (List.mem_cons_self ..)

theorem generatePDGs_terminates (h : (∃ a ∈ T.accesses T.maxIndex, inRange (L.ranges.getLast L.ne_nil) a = true) ∨
    (L.ranges.getLast L.ne_nil).isInRange 0 = true) : ∃ fuel out, T.generatePDGs L.ranges fuel = .ok out := by
  obtain ⟨txs, currLoadOrStore, currIndex, hleft, hholds, hrun⟩ := generatePDGs_start T L
  let fuel := (T.accesses T.maxIndex).length + L.ranges.dropLast.length + 1
  have hfuel : (T.accesses T.maxIndex).length < fuel := by omega
  obtain ⟨mid, hskip⟩ := Recording.skipToRange_terminates hholds hfuel h
  obtain ⟨skipped, rest, haccesses, hskipped, hrest, hhead, hzero⟩ := Recording.skipToRange_ok hholds hskip
  have hslicing := slicing_of_skipped (L.ranges.dropLast_append_getLast L.ne_nil).symm hleft haccesses hskipped
    hrest hhead hzero
  have hlength := congrArg List.length haccesses
  rw [List.length_append] at hlength
  have hloopFuel : rest.length + L.ranges.dropLast.length < fuel := by omega
  obtain ⟨s, hloop⟩ := hslicing.terminates L.ascending hloopFuel
  refine ⟨fuel, (s.graph :: s.graphs, s.txs.txSegment), ?_⟩
  rw [hrun, Recording.slicePDGs, hskip]
  change (T.sliceLoop fuel ⟨mid.1, mid.2, txs, L.ranges.getLast L.ne_nil, [], []⟩ >>= _) = _
  rw [hloop]
  rfl

theorem RangeList.eq_of_isInRange (L : RangeList) {k k' : Nat} {r r' : Range} {index : UInt64} (hr : L.ranges[k]? = some r)
    (hr' : L.ranges[k']? = some r') (hin : r.isInRange index = true) (hin' : r'.isInRange index = true) : k = k' := by
  obtain ⟨hk, rfl⟩ := List.getElem?_eq_some_iff.mp hr
  obtain ⟨hk', rfl⟩ := List.getElem?_eq_some_iff.mp hr'
  have hasc := List.pairwise_iff_getElem.mp L.ascending
  rw [Range.isInRange_iff] at hin hin'
  rcases Nat.lt_trichotomy k k' with hlt | rfl | hlt
  · have hstop := (hasc k k' hk hk' hlt).2
    exact absurd (UInt64.lt_of_lt_of_le (UInt64.lt_of_le_of_lt hin.2 hstop) hin'.1) (UInt64.lt_irrefl _)
  · rfl
  · have hstop := (hasc k' k hk' hk hlt).2
    exact absurd (UInt64.lt_of_lt_of_le (UInt64.lt_of_le_of_lt hin'.2 hstop) hin.1) (UInt64.lt_irrefl _)

/-- Record 0 is in no graph. -/
theorem Finished.pos_of_mem {s : PDGState ν} {remaining done : List Range} {curr : Range}
    (h : Finished T L.ranges s remaining curr done) {graph : List (Nat × DynValue ν)} (hgraph : graph ∈ s.graph :: s.graphs)
    {i : Nat} {d : DynValue ν} (hmem : (i, d) ∈ graph) : 0 < i := by
  rw [h.graphs] at hgraph
  obtain ⟨r, -, rfl⟩ := List.mem_map.mp hgraph
  exact (Recording.mem_accesses_maxIndex.mp (List.mem_filter.mp hmem).1).1

/-- A run that gets to the first range makes the graphs. -/
theorem Finished.attributed {s : PDGState ν} {curr : Range} {done : List Range} (h : Finished T L.ranges s [] curr done)
    (hreached : Reached T L) : Attributed T L.ranges (s.graph :: s.graphs) := by
  have hgraphs : s.graph :: s.graphs = L.ranges.map fun r => (T.accesses T.maxIndex).filter (slicedInto r) := by
    rw [h.graphs, h.ranges_eq, List.nil_append]
  refine ⟨by rw [hgraphs, List.length_map], ?_, ?_⟩
  · intro k r graph i d hr hgraph hvalue hin
    rw [hgraphs, List.getElem?_map, hr, Option.map_some, Option.some_inj] at hgraph
    have hmem := List.mem_of_getElem? hr
    rw [← hgraph, List.mem_filter, Recording.mem_accesses_maxIndex, slicedInto_iff]
    refine ⟨⟨Nat.pos_of_ne_zero ?_, hvalue⟩, hin, hreached.closes i d r hvalue hmem hin⟩
    rintro rfl
    rw [show UInt64.ofNat 0 = 0 from rfl, hreached.zero d r hvalue hmem] at hin
    cases hin
  · intro k k' r graph i d hne hr hgraph hvalue hin hmem
    rw [hgraphs, List.getElem?_map] at hgraph
    obtain ⟨r', hr', rfl⟩ := Option.map_eq_some_iff.mp hgraph
    exact hne (L.eq_of_isInRange hr' hr (slicedInto_iff.mp (List.mem_filter.mp hmem).2).1 hin)

/-- Every range gets a graph if one load or store is below the second range. -/
theorem Finished.remaining_nil {s : PDGState ν} {remaining : List Range} {curr : Range} {done : List Range}
    (h : Finished T L.ranges s remaining curr done)
    (hfirst : ∀ r r' more, L.ranges = r :: r' :: more →
      r.isValid = true ∧ ∃ i d, 0 < i ∧ T.valueAt i = some d ∧ UInt64.ofNat i < r'.start) : remaining = [] := by
  rcases h.stopped with hnil | habove | ⟨front, r, hremaining, hvalid⟩
  · exact hnil
  · by_contra hne
    obtain ⟨r, more, hcons⟩ := List.exists_cons_of_ne_nil hne
    have hranges := h.ranges_eq
    rw [hcons, List.cons_append] at hranges
    obtain ⟨r', more', hrest⟩ :=
      List.exists_cons_of_ne_nil (List.append_ne_nil_of_right_ne_nil more (List.cons_ne_nil curr done))
    rw [hrest] at hranges
    obtain ⟨-, i, d, hpos, hvalue, hbelow⟩ := hfirst r r' more' hranges
    have hasc := L.ascending
    rw [Ascending, hranges] at hasc
    have hle : r'.start ≤ curr.start := by
      have hmem : curr ∈ r' :: more' := hrest ▸ List.mem_append_right _ (List.mem_cons_self ..)
      rcases List.mem_cons.mp hmem with rfl | hmem
      · exact UInt64.le_refl _
      · exact UInt64.le_of_lt ((List.pairwise_cons.mp (List.pairwise_cons.mp hasc).2).1 curr hmem).1
    have hcurr := habove (i, d) (Recording.mem_accesses_maxIndex.mpr ⟨hpos, hvalue⟩)
    exact absurd (UInt64.lt_of_lt_of_le hbelow (UInt64.le_trans hle hcurr)) (UInt64.lt_irrefl _)
  · exfalso
    have hranges := h.ranges_eq
    rw [hremaining, List.append_assoc, List.singleton_append] at hranges
    cases front with
    | nil =>
        obtain ⟨hfirst, -⟩ := hfirst r curr done hranges
        rw [hvalid] at hfirst
        cases hfirst
    | cons r₀ front =>
        -- A range behind the first one does not begin at 0.
        have hasc := L.ascending
        rw [Ascending, hranges, List.cons_append] at hasc
        have hlt := ((List.pairwise_cons.mp hasc).1 r (List.mem_append_right _ (List.mem_cons_self ..))).1
        rw [Range.isValid, Bool.not_eq_false', Bool.and_eq_true, beq_iff_eq] at hvalid
        rw [hvalid.1] at hlt
        exact UInt64.not_lt_zero hlt

end Attribution

/-- Two transactions; the last one has no load or store. -/
def emptyLast : Recording UInt32 where
  trace := [⟨.rtType, 0, 0, 0, 0⟩, ⟨.stType, 5, 0, 64, 8⟩, ⟨.bbType, 2, 0, 0, 0⟩, ⟨.rtType, 0, 0, 0, 0⟩, ⟨.bbType, 2, 0, 0, 0⟩,
    ⟨.rtType, 0, 0, 0, 0⟩, ⟨.enType, 0, 0, 0, 0⟩]
  getInstByID id := id
  getID _ := 2
  trace_ne_nil := by decide
  length_lt := by decide

def emptyLastRanges : RangeList where
  ranges := [⟨1, 2⟩, ⟨4, 5⟩]
  ne_nil := by decide
  ascending := by
    rw [Ascending]
    decide

end Witcher.TraceScan
