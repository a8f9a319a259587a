import Witcher.Dict
import Witcher.Runtime

/-! The tools that write a file for every transaction of a trace (`TraceSplit.cpp`, `TraceSplitMT.cpp`). The calls of
`witcher_tx_begin` and `witcher_tx_end` are the marks; a call record has the number of its function in the file of the
traced functions, from 1 on. `TraceSplit` takes the whole trace for one thread, `TraceSplitMT` has a handler for every
thread. -/

namespace Witcher.TraceSplit

/-! ### The files of one thread -/

/-- The markers of a thread. `fdOutput` is the file that is open, under its number, and `files` are the closed ones. The
output directory is empty at the start. -/
structure TxOutput where
  insideTx : Bool
  txStartToSkip : Nat
  currTxIndex : Nat
  fdOutput : Option (Nat × List Entry)
  files : List (Nat × List Entry)

namespace TxOutput

def new : TxOutput := ⟨false, 0, 0, none, []⟩

/-- What is in the output directory. -/
def outputFiles (s : TxOutput) : List (Nat × List Entry) := s.files ++ s.fdOutput.toList

def write (s : TxOutput) (entry : Entry) : TxOutput :=
  { s with fdOutput := s.fdOutput.map fun file => (file.1, file.2 ++ [entry]) }

/-- `open` at the start of a transaction. The call and its return are skipped. -/
def txBegin (s : TxOutput) : TxOutput :=
  { s with insideTx := true, txStartToSkip := 2, fdOutput := some (s.currTxIndex, []) }

def close (s : TxOutput) : TxOutput :=
  { s with insideTx := false, currTxIndex := s.currTxIndex + 1, fdOutput := none, files := s.outputFiles }

/-- The record at the end of every file. -/
def endEntry : Entry := ⟨.enType, 0, 0, 0, 0⟩

def txEnd (s : TxOutput) : TxOutput := (s.write endEntry).close

end TxOutput

/-- The function of a call record. The number is an `unsigned`. -/
def funcName (names : List String) (entry : Entry) : Option String := names[(entry.length - 1).toUInt32.toNat]?

/-- `none` if an assertion fails, or if the number is not one of a traced function. -/
def processCallEntry (names : List String) (s : TxOutput) (entry : Entry) : Option TxOutput :=
  if entry.length = 0 then some s
  else (funcName names entry).bind fun name =>
    if name = "witcher_tx_begin" then if s.insideTx || s.fdOutput.isSome then none else some s.txBegin
    else if name = "witcher_tx_end" then if s.insideTx then some s.txEnd else none
    else some s

/-- The first part of the loop for an entry. -/
def callEntry (names : List String) (s : TxOutput) (entry : Entry) : Option TxOutput :=
  if entry.type = .clType then processCallEntry names s entry else some s

/-- The last part. -/
def TxOutput.writeInside (s : TxOutput) (entry : Entry) : TxOutput :=
  if s.insideTx then if s.txStartToSkip > 0 then { s with txStartToSkip := s.txStartToSkip - 1 } else s.write entry else s

/-- What both tools do with an entry that does not end the trace. -/
def splitEntry (names : List String) (s : TxOutput) (entry : Entry) : Option TxOutput :=
  (callEntry names s entry).map (·.writeInside entry)

/-! ### The tools -/

/-- The record that fills a file up. -/
def zeroEntry : Entry := ⟨.other 0, 0, 0, 0, 0⟩

/-- `run` of `TraceSplit`. -/
def run (names : List String) (s : TxOutput) : List Entry → Option TxOutput
  | [] => some s
  | entry :: rest => do
      let called ← callEntry names s entry
      if entry.type = .enType then some called
      else if entry = zeroEntry then some called
      else run names (called.writeInside entry) rest

structure ThreadHandler where
  tid : UInt64
  out : TxOutput

def ThreadHandler.accept (names : List String) (handler : ThreadHandler) (entry : Entry) : Option ThreadHandler :=
  if entry.tid ≠ handler.tid then none
  else (splitEntry names handler.out entry).map fun out => { handler with out }

/-- `run` of `TraceSplitMT`. -/
def runMT (names : List String) (threadMap : Dict UInt64 ThreadHandler) : List Entry → Option (Dict UInt64 ThreadHandler)
  | [] => some threadMap
  | entry :: rest =>
      if entry.type = .enType then some threadMap
      else do
        let handler ← ((threadMap.get? entry.tid).getD ⟨entry.tid, .new⟩).accept names entry
        runMT names (threadMap.set entry.tid handler) rest

/-- The state of a thread; one without a handler has the initial one. -/
def threadOutput (threadMap : Dict UInt64 ThreadHandler) (tid : UInt64) : TxOutput :=
  ((threadMap.get? tid).map ThreadHandler.out).getD .new

/-! ### Marks -/

/-- The call of a begin or an end. -/
def IsMark (names : List String) (entry : Entry) : Prop :=
  entry.type = .clType ∧ entry.length ≠ 0 ∧
    (funcName names entry = some "witcher_tx_begin" ∨ funcName names entry = some "witcher_tx_end")

instance (names : List String) (entry : Entry) : Decidable (IsMark names entry) := inferInstanceAs (Decidable (_ ∧ _))

/-- Every call is of a traced function or not traced. -/
def Traced (names : List String) (entry : Entry) : Prop := entry.type = .clType → entry.length ≠ 0 → funcName names entry ≠ none

instance (names : List String) (entry : Entry) : Decidable (Traced names entry) := inferInstanceAs (Decidable (_ → _ → _))

/-- Begin and end alternate, beginning with an end if `inside`. -/
def Alternating : Bool → List (Option String) → Prop
  | _, [] => True
  | inside, name :: rest => name = some (if inside then "witcher_tx_end" else "witcher_tx_begin") ∧ Alternating (!inside) rest

instance decidableAlternating : ∀ (inside : Bool) (marks : List (Option String)), Decidable (Alternating inside marks)
  | _, [] => .isTrue trivial
  | inside, _ :: rest => @instDecidableAnd _ _ inferInstance (decidableAlternating (!inside) rest)

/-- The functions of the marks in the order of the records. -/
def marks (names : List String) (records : List Entry) : List (Option String) :=
  (records.filter fun entry => IsMark names entry).map (funcName names)

theorem marks_cons (names : List String) (entry : Entry) (records : List Entry) :
    marks names (entry :: records) =
      if IsMark names entry then funcName names entry :: marks names records else marks names records := by
  rw [marks, List.filter_cons]
  simp only [decide_eq_true_eq]
  split_ifs <;> rfl

/-! ### A thread alone -/

/-- A file is open exactly inside of a transaction. -/
def TxOutput.Consistent (s : TxOutput) : Prop := s.insideTx = s.fdOutput.isSome

theorem TxOutput.writeInside_insideTx (s : TxOutput) (entry : Entry) : (s.writeInside entry).insideTx = s.insideTx := by
  unfold writeInside
  split_ifs <;> rfl

theorem TxOutput.Consistent.writeInside {s : TxOutput} (h : s.Consistent) (entry : Entry) :
    (s.writeInside entry).Consistent := by
  unfold TxOutput.writeInside
  split_ifs
  · exact h
  · rw [Consistent, write, Option.isSome_map]
    exact h
  · exact h

variable {names : List String} {s : TxOutput} {entry : Entry}

/-- A record that is no mark leaves the flag. -/
theorem splitEntry_of_not_isMark (htraced : Traced names entry) (hmark : ¬IsMark names entry) :
    splitEntry names s entry = some (s.writeInside entry) := by
  rw [splitEntry, callEntry]
  by_cases htype : entry.type = .clType
  · rw [if_pos htype, processCallEntry]
    by_cases hlength : entry.length = 0
    · rw [if_pos hlength, Option.map_some]
    · obtain ⟨name, hname⟩ := Option.ne_none_iff_exists'.mp (htraced htype hlength)
      have hbegin : name ≠ "witcher_tx_begin" := by
        rintro rfl
        exact hmark ⟨htype, hlength, .inl hname⟩
      have hend : name ≠ "witcher_tx_end" := by
        rintro rfl
        exact hmark ⟨htype, hlength, .inr hname⟩
      rw [if_neg hlength, hname, Option.bind_some, if_neg hbegin, if_neg hend, Option.map_some]
  · rw [if_neg htype, Option.map_some]

theorem splitEntry_begin (hmark : IsMark names entry) (hname : funcName names entry = some "witcher_tx_begin")
    (hs : s.Consistent) (hinside : s.insideTx = false) : splitEntry names s entry = some (s.txBegin.writeInside entry) := by
  obtain ⟨htype, hlength, -⟩ := hmark
  rw [splitEntry, callEntry, if_pos htype, processCallEntry, if_neg hlength, hname, Option.bind_some, if_pos rfl, ← hs,
    hinside, if_neg (by decide), Option.map_some]

theorem splitEntry_end (hmark : IsMark names entry) (hname : funcName names entry = some "witcher_tx_end")
    (hinside : s.insideTx = true) : splitEntry names s entry = some (s.txEnd.writeInside entry) := by
  obtain ⟨htype, hlength, -⟩ := hmark
  rw [splitEntry, callEntry, if_pos htype, processCallEntry, if_neg hlength, hname, Option.bind_some, if_neg (by decide),
    if_pos rfl, if_pos hinside, Option.map_some]

/-- No assertion fails for alternating marks. -/
theorem splitEntries_ok {records : List Entry} (htraced : ∀ e ∈ records, Traced names e)
    (halternating : Alternating s.insideTx (marks names records)) (hs : s.Consistent) :
    ∃ s', records.foldlM (splitEntry names) s = some s' := by
  induction records generalizing s with
  | nil => exact ⟨s, rfl⟩
  | cons entry records ih =>
      have htail := fun e he => htraced e (List.mem_cons_of_mem _ he)
      rw [List.foldlM_cons]
      by_cases hmark : IsMark names entry
      · rw [marks_cons, if_pos hmark, Alternating] at halternating
        obtain ⟨hname, hrest⟩ := halternating
        cases hinside : s.insideTx with
        | false =>
            rw [hinside, if_neg (by decide)] at hname
            rw [splitEntry_begin hmark hname hs hinside]
            refine ih htail ?_ (TxOutput.Consistent.writeInside (show s.txBegin.Consistent from rfl) entry)
            rw [TxOutput.writeInside_insideTx]
            rw [hinside] at hrest
            exact hrest
        | true =>
            rw [hinside, if_pos rfl] at hname
            rw [splitEntry_end hmark hname hinside]
            refine ih htail ?_ (TxOutput.Consistent.writeInside (show s.txEnd.Consistent from rfl) entry)
            rw [TxOutput.writeInside_insideTx]
            rw [hinside] at hrest
            exact hrest
      · rw [marks_cons, if_neg hmark] at halternating
        rw [splitEntry_of_not_isMark (htraced entry (List.mem_cons_self ..)) hmark]
        refine ih htail ?_ (hs.writeInside entry)
        rw [TxOutput.writeInside_insideTx]
        exact halternating

/-- The entry does not end the trace for either tool. -/
def Inner (entry : Entry) : Prop := entry.type ≠ .enType ∧ entry ≠ zeroEntry

instance (entry : Entry) : Decidable (Inner entry) := inferInstanceAs (Decidable (_ ∧ _))

theorem run_append {front : List Entry} (hfront : ∀ e ∈ front, Inner e) (rest : List Entry) :
    run names s (front ++ rest) = (front.foldlM (splitEntry names) s).bind fun s' => run names s' rest := by
  induction front generalizing s with
  | nil => rfl
  | cons entry front ih =>
      obtain ⟨hend, hzero⟩ := hfront entry (List.mem_cons_self ..)
      have htail : ∀ t, run names t (front ++ rest) = (front.foldlM (splitEntry names) t).bind fun s' => run names s' rest :=
        fun t => ih fun e he => hfront e (List.mem_cons_of_mem _ he)
      rw [List.cons_append, run, List.foldlM_cons, splitEntry]
      cases callEntry names s entry with
      | none => rfl
      | some called =>
          change (if entry.type = .enType then some called else if entry = zeroEntry then some called
            else run names (called.writeInside entry) (front ++ rest)) = _
          rw [if_neg hend, if_neg hzero, htail]
          rfl

/-! ### All threads -/

/-- The records of a thread. -/
def ofThread (records : List Entry) (tid : UInt64) : List Entry := records.filter fun entry => entry.tid = tid

theorem ofThread_cons (entry : Entry) (records : List Entry) (tid : UInt64) :
    ofThread (entry :: records) tid = if entry.tid = tid then entry :: ofThread records tid else ofThread records tid := by
  rw [ofThread, List.filter_cons]
  simp only [decide_eq_true_eq]
  rfl

theorem threadOutput_set (threadMap : Dict UInt64 ThreadHandler) (tid tid' : UInt64) (handler : ThreadHandler) :
    threadOutput (threadMap.set tid handler) tid' = if tid' = tid then handler.out else threadOutput threadMap tid' := by
  rw [threadOutput, Dict.get?_set]
  split_ifs <;> rfl

/-- Every handler is under its thread. -/
def Keyed (threadMap : Dict UInt64 ThreadHandler) : Prop := ∀ tid handler, threadMap.get? tid = some handler → handler.tid = tid

theorem keyed_empty : Keyed .empty := by
  intro tid handler hget
  rw [Dict.get?_empty] at hget
  cases hget

/-- If every thread's records alone can be split, so can the trace, and a record of another thread leaves a thread's
output. -/
theorem runMT_eq {records : List Entry} (hinner : ∀ e ∈ records, Inner e) {threadMap : Dict UInt64 ThreadHandler}
    (hkeyed : Keyed threadMap) {out : UInt64 → TxOutput}
    (hout : ∀ tid, (ofThread records tid).foldlM (splitEntry names) (threadOutput threadMap tid) = some (out tid))
    {stop : Entry} (hstop : stop.type = .enType) (rest : List Entry) :
    ∃ threadMap', runMT names threadMap (records ++ stop :: rest) = some threadMap' ∧
      ∀ tid, threadOutput threadMap' tid = out tid := by
  induction records generalizing threadMap with
  | nil =>
      refine ⟨threadMap, by rw [List.nil_append, runMT, if_pos hstop], fun tid => ?_⟩
      exact Option.some_inj.mp (hout tid)
  | cons entry records ih =>
      have hown := hout entry.tid
      rw [ofThread_cons, if_pos rfl, List.foldlM_cons] at hown
      obtain ⟨called, hsplit, -⟩ := Option.bind_eq_some_iff.mp hown
      let handler : ThreadHandler := ⟨entry.tid, called⟩
      have haccept : ((threadMap.get? entry.tid).getD ⟨entry.tid, .new⟩).accept names entry = some handler := by
        have htid : ((threadMap.get? entry.tid).getD ⟨entry.tid, .new⟩).tid = entry.tid := by
          cases hget : threadMap.get? entry.tid with
          | none => rfl
          | some old => exact hkeyed _ _ hget
        have hold : ((threadMap.get? entry.tid).getD ⟨entry.tid, .new⟩).out = threadOutput threadMap entry.tid := by
          rw [threadOutput]
          cases threadMap.get? entry.tid <;> rfl
        rw [ThreadHandler.accept, htid, if_neg (not_not_intro rfl), hold, hsplit, Option.map_some]
      have hstep : runMT names threadMap (entry :: records ++ stop :: rest) =
          runMT names (threadMap.set entry.tid handler) (records ++ stop :: rest) := by
        rw [List.cons_append, runMT, if_neg (hinner entry (List.mem_cons_self ..)).1, haccept]
        rfl
      rw [hstep]
      refine ih (fun e he => hinner e (List.mem_cons_of_mem _ he)) ?_ fun tid => ?_
      · intro tid handler' hget
        rw [Dict.get?_set] at hget
        split_ifs at hget with heq
        · rw [← Option.some_inj.mp hget, heq]
        · exact hkeyed tid handler' hget
      · rw [threadOutput_set]
        have htid := hout tid
        rw [ofThread_cons] at htid
        by_cases heq : entry.tid = tid
        · subst heq
          rw [if_pos rfl, List.foldlM_cons, hsplit] at htid
          rw [if_pos rfl]
          exact htid
        · rw [if_neg heq] at htid
          rw [if_neg fun h => heq h.symm]
          exact htid

/-- The records before the end of a trace in which the marks of every thread alternate. -/
structure WellMarked (names : List String) (records : List Entry) : Prop where
  inner : ∀ e ∈ records, Inner e
  traced : ∀ e ∈ records, Traced names e
  alternating : ∀ tid, Alternating false (marks names (ofThread records tid))

/-- Only the threads of the records have marks. -/
theorem wellMarked_iff {records : List Entry} : WellMarked names records ↔ (∀ e ∈ records, Inner e) ∧
    (∀ e ∈ records, Traced names e) ∧
    ∀ e ∈ records, Alternating false (marks names (ofThread records e.tid)) := by
  constructor
  · intro h
    exact ⟨h.inner, h.traced, fun e _ => h.alternating e.tid⟩
  · rintro ⟨hinner, htraced, halternating⟩
    refine ⟨hinner, htraced, fun tid => ?_⟩
    by_cases hmem : ∃ e ∈ records, e.tid = tid
    · obtain ⟨e, he, rfl⟩ := hmem
      exact halternating e he
    · have hnil : ofThread records tid = [] := by
        rw [ofThread, List.filter_eq_nil_iff]
        intro e he htid
        exact hmem ⟨e, he, of_decide_eq_true htid⟩
      rw [hnil]
      trivial

instance (names : List String) (records : List Entry) : Decidable (WellMarked names records) :=
  decidable_of_iff _ wellMarked_iff.symm

/-- The run of a thread's records alone. -/
theorem WellMarked.ofThread_ok {records : List Entry} (h : WellMarked names records) (tid : UInt64) :
    ∃ out, (ofThread records tid).foldlM (splitEntry names) .new = some out :=
  splitEntries_ok (fun e he => h.traced e (List.mem_of_mem_filter he)) (h.alternating tid) rfl

theorem WellMarked.runMT_ok {records : List Entry} (h : WellMarked names records) {stop : Entry} (hstop : stop.type = .enType) :
    ∃ threadMap, runMT names .empty (records ++ [stop]) = some threadMap ∧
      ∀ tid, (ofThread records tid).foldlM (splitEntry names) .new = some (threadOutput threadMap tid) := by
  choose out hout using h.ofThread_ok
  obtain ⟨threadMap, hrun, hthreads⟩ := runMT_eq h.inner keyed_empty hout hstop []
  exact ⟨threadMap, hrun, fun tid => by rw [hthreads, hout]⟩

/-- The files of a thread are those of its records alone; so the other threads' records and the order in which they come
do not matter. -/
theorem runMT_ofThread (names : List String) (records : List Entry) (stop : Entry) (hmarked : WellMarked names records)
    (hstop : stop.type = .enType) :
    ∃ threadMap, runMT names .empty (records ++ [stop]) = some threadMap ∧ ∀ tid,
      (run names .new (ofThread records tid ++ [stop])).map TxOutput.outputFiles =
        some (threadOutput threadMap tid).outputFiles ∧
      ∀ records' threadMap', WellMarked names records' → ofThread records' tid = ofThread records tid →
        runMT names .empty (records' ++ [stop]) = some threadMap' →
          (threadOutput threadMap' tid).outputFiles = (threadOutput threadMap tid).outputFiles := by
  obtain ⟨threadMap, hrun, hthreads⟩ := hmarked.runMT_ok hstop
  refine ⟨threadMap, hrun, fun tid => ⟨?_, ?_⟩⟩
  · have hinner : ∀ e ∈ ofThread records tid, Inner e := fun e he => hmarked.inner e (List.mem_of_mem_filter he)
    have hcall : callEntry names (threadOutput threadMap tid) stop = some (threadOutput threadMap tid) := by
      rw [callEntry, hstop, if_neg (by decide)]
    rw [run_append hinner, hthreads, Option.bind_some, run, hcall]
    change ((if stop.type = .enType then some (threadOutput threadMap tid) else _) : Option TxOutput).map _ = _
    rw [if_pos hstop, Option.map_some]
  · intro records' threadMap' hmarked' hsame hrun'
    obtain ⟨threadMap'', hrun'', hthreads''⟩ := hmarked'.runMT_ok hstop
    rw [hrun', Option.some_inj] at hrun''
    have hout := hthreads'' tid
    rw [hsame, hthreads, ← hrun'', Option.some_inj] at hout
    rw [hout]

/-- Two threads whose transactions overlap. -/
def overlapping : List Entry :=
  [⟨.clType, 7, 1, 16, 1⟩, ⟨.clType, 7, 2, 16, 1⟩, ⟨.rtType, 7, 1, 16, 0⟩, ⟨.stType, 8, 1, 64, 8⟩, ⟨.rtType, 7, 2, 16, 0⟩,
    ⟨.clType, 9, 1, 32, 2⟩, ⟨.stType, 8, 2, 72, 8⟩, ⟨.rtType, 9, 1, 32, 0⟩, ⟨.clType, 9, 2, 32, 2⟩, ⟨.rtType, 9, 2, 32, 0⟩]

theorem runMT_overlapping : WellMarked ["witcher_tx_begin", "witcher_tx_end"] overlapping ∧
    ∃ threadMap, runMT ["witcher_tx_begin", "witcher_tx_end"] .empty (overlapping ++ [TxOutput.endEntry]) = some threadMap ∧
      (run ["witcher_tx_begin", "witcher_tx_end"] .new (ofThread overlapping 2 ++ [TxOutput.endEntry])).map
          TxOutput.outputFiles = some (threadOutput threadMap 2).outputFiles := by
  have hmarked : WellMarked ["witcher_tx_begin", "witcher_tx_end"] overlapping := by decide +kernel
  obtain ⟨threadMap, hrun, hthreads⟩ := runMT_ofThread _ overlapping TxOutput.endEntry hmarked rfl
  exact ⟨hmarked, threadMap, hrun, (hthreads 2).1⟩

end Witcher.TraceSplit
