import Mathlib.Algebra.Group.Nat.Defs
import Witcher.TraceSplit

/-! The transactions of a trace for the serial pass (`TraceFile::initTXSegment`), which takes them as ranges of indices,
against the files that `TraceSplit` writes for the parallel one. -/

namespace Witcher.TraceSplit

/-! ### Ranges -/

/-- The loop of `initTXSegment` at an entry. The state is the start of the transaction, 0 outside, and the ranges; `none` if
the assertion fails. -/
def segmentEntry (index : Nat) (s : UInt64 × List Range) (entry : Entry) : Option (UInt64 × List Range) :=
  if entry.type ≠ .clType then some s
  else if entry.length = 0 then some s
  else if entry.length = 1 then some (.ofNat index + 3, s.2)
  else if entry.length = 2 then if s.1 = 0 then none else some (0, s.2 ++ [⟨s.1, .ofNat index - 1⟩])
  else some s

def segmentLoop : Nat → UInt64 × List Range → List Entry → Option (UInt64 × List Range)
  | _, s, [] => some s
  | index, s, entry :: rest => do segmentLoop (index + 1) (← segmentEntry index s entry) rest

def initTXSegment (trace : List Entry) : Option (List Range) := (segmentLoop 0 (0, []) trace).map Prod.snd

/-- The records at the indices of a range. -/
def recordsIn (trace : List Entry) (r : Range) : List Entry := (trace.take (r.stop.toNat + 1)).drop r.start.toNat

theorem segmentLoop_append (index : Nat) (s : UInt64 × List Range) (front rest : List Entry) :
    segmentLoop index s (front ++ rest) = (segmentLoop index s front).bind fun s' =>
      segmentLoop (index + front.length) s' rest := by
  induction front generalizing index s with
  | nil => rfl
  | cons entry front ih =>
      rw [List.cons_append, segmentLoop, segmentLoop, List.length_cons]
      cases segmentEntry index s entry with
      | none => rfl
      | some s' =>
          change segmentLoop (index + 1) s' (front ++ rest) = (segmentLoop (index + 1) s' front).bind _
          rw [ih]
          simp only [Nat.add_right_comm, Nat.add_assoc]

/-! ### Traces -/

/-- The traced functions: the marks come first. -/
def tracedNames (others : List String) : List String := "witcher_tx_begin" :: "witcher_tx_end" :: others

/-- A call of the function numbered `length`, with its return. -/
structure TracedCall (length : UInt64) where
  call : Entry
  ret : Entry
  call_type : call.type = .clType
  call_length : call.length = length
  ret_type : ret.type = .rtType
  ret_address : ret.address = call.address

/-- No call of a begin or an end. -/
def Unmarked (entry : Entry) : Prop := entry.type = .clType → entry.length ≠ 1 ∧ entry.length ≠ 2

/-- An entry inside of the trace; a call is not traced, or it is of one of the other functions. The tracer has the numbers
as `unsigned`. -/
structure Plain (others : List String) (entry : Entry) : Prop where
  inner : Inner entry
  unmarked : Unmarked entry
  traced : entry.type = .clType → entry.length.toNat ≤ others.length + 2 ∧ entry.length.toNat < 2 ^ 32

/-- A transaction and the records up to the next one. -/
structure Tx (others : List String) where
  start : TracedCall 1
  body : List Entry
  stop : TracedCall 2
  gap : List Entry
  body_plain : ∀ e ∈ body, Plain others e
  gap_plain : ∀ e ∈ gap, Plain others e

/-- A transaction that is not finished. -/
structure OpenTx (others : List String) where
  start : TracedCall 1
  body : List Entry
  body_plain : ∀ e ∈ body, Plain others e

variable {others : List String}

def Tx.records (tx : Tx others) : List Entry :=
  tx.start.call :: tx.start.ret :: (tx.body ++ tx.stop.call :: tx.stop.ret :: tx.gap)

def OpenTx.records (tx : OpenTx others) : List Entry := tx.start.call :: tx.start.ret :: tx.body

/-- A trace with alternating marks. At its end there is a record that ends it, and others if the file is filled up. -/
structure TxTrace (others : List String) where
  init : List Entry
  txs : List (Tx others)
  unfinished : Option (OpenTx others)
  tail : List Entry
  begin_not_mem : "witcher_tx_begin" ∉ others
  end_not_mem : "witcher_tx_end" ∉ others
  init_plain : ∀ e ∈ init, Plain others e
  tail_unmarked : ∀ e ∈ tail, Unmarked e
  tail_stops : ∀ e ∈ tail.head?, e.type = .enType ∨ e = zeroEntry
  length_lt : (init ++ (txs.flatMap Tx.records ++ (unfinished.elim [] OpenTx.records ++ tail))).length < 2 ^ 64

def TxTrace.records (T : TxTrace others) : List Entry :=
  T.init ++ (T.txs.flatMap Tx.records ++ (T.unfinished.elim [] OpenTx.records ++ T.tail))

theorem Tx.length_records (tx : Tx others) : tx.records.length = tx.body.length + tx.gap.length + 4 := by
  simp only [records, List.length_cons, List.length_append]
  omega

/-! ### The ranges of a trace -/

/-- The range of a transaction at index `n`. -/
def Tx.range (tx : Tx others) (n : Nat) : Range := ⟨.ofNat n + 3, .ofNat (n + 2 + tx.body.length) - 1⟩

def txRanges : Nat → List (Tx others) → List Range
  | _, [] => []
  | n, tx :: txs => tx.range n :: txRanges (n + tx.records.length) txs

theorem segmentEntry_unmarked {entry : Entry} (h : Unmarked entry) (index : Nat) (s : UInt64 × List Range) :
    segmentEntry index s entry = some s := by
  rw [segmentEntry]
  by_cases htype : entry.type = .clType
  · obtain ⟨hone, htwo⟩ := h htype
    rw [if_neg (not_not_intro htype), if_neg hone, if_neg htwo, ite_self]
  · rw [if_pos htype]

theorem segmentLoop_unmarked {entries : List Entry} (h : ∀ e ∈ entries, Unmarked e) (index : Nat) (s : UInt64 × List Range) :
    segmentLoop index s entries = some s := by
  induction entries generalizing index with
  | nil => rfl
  | cons entry entries ih =>
      rw [segmentLoop, segmentEntry_unmarked (h entry (List.mem_cons_self ..))]
      exact ih (fun e he => h e (List.mem_cons_of_mem _ he)) (index + 1)

theorem unmarked_ret {length : UInt64} (c : TracedCall length) : Unmarked c.ret := by
  intro h
  rw [c.ret_type] at h
  cases h

/-- A transaction adds its range. -/
theorem Tx.segmentLoop_records (tx : Tx others) (n : Nat) (hn : n + tx.records.length < 2 ^ 64) (s : UInt64 × List Range) :
    segmentLoop n s tx.records = some (0, s.2 ++ [tx.range n]) := by
  have hlength := tx.length_records
  have hbegin : segmentEntry n s tx.start.call = some (.ofNat n + 3, s.2) := by
    rw [segmentEntry, tx.start.call_type, tx.start.call_length]
    rfl
  have hnonzero : UInt64.ofNat n + 3 ≠ 0 := by
    rw [Ne, ← UInt64.toNat_inj, UInt64.toNat_add, UInt64.toNat_ofNat']
    change ¬(n % 2 ^ 64 + 3) % 2 ^ 64 = 0
    omega
  have hend : segmentEntry (n + 1 + 1 + tx.body.length) (.ofNat n + 3, s.2) tx.stop.call = some (0, s.2 ++ [tx.range n]) := by
    rw [segmentEntry, tx.stop.call_type, tx.stop.call_length]
    exact if_neg hnonzero
  rw [records, segmentLoop, hbegin]
  change segmentLoop (n + 1) (.ofNat n + 3, s.2) _ = _
  rw [segmentLoop, segmentEntry_unmarked (unmarked_ret tx.start)]
  change segmentLoop (n + 1 + 1) (.ofNat n + 3, s.2) _ = _
  rw [segmentLoop_append, segmentLoop_unmarked fun e he => (tx.body_plain e he).unmarked, Option.bind_some, segmentLoop, hend]
  change segmentLoop _ (0, s.2 ++ [tx.range n]) _ = _
  rw [segmentLoop, segmentEntry_unmarked (unmarked_ret tx.stop)]
  exact segmentLoop_unmarked (fun e he => (tx.gap_plain e he).unmarked) _ _

theorem segmentLoop_txs (txs : List (Tx others)) (n : Nat) (hn : n + (txs.flatMap Tx.records).length < 2 ^ 64)
    (s : UInt64 × List Range) (hs : s.1 = 0) :
    segmentLoop n s (txs.flatMap Tx.records) = some (0, s.2 ++ txRanges n txs) := by
  induction txs generalizing n s with
  | nil => rw [List.flatMap_nil, segmentLoop, txRanges, List.append_nil, ← hs]
  | cons tx txs ih =>
      rw [List.flatMap_cons, List.length_append] at hn
      rw [List.flatMap_cons, segmentLoop_append, tx.segmentLoop_records n (by omega), Option.bind_some,
        ih _ (by omega) _ rfl, txRanges, List.append_assoc, List.singleton_append]

theorem TxTrace.initTXSegment_eq (T : TxTrace others) : initTXSegment T.records = some (txRanges T.init.length T.txs) := by
  have hlength := T.length_lt
  simp only [List.length_append] at hlength
  rw [initTXSegment, records, segmentLoop_append, segmentLoop_unmarked fun e he => (T.init_plain e he).unmarked,
    Option.bind_some, segmentLoop_append, segmentLoop_txs _ _ (by omega) _ rfl, Option.bind_some, segmentLoop_append]
  have htail : ∀ (index : Nat) (s : UInt64 × List Range), segmentLoop index s T.tail = some s :=
    fun index s => segmentLoop_unmarked T.tail_unmarked index s
  cases T.unfinished with
  | none => rw [Option.elim_none, segmentLoop, Option.bind_some, htail, Option.map_some, List.nil_append, Nat.zero_add]
  | some tx =>
      have hopen : ∀ (index : Nat) (s : UInt64 × List Range), ∃ start, segmentLoop index s tx.records = some (start, s.2) := by
        intro index s
        refine ⟨.ofNat index + 3, ?_⟩
        have hbegin : segmentEntry index s tx.start.call = some (.ofNat index + 3, s.2) := by
          rw [segmentEntry, tx.start.call_type, tx.start.call_length]
          rfl
        rw [OpenTx.records, segmentLoop, hbegin]
        exact segmentLoop_unmarked
          (List.forall_mem_cons.mpr ⟨unmarked_ret tx.start, fun e he => (tx.body_plain e he).unmarked⟩) _ _
      obtain ⟨start, hstart⟩ := hopen (0 + T.init.length + (T.txs.flatMap Tx.records).length)
        (0, [] ++ txRanges (0 + T.init.length) T.txs)
      rw [Option.elim_some, hstart, Option.bind_some, htail, Option.map_some, List.nil_append, Nat.zero_add]

/-! ### The files of a trace -/

/-- Between two transactions. -/
def TxOutput.outside (k : Nat) (files : List (Nat × List Entry)) : TxOutput := ⟨false, 0, k, none, files⟩

/-- Inside of transaction `k`, behind the records of its begin. -/
def TxOutput.inside (k : Nat) (content : List Entry) (files : List (Nat × List Entry)) : TxOutput :=
  ⟨true, 0, k, some (k, content), files⟩

/-- The files of closed transactions, numbered from `k` on. -/
def txFiles : Nat → List (Tx others) → List (Nat × List Entry)
  | _, [] => []
  | k, tx :: txs => (k, tx.body ++ [TxOutput.endEntry]) :: txFiles (k + 1) txs

theorem funcName_eq (names : List String) {entry : Entry} (hlength : entry.length ≠ 0) (hlt : entry.length.toNat < 2 ^ 32) :
    funcName names entry = names[entry.length.toNat - 1]? := by
  have hpos : entry.length.toNat ≠ 0 := fun h => hlength (UInt64.toNat_inj.mp h)
  have hsub : (entry.length - 1).toNat = entry.length.toNat - 1 := by
    rw [UInt64.toNat_sub_of_le entry.length 1 (UInt64.le_iff_toNat_le.mpr (show 1 ≤ entry.length.toNat by omega))]
    rfl
  rw [funcName, UInt64.toNat_toUInt32, hsub, Nat.mod_eq_of_lt (by omega)]

theorem Plain.traced_names {entry : Entry} (h : Plain others entry) : Traced (tracedNames others) entry := by
  intro htype hlength
  obtain ⟨hle, hlt⟩ := h.traced htype
  have hpos : entry.length.toNat ≠ 0 := fun hzero => hlength (UInt64.toNat_inj.mp hzero)
  rw [funcName_eq _ hlength hlt, List.getElem?_eq_getElem (by simp only [tracedNames, List.length_cons]; omega)]
  exact Option.some_ne_none _

/-- The marks have the numbers 1 and 2. -/
theorem Plain.not_isMark {entry : Entry} (h : Plain others entry) (hbegin : "witcher_tx_begin" ∉ others)
    (hend : "witcher_tx_end" ∉ others) : ¬IsMark (tracedNames others) entry := by
  rintro ⟨htype, hlength, hname⟩
  obtain ⟨hle, hlt⟩ := h.traced htype
  obtain ⟨hone, htwo⟩ := h.unmarked htype
  have htoNat : ∀ n : UInt64, entry.length ≠ n → entry.length.toNat ≠ n.toNat := fun n hne heq => hne (UInt64.toNat_inj.mp heq)
  have hzero : entry.length.toNat ≠ 0 := htoNat 0 hlength
  have hone : entry.length.toNat ≠ 1 := htoNat 1 hone
  have htwo : entry.length.toNat ≠ 2 := htoNat 2 htwo
  obtain ⟨k, hk⟩ : ∃ k, entry.length.toNat - 1 = k + 2 := ⟨entry.length.toNat - 3, by omega⟩
  rw [funcName_eq _ hlength hlt, hk, tracedNames, List.getElem?_cons_succ, List.getElem?_cons_succ] at hname
  rcases hname with hname | hname
  · exact hbegin (List.mem_of_getElem? hname)
  · exact hend (List.mem_of_getElem? hname)

section Files

variable (hbegin : "witcher_tx_begin" ∉ others) (hend : "witcher_tx_end" ∉ others)

include hbegin hend

theorem Plain.splitEntry_eq {entry : Entry} (h : Plain others entry) (s : TxOutput) :
    splitEntry (tracedNames others) s entry = some (s.writeInside entry) :=
  splitEntry_of_not_isMark h.traced_names (h.not_isMark hbegin hend)

/-- Nothing is written outside of a transaction. -/
theorem splitEntries_outside {entries : List Entry} (h : ∀ e ∈ entries, Plain others e) {s : TxOutput}
    (hs : s.insideTx = false) :
    entries.foldlM (splitEntry (tracedNames others)) s = some s := by
  induction entries with
  | nil => rfl
  | cons entry entries ih =>
      have hwrite : s.writeInside entry = s := by
        rw [TxOutput.writeInside, hs]
        rfl
      rw [List.foldlM_cons, (h entry (List.mem_cons_self ..)).splitEntry_eq hbegin hend, hwrite]
      exact ih fun e he => h e (List.mem_cons_of_mem _ he)

/-- Inside of a transaction everything is. -/
theorem splitEntries_inside {entries : List Entry} (h : ∀ e ∈ entries, Plain others e) (k : Nat) (content : List Entry)
    (files : List (Nat × List Entry)) :
    entries.foldlM (splitEntry (tracedNames others)) (.inside k content files) =
      some (.inside k (content ++ entries) files) := by
  induction entries generalizing content with
  | nil => rw [List.append_nil]; rfl
  | cons entry entries ih =>
      rw [List.foldlM_cons, (h entry (List.mem_cons_self ..)).splitEntry_eq hbegin hend]
      refine (ih (fun e he => h e (List.mem_cons_of_mem _ he)) (content ++ [entry])).trans ?_
      rw [List.append_assoc, List.singleton_append]

omit hbegin hend

theorem TracedCall.isMark_begin (c : TracedCall 1) : IsMark (tracedNames others) c.call ∧
    funcName (tracedNames others) c.call = some "witcher_tx_begin" := by
  have hname : funcName (tracedNames others) c.call = some "witcher_tx_begin" := by
    rw [funcName, c.call_length]
    rfl
  exact ⟨⟨c.call_type, by rw [c.call_length]; decide, .inl hname⟩, hname⟩

theorem TracedCall.isMark_end (c : TracedCall 2) : IsMark (tracedNames others) c.call ∧
    funcName (tracedNames others) c.call = some "witcher_tx_end" := by
  have hname : funcName (tracedNames others) c.call = some "witcher_tx_end" := by
    rw [funcName, c.call_length]
    rfl
  exact ⟨⟨c.call_type, by rw [c.call_length]; decide, .inr hname⟩, hname⟩

theorem TracedCall.splitEntry_ret {length : UInt64} (c : TracedCall length) (s : TxOutput) :
    splitEntry (tracedNames others) s c.ret = some (s.writeInside c.ret) := by
  rw [splitEntry, callEntry, c.ret_type, if_neg (by decide), Option.map_some]

/-- A begin opens a file; its call and its return are not written. -/
theorem TracedCall.splitEntries_begin (c : TracedCall 1) (k : Nat) (files : List (Nat × List Entry)) (rest : List Entry) :
    (c.call :: c.ret :: rest).foldlM (splitEntry (tracedNames others)) (.outside k files) =
      rest.foldlM (splitEntry (tracedNames others)) (.inside k [] files) := by
  obtain ⟨hmark, hname⟩ : IsMark (tracedNames others) c.call ∧ _ := c.isMark_begin
  have hconsistent : (TxOutput.outside k files).Consistent := rfl
  rw [List.foldlM_cons, splitEntry_begin hmark hname hconsistent rfl]
  change (c.ret :: rest).foldlM (splitEntry (tracedNames others)) ⟨true, 1, k, some (k, []), files⟩ = _
  rw [List.foldlM_cons, c.splitEntry_ret]
  rfl

/-- An end closes the file; its return is not written. -/
theorem TracedCall.splitEntries_end (c : TracedCall 2) (k : Nat) (content : List Entry) (files : List (Nat × List Entry))
    (rest : List Entry) :
    (c.call :: c.ret :: rest).foldlM (splitEntry (tracedNames others)) (.inside k content files) =
      rest.foldlM (splitEntry (tracedNames others)) (.outside (k + 1) (files ++ [(k, content ++ [TxOutput.endEntry])])) := by
  obtain ⟨hmark, hname⟩ : IsMark (tracedNames others) c.call ∧ _ := c.isMark_end
  have hinside : (TxOutput.inside k content files).insideTx = true := rfl
  rw [List.foldlM_cons, splitEntry_end hmark hname hinside]
  change (c.ret :: rest).foldlM (splitEntry (tracedNames others))
    (.outside (k + 1) (files ++ [(k, content ++ [TxOutput.endEntry])])) = _
  rw [List.foldlM_cons, c.splitEntry_ret]
  rfl

include hbegin hend

/-- A transaction adds its file. -/
theorem Tx.splitEntries_records (tx : Tx others) (k : Nat) (files : List (Nat × List Entry)) :
    tx.records.foldlM (splitEntry (tracedNames others)) (.outside k files) =
      some (.outside (k + 1) (files ++ [(k, tx.body ++ [TxOutput.endEntry])])) := by
  rw [records, tx.start.splitEntries_begin, List.foldlM_append, splitEntries_inside hbegin hend tx.body_plain, List.nil_append]
  exact (tx.stop.splitEntries_end k tx.body files tx.gap).trans (splitEntries_outside hbegin hend tx.gap_plain rfl)

theorem splitEntries_txs (txs : List (Tx others)) (k : Nat) (files : List (Nat × List Entry)) :
    (txs.flatMap Tx.records).foldlM (splitEntry (tracedNames others)) (.outside k files) =
      some (.outside (k + txs.length) (files ++ txFiles k txs)) := by
  induction txs generalizing k files with
  | nil => rw [txFiles, List.append_nil]; rfl
  | cons tx txs ih =>
      rw [List.flatMap_cons, List.foldlM_append, tx.splitEntries_records hbegin hend]
      refine (ih (k + 1) _).trans ?_
      rw [txFiles, List.append_assoc, List.singleton_append, List.length_cons, Nat.add_right_comm, Nat.add_assoc]

end Files

/-- The file of the transaction that is not finished is left open. -/
def TxTrace.files (T : TxTrace others) : List (Nat × List Entry) :=
  txFiles 0 T.txs ++ T.unfinished.toList.map fun tx => (T.txs.length, tx.body)

theorem Plain.inner_records {entries : List Entry} (h : ∀ e ∈ entries, Plain others e) : ∀ e ∈ entries, Inner e :=
  fun e he => (h e he).inner

theorem TracedCall.inner {length : UInt64} (c : TracedCall length) : Inner c.call ∧ Inner c.ret := by
  refine ⟨⟨by rw [c.call_type]; decide, ?_⟩, ⟨by rw [c.ret_type]; decide, ?_⟩⟩
  · intro h
    have htype := c.call_type
    rw [h] at htype
    cases htype
  · intro h
    have htype := c.ret_type
    rw [h] at htype
    cases htype

theorem Tx.inner_records (tx : Tx others) : ∀ e ∈ tx.records, Inner e := by
  rw [records]
  refine List.forall_mem_cons.mpr ⟨tx.start.inner.1, List.forall_mem_cons.mpr ⟨tx.start.inner.2, fun e he => ?_⟩⟩
  rcases List.mem_append.mp he with he | he
  · exact (tx.body_plain e he).inner
  · refine List.forall_mem_cons.mpr ⟨tx.stop.inner.1, List.forall_mem_cons.mpr ⟨tx.stop.inner.2, ?_⟩⟩ e he
    exact Plain.inner_records tx.gap_plain

theorem OpenTx.inner_records (tx : OpenTx others) : ∀ e ∈ tx.records, Inner e := by
  rw [records]
  exact List.forall_mem_cons.mpr ⟨tx.start.inner.1,
    List.forall_mem_cons.mpr ⟨tx.start.inner.2, Plain.inner_records tx.body_plain⟩⟩

/-- The tail is not looked at behind its first record. -/
theorem TxTrace.run_tail (T : TxTrace others) (names : List String) (s : TxOutput) : run names s T.tail = some s := by
  have hstops := T.tail_stops
  cases htail : T.tail with
  | nil => rw [run]
  | cons stop rest =>
      have hstop := hstops stop (by rw [htail, List.head?_cons, Option.mem_some_iff])
      have hcall : callEntry names s stop = some s := by
        rw [callEntry, if_neg]
        rcases hstop with hstop | rfl
        · rw [hstop]
          decide
        · decide
      rw [run, hcall]
      change (if stop.type = .enType then some s else if stop = zeroEntry then some s else _) = some s
      rcases hstop with hstop | hstop
      · rw [if_pos hstop]
      · rw [if_pos hstop, ite_self]

theorem TxTrace.run_eq (T : TxTrace others) :
    (run (tracedNames others) .new T.records).map TxOutput.outputFiles = some T.files := by
  have hinner : ∀ e ∈ T.init ++ (T.txs.flatMap Tx.records ++ T.unfinished.elim [] OpenTx.records), Inner e := by
    intro e he
    rcases List.mem_append.mp he with he | he
    · exact (T.init_plain e he).inner
    · rcases List.mem_append.mp he with he | he
      · obtain ⟨tx, -, he⟩ := List.mem_flatMap.mp he
        exact tx.inner_records e he
      · cases hopen : T.unfinished with
        | none => rw [hopen] at he; cases he
        | some tx => rw [hopen] at he; exact tx.inner_records e he
  have hrecords : T.records = (T.init ++ (T.txs.flatMap Tx.records ++ T.unfinished.elim [] OpenTx.records)) ++ T.tail := by
    rw [records, List.append_assoc, List.append_assoc]
  have hinit : T.init.foldlM (splitEntry (tracedNames others)) .new = some (.outside 0 []) :=
    splitEntries_outside T.begin_not_mem T.end_not_mem T.init_plain rfl
  have htxs := splitEntries_txs T.begin_not_mem T.end_not_mem T.txs 0 []
  rw [Nat.zero_add, List.nil_append] at htxs
  rw [hrecords, run_append hinner, List.foldlM_append, hinit]
  change (((T.txs.flatMap Tx.records ++ T.unfinished.elim [] OpenTx.records).foldlM (splitEntry (tracedNames others))
    (.outside 0 [])).bind _).map _ = _
  rw [List.foldlM_append, htxs]
  change (((T.unfinished.elim [] OpenTx.records).foldlM (splitEntry (tracedNames others))
    (.outside T.txs.length (txFiles 0 T.txs))).bind fun s => run (tracedNames others) s T.tail).map _ = _
  rw [files]
  cases T.unfinished with
  | none =>
      rw [Option.elim_none]
      change (run (tracedNames others) (.outside T.txs.length (txFiles 0 T.txs)) T.tail).map _ = _
      rw [T.run_tail]
      rfl
  | some tx =>
      rw [Option.elim_some, OpenTx.records, tx.start.splitEntries_begin,
        splitEntries_inside T.begin_not_mem T.end_not_mem tx.body_plain, Option.bind_some, T.run_tail]
      rfl

/-! ### Ranges and files -/

theorem txRanges_append (n : Nat) (before after : List (Tx others)) :
    txRanges n (before ++ after) = txRanges n before ++ txRanges (n + (before.flatMap Tx.records).length) after := by
  induction before generalizing n with
  | nil => rfl
  | cons tx before ih =>
      rw [List.cons_append, txRanges, txRanges, ih, List.flatMap_cons, List.length_append, Nat.add_assoc, List.cons_append]

theorem txFiles_append (k : Nat) (before after : List (Tx others)) :
    txFiles k (before ++ after) = txFiles k before ++ txFiles (k + before.length) after := by
  induction before generalizing k with
  | nil => rfl
  | cons tx before ih =>
      rw [List.cons_append, txFiles, txFiles, ih, List.length_cons, Nat.add_right_comm, Nat.add_assoc, List.cons_append]

theorem length_txRanges (n : Nat) (txs : List (Tx others)) : (txRanges n txs).length = txs.length := by
  induction txs generalizing n with
  | nil => rfl
  | cons tx txs ih => rw [txRanges, List.length_cons, List.length_cons, ih]

theorem length_txFiles (k : Nat) (txs : List (Tx others)) : (txFiles k txs).length = txs.length := by
  induction txs generalizing k with
  | nil => rfl
  | cons tx txs ih => rw [txFiles, List.length_cons, List.length_cons, ih]

/-- The range begins behind the first record of the transaction. -/
theorem Tx.recordsIn_range (tx : Tx others) (front back : List Entry) (h : (front ++ (tx.records ++ back)).length < 2 ^ 64) :
    recordsIn (front ++ (tx.records ++ back)) (tx.range front.length) = tx.body.drop 1 := by
  have hlength := tx.length_records
  rw [List.length_append, List.length_append] at h
  have hstart : (tx.range front.length).start.toNat = front.length + 3 := by
    rw [range, UInt64.toNat_add, UInt64.toNat_ofNat']
    change (front.length % 2 ^ 64 + 3) % 2 ^ 64 = _
    omega
  have hstop : (tx.range front.length).stop.toNat + 1 = front.length + 2 + tx.body.length := by
    rw [range, UInt64.toNat_sub_of_le (.ofNat (front.length + 2 + tx.body.length)) 1, UInt64.toNat_ofNat']
    · change (front.length + 2 + tx.body.length) % 2 ^ 64 - 1 + 1 = _
      omega
    · rw [UInt64.le_iff_toNat_le, UInt64.toNat_ofNat']
      change 1 ≤ (front.length + 2 + tx.body.length) % 2 ^ 64
      omega
  have hrecords : front ++ (tx.records ++ back) =
      (front ++ [tx.start.call, tx.start.ret]) ++ tx.body ++ (tx.stop.call :: tx.stop.ret :: tx.gap ++ back) := by
    simp only [records, List.append_assoc, List.cons_append, List.nil_append]
  have hfront : (front ++ [tx.start.call, tx.start.ret]).length = front.length + 2 := by
    rw [List.length_append]
    rfl
  rw [recordsIn, hstop, hstart, hrecords, List.take_left' (by rw [List.length_append, hfront]),
    show front.length + 3 = (front ++ [tx.start.call, tx.start.ret]).length + 1 by rw [hfront], List.drop_length_add_append]

/-- What the two passes have for a transaction. -/
theorem TxTrace.at_tx (T : TxTrace others) {before after : List (Tx others)} {tx : Tx others}
    (hsplit : T.txs = before ++ tx :: after) :
    ∃ r, (txRanges T.init.length T.txs)[before.length]? = some r ∧
      T.files[before.length]? = some (before.length, tx.body ++ [TxOutput.endEntry]) ∧
        recordsIn T.records r = tx.body.drop 1 := by
  let front := T.init ++ before.flatMap Tx.records
  let back := after.flatMap Tx.records ++ (T.unfinished.elim [] OpenTx.records ++ T.tail)
  have hrecords : T.records = front ++ (tx.records ++ back) := by
    simp only [records, hsplit, List.flatMap_append, List.flatMap_cons, List.append_assoc, front, back]
  have hlength : (front ++ (tx.records ++ back)).length < 2 ^ 64 := by
    rw [← hrecords]
    exact T.length_lt
  refine ⟨tx.range front.length, ?_, ?_, ?_⟩
  · rw [hsplit, txRanges_append, List.getElem?_append_right (Nat.le_of_eq (length_txRanges _ _)), length_txRanges,
      Nat.sub_self, txRanges, List.getElem?_cons_zero, List.length_append]
  · rw [files, hsplit, txFiles_append, List.append_assoc, List.getElem?_append_right (Nat.le_of_eq (length_txFiles _ _)),
      length_txFiles, Nat.sub_self, txFiles, List.cons_append, List.getElem?_cons_zero, Nat.zero_add]
  · rw [hrecords]
    exact tx.recordsIn_range front back hlength

/-- The two passes have the same records for every finished transaction exactly if all of these are empty. -/
theorem sameRecords_iff (T : TxTrace others) :
    (∃ ranges out, initTXSegment T.records = some ranges ∧ run (tracedNames others) .new T.records = some out ∧
      ∀ (k : Nat) (r : Range), ranges[k]? = some r →
        out.outputFiles[k]? = some (k, recordsIn T.records r ++ [TxOutput.endEntry])) ↔
      ∀ tx ∈ T.txs, tx.body = [] := by
  have hranges := T.initTXSegment_eq
  obtain ⟨out, hrun, hfiles⟩ := Option.map_eq_some_iff.mp T.run_eq
  constructor
  · rintro ⟨ranges, out', hranges', hrun', hsame⟩ tx htx
    rw [hranges, Option.some_inj] at hranges'
    rw [hrun, Option.some_inj] at hrun'
    subst hranges' hrun'
    obtain ⟨before, after, hsplit⟩ := List.append_of_mem htx
    obtain ⟨r, hr, hfile, hrecords⟩ := T.at_tx hsplit
    have hsame := hsame before.length r hr
    rw [hfiles, hfile, hrecords, Option.some_inj, Prod.mk.injEq] at hsame
    have hlength := congrArg List.length (List.append_cancel_right hsame.2)
    rw [List.length_drop] at hlength
    exact List.length_eq_zero_iff.mp (by omega)
  · intro hempty
    refine ⟨_, out, hranges, hrun, ?_⟩
    intro k r hr
    have hk : k < T.txs.length := by
      rw [← length_txRanges T.init.length]
      exact (List.getElem?_eq_some_iff.mp hr).choose
    have hsplit : T.txs = T.txs.take k ++ T.txs[k] :: T.txs.drop (k + 1) := by
      rw [← List.drop_eq_getElem_cons hk, List.take_append_drop]
    obtain ⟨r', hr', hfile, hrecords⟩ := T.at_tx hsplit
    rw [List.length_take, Nat.min_eq_left (Nat.le_of_lt hk)] at hr' hfile
    rw [hr, Option.some_inj] at hr'
    subst hr'
    rw [hfiles, hfile, hrecords, hempty _ (List.getElem_mem hk), List.drop_nil]

/-- A transaction of one store. -/
def oneStore : TxTrace [] where
  init := []
  txs := [{
    start := ⟨⟨.clType, 7, 1, 16, 1⟩, ⟨.rtType, 7, 1, 16, 0⟩, rfl, rfl, rfl, rfl⟩
    body := [⟨.stType, 8, 1, 64, 8⟩]
    stop := ⟨⟨.clType, 9, 1, 32, 2⟩, ⟨.rtType, 9, 1, 32, 0⟩, rfl, rfl, rfl, rfl⟩
    gap := []
    body_plain := by
      intro e he
      rw [List.mem_singleton.mp he]
      exact ⟨by decide, fun h => (by cases h), fun h => (by cases h)⟩
    gap_plain := fun e he => (by cases he) }]
  unfinished := none
  tail := [TxOutput.endEntry]
  begin_not_mem := List.not_mem_nil
  end_not_mem := List.not_mem_nil
  init_plain := fun e he => (by cases he)
  tail_unmarked := by
    intro e he h
    rw [List.mem_singleton.mp he] at h
    cases h
  tail_stops := by
    intro e he
    rw [List.head?_cons, Option.mem_some_iff] at he
    exact .inl (he ▸ rfl)
  length_lt := by decide

/-- The serial pass leaves the store out. -/
theorem sameRecords_fails_store : ¬∃ ranges out, initTXSegment oneStore.records = some ranges ∧
    run (tracedNames []) .new oneStore.records = some out ∧
    ∀ (k : Nat) (r : Range), ranges[k]? = some r →
      out.outputFiles[k]? = some (k, recordsIn oneStore.records r ++ [TxOutput.endEntry]) := by
  rintro ⟨ranges, out, hranges, hrun, hsame⟩
  have hranges' : initTXSegment oneStore.records = some [⟨3, 2⟩] := by decide +kernel
  have hfiles : (run (tracedNames []) .new oneStore.records).map TxOutput.outputFiles =
      some [(0, [⟨.stType, 8, 1, 64, 8⟩, TxOutput.endEntry])] := by decide +kernel
  rw [hranges', Option.some_inj] at hranges
  rw [hrun, Option.map_some, Option.some_inj] at hfiles
  have hzero := hsame 0 ⟨3, 2⟩ (by rw [← hranges]; rfl)
  rw [hfiles] at hzero
  exact absurd hzero (by decide +kernel)

end Witcher.TraceSplit
