import Witcher.Loops
import Witcher.TextLines
import Witcher.WitcherPMTrace

/-! What the persistent memory trace keeps of the entries: one record for each retained entry. The text that
the pass prints consists of the lines of these records. -/

namespace Witcher

open OutputStream PythonText

inductive PMOp where
  | txStart
  | txEnd
  | fence
  | call (funcName note : List Char)
  | txAdd (address length : UInt64)
  | txAlloc (address length : UInt64)
  | store (address length : UInt64) (value : List UInt8)
  | flush (address : UInt64)
  deriving DecidableEq, Repr

structure PMRecord where
  tid : UInt64
  srcInfo : List Char
  op : PMOp
  deriving DecidableEq, Repr

/-! ### Retained entries -/

def PMTraceInput.record (I : PMTraceInput) (entry : Entry) (op : PMOp) : PMRecord := ⟨entry.tid, I.locateSrcInfo entry.id, op⟩

/-- A call is retained when its function is traced. -/
def PMTraceInput.callOp (name : List Char) : PMOp :=
  if name = "witcher_tx_begin".toList then .txStart
  else if name = "witcher_tx_end".toList then .txEnd
  else .call name "start".toList

/-- The return of a transaction function is not retained. -/
def PMTraceInput.retOp (name : List Char) : Option PMOp :=
  if name = "witcher_tx_begin".toList ∨ name = "witcher_tx_end".toList then none
  else some (.call name "end".toList)

/-- The mappings after an entry, and the record of a retained entry: not retained are the stores and
flushes outside of both mappings, empty stores, calls and returns of functions that are not traced, returns
of the transaction functions, and what is no operation. -/
def PMTraceInput.retain (I : PMTraceInput) (m : Mappings) (entry : ReadEntry) :
    Except PMTraceError (Mappings × Option PMRecord) :=
  match entry.type with
  | .clType =>
      if entry.length = 0 then .ok (m, none)
      else do
        let name ← I.funcName entry.toEntry
        .ok (m, some (I.record entry.toEntry (callOp name)))
  | .rtType =>
      if entry.length = 0 then .ok (m, none)
      else do
        let name ← I.funcName entry.toEntry
        .ok (m, (retOp name).map (I.record entry.toEntry))
  | .stType =>
      if m.isPmAddr entry.address ∧ entry.length ≠ 0 then
        .ok (m, some (I.record entry.toEntry (.store (m.remap entry.address) entry.length entry.value)))
      else .ok (m, none)
  | .flType =>
      if m.isPmAddr entry.address then .ok (m, some (I.record entry.toEntry (.flush (m.remap entry.address))))
      else .ok (m, none)
  | .feType => .ok (m, some (I.record entry.toEntry .fence))
  | .txaddType => .ok (m, some (I.record entry.toEntry (.txAdd entry.address entry.length)))
  | .txallocType => .ok (m, some (I.record entry.toEntry (.txAlloc entry.address entry.length)))
  | .mmapType => do
      let m ← m.processMmapEntry entry.toEntry
      .ok (m, none)
  | .bbType | .ldType | .enType | .pdType | .other _ => .ok (m, none)

/-- The records of a trace, up to its end. -/
def PMTraceInput.retained (I : PMTraceInput) (m : Mappings) : List ReadEntry → Except PMTraceError (List PMRecord)
  | [] => .ok []
  | entry :: entries => do
      let (m, record) ← I.retain m entry
      if entry.isEnd then .ok record.toList
      else do
        let records ← I.retained m entries
        .ok (record.toList ++ records)

/-- What every record has: the texts of a call are given to the pass, and no store is empty. -/
structure PMTraceInput.Kept (I : PMTraceInput) (r : PMRecord) : Prop where
  call : ∀ funcName note, r.op = .call funcName note →
    funcName ∈ I.extTracingFuncVector ∧ (note = "start".toList ∨ note = "end".toList)
  store : ∀ address length value, r.op = .store address length value → value ≠ []

theorem PMTraceInput.funcName_mem {I : PMTraceInput} {entry : Entry} {name : List Char} (h : I.funcName entry = .ok name) :
    name ∈ I.extTracingFuncVector := by
  unfold PMTraceInput.funcName at h
  split at h
  · rename_i hname
    cases h
    exact List.mem_of_getElem? hname
  · cases h

theorem PMTraceInput.retain_kept {I : PMTraceInput} {m m' : Mappings} {entry : ReadEntry} {r : PMRecord}
    (h : I.retain m entry = .ok (m', some r)) : I.Kept r := by
  unfold PMTraceInput.retain at h
  cases htype : entry.type <;> simp only [htype] at h
  case clType =>
    split_ifs at h
    · cases h
    · obtain ⟨name, hname, h⟩ := Loops.bind_ok h
      cases h
      simp only [PMTraceInput.record, PMTraceInput.callOp]
      refine ⟨?_, ?_⟩
      · intro funcName note hop
        simp only at hop
        split_ifs at hop
        · cases hop
          exact ⟨PMTraceInput.funcName_mem hname, .inl rfl⟩
      · intro address length value hop
        simp only at hop
        split_ifs at hop
  case rtType =>
    split_ifs at h
    · cases h
    · obtain ⟨name, hname, h⟩ := Loops.bind_ok h
      simp only [PMTraceInput.retOp] at h
      split_ifs at h
      · cases h
      · cases h
        refine ⟨?_, by simp [PMTraceInput.record]⟩
        intro funcName note hop
        cases hop
        exact ⟨PMTraceInput.funcName_mem hname, .inr rfl⟩
  case stType =>
    split_ifs at h with hkept
    · cases h
      refine ⟨by simp [PMTraceInput.record], ?_⟩
      intro address length value hop
      cases hop
      intro hnil
      have hvalue := entry.value_length htype
      rw [hnil, List.length_nil] at hvalue
      exact hkept.2 (UInt64.toNat_inj.mp hvalue.symm)
    · cases h
  case flType =>
    split_ifs at h
    · cases h
      exact ⟨by simp [PMTraceInput.record], by simp [PMTraceInput.record]⟩
    · cases h
  case mmapType =>
    obtain ⟨_, -, h⟩ := Loops.bind_ok h
    cases h
  all_goals
    cases h
    try exact ⟨by simp [PMTraceInput.record], by simp [PMTraceInput.record]⟩

theorem PMTraceInput.retained_kept {I : PMTraceInput} {m : Mappings} {entries : List ReadEntry} {records : List PMRecord}
    (h : I.retained m entries = .ok records) : ∀ r ∈ records, I.Kept r := by
  induction entries generalizing m records with
  | nil =>
      cases h
      simp
  | cons entry entries ih =>
      obtain ⟨⟨m', record⟩, hretain, h⟩ := Loops.bind_ok h
      have hkept : ∀ r ∈ record.toList, I.Kept r := by
        intro r hr
        rw [Option.mem_toList.mp hr] at hretain
        exact PMTraceInput.retain_kept hretain
      simp only at h
      split_ifs at h
      · cases h
        exact hkept
      · obtain ⟨rest, hrest, h⟩ := Loops.bind_ok h
        cases h
        intro r hr
        rcases List.mem_append.mp hr with hr | hr
        · exact hkept r hr
        · exact ih hrest r hr

theorem getLines_newline {text line : List Char} (h : line ∈ getLines text) : '\n' ∉ line := by
  intro hmem
  unfold getLines at h
  split_ifs at h
  · exact (TextLines.mem_of_mem_splitOn (List.dropLast_subset _ h) hmem).2 rfl
  · exact (TextLines.mem_of_mem_splitOn h hmem).2 rfl

/-! ### Lines -/

def PMRecord.fields (r : PMRecord) : List (List Char) :=
  match r.op with
  | .txStart => ["TXStart".toList, print 10 r.tid.toNat, r.srcInfo]
  | .txEnd => ["TXEnd".toList, print 10 r.tid.toNat, r.srcInfo]
  | .fence => ["Fence".toList, print 10 r.tid.toNat, r.srcInfo]
  | .call funcName note => [funcName, print 10 r.tid.toNat, r.srcInfo, note]
  | .txAdd address length =>
      ["TXAdd".toList, print 10 r.tid.toNat, print 16 address.toNat, print 10 length.toNat, r.srcInfo]
  | .txAlloc address length =>
      ["TXAlloc".toList, print 10 r.tid.toNat, print 16 address.toNat, print 10 length.toNat, r.srcInfo]
  | .store address length value =>
      ["Store".toList, print 10 r.tid.toNat, print 16 address.toNat, print 10 length.toNat,
        [' '].intercalate (value.map printByte), r.srcInfo]
  | .flush address => ["Flush".toList, print 10 r.tid.toNat, print 16 address.toNat, r.srcInfo]

def PMRecord.line (r : PMRecord) : List Char := [','].intercalate r.fields

def printed : Option PMRecord → List Char
  | some r => r.line ++ ['\n']
  | none => []

namespace WitcherPMTrace

variable {I : PMTraceInput} {out out' : OStream} {added : List Char}

theorem wrote_printSrcInfo (h : OStream.Wrote out out' added) (entry : Entry) :
    OStream.Wrote out (printSrcInfo I out' entry) (added ++ ',' :: I.locateSrcInfo entry.id) := by
  have hsrc := (h.puts [',']).puts (I.locateSrcInfo entry.id)
  rw [List.append_assoc, List.singleton_append] at hsrc
  exact hsrc

theorem wrote_printBare (h : out.width = 0) (opType : List Char) (entry : Entry) :
    OStream.Wrote out (printBare I opType out entry).endl
      (opType ++ print 10 entry.tid.toNat ++ ',' :: I.locateSrcInfo entry.id ++ ['\n']) :=
  (wrote_printSrcInfo (((OStream.Wrote.refl h).puts opType).num_dec entry.tid.toNat) entry).endl

theorem wrote_printRange (h : out.width = 0) (opType : List Char) (entry : Entry) :
    OStream.Wrote out (printRange I opType out entry)
      (opType ++ print 10 entry.tid.toNat ++ [','] ++ print 16 entry.address.toNat ++ [','] ++ print 10 entry.length.toNat ++
        ',' :: I.locateSrcInfo entry.id ++ ['\n']) :=
  (wrote_printSrcInfo ((((((OStream.Wrote.refl h).puts opType).num_dec entry.tid.toNat).puts [',']).num_hex
    entry.address.toNat |>.puts [',']).num_dec entry.length.toNat) entry).endl

theorem wrote_printCall (h : out.width = 0) (funcName note : List Char) (entry : Entry) :
    OStream.Wrote out (printCall I funcName note out entry)
      (funcName ++ [','] ++ print 10 entry.tid.toNat ++ ',' :: I.locateSrcInfo entry.id ++ note ++ ['\n']) :=
  ((wrote_printSrcInfo ((((OStream.Wrote.refl h).puts funcName).puts [',']).num_dec entry.tid.toNat) entry).puts note).endl

/-- Every item but the last followed by a blank. -/
theorem flatMap_append_intercalate {α : Type} (f : α → List Char) (front : List α) (last : α) :
    (front.flatMap fun a => f a ++ [' ']) ++ f last = [' '].intercalate ((front.concat last).map f) := by
  induction front with
  | nil => simp
  | cons a front ih =>
      have hne : (front.concat last).map f ≠ [] := by simp
      rw [List.concat_cons, List.map_cons, List.intercalate_cons_of_ne_nil hne, ← ih, List.flatMap_cons]
      simp

/-- The bytes come out separated by blanks. -/
theorem wrote_printValue (h : OStream.Wrote out out' added) {value : List UInt8} (hvalue : value ≠ []) :
    OStream.Wrote out (printValue out' value value.length) (added ++ [' '].intercalate (value.map printByte)) := by
  obtain ⟨front, last, rfl⟩ := List.eq_nil_or_concat value |>.resolve_left hvalue
  have hbytes := (h.bytes front).byte last
  rw [List.append_assoc, flatMap_append_intercalate printByte] at hbytes
  simpa [printValue] using hbytes

/-- A step of the pass: the mappings after it and the line of its record. -/
structure Step (s : WitcherPMTrace) (m : Mappings) (record : Option PMRecord) (s' : WitcherPMTrace) : Prop where
  mappings : s'.mappings = m
  wrote : OStream.Wrote s.pmtraceOf s'.pmtraceOf (printed record)

variable {s : WitcherPMTrace}

theorem Step.refl (h : s.pmtraceOf.width = 0) : Step s s.mappings none s := ⟨rfl, OStream.Wrote.refl h⟩

theorem processFenceEntry_step (h : s.pmtraceOf.width = 0) (entry : Entry) :
    Step s s.mappings (some (I.record entry .fence)) (processFenceEntry I s entry) where
  mappings := by rw [processFenceEntry]
  wrote := by
    have hwrote := wrote_printBare (I := I) h "Fence,".toList entry
    simpa [processFenceEntry, printed, PMRecord.line, PMRecord.fields, PMTraceInput.record] using hwrote

theorem processTXAddEntry_step (h : s.pmtraceOf.width = 0) (entry : Entry) :
    Step s s.mappings (some (I.record entry (.txAdd entry.address entry.length))) (processTXAddEntry I s entry) where
  mappings := by rw [processTXAddEntry]
  wrote := by
    have hwrote := wrote_printRange (I := I) h "TXAdd,".toList entry
    simpa [processTXAddEntry, printed, PMRecord.line, PMRecord.fields, PMTraceInput.record] using hwrote

theorem processTXAllocEntry_step (h : s.pmtraceOf.width = 0) (entry : Entry) :
    Step s s.mappings (some (I.record entry (.txAlloc entry.address entry.length))) (processTXAllocEntry I s entry) where
  mappings := by rw [processTXAllocEntry]
  wrote := by
    have hwrote := wrote_printRange (I := I) h "TXAlloc,".toList entry
    simpa [processTXAllocEntry, printed, PMRecord.line, PMRecord.fields, PMTraceInput.record] using hwrote

theorem processFlushEntry_step (h : s.pmtraceOf.width = 0) (entry : Entry) (hpm : s.mappings.isPmAddr entry.address = true) :
    Step s s.mappings (some (I.record entry (.flush (s.mappings.remap entry.address)))) (processFlushEntry I s entry) := by
  have hwrote := (wrote_printSrcInfo
    (((((OStream.Wrote.refl h).puts "Flush,".toList).num_dec entry.tid.toNat).puts [',']).num_hex
      (s.mappings.remap entry.address).toNat) entry (I := I)).endl
  rw [processFlushEntry, if_neg (by simp [hpm])]
  refine ⟨rfl, ?_⟩
  simpa [printed, PMRecord.line, PMRecord.fields, PMTraceInput.record] using hwrote

theorem processStoreEntry_step (h : s.pmtraceOf.width = 0) (entry : ReadEntry) (htype : entry.type = .stType)
    (hpm : s.mappings.isPmAddr entry.address = true) (hlength : entry.length ≠ 0) :
    Step s s.mappings (some (I.record entry.toEntry (.store (s.mappings.remap entry.address) entry.length entry.value)))
      (processStoreEntry I s entry) := by
  have hvalue := entry.value_length htype
  have hne : entry.value ≠ [] := by
    intro hnil
    rw [hnil, List.length_nil] at hvalue
    exact hlength (UInt64.toNat_inj.mp hvalue.symm)
  have hhead := ((((((OStream.Wrote.refl h).puts "Store,".toList).num_dec entry.tid.toNat).puts [',']).num_hex
    (s.mappings.remap entry.address).toNat |>.puts [',']).num_dec entry.length.toNat).puts [',']
  have hwrote := (wrote_printSrcInfo (wrote_printValue hhead hne) entry.toEntry (I := I)).endl
  rw [hvalue] at hwrote
  rw [processStoreEntry, if_neg (by simp [hpm]), if_neg hlength]
  refine ⟨rfl, ?_⟩
  simpa [printed, PMRecord.line, PMRecord.fields, PMTraceInput.record] using hwrote

theorem processCallEntry_step (h : s.pmtraceOf.width = 0) {entry : Entry} (hlength : entry.length ≠ 0) {name : List Char}
    (hname : I.funcName entry = .ok name) :
    ∃ s', processCallEntry I s entry = .ok s' ∧ Step s s.mappings (some (I.record entry (PMTraceInput.callOp name))) s' := by
  rw [processCallEntry, if_neg hlength, hname, Loops.ok_bind, PMTraceInput.callOp]
  split_ifs with hbegin hend
  · have hwrote := wrote_printBare (I := I) h "TXStart,".toList entry
    exact ⟨_, rfl, rfl, by simpa [printed, PMRecord.line, PMRecord.fields, PMTraceInput.record] using hwrote⟩
  · have hwrote := wrote_printBare (I := I) h "TXEnd,".toList entry
    exact ⟨_, rfl, rfl, by simpa [printed, PMRecord.line, PMRecord.fields, PMTraceInput.record] using hwrote⟩
  · have hwrote := wrote_printCall (I := I) h name ",start".toList entry
    exact ⟨_, rfl, rfl, by simpa [printed, PMRecord.line, PMRecord.fields, PMTraceInput.record] using hwrote⟩

theorem processRetEntry_step (h : s.pmtraceOf.width = 0) {entry : Entry} (hlength : entry.length ≠ 0) {name : List Char}
    (hname : I.funcName entry = .ok name) :
    ∃ s', processRetEntry I s entry = .ok s' ∧ Step s s.mappings ((PMTraceInput.retOp name).map (I.record entry)) s' := by
  rw [processRetEntry, if_neg hlength, hname, Loops.ok_bind, PMTraceInput.retOp]
  split_ifs with htx
  · exact ⟨s, rfl, Step.refl h⟩
  · have hwrote := wrote_printCall (I := I) h name ",end".toList entry
    exact ⟨_, rfl, rfl, by simpa [printed, PMRecord.line, PMRecord.fields, PMTraceInput.record] using hwrote⟩

/-- One entry: its record is printed as a line. -/
theorem processEntry_step (h : s.pmtraceOf.width = 0) {entry : ReadEntry} {m : Mappings} {record : Option PMRecord}
    (hretain : I.retain s.mappings entry = .ok (m, record)) : ∃ s', processEntry I s entry = .ok s' ∧ Step s m record s' := by
  unfold PMTraceInput.retain at hretain
  unfold processEntry
  cases htype : entry.type <;> simp only [htype] at hretain ⊢
  case clType =>
    split_ifs at hretain with hlength
    · cases hretain
      exact ⟨s, if_pos hlength, Step.refl h⟩
    · obtain ⟨name, hname, hretain⟩ := Loops.bind_ok hretain
      cases hretain
      exact processCallEntry_step h hlength hname
  case rtType =>
    split_ifs at hretain with hlength
    · cases hretain
      exact ⟨s, if_pos hlength, Step.refl h⟩
    · obtain ⟨name, hname, hretain⟩ := Loops.bind_ok hretain
      cases hretain
      exact processRetEntry_step h hlength hname
  case stType =>
    refine ⟨_, rfl, ?_⟩
    split_ifs at hretain with hkept
    · cases hretain
      exact processStoreEntry_step h entry htype hkept.1 hkept.2
    · cases hretain
      rw [processStoreEntry]
      split_ifs with hpm hlength
      · exact Step.refl h
      · exact Step.refl h
      · exact absurd ⟨by simpa using hpm, hlength⟩ hkept
  case flType =>
    refine ⟨_, rfl, ?_⟩
    split_ifs at hretain with hpm
    · cases hretain
      exact processFlushEntry_step h entry.toEntry hpm
    · cases hretain
      rw [processFlushEntry, if_pos (by simpa using hpm)]
      exact Step.refl h
  case feType =>
    cases hretain
    exact ⟨_, rfl, processFenceEntry_step h entry.toEntry⟩
  case txaddType =>
    cases hretain
    exact ⟨_, rfl, processTXAddEntry_step h entry.toEntry⟩
  case txallocType =>
    cases hretain
    exact ⟨_, rfl, processTXAllocEntry_step h entry.toEntry⟩
  case mmapType =>
    obtain ⟨m', hmmap, hretain⟩ := Loops.bind_ok hretain
    cases hretain
    rw [hmmap, Loops.ok_bind]
    exact ⟨_, rfl, rfl, OStream.Wrote.refl h⟩
  all_goals
    cases hretain
    exact ⟨s, rfl, Step.refl h⟩

/-- The whole text consists of the lines of the records. -/
theorem runEntries_wrote (h : s.pmtraceOf.width = 0) {entries : List ReadEntry} {records : List PMRecord}
    (hretained : I.retained s.mappings entries = .ok records) :
    ∃ s', runEntries I s entries = .ok s' ∧
      OStream.Wrote s.pmtraceOf s'.pmtraceOf ((records.map PMRecord.line).flatMap (· ++ ['\n'])) := by
  induction entries generalizing s records with
  | nil =>
      cases hretained
      exact ⟨s, rfl, OStream.Wrote.refl h⟩
  | cons entry entries ih =>
      obtain ⟨⟨m, record⟩, hretain, hretained⟩ := Loops.bind_ok hretained
      obtain ⟨s', hs', rfl, hwrote⟩ := processEntry_step h hretain
      have hone : printed record = (record.toList.map PMRecord.line).flatMap (· ++ ['\n']) := by
        cases record with
        | none => rfl
        | some r => simp [printed]
      rw [hone] at hwrote
      simp only at hretained
      rw [runEntries, hs', Loops.ok_bind]
      split_ifs at hretained with hend
      · cases hretained
        rw [if_pos hend]
        exact ⟨s', rfl, hwrote⟩
      · obtain ⟨rest, hrest, hretained⟩ := Loops.bind_ok hretained
        cases hretained
        rw [if_neg hend]
        obtain ⟨s'', hs'', hwrote'⟩ := ih hwrote.width' hrest
        refine ⟨s'', hs'', ?_⟩
        rw [List.map_append, List.flatMap_append]
        exact hwrote.trans hwrote'

theorem run_eq {m : Mappings} {entries : List ReadEntry} {records : List PMRecord}
    (hretained : I.retained m entries = .ok records) :
    run I m entries = .ok ((records.map PMRecord.line).flatMap (· ++ ['\n'])) := by
  obtain ⟨s, hs, hwrote⟩ := runEntries_wrote (s := ⟨m, OStream.empty⟩) rfl hretained
  rw [run, hs, Loops.ok_bind, hwrote.text]
  rfl

end WitcherPMTrace

end Witcher
