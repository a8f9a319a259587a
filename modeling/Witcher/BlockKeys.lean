import Mathlib.Data.List.Sort
import Witcher.TraceFiles
import Witcher.WitcherParallelResAnalyzer

/-! The blocks of a transaction, from the file of its records (`tools/TraceSplitBB`) to the key that the analyzer groups the
results by. -/

namespace Witcher

namespace TraceSplitBB

open WitcherParallelResAnalyzer

/-- `%d` takes the number of a block for a signed one. -/
def signed (id : UInt32) : Int := if id.toNat < 2 ^ 31 then id.toNat else (id.toNat : Int) - 2 ^ 32

inductive SplitError where
  | incorrectSize
  deriving DecidableEq, Repr

/-- The loop of `process_split_trace`, with `left` bytes behind the last whole record. -/
def printBlocks (left : Nat) : List Entry → Except SplitError (List Char)
  | [] => if left = 0 then .ok [] else .error .incorrectSize
  | entry :: rest =>
      if entry.type = .enType then .ok []
      else if entry.type = .bbType then do
        let text ← printBlocks left rest
        .ok (str (signed entry.id) ++ '\n' :: text)
      else printBlocks left rest

def processSplitTrace (file : List UInt8) : Except SplitError (List Char) :=
  printBlocks (file.length % Entry.format.size) (mapTrace file)

/-- The blocks that have a record before the end of the trace. -/
def blockIDs : List Entry → List UInt32
  | [] => []
  | entry :: rest =>
      if entry.type = .enType then []
      else if entry.type = .bbType then entry.id :: blockIDs rest
      else blockIDs rest

theorem signed_injective : Function.Injective signed := by
  intro id id' h
  have hlt := id.toNat_lt
  have hlt' := id'.toNat_lt
  apply UInt32.toNat_inj.mp
  simp only [signed] at h
  split_ifs at h <;> omega

/-- The lines that are printed for the blocks of some records. -/
def blockLines (entries : List Entry) : List Char := (((blockIDs entries).map signed).map str).flatMap (· ++ ['\n'])

/-- A torn record matters only if the end record is missing. -/
theorem printBlocks_eq (left : Nat) (entries : List Entry) :
    printBlocks left entries =
      if left = 0 ∨ .enType ∈ entries.map Entry.type then .ok (blockLines entries) else .error .incorrectSize := by
  induction entries with
  | nil =>
      simp only [List.map_nil, List.not_mem_nil, or_false]
      rfl
  | cons entry rest ih =>
      rw [printBlocks, blockLines, blockIDs]
      by_cases hend : entry.type = .enType
      · rw [if_pos hend, if_pos hend, if_pos (.inr (by rw [List.map_cons, hend]; exact List.mem_cons_self))]
        rfl
      · have hmem : .enType ∈ (entry :: rest).map Entry.type ↔ .enType ∈ rest.map Entry.type := by
          rw [List.map_cons, List.mem_cons]
          exact or_iff_right (Ne.symm hend)
        rw [if_neg hend, if_neg hend, ih]
        simp only [hmem]
        by_cases hblock : entry.type = .bbType
        · rw [if_pos hblock, if_pos hblock, List.map_cons, List.map_cons, List.flatMap_cons, List.append_assoc]
          split_ifs <;> rfl
        · rw [if_neg hblock, if_neg hblock]
          rfl

theorem processSplitTrace_ok {file : List UInt8} {text : List Char} (h : processSplitTrace file = .ok text) :
    text = blockLines (mapTrace file) := by
  rw [processSplitTrace, printBlocks_eq] at h
  split_ifs at h
  exact (Except.ok.inj h).symm

/-- A file of whole records is printed. -/
theorem processSplitTrace_encodeAll {entries : List Entry} (hvalid : ∀ entry ∈ entries, entry.type.Valid) :
    processSplitTrace (Entry.format.encodeAll entries) = .ok (blockLines entries) := by
  have hleft : (Entry.format.encodeAll entries).length % Entry.format.size = 0 := by
    rw [FixedRecords.Format.length_encodeAll]
    exact Nat.mul_mod_left _ _
  have hentries : mapTrace (Entry.format.encodeAll entries) = entries :=
    FixedRecords.Format.records_encodeAll fun entry hentry => Entry.decode_encode (hvalid entry hentry)
  rw [processSplitTrace, printBlocks_eq, if_pos (.inl hleft), hentries]

end TraceSplitBB

namespace WitcherParallelResAnalyzer

open PythonText TextLines TraceSplitBB

/-! ### Reading the numbers back -/

theorem toInt_str_int (table : CharTable) (i : Int) : toInt table (str i) = .ok i := by
  cases i with
  | ofNat n => exact toInt_str table n
  | negSucc n =>
      rw [toInt, str, DecimalText.str, ← print, int_minus_print table (by decide) (by decide)]
      rfl

theorem mapM_toInt_str (table : CharTable) (numbers : List Int) : (numbers.map str).mapM (toInt table) = .ok numbers := by
  induction numbers with
  | nil => rfl
  | cons i numbers ih =>
      rw [List.map_cons, List.mapM_cons, toInt_str_int, Loops.ok_bind, ih]
      rfl

theorem str_injective : Function.Injective str := by
  intro i j h
  have hread : toInt asciiTable (str i) = toInt asciiTable (str j) := by rw [h]
  rw [toInt_str_int, toInt_str_int] at hread
  exact Except.ok.inj hread

theorem not_mem_str {c : Char} (hdigit : c.isDigit = false) (hminus : c ≠ '-') (i : Int) : c ∉ str i := by
  cases i with
  | ofNat n => exact DecimalText.not_mem_str_of_not_isDigit hdigit
  | negSucc n => exact List.not_mem_cons_of_ne_of_not_mem hminus (DecimalText.not_mem_str_of_not_isDigit hdigit)

theorem not_mem_map_str {c : Char} (hdigit : c.isDigit = false) (hminus : c ≠ '-') (numbers : List Int) :
    ∀ line ∈ numbers.map str, c ∉ line := by
  intro line hline
  obtain ⟨i, -, rfl⟩ := List.mem_map.mp hline
  exact not_mem_str hdigit hminus i

theorem mapM_toInt_readLines (table : CharTable) (numbers : List Int) :
    (readLines ((numbers.map str).flatMap (· ++ ['\n']))).mapM (toInt table) = .ok numbers := by
  have hreturn : '\r' ∉ (numbers.map str).flatMap (· ++ ['\n']) := by
    rw [List.mem_flatMap]
    rintro ⟨line, hline, hmem⟩
    rcases List.mem_append.mp hmem with hmem | hmem
    · exact not_mem_map_str (by decide) (by decide) numbers line hline hmem
    · exact absurd (List.mem_singleton.mp hmem) (by decide)
  rw [readLines, universalNewlines_eq hreturn, splitOn_flatMap (not_mem_map_str (by decide) (by decide) numbers),
    List.dropLast_concat]
  exact mapM_toInt_str table numbers

/-! ### The keys -/

/-- The text of the key for the numbers of some blocks. -/
def keyText (numbers : List Int) : List Char := (numbers.dedup.insertionSort (· ≤ ·)).flatMap fun bb => str bb ++ [',']

/-- A key determines the numbers that it is made of. -/
theorem keyText_eq_iff {numbers numbers' : List Int} :
    keyText numbers = keyText numbers' ↔ ∀ i, i ∈ numbers ↔ i ∈ numbers' := by
  have hpieces (l : List Int) : (l.flatMap fun bb => str bb ++ [',']).splitOn ',' = l.map str ++ [[]] := by
    rw [← List.flatMap_map str (· ++ [',']), splitOn_flatMap (not_mem_map_str (by decide) (by decide) l)]
  constructor
  · intro h i
    have hsplit : (keyText numbers).splitOn ',' = (keyText numbers').splitOn ',' := by rw [h]
    rw [keyText, keyText, hpieces, hpieces, List.append_left_inj] at hsplit
    have hsorted := List.map_injective_iff.mpr str_injective hsplit
    rw [← List.mem_dedup, ← List.mem_insertionSort (· ≤ ·), hsorted, List.mem_insertionSort, List.mem_dedup]
  · intro h
    have hperm : (numbers.dedup.insertionSort (· ≤ ·)).Perm (numbers'.dedup.insertionSort (· ≤ ·)) := by
      refine (List.perm_insertionSort _ _).trans (.trans ?_ (List.perm_insertionSort _ _).symm)
      refine (List.perm_ext_iff_of_nodup (List.nodup_dedup _) (List.nodup_dedup _)).mpr fun i => ?_
      rw [List.mem_dedup, List.mem_dedup]
      exact h i
    rw [keyText, keyText, hperm.eq_of_sortedLE List.sortedLE_insertionSort List.sortedLE_insertionSort]

/-- The file of the blocks of transaction `i` was printed from `file`. -/
def Printed (a : WitcherParallelResAnalyzer) (i : Int) (file : List UInt8) : Prop :=
  ∃ text, processSplitTrace file = .ok text ∧ a.bbFiles i = some text

variable {a : WitcherParallelResAnalyzer} {i j : Int} {file file' : List UInt8}

theorem getBBKey_eq (h : a.Printed i file) : a.getBBKey i = .ok (keyText ((blockIDs (mapTrace file)).map signed)) := by
  obtain ⟨text, htext, hfile⟩ := h
  rw [getBBKey, hfile, processSplitTrace_ok htext, blockLines]
  simp only [mapM_toInt_readLines]
  rfl

/-- Transactions are grouped together exactly if they ran the same blocks. -/
theorem getBBKey_eq_iff (hi : a.Printed i file) (hj : a.Printed j file') :
    ∃ key key', a.getBBKey i = .ok key ∧ a.getBBKey j = .ok key' ∧
      (key = key' ↔ ∀ id, id ∈ blockIDs (mapTrace file) ↔ id ∈ blockIDs (mapTrace file')) := by
  refine ⟨_, _, getBBKey_eq hi, getBBKey_eq hj, keyText_eq_iff.trans ⟨fun h id => ?_, fun h number => ?_⟩⟩
  · rw [← List.mem_map_of_injective signed_injective, h, List.mem_map_of_injective signed_injective]
  · simp only [List.mem_map, h]

/-- A block of a high number, and a transaction that runs one of its blocks twice. -/
def highBlock : List UInt8 := Entry.format.encodeAll [⟨.bbType, 7, 1, 0x400600, 0⟩, ⟨.bbType, 0xFFFFFFFF, 1, 0x400600, 0⟩]

def repeatedBlock : List UInt8 :=
  Entry.format.encodeAll
    [⟨.bbType, 0xFFFFFFFF, 1, 0x400600, 0⟩, ⟨.bbType, 7, 1, 0x400600, 0⟩, ⟨.bbType, 7, 1, 0x400600, 0⟩, ⟨.enType, 0, 0, 0, 0⟩]

def printedBlocks : WitcherParallelResAnalyzer where
  table := asciiTable
  atomicWriteOps := []
  opFile := ['p', '\n', 'p', '\n']
  bbFiles := fun i => if i = 0 then some ['7', '\n', '-', '1', '\n'] else some ['-', '1', '\n', '7', '\n', '7', '\n']
  reportedPriority := []

theorem getBBKey_eq_iff_repeated :
    ∃ key key', printedBlocks.getBBKey 0 = .ok key ∧ printedBlocks.getBBKey 1 = .ok key' ∧
      (key = key' ↔ ∀ id, id ∈ blockIDs (mapTrace highBlock) ↔ id ∈ blockIDs (mapTrace repeatedBlock)) :=
  getBBKey_eq_iff ⟨_, processSplitTrace_encodeAll (by decide), by decide +kernel⟩
    ⟨_, processSplitTrace_encodeAll (by decide), by decide +kernel⟩

end WitcherParallelResAnalyzer

end Witcher
