import Witcher.DecimalText
import Witcher.Dict
import Witcher.TextEncoding
import Witcher.TextLines

/-! The output check of a crash state (`witchercrashvalidator.py`) and the driver it runs
(`read_op_and_run`). The driver skips the operations before a start index and the one at a skip
index; the outputs of the operations after a crash are compared, line by line, with the same part of
an execution of all operations and of an execution without the interrupted one. The program prints
bytes, and the lines that are compared are the lines of the text that is read from them. -/

namespace Witcher

open DecimalText TextLines

/-! ### The program under test -/

/-- A printed line, without its terminator. -/
structure OutputLine where
  bytes : List UInt8
  oneLine : 10 ∉ bytes

/-- A deterministic program that prints one line for each operation. -/
structure TestProgram (σ ο : Type) where
  runOp : σ → ο → σ × OutputLine

variable {σ ο : Type}

namespace TestProgram

/-- The loop over the operation file; returns what is written to the output file. -/
def readOpLoop (P : TestProgram σ ο) (startIndex skipIndex : Int) : Int → σ → List ο → List UInt8
  | _, _, [] => []
  | count, s, op :: ops =>
      if count < startIndex ∨ count = skipIndex then readOpLoop P startIndex skipIndex (count + 1) s ops
      else
        let (s, line) := P.runOp s op
        (line.bytes ++ [10]) ++ readOpLoop P startIndex skipIndex (count + 1) s ops

def readOpAndRun (P : TestProgram σ ο) (ops : List ο) (startIndex skipIndex : Int) (s : σ) : List UInt8 :=
  P.readOpLoop startIndex skipIndex 0 s ops

/-- The lines printed by a sequence of operations. -/
def outputs (P : TestProgram σ ο) : σ → List ο → List OutputLine
  | _, [] => []
  | s, op :: ops => (P.runOp s op).2 :: outputs P (P.runOp s op).1 ops

/-- The state after a sequence of operations. -/
def after (P : TestProgram σ ο) (s : σ) (ops : List ο) : σ := ops.foldl (fun s op => (P.runOp s op).1) s

end TestProgram

/-! ### The comparison -/

/-- The position of the first line that differs, counted from `i`. -/
def firstMismatch : Nat → List (List Char) → List (List Char) → Option Nat
  | i, a :: as, b :: bs => if a ≠ b then some i else firstMismatch (i + 1) as bs
  | _, _, _ => none

/-- Whether the output is the part of the oracle from a line on, and what differs. The oracle is
missing if its file does not exist. -/
def compareToOracleFromIndex (e : Encoding) (crashStateOutput : List UInt8) (oracle : Option (List UInt8)) (oracleIndex : Nat) :
    Bool × List Char :=
  let crashStateOutputList := fileLines (e.decode crashStateOutput)
  match oracle with
  | none => (false, "crash".toList)
  | some oracle =>
      let oracleList := (fileLines (e.decode oracle)).drop oracleIndex
      if crashStateOutputList.length ≠ oracleList.length then (false, "crash".toList)
      else
        match firstMismatch oracleIndex crashStateOutputList oracleList with
        | some k => (false, "tx-".toList ++ str k)
        | none => (true, "match".toList)

def compareToOracles (e : Encoding) (crashStateOutput : List UInt8) (oracleFull oracleSkip : Option (List UInt8))
    (txIndex : Nat) : Bool × List Char :=
  let (oracleFullMatch, oracleFullTxMismatch) :=
    compareToOracleFromIndex e crashStateOutput oracleFull (txIndex + 1)
  let (oracleSkipMatch, oracleSkipTxMismatch) := compareToOracleFromIndex e crashStateOutput oracleSkip txIndex
  (!oracleFullMatch && !oracleSkipMatch, oracleFullTxMismatch ++ [' '] ++ oracleSkipTxMismatch)

inductive OracleKey where
  | full
  | skip (txIndex : Nat)
  deriving DecidableEq, Repr

/-- A validator: the encoding it reads files in, the program, its operation file and the state a new pool starts in. -/
structure OutputChecker (σ ο : Type) where
  encoding : Encoding
  program : TestProgram σ ο
  ops : List ο
  initial : σ

namespace OutputChecker

/-- The output of the traced execution, which runs all operations. -/
def fullOracleFile (v : OutputChecker σ ο) : List UInt8 := v.program.readOpAndRun v.ops 0 (-1) v.initial

def executeFromCrashState (v : OutputChecker σ ο) (recovered : σ) (txIndex : Nat) : List UInt8 :=
  v.program.readOpAndRun v.ops (txIndex + 1) (-1) recovered

/-- The oracles are made when they are first asked for. -/
def getOracles (v : OutputChecker σ ο) (oracles : Dict OracleKey (List UInt8)) (txIndex : Nat) :
    Dict OracleKey (List UInt8) × Option (List UInt8) × Option (List UInt8) :=
  let oracles := if (oracles.get? .full).isNone then oracles.set .full v.fullOracleFile else oracles
  let oracleFull := oracles.get? .full
  let oracles :=
    if (oracles.get? (.skip txIndex)).isNone then
      oracles.set (.skip txIndex) (v.program.readOpAndRun v.ops 0 txIndex v.initial)
    else oracles
  (oracles, oracleFull, oracles.get? (.skip txIndex))

/-- Checks the state recovered from a crash in transaction `txIndex`. -/
def checkConsistency (v : OutputChecker σ ο) (oracles : Dict OracleKey (List UInt8)) (recovered : σ) (txIndex : Nat) :
    Dict OracleKey (List UInt8) × Bool × List Char :=
  let crashStateOutput := v.executeFromCrashState recovered txIndex
  let (oracles, oracleFull, oracleSkip) := v.getOracles oracles txIndex
  (oracles, compareToOracles v.encoding crashStateOutput oracleFull oracleSkip txIndex)

/-- The oracles kept after some checks. -/
def oraclesAfter (v : OutputChecker σ ο) (checks : List (σ × Nat)) : Dict OracleKey (List UInt8) :=
  checks.foldl (fun oracles c => (v.checkConsistency oracles c.1 c.2).1) Dict.empty

end OutputChecker

/-! ### What the driver prints -/

/-- The output file of a sequence of printed lines. -/
def outputText (lines : List OutputLine) : List UInt8 := lines.flatMap (·.bytes ++ [10])

namespace OutputLine

variable {e : Encoding}

/-- The line is a text of the encoding, without a carriage return. -/
def IsText (e : Encoding) (line : OutputLine) : Prop := ∃ text, e.encodeText text = some line.bytes ∧ '\r' ∉ text

theorem IsText.encodeText {line : OutputLine} (h : line.IsText e) : e.encodeText (e.decode line.bytes) = some line.bytes := by
  obtain ⟨text, htext, -⟩ := h
  rw [Encoding.decode_eq htext, htext]

theorem IsText.oneLine {line : OutputLine} (h : line.IsText e) :
    '\n' ∉ e.decode line.bytes ∧ '\r' ∉ e.decode line.bytes := by
  have hencode := h.encodeText
  obtain ⟨text, htext, hreturn⟩ := h
  refine ⟨Encoding.newline_not_mem hencode line.oneLine, ?_⟩
  rwa [Encoding.decode_eq htext]

/-- Lines of text are told apart by what is read of them. -/
theorem IsText.eq_of_decode {a b : OutputLine} (ha : a.IsText e) (hb : b.IsText e)
    (h : e.decode a.bytes = e.decode b.bytes) : a = b := by
  have hbytes : some a.bytes = some b.bytes := by rw [← ha.encodeText, h, hb.encodeText]
  obtain ⟨a, _⟩ := a
  obtain ⟨b, _⟩ := b
  cases hbytes
  rfl

end OutputLine

theorem decode_outputText {e : Encoding} {lines : List OutputLine} (h : ∀ line ∈ lines, line.IsText e) :
    e.decode (outputText lines) = (lines.map fun line => e.decode line.bytes).flatMap (· ++ ['\n']) := by
  induction lines with
  | nil => exact e.decode_nil
  | cons line lines ih =>
      have hline := (h line List.mem_cons_self).encodeText
      have hlines := ih fun l hl => h l (List.mem_cons_of_mem line hl)
      rw [outputText, List.flatMap_cons, List.append_assoc, Encoding.decode_encodeText hline, List.singleton_append,
        Encoding.decode_newline, ← outputText, hlines, List.map_cons, List.flatMap_cons, List.append_assoc,
        List.singleton_append]

theorem fileLines_outputText {e : Encoding} {lines : List OutputLine} (h : ∀ line ∈ lines, line.IsText e) :
    fileLines (e.decode (outputText lines)) = lines.map fun line => e.decode line.bytes ++ ['\n'] := by
  have hlines : ∀ text ∈ lines.map fun line => e.decode line.bytes, '\n' ∉ text ∧ '\r' ∉ text := by
    intro text htext
    obtain ⟨line, hline, rfl⟩ := List.mem_map.mp htext
    exact (h line hline).oneLine
  rw [decode_outputText h, fileLines_flatMap hlines, List.map_map]
  rfl

namespace TestProgram

variable (P : TestProgram σ ο)

theorem outputs_append (s : σ) (front back : List ο) :
    P.outputs s (front ++ back) = P.outputs s front ++ P.outputs (P.after s front) back := by
  induction front generalizing s with
  | nil => rfl
  | cons op front ih =>
      rw [List.cons_append, outputs, ih, outputs, List.cons_append]
      rfl

/-- Every operation prints a line of text. -/
def PrintsText (P : TestProgram σ ο) (e : Encoding) : Prop := ∀ s op, (P.runOp s op).2.IsText e

theorem PrintsText.outputs {P : TestProgram σ ο} {e : Encoding} (h : P.PrintsText e) (s : σ) (ops : List ο) :
    ∀ line ∈ P.outputs s ops, line.IsText e := by
  induction ops generalizing s with
  | nil =>
      intro line hline
      cases hline
  | cons op ops ih => exact List.forall_mem_cons.mpr ⟨h s op, ih _⟩

theorem length_outputs (s : σ) (ops : List ο) : (P.outputs s ops).length = ops.length := by
  induction ops generalizing s with
  | nil => rfl
  | cons op ops ih => rw [outputs, List.length_cons, ih, List.length_cons]

theorem readOpLoop_run {startIndex skipIndex count : Int} (h : ¬(count < startIndex ∨ count = skipIndex)) (s : σ)
    (op : ο) (ops : List ο) : P.readOpLoop startIndex skipIndex count s (op :: ops) =
      (P.runOp s op).2.bytes ++ [10] ++ P.readOpLoop startIndex skipIndex (count + 1) (P.runOp s op).1 ops := by
  rw [readOpLoop, if_neg h]

/-- Past both indices every operation is run. -/
theorem readOpLoop_all {startIndex skipIndex count : Int} (hstart : startIndex ≤ count) (hskip : skipIndex < count)
    (s : σ) (ops : List ο) : P.readOpLoop startIndex skipIndex count s ops = outputText (P.outputs s ops) := by
  induction ops generalizing count s with
  | nil => rfl
  | cons op ops ih =>
      rw [P.readOpLoop_run (by omega), ih (by omega) (by omega)]
      rfl

/-- The operations before the start index are passed over. -/
theorem readOpLoop_from {skipIndex count : Int} (hskip : skipIndex < count) (n : Nat) (s : σ) (ops : List ο) :
    P.readOpLoop (count + n) skipIndex count s ops = outputText (P.outputs s (ops.drop n)) := by
  induction n generalizing count ops with
  | zero => exact P.readOpLoop_all (by omega) hskip s ops
  | succ n ih =>
      cases ops with
      | nil => rfl
      | cons op ops =>
          have hrest := ih (show skipIndex < count + 1 by omega) ops
          rw [readOpLoop, if_pos (.inl (by omega)), List.drop_succ_cons, ← hrest]
          congr 1
          omega

/-- The operation at the skip index is passed over. -/
theorem readOpLoop_skip {startIndex count : Int} (hstart : startIndex ≤ count) (n : Nat) (s : σ) (ops : List ο) :
    P.readOpLoop startIndex (count + n) count s ops =
      outputText (P.outputs s (ops.take n) ++ P.outputs (P.after s (ops.take n)) (ops.drop (n + 1))) := by
  induction n generalizing count s ops with
  | zero =>
      cases ops with
      | nil => rfl
      | cons op ops =>
          rw [readOpLoop, if_pos (.inr (by omega)), P.readOpLoop_all (by omega) (by omega)]
          rfl
  | succ n ih =>
      cases ops with
      | nil => rfl
      | cons op ops =>
          have hrest := ih (show startIndex ≤ count + 1 by omega) (P.runOp s op).1 ops
          have hindex : count + 1 + (n : Int) = count + (n + 1 : Nat) := by omega
          rw [hindex] at hrest
          rw [P.readOpLoop_run (by omega), hrest]
          rfl

end TestProgram

/-! ### What the comparison finds -/

theorem firstMismatch_eq_none_iff (i : Nat) {as bs : List (List Char)} (hlen : as.length = bs.length) :
    firstMismatch i as bs = none ↔ as = bs := by
  induction as generalizing i bs with
  | nil =>
      rw [List.length_eq_zero_iff.mp hlen.symm]
      exact ⟨fun _ => rfl, fun _ => rfl⟩
  | cons a as ih =>
      cases bs with
      | nil => cases hlen
      | cons b bs =>
          have hrest := ih (i + 1) (Nat.succ.inj hlen)
          rw [firstMismatch]
          split_ifs with hab
          · exact ⟨fun h => absurd h (by simp), fun h => absurd (List.cons.inj h).1 hab⟩
          · rw [hrest, List.cons.injEq]
            exact ⟨fun h => ⟨not_not.mp hab, h⟩, fun h => h.2⟩

theorem OutputLine.map_decode_inj {e : Encoding} {as bs : List OutputLine} (has : ∀ line ∈ as, line.IsText e)
    (hbs : ∀ line ∈ bs, line.IsText e) :
    (as.map fun line => e.decode line.bytes ++ ['\n']) = (bs.map fun line => e.decode line.bytes ++ ['\n']) ↔ as = bs := by
  refine ⟨fun h => ?_, fun h => by rw [h]⟩
  induction as generalizing bs with
  | nil => exact (List.map_eq_nil_iff.mp h.symm).symm
  | cons a as ih =>
      cases bs with
      | nil => cases h
      | cons b bs =>
          rw [List.map_cons, List.map_cons, List.cons.injEq, List.append_left_inj] at h
          rw [List.forall_mem_cons] at has hbs
          rw [has.1.eq_of_decode hbs.1 h.1, ih has.2 hbs.2 h.2]

/-- An output of lines of text matches an oracle exactly when it is the part of it from the index on. -/
theorem compareToOracleFromIndex_iff {e : Encoding} {as bs : List OutputLine} (has : ∀ line ∈ as, line.IsText e)
    (hbs : ∀ line ∈ bs, line.IsText e) (index : Nat) :
    (compareToOracleFromIndex e (outputText as) (some (outputText bs)) index).1 = true ↔ as = bs.drop index := by
  have hdrop : (fileLines (e.decode (outputText bs))).drop index =
      (bs.drop index).map fun line => e.decode line.bytes ++ ['\n'] := by
    rw [fileLines_outputText hbs, List.map_drop]
  simp only [compareToOracleFromIndex, fileLines_outputText has, hdrop]
  split_ifs with hlen
  · refine ⟨fun h => (by cases h), ?_⟩
    rintro rfl
    exact absurd rfl hlen
  · have hiff := firstMismatch_eq_none_iff index (not_not.mp hlen)
    rw [OutputLine.map_decode_inj has fun line hline => hbs line (List.mem_of_mem_drop hline)] at hiff
    cases hfirst : firstMismatch index (as.map fun line => e.decode line.bytes ++ ['\n'])
        ((bs.drop index).map fun line => e.decode line.bytes ++ ['\n']) with
    | none => exact ⟨fun _ => hiff.mp hfirst, fun _ => rfl⟩
    | some k =>
        refine ⟨fun h => (by cases h), fun heq => ?_⟩
        rw [hiff.mpr heq] at hfirst
        cases hfirst

/-! ### Oracles kept between checks -/

namespace OutputChecker

variable (v : OutputChecker σ ο)

/-- What is kept are the outputs of the two executions. -/
structure Kept (oracles : Dict OracleKey (List UInt8)) : Prop where
  full : ∀ text, oracles.get? .full = some text → text = v.fullOracleFile
  skip : ∀ j text, oracles.get? (.skip j) = some text → text = v.program.readOpAndRun v.ops 0 j v.initial

theorem Kept.set_full {v : OutputChecker σ ο} {oracles : Dict OracleKey (List UInt8)} (h : v.Kept oracles) :
    v.Kept (oracles.set .full v.fullOracleFile) where
  full text htext := by
    rw [Dict.get?_set, if_pos rfl] at htext
    cases htext
    rfl
  skip j text htext := by
    rw [Dict.get?_set, if_neg (by simp)] at htext
    exact h.skip j text htext

theorem Kept.set_skip {v : OutputChecker σ ο} {oracles : Dict OracleKey (List UInt8)} (h : v.Kept oracles) (i : Nat) :
    v.Kept (oracles.set (.skip i) (v.program.readOpAndRun v.ops 0 i v.initial)) where
  full text htext := by
    rw [Dict.get?_set, if_neg (by simp)] at htext
    exact h.full text htext
  skip j text htext := by
    rw [Dict.get?_set] at htext
    split_ifs at htext with hkey
    · cases hkey
      cases htext
      rfl
    · exact h.skip j text htext

/-- Asking for the oracles keeps the record right and gives the two outputs. -/
theorem Kept.getOracles {v : OutputChecker σ ο} {oracles : Dict OracleKey (List UInt8)} (h : v.Kept oracles) (i : Nat) :
    v.Kept (v.getOracles oracles i).1 ∧ (v.getOracles oracles i).2 =
      (some v.fullOracleFile, some (v.program.readOpAndRun v.ops 0 i v.initial)) := by
  -- the record after the first half
  obtain ⟨oracles', horacles', hkept, hfull⟩ : ∃ oracles',
      (if (oracles.get? .full).isNone then oracles.set .full v.fullOracleFile else oracles) = oracles' ∧
        v.Kept oracles' ∧ oracles'.get? .full = some v.fullOracleFile := by
    cases hget : oracles.get? .full with
    | none => exact ⟨_, rfl, h.set_full, by simp [Dict.get?_set]⟩
    | some text => exact ⟨oracles, rfl, h, by rw [hget, h.full text hget]⟩
  simp only [OutputChecker.getOracles, horacles', hfull]
  cases hget : oracles'.get? (.skip i) with
  | none => exact ⟨hkept.set_skip i, by simp [Dict.get?_set]⟩
  | some text => exact ⟨hkept, by simp [hget, ← hkept.skip i text hget]⟩

theorem kept_oraclesAfter (checks : List (σ × Nat)) : v.Kept (v.oraclesAfter checks) := by
  suffices hrun : ∀ (checks : List (σ × Nat)) (oracles : Dict OracleKey (List UInt8)), v.Kept oracles →
      v.Kept (checks.foldl (fun oracles c => (v.checkConsistency oracles c.1 c.2).1) oracles) from
    hrun checks _ ⟨fun _ h => (by cases h), fun _ _ h => (by cases h)⟩
  intro checks
  induction checks with
  | nil => exact fun _ h => h
  | cons c checks ih => exact fun oracles h => ih _ (h.getOracles c.2).1

end OutputChecker

/-- A check of a program that prints text reports an inconsistency exactly when the outputs of the
operations after the interrupted one differ both from those after it and from those without it. It
never reports a state that is the one just before or just after the interrupted operation. -/
theorem checkConsistency_iff (v : OutputChecker σ ο) (hprints : v.program.PrintsText v.encoding) (checks : List (σ × Nat))
    (recovered : σ) {i : Nat} (hi : i < v.ops.length) :
    ((v.checkConsistency (v.oraclesAfter checks) recovered i).2.1 = true ↔
      v.program.outputs recovered (v.ops.drop (i + 1)) ≠
          v.program.outputs (v.program.after v.initial (v.ops.take (i + 1))) (v.ops.drop (i + 1)) ∧
        v.program.outputs recovered (v.ops.drop (i + 1)) ≠
          v.program.outputs (v.program.after v.initial (v.ops.take i)) (v.ops.drop (i + 1))) ∧
    (recovered = v.program.after v.initial (v.ops.take i) ∨
        recovered = v.program.after v.initial (v.ops.take (i + 1)) →
      (v.checkConsistency (v.oraclesAfter checks) recovered i).2.1 = false) := by
  have hcrash : v.executeFromCrashState recovered i =
      outputText (v.program.outputs recovered (v.ops.drop (i + 1))) := by
    have hrun := v.program.readOpLoop_from (show (-1 : Int) < 0 by omega) (i + 1) recovered v.ops
    rw [OutputChecker.executeFromCrashState, TestProgram.readOpAndRun, ← hrun]
    congr 1
    omega
  have hfull : v.fullOracleFile = outputText (v.program.outputs v.initial v.ops) :=
    v.program.readOpLoop_all (by omega) (by omega) v.initial v.ops
  have hskip : v.program.readOpAndRun v.ops 0 i v.initial = outputText (v.program.outputs v.initial (v.ops.take i) ++
      v.program.outputs (v.program.after v.initial (v.ops.take i)) (v.ops.drop (i + 1))) := by
    have hrun := v.program.readOpLoop_skip (show (0 : Int) ≤ 0 by omega) i v.initial v.ops
    rw [TestProgram.readOpAndRun, ← hrun]
    congr 1
    omega
  -- the parts of the oracles that are compared
  have hfullPart : (v.program.outputs v.initial v.ops).drop (i + 1) =
      v.program.outputs (v.program.after v.initial (v.ops.take (i + 1))) (v.ops.drop (i + 1)) := by
    conv_lhs => rw [← List.take_append_drop (i + 1) v.ops]
    rw [v.program.outputs_append, List.drop_left']
    rw [v.program.length_outputs, List.length_take]
    omega
  have hskipPart : (v.program.outputs v.initial (v.ops.take i) ++
      v.program.outputs (v.program.after v.initial (v.ops.take i)) (v.ops.drop (i + 1))).drop i =
      v.program.outputs (v.program.after v.initial (v.ops.take i)) (v.ops.drop (i + 1)) := by
    rw [List.drop_left']
    rw [v.program.length_outputs, List.length_take]
    omega
  have hcrashText := hprints.outputs recovered (v.ops.drop (i + 1))
  have hskipText := List.forall_mem_append.mpr ⟨hprints.outputs v.initial (v.ops.take i),
    hprints.outputs (v.program.after v.initial (v.ops.take i)) (v.ops.drop (i + 1))⟩
  have hmatchFull := compareToOracleFromIndex_iff hcrashText (hprints.outputs v.initial v.ops) (i + 1)
  have hmatchSkip := compareToOracleFromIndex_iff hcrashText hskipText i
  rw [hfullPart] at hmatchFull
  rw [hskipPart] at hmatchSkip
  have hreport : (v.checkConsistency (v.oraclesAfter checks) recovered i).2.1 = true ↔
      v.program.outputs recovered (v.ops.drop (i + 1)) ≠
          v.program.outputs (v.program.after v.initial (v.ops.take (i + 1))) (v.ops.drop (i + 1)) ∧
        v.program.outputs recovered (v.ops.drop (i + 1)) ≠
          v.program.outputs (v.program.after v.initial (v.ops.take i)) (v.ops.drop (i + 1)) := by
    obtain ⟨_, horacles⟩ := (v.kept_oraclesAfter checks).getOracles i
    simp only [OutputChecker.checkConsistency, compareToOracles, horacles, hcrash, hfull, hskip, Bool.and_eq_true,
      Bool.not_eq_true', ← Bool.not_eq_true, hmatchFull, hmatchSkip, ne_eq]
  refine ⟨hreport, ?_⟩
  intro hstate
  rw [← Bool.not_eq_true, hreport]
  rintro ⟨hne, hne'⟩
  rcases hstate with rfl | rfl
  · exact hne' rfl
  · exact hne rfl

/-- A counter that prints before each increment. -/
def counterProgram (line : Fin 4 → OutputLine) : TestProgram (Fin 4) Unit := ⟨fun n _ => (n + 1, line n)⟩

def counterChecker (line : Fin 4 → OutputLine) : OutputChecker (Fin 4) Unit := ⟨.utf8, counterProgram line, [(), (), ()], 0⟩

def digitLine (n : Fin 4) : OutputLine := ⟨[48 + UInt8.ofNat n], by revert n; decide⟩

theorem digitLine_isText (n : Fin 4) : (digitLine n).IsText .utf8 := ⟨[Nat.digitChar n], by revert n; decide⟩

theorem checkConsistency_iff_counter :
    ((counterChecker digitLine).checkConsistency ((counterChecker digitLine).oraclesAfter [(1, 0)]) 3 1).2.1 = true ∧
      ((counterChecker digitLine).checkConsistency ((counterChecker digitLine).oraclesAfter [(1, 0)]) 2 1).2.1 = false := by
  have hcheck := fun recovered => checkConsistency_iff (counterChecker digitLine) (fun n _ => digitLine_isText n) [(1, 0)]
    recovered (show 1 < (counterChecker digitLine).ops.length by decide)
  refine ⟨(hcheck 3).1.mpr ?_, (hcheck 2).2 (.inr rfl)⟩
  have hother : ∀ n : Fin 4, n ≠ 3 →
      (counterProgram digitLine).outputs 3 [()] ≠ (counterProgram digitLine).outputs n [()] := by
    intro n hn h
    have hbytes := congrArg (List.map OutputLine.bytes) h
    clear h
    revert n
    decide
  exact ⟨hother 2 (by decide), hother 1 (by decide)⟩

/-- The first line has a carriage return. -/
def returnLine (n : Fin 4) : OutputLine := if n = 0 then ⟨[97, 13, 98], by decide⟩ else digitLine n

/-- The lines are no text. -/
def invalidLine (n : Fin 4) : OutputLine := ⟨[252 + UInt8.ofNat n], by revert n; decide⟩

/-- The state just after the interrupted operation is reported, and a state whose output differs is not. -/
theorem checkConsistency_fails_bytes :
    ((counterChecker returnLine).checkConsistency ((counterChecker returnLine).oraclesAfter []) 2 1).2.1 = true ∧
      2 = (counterChecker returnLine).program.after 0 ((counterChecker returnLine).ops.take 2) ∧
      ((counterChecker invalidLine).checkConsistency ((counterChecker invalidLine).oraclesAfter []) 3 1).2.1 = false ∧
      (counterProgram invalidLine).outputs 3 [()] ≠ (counterProgram invalidLine).outputs 2 [()] ∧
      (counterProgram invalidLine).outputs 3 [()] ≠ (counterProgram invalidLine).outputs 1 [()] := by
  refine ⟨by decide +kernel, rfl, by decide +kernel, fun h => ?_, fun h => ?_⟩
  · exact absurd (congrArg (List.map OutputLine.bytes) h) (by decide)
  · exact absurd (congrArg (List.map OutputLine.bytes) h) (by decide)

end Witcher
