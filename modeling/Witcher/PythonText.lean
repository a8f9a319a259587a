import Mathlib.Data.List.Basic
import Mathlib.Tactic.IntervalCases

/-! Sequences and text fields as a Python script reads them: slices, `int(text, base)` for the bases 10
and 16, and `bytearray.fromhex`. Blanks around a number, a sign, a prefix `0x` and single underscores
between digits are accepted. What is printed in decimal or hexadecimal is read back. -/

namespace Witcher

/-- A bound of a slice of a sequence of length `n`: negative bounds count from the end, and bounds
outside the sequence are clipped. -/
def sliceBound (n : Nat) (i : Int) : Nat := if i < 0 then (i + n).toNat else min i.toNat n

namespace PythonText

/-- `l[i:j]`. -/
def slice {α : Type} (l : List α) (i j : Int) : List α := (l.take (sliceBound l.length j)).drop (sliceBound l.length i)

theorem slice_natCast {α : Type} (l : List α) (i j : Nat) : slice l i j = (l.take j).drop i := by
  have hbound : ∀ k : Nat, sliceBound l.length k = min k l.length := by
    intro k
    rw [sliceBound, if_neg (by omega), Int.toNat_natCast]
  rw [slice, hbound, hbound, ← List.take_eq_take_min]
  by_cases hi : i ≤ l.length
  · rw [Nat.min_eq_left hi]
  · rw [List.drop_eq_nil_of_le, List.drop_eq_nil_of_le]
    · rw [List.length_take]
      omega
    · rw [List.length_take]
      omega

theorem slice_of_nonneg {α : Type} (l : List α) {i j : Int} (hi : 0 ≤ i) (hj : 0 ≤ j) :
    slice l i j = (l.take j.toNat).drop i.toNat := by
  rw [← slice_natCast, Int.toNat_of_nonneg hi, Int.toNat_of_nonneg hj]

theorem slice_self {α : Type} (l : List α) {i : Int} (hi : 0 ≤ i) : slice l i i = [] := by
  rw [slice_of_nonneg l hi hi, List.drop_eq_nil_of_le]
  rw [List.length_take]
  omega

theorem slice_append {α : Type} (l : List α) {i j k : Int} (hi : 0 ≤ i) (hij : i ≤ j) (hjk : j ≤ k) :
    slice l i j ++ slice l j k = slice l i k := by
  rw [slice_of_nonneg l hi (by omega), slice_of_nonneg l (by omega) (by omega), slice_of_nonneg l hi (by omega)]
  have hsplit : l.take k.toNat = l.take j.toNat ++ (l.take k.toNat).drop j.toNat := by
    conv_lhs => rw [← List.take_append_drop j.toNat (l.take k.toNat), List.take_take, Nat.min_eq_left (by omega)]
  by_cases hlen : i.toNat ≤ (l.take j.toNat).length
  · conv_rhs => rw [hsplit, List.drop_append_of_le_length hlen]
  · rw [List.length_take] at hlen
    rw [List.drop_eq_nil_of_le, List.drop_eq_nil_of_le, List.drop_eq_nil_of_le]
    · rfl
    all_goals
      rw [List.length_take]
      omega

/-- How characters beyond ASCII are read in a number: decimal digits of other scripts as `0` to `9`,
their blanks as a blank, everything else as a character that no number contains. -/
structure CharTable where
  toAscii : Char → Char
  ascii : ∀ c, c.toNat < 128 → toAscii c = c

def asciiTable : CharTable := ⟨id, fun _ _ => rfl⟩

def isSpace (c : Char) : Bool := c = ' ' || c = '\t' || c = '\n' || c = '\x0b' || c = '\x0c' || c = '\r'

def digitValue (c : Char) : Option Nat :=
  if '0' ≤ c ∧ c ≤ '9' then some (c.toNat - 48)
  else if 'a' ≤ c ∧ c ≤ 'f' then some (c.toNat - 87)
  else if 'A' ≤ c ∧ c ≤ 'F' then some (c.toNat - 55)
  else none

/-- A digit of the base. -/
def digitOf (base : Nat) (c : Char) : Option Nat := (digitValue c).filter (· < base)

/-- The digits after a first digit, with `acc` read so far. -/
def readDigits (base : Nat) : Nat → List Char → Option Nat
  | acc, [] => some acc
  | acc, '_' :: c :: text => (digitOf base c).bind fun d => readDigits base (base * acc + d) text
  | acc, c :: text => (digitOf base c).bind fun d => readDigits base (base * acc + d) text

def readNat (base : Nat) : List Char → Option Nat
  | [] => none
  | c :: text => (digitOf base c).bind fun d => readDigits base d text

/-- The part of a hexadecimal number after its prefix; one underscore may follow the prefix. -/
def dropPrefix (base : Nat) (text : List Char) : List Char :=
  if base = 16 then
    match text with
    | '0' :: 'x' :: '_' :: rest | '0' :: 'X' :: '_' :: rest | '0' :: 'x' :: rest | '0' :: 'X' :: rest => rest
    | _ => text
  else text

def stripSpace (text : List Char) : List Char := ((text.dropWhile isSpace).reverse.dropWhile isSpace).reverse

/-- `int(text, base)`, `none` where it raises. -/
def int (table : CharTable) (base : Nat) (text : List Char) : Option Int :=
  match stripSpace (text.map table.toAscii) with
  | '-' :: digits => (readNat base (dropPrefix base digits)).map fun n => -(n : Int)
  | '+' :: digits => (readNat base (dropPrefix base digits)).map fun n => (n : Int)
  | digits => (readNat base (dropPrefix base digits)).map fun n => (n : Int)

/-- `bytearray.fromhex`: pairs of digits with blanks between them. -/
def fromHex : List Char → Option (List UInt8)
  | [] => some []
  | [c] => if isSpace c then some [] else none
  | c :: d :: text =>
      if isSpace c then fromHex (d :: text)
      else
        match digitOf 16 c, digitOf 16 d, fromHex text with
        | some high, some low, some bytes => some (UInt8.ofNat (16 * high + low) :: bytes)
        | _, _, _ => none

theorem fromHex_append {front : List Char} {bytes : List UInt8} (h : fromHex front = some bytes) (text : List Char) :
    fromHex (front ++ text) = (fromHex text).map (bytes ++ ·) := by
  induction front using fromHex.induct generalizing bytes with
  | case1 =>
      cases h
      simp
  | case2 c hspace =>
      rw [fromHex, if_pos hspace, Option.some_inj] at h
      subst h
      cases text with
      | nil => simp [fromHex, hspace]
      | cons d text => simp [fromHex, hspace]
  | case3 c hspace =>
      rw [fromHex, if_neg hspace] at h
      cases h
  | case4 c d front hspace ih =>
      rw [fromHex, if_pos hspace] at h
      rw [List.cons_append, List.cons_append, fromHex, if_pos hspace]
      exact ih h
  | case5 c d front hspace high low rest hrest hlow hhigh ih =>
      rw [fromHex, if_neg hspace, hhigh, hlow, hrest] at h
      cases h
      rw [List.cons_append, List.cons_append, fromHex, if_neg hspace, hhigh, hlow, ih hrest]
      cases fromHex text <;> rfl
  | case6 c d front hspace hnone ih =>
      rw [fromHex, if_neg hspace] at h
      split at h
      · rename_i hhigh hlow hrest
        exact (hnone _ _ _ hhigh hlow hrest).elim
      · cases h

/-! ### Printed numbers -/

/-- `n` printed in a base, with lower case letters and no prefix. -/
def print (base n : Nat) : List Char := Nat.toDigits base n

theorem mem_print {base n : Nat} (hbase : 1 < base) {c : Char} (h : c ∈ print base n) :
    ∃ d < base, c = Nat.digitChar d := by
  induction n using Nat.strongRecOn with
  | ind n ih =>
      rw [print, Nat.toDigits_eq_if hbase] at h
      split_ifs at h with hlt
      · exact ⟨n, hlt, List.mem_singleton.mp h⟩
      · rcases List.mem_append.mp h with h | h
        · exact ih (n / base) (Nat.div_lt_self (by omega) hbase) h
        · exact ⟨n % base, Nat.mod_lt n (by omega), List.mem_singleton.mp h⟩

theorem digitOf_digitChar {base d : Nat} (hd : d < base) (hbase : base ≤ 16) : digitOf base (Nat.digitChar d) = some d := by
  have hvalue : digitValue (Nat.digitChar d) = some d := by
    have hlt : d < 16 := lt_of_lt_of_le hd hbase
    interval_cases d <;> decide
  rw [digitOf, hvalue, Option.filter_some, if_pos (by simpa using hd)]

/-- A printed digit is none of the characters that are not. -/
theorem digitChar_ne {d : Nat} (hd : d < 16) {c : Char} (hc : digitValue c = none) : Nat.digitChar d ≠ c := by
  intro heq
  have hvalue : (digitValue (Nat.digitChar d)).isSome := by
    interval_cases d <;> decide
  rw [heq, hc] at hvalue
  cases hvalue

theorem not_mem_print {base n : Nat} (hbase : 1 < base) (hbase' : base ≤ 16) {c : Char} (hc : digitValue c = none) :
    c ∉ print base n := by
  intro hmem
  obtain ⟨d, hd, heq⟩ := mem_print hbase hmem
  exact digitChar_ne (lt_of_lt_of_le hd hbase') hc heq.symm

/-- The value of a list of digits. -/
def evalDigits (base : Nat) (text : List Char) (acc : Nat) : Nat :=
  text.foldl (fun acc c => base * acc + (digitValue c).getD 0) acc

theorem digitValue_digitChar {d : Nat} (hd : d < 16) : digitValue (Nat.digitChar d) = some d := by
  interval_cases d <;> decide

theorem evalDigits_print {base : Nat} (hbase : 1 < base) (hbase' : base ≤ 16) (n : Nat) :
    evalDigits base (print base n) 0 = n := by
  induction n using Nat.strongRecOn with
  | ind n ih =>
      rw [print, Nat.toDigits_eq_if hbase]
      split_ifs with hlt
      · simp [evalDigits, digitValue_digitChar (lt_of_lt_of_le hlt hbase')]
      · have hmod : n % base < 16 := lt_of_lt_of_le (Nat.mod_lt n (by omega)) hbase'
        have hrest := ih (n / base) (Nat.div_lt_self (by omega) hbase)
        rw [evalDigits, print] at hrest
        rw [evalDigits, List.foldl_append, hrest, List.foldl_cons, List.foldl_nil, digitValue_digitChar hmod]
        exact Nat.div_add_mod n base

theorem readDigits_eq {base : Nat} (hbase : base ≤ 16) {text : List Char} (acc : Nat)
    (h : ∀ c ∈ text, ∃ d < base, c = Nat.digitChar d) :
    readDigits base acc text = some (evalDigits base text acc) := by
  induction text generalizing acc with
  | nil => rfl
  | cons c text ih =>
      obtain ⟨d, hd, rfl⟩ := h c List.mem_cons_self
      have hne : Nat.digitChar d ≠ '_' := digitChar_ne (lt_of_lt_of_le hd hbase) (by decide)
      rw [readDigits, digitOf_digitChar hd hbase, Option.bind_some, ih _ fun e he => h e (List.mem_cons_of_mem _ he),
        evalDigits, evalDigits, List.foldl_cons, digitValue_digitChar (lt_of_lt_of_le hd hbase)]
      · rfl
      · intro e rest heq
        exact absurd heq hne

theorem readNat_print {base : Nat} (hbase : 1 < base) (hbase' : base ≤ 16) (n : Nat) :
    readNat base (print base n) = some n := by
  have hdigits : ∀ c ∈ print base n, ∃ d < base, c = Nat.digitChar d := fun c hc => mem_print hbase hc
  have heval := evalDigits_print hbase hbase' n
  cases htext : print base n with
  | nil => exact absurd htext Nat.toDigits_ne_nil
  | cons c text =>
      rw [htext] at hdigits heval
      obtain ⟨d, hd, rfl⟩ := hdigits c List.mem_cons_self
      rw [readNat, digitOf_digitChar hd hbase', Option.bind_some,
        readDigits_eq hbase' _ fun e he => hdigits e (List.mem_cons_of_mem _ he)]
      rw [evalDigits, List.foldl_cons, digitValue_digitChar (lt_of_lt_of_le hd hbase'), Nat.mul_zero, Nat.zero_add] at heval
      exact congrArg some heval

theorem dropPrefix_eq {base : Nat} {text : List Char} (hx : 'x' ∉ text) (hX : 'X' ∉ text) : dropPrefix base text = text := by
  unfold dropPrefix
  split_ifs
  · split
    · exact absurd (by simp) hx
    · exact absurd (by simp) hX
    · exact absurd (by simp) hx
    · exact absurd (by simp) hX
    · rfl
  · rfl

theorem isSpace_digitChar {d : Nat} (hd : d < 16) : isSpace (Nat.digitChar d) = false := by
  interval_cases d <;> decide

theorem toNat_digitChar_lt {d : Nat} (hd : d < 16) : (Nat.digitChar d).toNat < 128 := by
  interval_cases d <;> decide

theorem dropWhile_isSpace {text : List Char} (h : ∀ c ∈ text, isSpace c = false) : text.dropWhile isSpace = text := by
  cases text with
  | nil => rfl
  | cons c text => rw [List.dropWhile_cons_of_neg (by simp [h c List.mem_cons_self])]

theorem isSpace_of_mem_print {base n : Nat} (hbase : 1 < base) (hbase' : base ≤ 16) {c : Char} (h : c ∈ print base n) :
    isSpace c = false := by
  obtain ⟨d, hd, rfl⟩ := mem_print hbase h
  exact isSpace_digitChar (lt_of_lt_of_le hd hbase')

theorem map_toAscii_print (table : CharTable) {base : Nat} (hbase : 1 < base) (hbase' : base ≤ 16) (n : Nat) :
    (print base n).map table.toAscii = print base n := by
  rw [List.map_congr_left (g := id), List.map_id]
  intro c hc
  obtain ⟨d, hd, rfl⟩ := mem_print hbase hc
  exact table.ascii _ (toNat_digitChar_lt (lt_of_lt_of_le hd hbase'))

theorem stripSpace_eq {text : List Char} (h : ∀ c ∈ text, isSpace c = false) : stripSpace text = text := by
  rw [stripSpace, dropWhile_isSpace h, dropWhile_isSpace, List.reverse_reverse]
  exact fun c hc => h c (List.mem_reverse.mp hc)

/-- Reading back a printed number. -/
theorem int_print (table : CharTable) {base : Nat} (hbase : 1 < base) (hbase' : base ≤ 16) (n : Nat) :
    int table base (print base n) = some (n : Int) := by
  have hstrip : stripSpace (print base n) = print base n := stripSpace_eq fun c hc => isSpace_of_mem_print hbase hbase' hc
  have hnot : ∀ c, digitValue c = none → c ∉ print base n := fun c hc => not_mem_print hbase hbase' hc
  rw [int, map_toAscii_print table hbase hbase', hstrip]
  split
  · rename_i digits heq
    exact absurd (by rw [heq]; exact List.mem_cons_self) (hnot '-' (by decide))
  · rename_i digits heq
    exact absurd (by rw [heq]; exact List.mem_cons_self) (hnot '+' (by decide))
  · rw [dropPrefix_eq (hnot 'x' (by decide)) (hnot 'X' (by decide)), readNat_print hbase hbase' n]
    rfl

theorem int_minus_print (table : CharTable) {base : Nat} (hbase : 1 < base) (hbase' : base ≤ 16) (n : Nat) :
    int table base ('-' :: print base n) = some (-(n : Int)) := by
  have hspace : ∀ c ∈ '-' :: print base n, isSpace c = false :=
    List.forall_mem_cons.mpr ⟨by decide, fun c hc => isSpace_of_mem_print hbase hbase' hc⟩
  have hnot : ∀ c, digitValue c = none → c ∉ print base n := fun c hc => not_mem_print hbase hbase' hc
  rw [int, List.map_cons, table.ascii '-' (by decide), map_toAscii_print table hbase hbase', stripSpace_eq hspace]
  simp only [dropPrefix_eq (hnot 'x' (by decide)) (hnot 'X' (by decide)), readNat_print hbase hbase' n]
  rfl

/-! ### Printed bytes -/

/-- A byte printed with two hexadecimal digits. -/
def printByte (b : UInt8) : List Char := [Nat.digitChar (b.toNat / 16), Nat.digitChar (b.toNat % 16)]

theorem fromHex_printByte (b : UInt8) (text : List Char) :
    fromHex (printByte b ++ text) = (fromHex text).map (b :: ·) := by
  have hlt := b.toNat_lt
  have hhigh : b.toNat / 16 < 16 := by omega
  have hlow : b.toNat % 16 < 16 := by omega
  have hbyte : UInt8.ofNat (16 * (b.toNat / 16) + b.toNat % 16) = b := by
    rw [Nat.div_add_mod, UInt8.ofNat_toNat]
  rw [printByte, List.cons_append, List.cons_append, List.nil_append, fromHex, if_neg (by simp [isSpace_digitChar hhigh]),
    digitOf_digitChar hhigh (le_refl 16), digitOf_digitChar hlow (le_refl 16)]
  cases fromHex text with
  | none => rfl
  | some bytes =>
      show some (UInt8.ofNat (16 * (b.toNat / 16) + b.toNat % 16) :: bytes) = _
      rw [hbyte]
      rfl

/-- Reading back printed bytes. -/
theorem fromHex_flatMap (bytes : List UInt8) : fromHex (bytes.flatMap printByte) = some bytes := by
  induction bytes with
  | nil => rfl
  | cons b bytes ih => rw [List.flatMap_cons, fromHex_printByte, ih, Option.map_some]

end PythonText

end Witcher
