import Witcher.PythonText

/-! Decimal text. What `str` writes is read back by `int`, and numbers that are joined by a separator come apart again. -/

namespace Witcher.DecimalText

open PythonText

/-- `str(n)`. -/
def str (n : Nat) : List Char := Nat.toDigits 10 n

theorem isDigit_of_mem_str {n : Nat} {c : Char} (h : c ∈ str n) : c.isDigit = true :=
  Nat.isDigit_of_mem_toDigits (by decide) (by decide) h

theorem not_mem_str_of_not_isDigit {n : Nat} {c : Char} (h : c.isDigit = false) : c ∉ str n := by
  intro hmem
  rw [isDigit_of_mem_str hmem] at h
  cases h

theorem int_str (table : CharTable) (n : Nat) : int table 10 (str n) = some (n : Int) :=
  int_print table (by decide) (by decide) n

/-- Numbers joined by a separator that is no digit come apart again. -/
theorem splitOn_three (sep : Char) (hsep : sep.isDigit = false) (a b c : Nat) :
    (str a ++ sep :: (str b ++ sep :: str c)).splitOn sep = [str a, str b, str c] := by
  rw [List.splitOn_append_cons_self_of_not_mem, List.splitOn_append_cons_self_of_not_mem, List.splitOn_eq_singleton]
  all_goals exact not_mem_str_of_not_isDigit hsep

end Witcher.DecimalText
