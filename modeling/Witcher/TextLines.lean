import Mathlib.Data.List.Basic

/-! Lines of a text file. A file opened as text is read line by line with universal newlines: a
carriage return, alone or before a newline, is read as a newline. A line keeps its terminator; the
last one may lack it. A text can also be read whole and split at its newlines. -/

namespace Witcher.TextLines

def universalNewlines : List Char → List Char
  | [] => []
  | '\r' :: '\n' :: cs => '\n' :: universalNewlines cs
  | '\r' :: cs => '\n' :: universalNewlines cs
  | c :: cs => c :: universalNewlines cs

/-- The lines of a text, `current` being read of the first one. -/
def linesFrom : List Char → List Char → List (List Char)
  | [], [] => []
  | current, [] => [current]
  | current, c :: cs => if c = '\n' then (current ++ ['\n']) :: linesFrom [] cs else linesFrom (current ++ [c]) cs

/-- `for line in f`. -/
def fileLines (text : List Char) : List (List Char) := linesFrom [] (universalNewlines text)

theorem universalNewlines_eq {text : List Char} (h : '\r' ∉ text) : universalNewlines text = text := by
  induction text with
  | nil => rfl
  | cons c cs ih =>
      have hc : c ≠ '\r' := by
        rintro rfl
        exact h List.mem_cons_self
      have hrest := ih fun hmem => h (List.mem_cons_of_mem c hmem)
      rw [universalNewlines, hrest]
      · rintro rest rfl
        exact absurd rfl hc
      · exact hc

theorem linesFrom_append {line : List Char} (h : '\n' ∉ line) (current rest : List Char) :
    linesFrom current (line ++ '\n' :: rest) = (current ++ line ++ ['\n']) :: linesFrom [] rest := by
  induction line generalizing current with
  | nil => simp [linesFrom]
  | cons c line ih =>
      have hc : c ≠ '\n' := by
        rintro rfl
        exact h List.mem_cons_self
      have hline : '\n' ∉ line := fun hmem => h (List.mem_cons_of_mem c hmem)
      rw [List.cons_append, linesFrom, if_neg hc, ih hline]
      simp

/-- Terminated lines are read back one by one. -/
theorem fileLines_flatMap {lines : List (List Char)} (h : ∀ line ∈ lines, '\n' ∉ line ∧ '\r' ∉ line) :
    fileLines (lines.flatMap (· ++ ['\n'])) = lines.map (· ++ ['\n']) := by
  have hreturn : '\r' ∉ lines.flatMap (· ++ ['\n']) := by
    intro hmem
    obtain ⟨line, hline, hmem⟩ := List.mem_flatMap.mp hmem
    rcases List.mem_append.mp hmem with hmem | hmem
    · exact (h line hline).2 hmem
    · exact absurd (List.mem_singleton.mp hmem) (by decide)
  rw [fileLines, universalNewlines_eq hreturn]
  clear hreturn
  induction lines with
  | nil => rfl
  | cons line lines ih =>
      have hrest := ih fun l hl => h l (List.mem_cons_of_mem line hl)
      rw [List.flatMap_cons, List.append_assoc, List.singleton_append, linesFrom_append (h line List.mem_cons_self).1,
        hrest, List.nil_append, List.map_cons]

/-! ### Splitting at a character -/

/-- The pieces of a split hold the characters that were not split at. -/
theorem mem_of_mem_splitOn {sep c : Char} {text piece : List Char} (hpiece : piece ∈ text.splitOn sep) (hc : c ∈ piece) :
    c ∈ text ∧ c ≠ sep := by
  induction text generalizing piece with
  | nil =>
      rw [List.splitOn_nil, List.mem_singleton] at hpiece
      rw [hpiece] at hc
      cases hc
  | cons x text ih =>
      rw [List.splitOn_cons_eq_if_modifyHead] at hpiece
      split_ifs at hpiece with hx
      · rcases List.mem_cons.mp hpiece with rfl | hpiece
        · cases hc
        · exact ⟨List.mem_cons_of_mem x (ih hpiece hc).1, (ih hpiece hc).2⟩
      · have hne : x ≠ sep := by simpa using hx
        cases hsplit : text.splitOn sep with
        | nil =>
            rw [hsplit] at hpiece
            cases hpiece
        | cons first rest =>
            rw [hsplit, List.modifyHead_cons] at hpiece
            rw [hsplit] at ih
            rcases List.mem_cons.mp hpiece with rfl | hpiece
            · rcases List.mem_cons.mp hc with rfl | hc
              · exact ⟨List.mem_cons_self, hne⟩
              · exact ⟨List.mem_cons_of_mem x (ih List.mem_cons_self hc).1, (ih List.mem_cons_self hc).2⟩
            · have hrest := ih (List.mem_cons_of_mem first hpiece) hc
              exact ⟨List.mem_cons_of_mem x hrest.1, hrest.2⟩

theorem mem_intercalate {sep c : Char} {pieces : List (List Char)} (h : c ∈ [sep].intercalate pieces) :
    c = sep ∨ ∃ piece ∈ pieces, c ∈ piece := by
  induction pieces with
  | nil => cases h
  | cons piece pieces ih =>
      by_cases hnil : pieces = []
      · rw [hnil, List.intercalate_singleton] at h
        exact .inr ⟨piece, List.mem_cons_self, h⟩
      · rw [List.intercalate_cons_of_ne_nil hnil] at h
        rcases List.mem_append.mp h with h | h
        · rcases List.mem_append.mp h with h | h
          · exact .inr ⟨piece, List.mem_cons_self, h⟩
          · exact .inl (List.mem_singleton.mp h)
        · rcases ih h with h | ⟨p, hp, hc⟩
          · exact .inl h
          · exact .inr ⟨p, List.mem_cons_of_mem piece hp, hc⟩

/-- Terminated lines are split back one by one. -/
theorem splitOn_flatMap {sep : Char} {lines : List (List Char)} (h : ∀ line ∈ lines, sep ∉ line) :
    (lines.flatMap (· ++ [sep])).splitOn sep = lines ++ [[]] := by
  induction lines with
  | nil => rfl
  | cons line lines ih =>
      rw [List.flatMap_cons, List.append_assoc, List.singleton_append,
        List.splitOn_append_cons_self_of_not_mem (h line List.mem_cons_self),
        ih fun l hl => h l (List.mem_cons_of_mem line hl), List.cons_append]

theorem not_mem_universalNewlines (text : List Char) : '\r' ∉ universalNewlines text := by
  fun_induction universalNewlines text <;> simp_all [eq_comm]

end Witcher.TextLines
