import Mathlib.Data.List.Infix
import Witcher.PythonText

/-! Searching a text for a pattern: the first place where it occurs, and slices around such places. An
occurrence cannot reach over a character that the pattern does not contain. -/

namespace Witcher.TextSearch

open PythonText

def findIdx (pattern : List Char) : List Char → Option Nat
  | [] => if pattern.isEmpty then some 0 else none
  | c :: text => if pattern.isPrefixOf (c :: text) then some 0 else (findIdx pattern text).map (· + 1)

/-- `text.find(pattern)`. -/
def find (pattern text : List Char) : Int :=
  match findIdx pattern text with
  | some i => i
  | none => -1

/-- `pattern in text`. -/
def contains (pattern text : List Char) : Bool := (findIdx pattern text).isSome

theorem contains_iff {pattern text : List Char} : contains pattern text = true ↔ pattern <:+: text := by
  induction text with
  | nil => simp [contains, findIdx]
  | cons c text ih =>
      rw [List.infix_cons_iff, ← ih, contains, contains, findIdx, ← List.isPrefixOf_iff_prefix]
      split_ifs with h <;> simp [h]

/-! ### Occurrences and separators -/

variable {pattern : List Char} {sep : Char}

theorem prefix_of_append (hsep : sep ∉ pattern) {front rest : List Char} (h : pattern <+: front ++ sep :: rest) :
    pattern <+: front := by
  have hwhole : front ++ [sep] <+: front ++ sep :: rest := by
    rw [List.prefix_append_right_inj]
    exact ⟨rest, rfl⟩
  rcases List.prefix_or_prefix_of_prefix h hwhole with hle | hle
  · rcases List.prefix_concat_iff.mp hle with heq | hle
    · exact absurd (heq ▸ List.mem_append_right front List.mem_cons_self) hsep
    · exact hle
  · exact absurd (hle.subset (List.mem_append_right front List.mem_cons_self)) hsep

theorem infix_append (hsep : sep ∉ pattern) {front rest : List Char} (h : pattern <:+: front ++ sep :: rest) :
    pattern <:+: front ∨ pattern <:+: rest := by
  induction front with
  | nil =>
      rw [List.nil_append, List.infix_cons_iff] at h
      rcases h with h | h
      · exact .inl (prefix_of_append hsep h).isInfix
      · exact .inr h
  | cons c front ih =>
      rw [List.cons_append, List.infix_cons_iff] at h
      rcases h with h | h
      · exact .inl (prefix_of_append hsep h).isInfix
      · rcases ih h with h | h
        · exact .inl (h.trans (List.suffix_cons c front).isInfix)
        · exact .inr h

theorem not_infix_of_not_mem {c : Char} {text : List Char} (hpattern : c ∈ pattern) (htext : c ∉ text) : ¬pattern <:+: text :=
  fun h => htext (h.subset hpattern)

/-! ### The place of a pattern -/

/-- A character is found behind a text that does not contain it. -/
theorem find_char {c : Char} {front : List Char} (h : c ∉ front) (rest : List Char) :
    find [c] (front ++ c :: rest) = front.length := by
  have hidx : findIdx [c] (front ++ c :: rest) = some front.length := by
    induction front with
    | nil => simp [findIdx]
    | cons d front ih =>
        have hd : ¬c = d := fun heq => h (heq ▸ List.mem_cons_self)
        rw [List.cons_append, findIdx, ih fun hmem => h (List.mem_cons_of_mem d hmem), if_neg (by simpa using hd)]
        simp
  rw [find, hidx]

/-- A pattern is found behind a separator, when it does not occur before it. -/
theorem find_pattern (hsep : sep ∉ pattern) {front : List Char} (hfront : ¬pattern <:+: front) (rest : List Char) :
    find pattern (front ++ sep :: (pattern ++ rest)) = front.length + 1 := by
  have hhere : findIdx pattern (pattern ++ rest) = some 0 := by
    cases htext : pattern ++ rest with
    | nil => simp [findIdx, (List.append_eq_nil_iff.mp htext).1]
    | cons c text =>
        rw [findIdx, if_pos]
        rw [← htext, List.isPrefixOf_iff_prefix]
        exact List.prefix_append pattern rest
  have hidx : findIdx pattern (front ++ sep :: (pattern ++ rest)) = some (front.length + 1) := by
    induction front with
    | nil =>
        have hnot : ¬pattern.isPrefixOf (sep :: (pattern ++ rest)) = true := by
          rw [List.isPrefixOf_iff_prefix]
          intro hle
          exact hfront (prefix_of_append hsep hle).isInfix
        rw [List.nil_append, findIdx, if_neg hnot, hhere]
        rfl
    | cons c front ih =>
        have hnot : ¬pattern.isPrefixOf (c :: (front ++ sep :: (pattern ++ rest))) = true := by
          rw [List.isPrefixOf_iff_prefix]
          intro hle
          exact hfront (prefix_of_append hsep hle).isInfix
        rw [List.cons_append, findIdx, if_neg hnot, ih fun h => hfront (h.trans (List.suffix_cons c front).isInfix)]
        simp
  rw [find, hidx]
  rfl

/-! ### Slices around places -/

theorem slice_middle {α : Type} (front middle back : List α) :
    slice (front ++ (middle ++ back)) front.length (front.length + middle.length) = middle := by
  rw [← Nat.cast_add, slice_natCast, ← List.append_assoc, ← List.length_append, List.take_left, List.drop_left]

/-- A slice up to a number of characters before the end. -/
theorem slice_before {α : Type} (front middle : List α) {back : List α} (hback : back ≠ []) :
    slice (front ++ (middle ++ back)) front.length (-back.length) = middle := by
  have hpos : 0 < back.length := List.length_pos_iff.mpr hback
  have hbound : sliceBound (front ++ (middle ++ back)).length (-back.length) = front.length + middle.length := by
    rw [sliceBound, if_pos (by omega), List.length_append, List.length_append]
    omega
  have hbound' : sliceBound (front ++ (middle ++ back)).length front.length = front.length := by
    rw [sliceBound, if_neg (by omega), List.length_append]
    omega
  rw [slice, hbound, hbound', ← List.append_assoc, ← List.length_append, List.take_left, List.drop_left]

end Witcher.TextSearch
