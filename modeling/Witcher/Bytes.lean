import Mathlib.Data.List.Basic

/-! Byte stores written by patches. A patch overwrites a range in place and never changes the
length, so after any list of patches each cell holds the last write that covers it, or what it held
before. Two lists of patches that agree, in order, on the writes covering a cell leave the same
value there: the writes to other cells may be reordered freely. -/

namespace Witcher.Bytes

variable {α : Type}

/-- The cells from `offset` on replaced by `bytes`. -/
def patch (file : List α) (offset : Nat) (bytes : List α) : List α :=
  file.take offset ++ bytes ++ file.drop (offset + bytes.length)

theorem length_patch (file : List α) (offset : Nat) (bytes : List α)
    (hfit : offset + bytes.length ≤ file.length) : (patch file offset bytes).length = file.length := by
  simp only [patch, List.length_append, List.length_take, List.length_drop]
  omega

theorem getElem?_patch (file : List α) (offset : Nat) (bytes : List α)
    (hfit : offset + bytes.length ≤ file.length) (i : Nat) :
    (patch file offset bytes)[i]? =
      if offset ≤ i ∧ i < offset + bytes.length then bytes[i - offset]? else file[i]? := by
  have htake : (file.take offset).length = offset := by
    rw [List.length_take]
    omega
  rw [patch, List.append_assoc]
  by_cases hlow : i < offset
  · rw [List.getElem?_append_left (by omega), List.getElem?_take_of_lt hlow, if_neg (by omega)]
  · rw [List.getElem?_append_right (by omega), htake]
    by_cases hhigh : i < offset + bytes.length
    · rw [List.getElem?_append_left (by omega), if_pos (by omega)]
    · rw [List.getElem?_append_right (by omega), List.getElem?_drop, if_neg (by omega)]
      congr 1
      omega

/-- One write: where it starts and the cells it puts there. -/
structure Write (α : Type) where
  offset : Nat
  bytes : List α
  deriving DecidableEq, Repr

/-- What the write puts into cell `i`, if it covers it. -/
def Write.read (w : Write α) (i : Nat) : Option α :=
  if w.offset ≤ i then w.bytes[i - w.offset]? else none

def Write.Fits (length : Nat) (w : Write α) : Prop := w.offset + w.bytes.length ≤ length

theorem Write.read_of_not_covered (w : Write α) (i : Nat)
    (h : ¬(w.offset ≤ i ∧ i < w.offset + w.bytes.length)) : w.read i = none := by
  unfold Write.read
  split_ifs with hlow
  · exact List.getElem?_eq_none (by omega)
  · rfl

theorem Write.getElem?_patch (w : Write α) (file : List α) (hfit : w.Fits file.length) (i : Nat) :
    (patch file w.offset w.bytes)[i]? = (w.read i).or file[i]? := by
  rw [Bytes.getElem?_patch file w.offset w.bytes hfit]
  by_cases h : w.offset ≤ i ∧ i < w.offset + w.bytes.length
  · have hi : i - w.offset < w.bytes.length := by omega
    rw [if_pos h, Write.read, if_pos h.1, List.getElem?_eq_getElem hi]
    rfl
  · rw [if_neg h, w.read_of_not_covered i h]
    rfl

def applyWrites (file : List α) (ws : List (Write α)) : List α :=
  ws.foldl (fun file w => patch file w.offset w.bytes) file

/-- The value of the last write of the list that covers cell `i`. -/
def lastWrite : List (Write α) → Nat → Option α
  | [], _ => none
  | w :: ws, i => (lastWrite ws i).or (w.read i)

theorem applyWrites_append (file : List α) (ws vs : List (Write α)) :
    applyWrites file (ws ++ vs) = applyWrites (applyWrites file ws) vs := by
  simp only [applyWrites, List.foldl_append]

theorem length_applyWrites (file : List α) (ws : List (Write α))
    (hfit : ∀ w ∈ ws, w.Fits file.length) : (applyWrites file ws).length = file.length := by
  induction ws generalizing file with
  | nil => rfl
  | cons w ws ih =>
      have hlen := length_patch file w.offset w.bytes (hfit w List.mem_cons_self)
      rw [applyWrites, List.foldl_cons, ← applyWrites, ih _ fun v hv => ?_, hlen]
      rw [hlen]
      exact hfit v (List.mem_cons_of_mem w hv)

/-- Each cell holds the last write to it, or its initial content. -/
theorem getElem?_applyWrites (file : List α) (ws : List (Write α))
    (hfit : ∀ w ∈ ws, w.Fits file.length) (i : Nat) :
    (applyWrites file ws)[i]? = (lastWrite ws i).or file[i]? := by
  induction ws generalizing file with
  | nil => rfl
  | cons w ws ih =>
      have hw := hfit w List.mem_cons_self
      have hlen := length_patch file w.offset w.bytes hw
      have hrest : ∀ v ∈ ws, v.Fits (patch file w.offset w.bytes).length := by
        intro v hv
        rw [hlen]
        exact hfit v (List.mem_cons_of_mem w hv)
      rw [applyWrites, List.foldl_cons, ← applyWrites, ih _ hrest, w.getElem?_patch file hw, lastWrite,
        Option.or_assoc]

theorem lastWrite_append (ws vs : List (Write α)) (i : Nat) :
    lastWrite (ws ++ vs) i = (lastWrite vs i).or (lastWrite ws i) := by
  induction ws with
  | nil => simp only [List.nil_append, lastWrite, Option.or_none]
  | cons w ws ih => rw [List.cons_append, lastWrite, ih, lastWrite, Option.or_assoc]

/-- Writes that do not cover a cell do not matter for it. -/
theorem lastWrite_map_filter {β : Type} (w : β → Write α) (p : β → Bool) (l : List β) (i : Nat)
    (h : ∀ b ∈ l, p b = false → (w b).read i = none) :
    lastWrite ((l.filter p).map w) i = lastWrite (l.map w) i := by
  induction l with
  | nil => rfl
  | cons b l ih =>
      have hrest := ih fun c hc => h c (List.mem_cons_of_mem b hc)
      by_cases hb : p b = true
      · rw [List.filter_cons_of_pos hb, List.map_cons, List.map_cons, lastWrite, lastWrite, hrest]
      · have hnone := h b List.mem_cons_self (by simpa using hb)
        rw [List.filter_cons_of_neg hb, hrest, List.map_cons, lastWrite, hnone, Option.or_none]

end Witcher.Bytes
