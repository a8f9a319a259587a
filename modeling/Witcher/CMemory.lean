import Mathlib.Algebra.Group.Nat.Defs
import Mathlib.Data.List.Basic

/-! Memory as C sees it: bytes at addresses, blocks that are written, and strings that end with a zero byte. -/

namespace Witcher.CMemory

abbrev Memory := Nat → UInt8

/-- Addresses have 64 bits. -/
def addressSpace : Nat := 2 ^ 64

def readBytes (mem : Memory) (p length : Nat) : List UInt8 := (List.range length).map fun i => mem (p + i)

def writeBytes (mem : Memory) (p : Nat) (bytes : List UInt8) : Memory := fun a =>
  if p ≤ a ∧ a < p + bytes.length then bytes.getD (a - p) 0 else mem a

@[simp] theorem length_readBytes (mem : Memory) (p length : Nat) : (readBytes mem p length).length = length := by
  simp [readBytes]

theorem getElem?_readBytes (mem : Memory) (p length i : Nat) :
    (readBytes mem p length)[i]? = if i < length then some (mem (p + i)) else none := by
  rw [readBytes, List.getElem?_map]
  split_ifs with hi
  · rw [List.getElem?_range hi, Option.map_some]
  · rw [List.getElem?_eq_none (by simpa using Nat.le_of_not_lt hi), Option.map_none]

theorem writeBytes_inside {mem : Memory} {p i : Nat} {bytes : List UInt8} {b : UInt8} (h : bytes[i]? = some b) :
    writeBytes mem p bytes (p + i) = b := by
  have hi := (List.getElem?_eq_some_iff.mp h).choose
  rw [writeBytes, if_pos (by omega), Nat.add_sub_cancel_left, List.getD_eq_getElem?_getD, h, Option.getD_some]

theorem writeBytes_outside {mem : Memory} {p a : Nat} {bytes : List UInt8} (h : a < p ∨ p + bytes.length ≤ a) :
    writeBytes mem p bytes a = mem a := by
  rw [writeBytes, if_neg (by omega)]

theorem readBytes_writeBytes (mem : Memory) (p : Nat) (bytes : List UInt8) :
    readBytes (writeBytes mem p bytes) p bytes.length = bytes := by
  apply List.ext_getElem?
  intro i
  rw [getElem?_readBytes]
  split_ifs with hi
  · rw [writeBytes_inside (List.getElem?_eq_getElem hi), List.getElem?_eq_getElem hi]
  · rw [List.getElem?_eq_none (Nat.le_of_not_lt hi)]

/-! ### Strings -/

/-- A string of length `n` starts at `p`. -/
structure IsString (mem : Memory) (p n : Nat) : Prop where
  terminated : mem (p + n) = 0
  nonzero : ∀ i < n, mem (p + i) ≠ 0

theorem IsString.congr {mem mem' : Memory} {p n : Nat} (h : IsString mem p n) (heq : ∀ i ≤ n, mem' (p + i) = mem (p + i)) :
    IsString mem' p n where
  terminated := by rw [heq n (Nat.le_refl n), h.terminated]
  nonzero i hi := by
    rw [heq i (Nat.le_of_lt hi)]
    exact h.nonzero i hi

theorem IsString.zero_iff {mem : Memory} {p n : Nat} (h : IsString mem p n) : mem p = 0 ↔ n = 0 := by
  constructor
  · intro hzero
    by_contra hn
    exact h.nonzero 0 (Nat.pos_of_ne_zero hn) hzero
  · rintro rfl
    exact h.terminated

/-- A copy of a string. -/
theorem IsString.copy {mem : Memory} {src n : Nat} (h : IsString mem src n) (dst : Nat) :
    IsString (writeBytes mem dst (readBytes mem src (n + 1))) dst n := by
  have hcopy : ∀ i ≤ n, writeBytes mem dst (readBytes mem src (n + 1)) (dst + i) = mem (src + i) := by
    intro i hi
    exact writeBytes_inside (by rw [getElem?_readBytes, if_pos (by omega)])
  refine ⟨by rw [hcopy n (Nat.le_refl n), h.terminated], fun i hi => ?_⟩
  rw [hcopy i (Nat.le_of_lt hi)]
  exact h.nonzero i hi

/-- A copy of a string at the end of another one. -/
theorem IsString.concat {mem : Memory} {src dst n m : Nat} (hdst : IsString mem dst n) (hsrc : IsString mem src m) :
    IsString (writeBytes mem (dst + n) (readBytes mem src (m + 1))) dst (n + m) := by
  have hcopy := hsrc.copy (dst + n)
  refine ⟨by rw [← Nat.add_assoc, hcopy.terminated], fun i hi => ?_⟩
  by_cases hin : i < n
  · rw [writeBytes_outside (by omega)]
    exact hdst.nonzero i hin
  · have heq : dst + i = dst + n + (i - n) := by omega
    rw [heq]
    exact hcopy.nonzero (i - n) (by omega)

def strlenLoop (mem : Memory) : Nat → Nat → Option Nat
  | 0, _ => none
  | fuel + 1, p => if mem p = 0 then some 0 else (strlenLoop mem fuel (p + 1)).map (· + 1)

/-- `strlen`; `none` if there is no terminator up to the end of the memory. -/
def strlen (mem : Memory) (p : Nat) : Option Nat := strlenLoop mem (addressSpace - p) p

theorem strlenLoop_eq {mem : Memory} {fuel p n : Nat} (h : IsString mem p n) (hfuel : n < fuel) :
    strlenLoop mem fuel p = some n := by
  induction n generalizing fuel p with
  | zero =>
      cases fuel with
      | zero => omega
      | succ fuel =>
          have hzero : mem p = 0 := h.terminated
          rw [strlenLoop, if_pos hzero]
  | succ n ih =>
      cases fuel with
      | zero => omega
      | succ fuel =>
          have hshift : ∀ i, p + 1 + i = p + (i + 1) := fun i => by omega
          have htail : IsString mem (p + 1) n :=
            ⟨by rw [hshift, h.terminated], fun i hi => by rw [hshift]; exact h.nonzero (i + 1) (by omega)⟩
          have hfirst : mem p ≠ 0 := h.nonzero 0 (Nat.succ_pos n)
          rw [strlenLoop, if_neg hfirst, ih htail (by omega), Option.map_some]

theorem strlen_eq {mem : Memory} {p n : Nat} (h : IsString mem p n) (hspace : p + n < addressSpace) : strlen mem p = some n :=
  strlenLoop_eq h (by omega)

end Witcher.CMemory
