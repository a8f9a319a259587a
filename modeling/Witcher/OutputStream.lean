import Witcher.PythonText

/-! A formatted output stream, as `std::ostream` is one. The base and the fill character stay as they were
set; the width applies to the next item only. -/

namespace Witcher.OutputStream

open PythonText

structure OStream where
  text : List Char
  base : Nat
  fill : Char
  width : Nat
  deriving DecidableEq, Repr

namespace OStream

def empty : OStream := ⟨[], 10, ' ', 0⟩

def dec (out : OStream) : OStream := { out with base := 10 }

def hex (out : OStream) : OStream := { out with base := 16 }

def setfill (out : OStream) (c : Char) : OStream := { out with fill := c }

def setw (out : OStream) (n : Nat) : OStream := { out with width := n }

/-- `out << str`, filled up on the left. -/
def puts (out : OStream) (str : List Char) : OStream :=
  { out with text := out.text ++ List.replicate (out.width - str.length) out.fill ++ str, width := 0 }

/-- `out << n` for an unsigned number. -/
def num (out : OStream) (n : Nat) : OStream := out.puts (print out.base n)

def endl (out : OStream) : OStream := { out with text := out.text ++ ['\n'] }

/-- The text grew by `added`, and no width is pending. -/
structure Wrote (out out' : OStream) (added : List Char) : Prop where
  width : out.width = 0
  text : out'.text = out.text ++ added
  width' : out'.width = 0

theorem Wrote.refl {out : OStream} (h : out.width = 0) : Wrote out out [] := ⟨h, by simp, h⟩

theorem Wrote.puts {out out' : OStream} {added : List Char} (h : Wrote out out' added) (str : List Char) :
    Wrote out (out'.puts str) (added ++ str) where
  width := h.width
  text := by
    simp [OStream.puts, h.text, h.width']
  width' := rfl

theorem Wrote.num_dec {out out' : OStream} {added : List Char} (h : Wrote out out' added) (n : Nat) :
    Wrote out (out'.dec.num n) (added ++ print 10 n) where
  width := h.width
  text := by
    simp [OStream.num, OStream.puts, OStream.dec, h.text, h.width']
  width' := rfl

theorem Wrote.num_hex {out out' : OStream} {added : List Char} (h : Wrote out out' added) (n : Nat) :
    Wrote out (out'.hex.num n) (added ++ print 16 n) where
  width := h.width
  text := by
    simp [OStream.num, OStream.puts, OStream.hex, h.text, h.width']
  width' := rfl

theorem Wrote.endl {out out' : OStream} {added : List Char} (h : Wrote out out' added) :
    Wrote out out'.endl (added ++ ['\n']) where
  width := h.width
  text := by
    simp [OStream.endl, h.text]
  width' := h.width'

theorem Wrote.trans {out out' out'' : OStream} {added added' : List Char} (h : Wrote out out' added)
    (h' : Wrote out' out'' added') : Wrote out out'' (added ++ added') where
  width := h.width
  text := by
    rw [h'.text, h.text, List.append_assoc]
  width' := h'.width'

/-! ### Bytes -/

/-- A byte in hexadecimal, filled up to two digits. -/
def byte (out : OStream) (b : UInt8) : OStream := ((out.hex.setfill '0').setw 2).num b.toNat

theorem print_byte (b : UInt8) :
    List.replicate (2 - (print 16 b.toNat).length) '0' ++ print 16 b.toNat = printByte b := by
  have hall : ∀ n < 256, List.replicate (2 - (print 16 n).length) '0' ++ print 16 n =
      [Nat.digitChar (n / 16), Nat.digitChar (n % 16)] := by decide +kernel
  exact hall b.toNat b.toNat_lt

theorem Wrote.byte {out out' : OStream} {added : List Char} (h : Wrote out out' added) (b : UInt8) :
    Wrote out (out'.byte b) (added ++ printByte b) where
  width := h.width
  text := by
    rw [← print_byte b]
    simp [OStream.byte, OStream.num, OStream.puts, OStream.setw, OStream.setfill, OStream.hex, h.text]
  width' := rfl

/-- Bytes each followed by a blank. -/
theorem Wrote.bytes {out out' : OStream} {added : List Char} (h : Wrote out out' added) (bytes : List UInt8) :
    Wrote out (bytes.foldl (fun out b => (out.byte b).puts [' ']) out')
      (added ++ bytes.flatMap fun b => printByte b ++ [' ']) := by
  induction bytes generalizing out' added with
  | nil => simpa using h
  | cons b bytes ih =>
      have hrest := ih ((h.byte b).puts [' '])
      rw [List.foldl_cons, List.flatMap_cons]
      simpa using hrest

end OStream

end Witcher.OutputStream
