import Mathlib.Data.List.Basic

/-! Text files as bytes. An encoding gives a character its bytes, if it has any; what is read are the characters whose bytes
are found, and the bytes in between are passed over, as by a reader that ignores errors. -/

namespace Witcher

structure Encoding where
  encode : Char → Option (List UInt8)
  decode : List UInt8 → List Char
  decode_nil : decode [] = []
  decode_append : ∀ c bytes rest, encode c = some bytes → decode (bytes ++ rest) = c :: decode rest
  encode_newline : encode '\n' = some [10]

namespace Encoding

variable (e : Encoding)

/-- The bytes of a text, unless a character has none. -/
def encodeText : List Char → Option (List UInt8)
  | [] => some []
  | c :: text => (e.encode c).bind fun bytes => (encodeText text).map fun rest => bytes ++ rest

variable {e} {text text' : List Char} {bytes rest : List UInt8}

theorem encodeText_cons_iff {c : Char} :
    e.encodeText (c :: text) = some bytes ↔
      ∃ first back, e.encode c = some first ∧ e.encodeText text = some back ∧ bytes = first ++ back := by
  rw [encodeText]
  constructor
  · intro h
    obtain ⟨first, hfirst, hback⟩ := Option.bind_eq_some_iff.mp h
    obtain ⟨back, htext, rfl⟩ := Option.map_eq_some_iff.mp hback
    exact ⟨first, back, hfirst, htext, rfl⟩
  · rintro ⟨first, back, hfirst, hback, rfl⟩
    rw [hfirst, hback]
    rfl

/-- A text is read in front of whatever follows. -/
theorem decode_encodeText (h : e.encodeText text = some bytes) : e.decode (bytes ++ rest) = text ++ e.decode rest := by
  induction text generalizing bytes with
  | nil =>
      cases h
      rfl
  | cons c text ih =>
      obtain ⟨first, back, hfirst, hback, rfl⟩ := encodeText_cons_iff.mp h
      rw [List.append_assoc, e.decode_append c first _ hfirst, ih hback, List.cons_append]

/-- A text is what is read of its bytes. -/
theorem decode_eq (h : e.encodeText text = some bytes) : e.decode bytes = text := by
  rw [← List.append_nil bytes, decode_encodeText h, e.decode_nil, List.append_nil]

theorem decode_newline : e.decode (10 :: rest) = '\n' :: e.decode rest :=
  e.decode_append '\n' [10] rest e.encode_newline

theorem newline_not_mem (h : e.encodeText text = some bytes) (hbytes : 10 ∉ bytes) : '\n' ∉ text := by
  induction text generalizing bytes with
  | nil => exact List.not_mem_nil
  | cons c text ih =>
      obtain ⟨first, back, hfirst, hback, rfl⟩ := encodeText_cons_iff.mp h
      rw [List.mem_append, not_or] at hbytes
      refine List.not_mem_cons_of_ne_of_not_mem ?_ (ih hback hbytes.2)
      rintro rfl
      rw [e.encode_newline] at hfirst
      cases hfirst
      exact hbytes.1 List.mem_cons_self

/-! ### UTF-8 -/

/-- The bytes that begin no character are dropped one by one. `skip` bytes belong to the last character. -/
def decodeUTF8 : Nat → List UInt8 → List Char
  | _, [] => []
  | skip + 1, _ :: bytes => decodeUTF8 skip bytes
  | 0, b :: bytes =>
      match ByteArray.utf8DecodeChar? (b :: bytes).toByteArray 0 with
      | some c => c :: decodeUTF8 (c.utf8Size - 1) bytes
      | none => decodeUTF8 0 bytes

theorem decodeUTF8_skip (bytes rest : List UInt8) : decodeUTF8 bytes.length (bytes ++ rest) = decodeUTF8 0 rest := by
  induction bytes with
  | nil => rfl
  | cons b bytes ih => exact ih

theorem decodeUTF8_append (c : Char) (rest : List UInt8) :
    decodeUTF8 0 (String.utf8EncodeChar c ++ rest) = c :: decodeUTF8 0 rest := by
  have hread : ByteArray.utf8DecodeChar? (String.utf8EncodeChar c ++ rest).toByteArray 0 = some c := by
    rw [List.toByteArray_append]
    exact ByteArray.utf8DecodeChar?_utf8EncodeChar_append
  have hlength := String.length_utf8EncodeChar c
  cases hbytes : String.utf8EncodeChar c with
  | nil =>
      rw [hbytes] at hlength
      exact absurd hlength (Nat.ne_of_lt c.utf8Size_pos)
  | cons b bytes =>
      rw [hbytes] at hread hlength
      have hskip : c.utf8Size - 1 = bytes.length := by
        rw [← hlength]
        rfl
      rw [List.cons_append] at hread
      rw [List.cons_append, decodeUTF8, hread]
      simp only [hskip, decodeUTF8_skip]

def utf8 : Encoding where
  encode c := some (String.utf8EncodeChar c)
  decode := decodeUTF8 0
  decode_nil := rfl
  decode_append c bytes rest h := by
    cases h
    exact decodeUTF8_append c rest
  encode_newline := by decide

end Encoding

end Witcher
