import Stylesheet.Text.Quoted

/-!
# UTF-8

Files hold bytes. Reading decodes them strictly, and bytes that encode no text are refused with the
first place where decoding fails and why.
-/

namespace Stylesheet.Utf8

/-! ## Faults -/

inductive Reason
  | invalidStart
  | invalidContinuation
  | unexpectedEnd
deriving DecidableEq

def Reason.text : Reason → Text
  | invalidStart => "invalid start byte".toList
  | invalidContinuation => "invalid continuation byte".toList
  | unexpectedEnd => "unexpected end of data".toList

/-- Bytes that encode no character. -/
structure Fault where
  /-- Position of the first byte. -/
  pos : Nat
  /-- The first byte. -/
  byte : UInt8
  /-- How many bytes belong to the failed character. -/
  size : Nat
  reason : Reason
deriving DecidableEq

def Fault.message (f : Fault) : Text :=
  let place := if f.size = 1 then
      "byte 0x".toList ++ Text.hex 2 f.byte.toNat ++ " in position ".toList ++ Text.ofInt f.pos
    else
      "bytes in position ".toList ++ Text.ofInt f.pos ++ ['-']
        ++ Text.ofInt (f.pos + f.size - 1 : Nat)
  "'utf-8' codec can't decode ".toList ++ place ++ ": ".toList ++ f.reason.text

/-! ## Sequences of bytes -/

/-- The lowest and highest byte allowed at each place after a first byte, if a character can begin with
it. Overlong forms, surrogates and numbers above the last code point are shut out by the second byte. -/
def followers (first : UInt8) : Option (List (UInt8 × UInt8)) :=
  let any : UInt8 × UInt8 := (0x80, 0xbf)
  if first < 0x80 then some []
  else if first < 0xc2 then none
  else if first < 0xe0 then some [any]
  else if first = 0xe0 then some [(0xa0, 0xbf), any]
  else if first = 0xed then some [(0x80, 0x9f), any]
  else if first < 0xf0 then some [any, any]
  else if first = 0xf0 then some [(0x90, 0xbf), any, any]
  else if first < 0xf4 then some [any, any, any]
  else if first = 0xf4 then some [(0x80, 0x8f), any, any]
  else none

/-- A character that is being read: where it began, its first byte, how many of its bytes were read,
and what is allowed for the others. -/
structure Open where
  pos : Nat
  byte : UInt8
  size : Nat
  pending : List (UInt8 × UInt8)

/-- The first fault of bytes that are read from a position on, perhaps inside a character. -/
def firstFault (pos : Nat) : Option Open → List UInt8 → Option Fault
  | none, [] => none
  | some o, [] => some ⟨o.pos, o.byte, o.size, .unexpectedEnd⟩
  | none, b :: bs =>
    match followers b with
    | none => some ⟨pos, b, 1, .invalidStart⟩
    | some [] => firstFault (pos + 1) none bs
    | some pending => firstFault (pos + 1) (some ⟨pos, b, 1, pending⟩) bs
  | some o, b :: bs =>
    match o.pending with
    | [] => some ⟨o.pos, o.byte, o.size, .invalidContinuation⟩
    | (low, high) :: more =>
      if low ≤ b ∧ b ≤ high then
        let next := if more.isEmpty then none else some ⟨o.pos, o.byte, o.size + 1, more⟩
        firstFault (pos + 1) next bs
      else some ⟨o.pos, o.byte, o.size, .invalidContinuation⟩

/-! ## Encoding and decoding -/

def encode (t : Text) : ByteArray := (String.ofList t).toUTF8

/-- The text of bytes, or the first fault. -/
def decode (bytes : ByteArray) : Except Fault Text :=
  match String.fromUTF8? bytes with
  | some s => .ok s.toList
  | none =>
    let bs := bytes.data.toList
    .error ((firstFault 0 none bs).getD ⟨0, bs.headD 0, 1, .invalidStart⟩)

theorem fromUTF8?_toUTF8 (s : String) : String.fromUTF8? s.toUTF8 = some s := by
  simp only [String.fromUTF8?, String.toUTF8_eq_toByteArray, s.isValidUTF8, dite_true]
  rfl

theorem toUTF8_of_fromUTF8? {bytes : ByteArray} {s : String}
    (h : String.fromUTF8? bytes = some s) : s.toUTF8 = bytes := by
  simp only [String.fromUTF8?, Option.dite_none_right_eq_some, Option.some.injEq] at h
  obtain ⟨-, rfl⟩ := h
  rfl

theorem decode_encode (t : Text) : decode (encode t) = .ok t := by
  rw [decode, encode, fromUTF8?_toUTF8]
  simp

theorem encode_of_decode {bytes : ByteArray} {t : Text} (h : decode bytes = .ok t) :
    encode t = bytes := by
  unfold decode at h
  split at h
  · rename_i s hs
    cases h
    rw [encode, String.ofList_toList, toUTF8_of_fromUTF8? hs]
  · cases h

/-- Decoding fails exactly for bytes that encode no text. -/
theorem exists_fault_iff {bytes : ByteArray} :
    (∃ f, decode bytes = .error f) ↔ ∀ t, encode t ≠ bytes := by
  constructor
  · rintro ⟨f, hf⟩ t rfl
    rw [decode_encode] at hf
    cases hf
  · intro h
    cases hd : decode bytes with
    | ok t => exact absurd (encode_of_decode hd) (h t)
    | error f => exact ⟨f, rfl⟩

end Stylesheet.Utf8
