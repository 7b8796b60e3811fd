/-!
# Base 64

Four characters spell three bytes. Characters outside the alphabet are skipped; padding ends the
text once it fills up a group of four, and is skipped before that.
-/

namespace Lineage.Text

/-- The value of a character of the alphabet. -/
def base64Value? (c : Char) : Option Nat :=
  if 'A' ≤ c && c ≤ 'Z' then some (c.toNat - 'A'.toNat)
  else if 'a' ≤ c && c ≤ 'z' then some (c.toNat - 'a'.toNat + 26)
  else if c.isDigit then some (c.toNat - '0'.toNat + 52)
  else if c == '+' then some 62
  else if c == '/' then some 63
  else none

/-- The state of decoding: the bytes so far, how many characters of the group are read, what is
left of the last of them, and how much padding stands behind it. -/
structure Base64 where
  bytes : ByteArray
  group : Nat
  left : Nat
  padding : Nat

namespace Base64

/-- Takes one character of the alphabet. -/
def push (s : Base64) (v : Nat) : Base64 :=
  match s.group with
  | 0 => { s with group := 1, left := v, padding := 0 }
  | 1 => ⟨s.bytes.push (s.left * 4 + v / 16).toUInt8, 2, v % 16, 0⟩
  | 2 => ⟨s.bytes.push (s.left * 16 + v / 4).toUInt8, 3, v % 4, 0⟩
  | _ => ⟨s.bytes.push (s.left * 64 + v).toUInt8, 0, 0, 0⟩

/-- Decodes the rest of a text; a group must not be left unfinished. -/
def decodeFrom (s : Base64) : List Char → Option ByteArray
  | [] => if s.group == 0 then some s.bytes else none
  | c :: rest =>
    if c == '=' then
      if 2 ≤ s.group then
        if 4 ≤ s.group + s.padding + 1 then some s.bytes
        else decodeFrom { s with padding := s.padding + 1 } rest
      else decodeFrom s rest
    else
      match base64Value? c with
      | some v => decodeFrom (s.push v) rest
      | none => decodeFrom s rest

/-- The bytes that a text spells. -/
def decode (cs : List Char) : Option ByteArray :=
  decodeFrom ⟨.empty, 0, 0, 0⟩ cs

end Base64

end Lineage.Text
