import TapeMachine.Text

/-! UTF-8.

A character takes one to four bytes. The lead byte tells how many follow and, to
rule out overlong forms, surrogates and code points beyond the last, which
values the second byte may have. Bytes that are no such sequence are malformed:
the longest part that could still have begun a character is reported. -/
namespace TapeMachine

abbrev Bytes := List UInt8

/-- What is wrong with a run of bytes. -/
inductive Defect
  | invalidStart
  | invalidContinuation
  | unexpectedEnd
  /-- A byte that stands for no character of its own. -/
  | outOfRange
  deriving DecidableEq

/-- Bytes that stand for no text: where they start, how many, the first of them. -/
structure Malformed where
  start : Nat
  length : Nat
  byte : UInt8
  defect : Defect
  deriving DecidableEq

namespace Utf8

/-- A lead byte: its share of the code point, the number of bytes that follow and
the range of the second. -/
structure Lead where
  value : Nat
  following : Nat
  low : UInt8
  high : UInt8

def lead? (b : UInt8) : Option Lead :=
  if b < 0x80 then some ⟨b.toNat, 0, 0x80, 0xbf⟩
  else if b < 0xc2 then none
  else if b < 0xe0 then some ⟨b.toNat - 0xc0, 1, 0x80, 0xbf⟩
  else if b < 0xf0 then
    some ⟨b.toNat - 0xe0, 2, if b = 0xe0 then 0xa0 else 0x80, if b = 0xed then 0x9f else 0xbf⟩
  else if b < 0xf5 then
    some ⟨b.toNat - 0xf0, 3, if b = 0xf0 then 0x90 else 0x80, if b = 0xf4 then 0x8f else 0xbf⟩
  else none

/-- Reads `n` more bytes of a character, of which `length` have been read. The
result has the character, its length and the bytes after it. -/
def follow : (n : Nat) → (low high : UInt8) → (value length : Nat) → Bytes →
    Except (Nat × Defect) (Char × Nat × Bytes)
  | 0, _, _, value, length, rest => .ok (Char.ofNat value, length, rest)
  | _ + 1, _, _, _, length, [] => .error (length, .unexpectedEnd)
  | n + 1, low, high, value, length, b :: rest =>
    if low ≤ b ∧ b ≤ high then
      follow n 0x80 0xbf (64 * value + (b.toNat - 0x80)) (length + 1) rest
    else .error (length, .invalidContinuation)

/-- The character that starts with byte `b`, its length and the bytes after it. -/
def decodeOne (b : UInt8) (rest : Bytes) : Except (Nat × Defect) (Char × Nat × Bytes) :=
  match lead? b with
  | none => .error (1, .invalidStart)
  | some lead => follow lead.following lead.low lead.high lead.value 1 rest

/-- Decodes from position `start` on; `n` bounds the number of characters and
`done` has those already decoded, last one first. -/
def decodeFrom : (n start : Nat) → (done : Text) → Bytes → Except Malformed Text
  | 0, _, done, _ => .ok done.reverse
  | _, _, done, [] => .ok done.reverse
  | n + 1, start, done, b :: rest =>
    match decodeOne b rest with
    | .error (length, defect) => .error ⟨start, length, b, defect⟩
    | .ok (c, length, others) => decodeFrom n (start + length) (c :: done) others

def decode (bytes : Bytes) : Except Malformed Text := decodeFrom bytes.length 0 [] bytes

def encodeChar (c : Char) : Bytes :=
  let n := c.toNat
  let continuation (k : Nat) : UInt8 := (0x80 + k % 64).toUInt8
  if n < 0x80 then [n.toUInt8]
  else if n < 0x800 then [(0xc0 + n / 64).toUInt8, continuation n]
  else if n < 0x10000 then
    [(0xe0 + n / 4096).toUInt8, continuation (n / 64), continuation n]
  else
    [(0xf0 + n / 262144).toUInt8, continuation (n / 4096), continuation (n / 64), continuation n]

def encode (t : Text) : Bytes := t.flatMap encodeChar

end Utf8
end TapeMachine
