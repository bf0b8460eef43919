import TapeMachine.Encoding.Utf8
import TapeMachine.Text.Quoted

/-! Encodings by name.

Four encodings are known, each under several names. In a name the case of letters
does not matter, and any run of characters other than letters, digits and points
counts as one underscore between what it separates. -/
namespace TapeMachine

inductive Codec
  /-- With `dropsMark` a byte-order mark at the start is not part of the text. -/
  | utf8 (dropsMark : Bool)
  | latin1
  | ascii
  deriving DecidableEq

namespace Codec

/-- A name in its canonical spelling: `gap` says that a separator is pending. -/
def canonical : (gap : Bool) → Text → Text
  | _, [] => []
  | gap, c :: rest =>
    if c.isAlphanum || c = '.' then
      if gap then '_' :: c.toLower :: canonical false rest else c.toLower :: canonical false rest
    else canonical true rest

/-- Without the separator that a name begins with. -/
def canonicalName (name : Text) : Text :=
  canonical false (name.dropWhile (fun c => !(c.isAlphanum || c = '.')))

/-- The other names of the encodings. -/
def aliases : List (Codec × List String) :=
  [(.utf8 false, ["u8", "utf", "utf8", "utf8_ucs2", "utf8_ucs4", "cp65001"]),
    (.latin1, ["8859", "cp819", "csisolatin1", "ibm819", "iso8859", "iso8859_1", "iso_8859_1",
      "iso_8859_1_1987", "iso_ir_100", "l1", "latin", "latin1"]),
    (.ascii, ["646", "ansi_x3.4_1968", "ansi_x3_4_1968", "ansi_x3.4_1986", "cp367", "csascii",
      "ibm367", "iso646_us", "iso_646.irv_1991", "iso_ir_6", "us", "us_ascii"])]

/-- The names that the encodings go by themselves. -/
def ownNames : List (Codec × List String) :=
  [(.utf8 false, ["utf_8"]), (.utf8 true, ["utf_8_sig"]), (.latin1, ["latin_1"]),
    (.ascii, ["ascii"])]

def find? (table : List (Codec × List String)) (name : Text) : Option Codec :=
  (table.find? (fun entry => entry.2.any (fun known => known.toList == name))).map (·.1)

/-- In an alias, points may stand for underscores. -/
def ofName? (name : Text) : Option Codec :=
  let name := canonicalName name
  let undotted := name.map (fun c => if c = '.' then '_' else c)
  ((find? aliases name).or (find? aliases undotted)).or (find? ownNames name)

/-- The byte-order mark in UTF-8. -/
def mark : Bytes := [0xef, 0xbb, 0xbf]

/-- ASCII from position `start` on. -/
def decodeAscii : (start : Nat) → Bytes → Except Malformed Text
  | _, [] => .ok []
  | start, b :: rest =>
    if b < 0x80 then (decodeAscii (start + 1) rest).map (Char.ofNat b.toNat :: ·)
    else .error ⟨start, 1, b, .outOfRange⟩

/-- The text that bytes stand for. Where a mark is dropped, positions count from
after it, and bytes that are only the beginning of a mark stand for no text. -/
def decode : Codec → Bytes → Except Malformed Text
  | .utf8 false, bytes => Utf8.decode bytes
  | .utf8 true, bytes =>
    if mark.isPrefixOf bytes then Utf8.decode (bytes.drop 3)
    else if bytes.isPrefixOf mark then .ok []
    else Utf8.decode bytes
  | .latin1, bytes => .ok (bytes.map (fun b => Char.ofNat b.toNat))
  | .ascii, bytes => decodeAscii 0 bytes

/-- The name in messages. -/
def label : Codec → Text
  | .utf8 _ => "utf-8".toList
  | .latin1 => "latin-1".toList
  | .ascii => "ascii".toList

end Codec

def Defect.reason : Defect → Text
  | .invalidStart => "invalid start byte".toList
  | .invalidContinuation => "invalid continuation byte".toList
  | .unexpectedEnd => "unexpected end of data".toList
  | .outOfRange => "ordinal not in range(128)".toList

/-- One byte is named, several are given by their positions. -/
def Malformed.message (codec : Codec) (m : Malformed) : Text :=
  Text.quoted codec.label ++ " codec can't decode ".toList ++
    (if m.length = 1 then
      "byte 0x".toList ++ Text.hexadecimal 2 m.byte.toNat ++ " in position ".toList ++
        Nat.toDigits 10 m.start
    else
      "bytes in position ".toList ++ Nat.toDigits 10 m.start ++ '-' ::
        Nat.toDigits 10 (m.start + m.length - 1)) ++
    ": ".toList ++ m.defect.reason

end TapeMachine
