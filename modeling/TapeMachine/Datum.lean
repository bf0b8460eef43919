import TapeMachine.Text.Numeral
import TapeMachine.Text.Quoted
import TapeMachine.Decimal.Shortest

/-! Values of any kind, as a caller may hand them over where a number is due, and
the text that shows one. -/
namespace TapeMachine

/-- A value of any kind. -/
inductive Datum
  | null
  | truth (b : Bool)
  | integer (n : Int)
  | real (x : Float)
  | text (t : Text)
  | list (items : List Datum)
  /-- Fields in the order in which they came. -/
  | record (fields : List (Text × Datum))

namespace Datum

mutual

/-- The value spelled out on one line. -/
def spell : Datum → Text
  | .null => ['N', 'o', 'n', 'e']
  | .truth true => ['T', 'r', 'u', 'e']
  | .truth false => ['F', 'a', 'l', 's', 'e']
  | .integer n => Text.integer n
  | .real x => Decimal.ofBits x.toBits
  | .text t => Text.quoted t
  | .list items => '[' :: spellItems items ++ [']']
  | .record fields => '\x7b' :: spellFields fields ++ ['\x7d']

def spellItems : List Datum → Text
  | [] => []
  | [d] => spell d
  | d :: rest => spell d ++ ',' :: ' ' :: spellItems rest

def spellFields : List (Text × Datum) → Text
  | [] => []
  | [(name, d)] => Text.quoted name ++ ':' :: ' ' :: spell d
  | (name, d) :: rest => Text.quoted name ++ ':' :: ' ' :: spell d ++ ',' :: ' ' :: spellFields rest

end

/-- A number of cells: a whole number, at least one. -/
def cellCount? : Datum → Option Nat
  | .integer (.ofNat (n + 1)) => some (n + 1)
  | _ => none

theorem cellCount?_pos {d : Datum} {n : Nat} (h : d.cellCount? = some n) : 0 < n := by
  unfold cellCount? at h
  split at h
  · cases h; omega
  · cases h

end Datum
end TapeMachine
