import TapeMachine.Failure
import TapeMachine.Program
import TapeMachine.Text.Numeral

/-! Diagnostics.

A diagnostic names a bracket without a partner by line and column, counted from
one, and shows it in its surroundings: numbered lines, the line itself marked in
front, and a caret under the bracket. -/
namespace TapeMachine

/-- A complaint about one character of a source text. -/
structure Diagnostic where
  message : Text
  index : Int
  line : Nat
  column : Int
  context : Text
  deriving DecidableEq

namespace Diagnostic

/-- The characters before an index; a negative index counts from the end. -/
def before (source : Text) (index : Int) : Text :=
  if 0 ≤ index then source.take index.toNat else source.take (source.length + index).toNat

/-- How many characters come before the last line of a text. -/
def lastLineStart (t : Text) : Nat :=
  t.length - (t.reverse.takeWhile (fun c => c != '\n')).length

/-- What stands in front of a shown line. -/
def gutter (marked : Bool) (number : Nat) : Text :=
  (if marked then '>' else ' ') :: ' ' :: (Text.natural number).padLeft 4 ++ [' ', '|', ' ']

/-- A line as shown, with a caret in a row of its own when the line is marked and
a column is given. -/
def row (marked : Bool) (number : Nat) (line : Text) (column : Option Int) : List Text :=
  let shown := gutter marked number ++ line
  match marked, column with
  | true, some column =>
    [shown, List.replicate ((gutter marked number).length + column - 1).toNat ' ' ++ ['^']]
  | _, _ => [shown]

/-- The rows that show a line among the `around` lines before and after it. -/
def contextRows (lines : List Text) (line around : Int) (column : Option Int) : List Text :=
  let centre := max 1 line
  let first := max 1 (centre - around)
  let last := min (lines.length : Int) (centre + around)
  let shown := (lines.drop (first - 1).toNat).take (last - first + 1).toNat
  (shown.zipIdx first.toNat).flatMap
    (fun (text, number) => row (centre == (number : Int)) number text column)

def contextText (lines : List Text) (line around : Int) (column : Option Int) : Text :=
  Text.unlines (contextRows lines line around column)

/-- The diagnostic for the character at an index, which may lie outside the source. -/
def ofIndex (message source : Text) (index : Int) : Diagnostic :=
  let text := before source index
  let line := text.count '\n' + 1
  let column := index - lastLineStart text + 1
  ⟨message, index, line, column, contextText source.lines line 2 (some column)⟩

/-- The diagnostic in full: place, surroundings and a hint. -/
def text (d : Diagnostic) : Text :=
  "BracketError: ".toList ++ d.message ++ " (line ".toList ++ Text.natural d.line ++
    ", column ".toList ++ Text.integer d.column ++ ")\n".toList ++ d.context ++
    Hint.suffix d.message

end Diagnostic

/-- One diagnostic for every bracket without a partner, in ascending order. -/
def Program.diagnostics (p : Program) : List Diagnostic :=
  p.unmatched.filterMap fun index =>
    (p.char? index).map fun c =>
      Diagnostic.ofIndex ("Unmatched '".toList ++ [c, '\x27']) p.toList index

end TapeMachine
