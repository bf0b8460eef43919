import TapeMachine.Text

/-! Programs.

A program is a text in which eight characters are instructions and every other
character is a comment: it takes a step and changes nothing. Positions in a
program are counted in characters from zero; a place is a line and a column.

`Program.loopEnd?` finds the end of a loop by counting depth from its first
character on; it knows nothing of the loops around it. The brackets without a
partner are found in one pass over the whole program (`Program.unmatched`). -/
namespace TapeMachine

/-- What one character of a program asks for. -/
inductive Command
  | right
  | left
  | increment
  | decrement
  | output
  | input
  | opening
  | closing
  | comment
  deriving DecidableEq

/-- The eight instruction characters; all others are comments. -/
def Command.ofChar : Char → Command
  | '>' => .right
  | '<' => .left
  | '+' => .increment
  | '-' => .decrement
  | '.' => .output
  | ',' => .input
  | '[' => .opening
  | ']' => .closing
  | _ => .comment

/-- A program text with constant-time access to its characters. -/
structure Program where
  chars : Array Char
  deriving DecidableEq

namespace Program

def ofList (text : List Char) : Program := ⟨text.toArray⟩

def ofString (text : String) : Program := ofList text.toList

def toList (p : Program) : List Char := p.chars.toList

def size (p : Program) : Nat := p.chars.size

/-- The character at a position; there is none at the end and beyond. -/
def char? (p : Program) (i : Nat) : Option Char := p.chars[i]?

def command? (p : Program) (i : Nat) : Option Command := (p.char? i).map Command.ofChar

/-- The next `]` that closes no loop opened on the way, among the `n` characters
from `i` on, with `depth` loops opened on the way so far. -/
def closingFrom (p : Program) : (n i depth : Nat) → Option Nat
  | 0, _, _ => none
  | n + 1, i, depth =>
    match p.command? i, depth with
    | some .opening, _ => closingFrom p n (i + 1) (depth + 1)
    | some .closing, 0 => some i
    | some .closing, depth + 1 => closingFrom p n (i + 1) depth
    | _, _ => closingFrom p n (i + 1) depth

/-- The `]` that ends the loop opened at `i`; none if the program ends first. -/
def loopEnd? (p : Program) (i : Nat) : Option Nat := p.closingFrom (p.size - (i + 1)) (i + 1) 0

/-- The instruction characters, in the order of their code points. -/
def instructions : List Char := ['+', ',', '-', '.', '<', '>', '[', ']']

def isInstruction (c : Char) : Bool := Command.ofChar c != .comment

/-- The program without its comments. -/
def strip (p : Program) : Program := ofList (p.toList.filter isInstruction)

/-- Prints "Hello World!" and a line end. -/
def helloWorld : Program := ofString
  ("++++++++[>++++[>++>+++>+++>+<<<<-]>+>+>->>+[<]<-]" ++
   ">>.>---.+++++++..+++.>>.<-.<.+++.------.--------.>>+.>++.")

/-- The program shown when nothing else is loaded; it prints "Hello World!" and a line end. -/
def greeting : Program := ofString
  ("++++++++++[>+++++++>++++++++++>+++>+<<<<-]\n" ++
   ">++.>+.+++++++..+++.>++.<<+++++++++++++++.\n" ++
   ">.+++.------.--------.>+.>.")

end Program

/-! ### Brackets without a partner

One pass over a text keeps the positions of the `[` still open and of the `]`
that met none open. At the end both are without a partner. As soon as a `]` is
stray nothing is open, so every stray `]` stands before every `[` left open, and
the two lists one after the other ascend. -/

/-- What a pass over a text knows of its brackets. -/
structure Pairing where
  /-- How many characters were passed. -/
  position : Nat := 0
  /-- The `[` still open, innermost first. -/
  opened : List Nat := []
  /-- The `]` that met nothing open, latest first. -/
  stray : List Nat := []
  deriving DecidableEq

namespace Pairing

/-- Passes one character. -/
def pass (s : Pairing) (c : Char) : Pairing :=
  match Command.ofChar c, s.opened with
  | .opening, opened => ⟨s.position + 1, s.position :: opened, s.stray⟩
  | .closing, [] => ⟨s.position + 1, [], s.position :: s.stray⟩
  | .closing, _ :: outer => ⟨s.position + 1, outer, s.stray⟩
  | _, opened => ⟨s.position + 1, opened, s.stray⟩

def ofText (t : Text) : Pairing := t.foldl pass {}

def unmatched (s : Pairing) : List Nat := s.stray.reverse ++ s.opened.reverse

theorem ofText_append (s t : Text) : ofText (s ++ t) = t.foldl pass (ofText s) :=
  List.foldl_append

end Pairing

/-- The positions of the brackets without a partner, in ascending order. -/
def Program.unmatched (p : Program) : List Nat := (Pairing.ofText p.toList).unmatched

/-! ### Lines and columns

A position counts lines and, in its line, characters, both from zero. A line end
belongs to the line it ends. -/

/-- A place in a text. -/
structure Position where
  line : Nat := 0
  column : Nat := 0
  deriving DecidableEq

/-- The place after a character. -/
def Position.past (p : Position) (c : Char) : Position :=
  if c = '\n' then ⟨p.line + 1, 0⟩ else ⟨p.line, p.column + 1⟩

/-- The place just after a text. -/
def Position.after (t : Text) : Position := t.foldl Position.past {}

/-- The place of a counter. Before the program it is the first character's, at
the end and beyond it the one just after the last character. -/
def Program.locate (p : Program) (counter : Int) : Position :=
  Position.after (p.toList.take counter.toNat)

end TapeMachine
