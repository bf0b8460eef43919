import TapeMachine.Datum

/-! What can go wrong while a machine is made or runs, and hints.

A message that names one of three troubles, in whatever case its letters are, is
followed by a hint on how to get out of it. -/
namespace TapeMachine

/-- A trouble that a hint is known for. -/
inductive Hint
  | unopened
  | unclosed
  | memorySize
  deriving DecidableEq

namespace Hint

/-- The first trouble that the message names. The words looked for are made of
letters whose only capitals are their own, so lowering these decides. -/
def ofMessage? (message : Text) : Option Hint :=
  let lowered := message.map Char.toLower
  if Text.occurs "unmatched ']'".toList lowered then some .unopened
  else if Text.occurs "unmatched '['".toList lowered then some .unclosed
  else if Text.occurs "memory size".toList lowered then some .memorySize
  else none

def text : Hint → Text
  | .unopened => "A \"]\" with no open loop is ignored; remove it or add the missing \"[\".".toList
  | .unclosed =>
    ("A \"[\" reached on a zero cell skips to the end of the program; " ++
      "add the missing \"]\".").toList
  | .memorySize => "The tape needs at least one cell. The classic size is 30000.".toList

/-- The line with the hint for a message, after a line end; nothing if there is no hint. -/
def suffix (message : Text) : Text :=
  match ofMessage? message with
  | some hint => "\nHint: ".toList ++ hint.text
  | none => []

end Hint

/-- Why a call did not return. -/
inductive Failure
  /-- The value is no number of cells. -/
  | memorySize (size : Datum)
  /-- A step was asked for while the one at this counter waits for input. -/
  | reentrantStep (counter : Nat)
  /-- The source or the sink failed with a message of its own. -/
  | callback (message : Text)
  /-- The user broke in. -/
  | interrupted

namespace Failure

/-- The first line of the message about a memory size. -/
def memorySizeLine (size : Datum) : Text :=
  "Invalid memory size: ".toList ++ size.spell ++ " (expected a positive integer)".toList

def message : Failure → Text
  | .memorySize size => memorySizeLine size ++ Hint.suffix (memorySizeLine size)
  | .reentrantStep counter =>
    "step() called while the step at ".toList ++ Text.natural counter ++
      " is still waiting for input".toList
  | .callback message => message
  | .interrupted => []

end Failure

end TapeMachine
