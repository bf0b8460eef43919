import TapeMachine.Callback
import TapeMachine.Machine
import TapeMachine.Program.Diagnostic

/-! Notices and events.

Notices are what the parts of the program put on record while they work. Events
are what happens between machines and the outside, in order: notices, requests
and their answers, characters handed over, writes to a stream, and what callbacks
do to the machine or session they serve. Machines are known by number. -/
namespace TapeMachine

/-! ### Notices -/

/-- How much a notice matters. -/
inductive Level
  | debug
  | warning
  deriving DecidableEq

def Level.name : Level → Text
  | .debug => "DEBUG".toList
  | .warning => "WARNING".toList

inductive Notice
  /-- A machine was made. -/
  | created (chars cells : Nat)
  | reset
  /-- A step asks the source for text. -/
  | requested (counter : Nat)
  /-- Text came for a step that a reset had abandoned. -/
  | discarded
  | unclosed (index : Nat)
  | unopened (index : Nat)
  /-- A run ended on a pause. -/
  | paused (counter steps : Nat)
  /-- A run ended otherwise. -/
  | finished (steps : Nat)
  /-- A session started a run. -/
  | started
  /-- A source of lines has no line left. -/
  | exhausted
  /-- A bracket was found without a partner before the program ran. -/
  | bracket (d : Diagnostic)
  deriving DecidableEq

namespace Notice

def level : Notice → Level
  | .unclosed _ | .unopened _ | .bracket _ => .warning
  | _ => .debug

/-- The part of the program that speaks. -/
def origin : Notice → Text
  | .started => "bftape.session".toList
  | .exhausted => "bftape.streams".toList
  | .bracket _ => "bftape.cli".toList
  | _ => "bftape.interpreter".toList

def message : Notice → Text
  | .created chars cells =>
    "interpreter created: ".toList ++ Text.natural chars ++ " chars, ".toList ++
      Text.natural cells ++ " cells".toList
  | .reset => "interpreter reset".toList
  | .requested counter =>
    "input exhausted at pc=".toList ++ Text.natural counter ++ ", requesting more".toList
  | .discarded => "input arrived after reset, discarded".toList
  | .unclosed index =>
    "unmatched '[' at ".toList ++ Text.natural index ++ ": skipping to end of program".toList
  | .unopened index => "unmatched ']' at ".toList ++ Text.natural index ++ ": ignored".toList
  | .paused counter steps =>
    "run paused at pc=".toList ++ Text.natural counter ++ " after ".toList ++
      Text.natural steps ++ " steps".toList
  | .finished steps => "run finished after ".toList ++ Text.natural steps ++ " steps".toList
  | .started => "session started".toList
  | .exhausted => "input stream exhausted".toList
  | .bracket d => d.text

/-- One line of a log, with the time left open. -/
def logLine (time : Text) (n : Notice) : Text :=
  time ++ ' ' :: n.level.name ++ ' ' :: n.origin ++ ": ".toList ++ n.message

end Notice

/-! ### Events -/

/-- What a call returns. -/
inductive Value
  /-- Whether an instruction was executed. -/
  | stepped (executed : Bool)
  /-- The state a run or a session's call ended in, if it has one to tell. -/
  | state (s : Option Snapshot)

/-- How a call ends. -/
abbrev Outcome := Except Failure Value

inductive Event
  | notice (n : Notice)
  /-- The source was called for a machine. -/
  | asked (machine : Nat)
  /-- A text from the source reached the step that had asked for it. -/
  | answered (machine : Nat) (text : Text)
  /-- The sink was called; the output of the machine in charge was then so long. -/
  | emitted (machine : Nat) (c : Char) (size : Option Nat)
  | wrote (text : Text)
  | flushed
  /-- A callback paused or reset; `waits` tells whether it is one that can wait. -/
  | signalled (s : Signal) (waits : Bool)
  /-- A call that the source made came to its end. -/
  | called (v : Verb) (outcome : Outcome)

end TapeMachine
