import TapeMachine.Datum
import TapeMachine.Machine

/-! Sessions.

A session looks after one program: it makes a machine for it when one is needed,
knows whether a run is going on, and keeps the state that the last call ended
in. A reset discards the machine; calls that still drive it have nothing more to
say to the session. -/
namespace TapeMachine

/-- The options under which a machine is made. -/
structure Options where
  memorySize : Datum := .integer 30000
  cooperative : Bool := true

/-- What a session takes itself to be doing. -/
inductive Phase
  | idle
  | running
  | paused
  deriving DecidableEq

def Phase.name : Phase → Text
  | .idle => "idle".toList
  | .running => "running".toList
  | .paused => "paused".toList

/-- A program, the machine at work on it, and how the work stands. Machines are
known by number. -/
structure Session where
  program : Program
  options : Options := {}
  phase : Phase := .idle
  current : Option Nat := none
  last : Option Snapshot := none

namespace Session

/-- The call that drove machine `i` ended in a state: if the session still works
with that machine, it takes note. -/
def settle (s : Session) (i : Nat) (looping : Bool) (state : Snapshot) : Session :=
  if s.current = some i then
    {s with
      last := some state
      phase := if looping then .running else if state.paused then .paused else .idle}
  else s

/-- A single step of machine `i` ended in a state. -/
def note (s : Session) (i : Nat) (state : Snapshot) : Session :=
  if s.current = some i then {s with last := some state} else s

/-- Without a machine, as at the start. -/
def forget (s : Session) : Session := {s with phase := .idle, current := none, last := none}

end Session
end TapeMachine
