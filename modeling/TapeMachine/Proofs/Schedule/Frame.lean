import TapeMachine.Thread

/-! Frames.

Frames do not stand on each other in any order. A call that has not ended waits
under the frames it made: a run loop, a session's call, or a source that makes a
call of its own, and the source stands on the step that asked it (`Suspended`).
What a thread does next goes with its innermost frames (`Focus.Fits`). So the
steps that wait can be read off the frames (`readings`), and every turn begins
one wait, ends one, or leaves them as they are. -/
namespace TapeMachine

/-- Frames that wait for a call to end. -/
inductive Suspended : List Frame → Prop
  | nil : Suspended []
  | looping {fs : List Frame} (i : Nat) : Suspended fs → Suspended (.looping i :: fs)
  | starting {fs : List Frame} (i : Nat) : Suspended fs → Suspended (.starting i :: fs)
  | stepping {fs : List Frame} (i : Nat) : Suspended fs → Suspended (.stepping i :: fs)
  | calling {fs : List Frame} (v : Verb) (deeds : List Deed) (answer : Except Failure (Option Text))
      (i epoch : Nat) : Suspended fs →
      Suspended (.calling v :: .replying deeds answer :: .reading i epoch :: fs)

/-- What a thread does next is the business of its innermost frames. -/
inductive Focus.Fits : Focus → List Frame → Prop
  | call {fs : List Frame} (c : Call) : Suspended fs → Focus.Fits (.call c) fs
  | returned {fs : List Frame} (o : Outcome) : Suspended fs → Focus.Fits (.returned o) fs
  | answered {fs : List Frame} (a : Answer) (i epoch : Nat) : Suspended fs →
      Focus.Fits (.answered a) (.reading i epoch :: fs)
  | looping {fs : List Frame} (i : Nat) : Suspended fs → Focus.Fits .resumed (.looping i :: fs)
  | getting {fs : List Frame} (i epoch : Nat) : Suspended fs →
      Focus.Fits .resumed (.getting :: .reading i epoch :: fs)
  | replying {fs : List Frame} (deeds : List Deed) (answer : Except Failure (Option Text))
      (i epoch : Nat) : Suspended fs →
      Focus.Fits .resumed (.replying deeds answer :: .reading i epoch :: fs)

namespace Turn

/-- The frames that a turn leaves. -/
def frames : Turn → List Frame
  | .go _ fs => fs
  | .sleep fs => fs
  | .await fs => fs
  | .done _ => []

def Fits : Turn → Prop
  | .go f fs => f.Fits fs
  | .sleep fs => Focus.Fits .resumed fs
  | .await fs => Focus.Fits .resumed fs
  | .done _ => True

end Turn

/-! ### Steps that wait -/

/-- A machine whose step waits, and the epoch in which the step began. -/
def Frame.reading? : Frame → Option (Nat × Nat)
  | .reading i epoch => some (i, epoch)
  | _ => none

/-- The steps that wait among some frames. -/
def readings (fs : List Frame) : List (Nat × Nat) := fs.filterMap Frame.reading?

@[simp] theorem readings_nil : readings [] = [] := rfl

/-- The steps in which a thread waits. -/
def Thread.readings : Thread → List (Nat × Nat)
  | .active _ fs => TapeMachine.readings fs
  | .finished _ => []

end TapeMachine
