import TapeMachine.Bench

/-! Threads.

A thread is a call in progress: what it is about to do, its `Focus`, and the
calls around it that wait for it, its frames, innermost first. A thread goes
forward in small turns. After a turn it goes on, or it sleeps, which lets every
other ready thread go first, or it waits for a text in the queue, or it is done. -/
namespace TapeMachine

/-- A call on a machine, by its number, or on the session. -/
inductive Call
  | step (i : Nat)
  | run (i : Nat)
  | resume (i : Nat)
  | sessionStart
  | sessionStep
  deriving DecidableEq

/-- A call that has begun and not yet ended. -/
inductive Frame
  /-- A step of a machine waits for text. It began in the given epoch. -/
  | reading (i epoch : Nat)
  /-- A run loop of a machine, within a step or between two steps. -/
  | looping (i : Nat)
  /-- A source works towards its answer. -/
  | replying (deeds : List Deed) (answer : Except Failure (Option Text))
  /-- A source waits for a call that it made. -/
  | calling (v : Verb)
  /-- A source waits for a text in its queue. -/
  | getting
  /-- A session's start, while the machine runs. -/
  | starting (i : Nat)
  /-- A session's single step, while the machine takes it. -/
  | stepping (i : Nat)

/-- What a thread does next. -/
inductive Focus
  | call (c : Call)
  /-- The call just made has ended; the innermost frame goes on from there. -/
  | returned (o : Outcome)
  /-- The source has answered the innermost frame. -/
  | answered (a : Answer)
  /-- The innermost frame goes on by itself. -/
  | resumed

/-- How a small turn ends. -/
inductive Turn
  | go (f : Focus) (frames : List Frame)
  | sleep (frames : List Frame)
  | await (frames : List Frame)
  | done (o : Outcome)

/-- A thread: under way, or at its end. -/
inductive Thread
  | active (f : Focus) (frames : List Frame)
  | finished (o : Outcome)

def Thread.outcome? : Thread → Option Outcome
  | .finished o => some o
  | .active _ _ => none

/-- A turn that ends with the value of the call just made. -/
def Turn.value (v : Value) (frames : List Frame) : Turn := .go (.returned (.ok v)) frames

/-- A turn that ends with the failure of the call just made. -/
def Turn.fail (e : Failure) (frames : List Frame) : Turn := .go (.returned (.error e)) frames

end TapeMachine
