import TapeMachine.Failure

/-! Callbacks: sources of text and sinks of characters.

A machine that runs out of input asks its source. A source may hold one fixed
text, a queue that is fed from outside, the lines of a stream, or follow a
script: the answer to its first call, to its second and so on. A scripted answer
comes at once, after the source has paused or reset what it serves, or later,
after deeds that may rest or make calls of their own and wait for them.

A machine hands every character it puts out to its sink. A sink may drop it,
write it to a stream at once, or follow a script: at its first call, its second
and so on it may pause or reset what it serves, and fail. -/
namespace TapeMachine

/-- What a callback may do to its machine or session without waiting. -/
inductive Signal
  | pause
  | reset
  deriving DecidableEq

/-- A call that a source which takes its time may make and wait for. -/
inductive Verb
  | step
  | run
  | resume
  | start
  deriving DecidableEq

/-- One thing that a source which takes its time does. -/
inductive Deed
  /-- Lets all other ready tasks go first. -/
  | rest
  | signal (s : Signal)
  | call (v : Verb)
  deriving DecidableEq

/-- What a request ends with: text, or the source's failure. -/
abbrev Answer := Except Failure Text

/-- A scripted reply to a request. No text counts as the empty text. -/
inductive Reply
  | now (signals : List Signal) (answer : Except Failure (Option Text))
  | later (deeds : List Deed) (answer : Except Failure (Option Text))

/-- No text counts as the empty text. -/
def Answer.ofReply (answer : Except Failure (Option Text)) : Answer := answer.map (·.getD [])

/-- Where the text for requests comes from. -/
inductive Source
  /-- The text answers the first request, the empty text all others. -/
  | fixed (text : Text)
  /-- The texts fed and not yet taken; a request waits while there is none. -/
  | queue (texts : List Text)
  /-- The rest of a stream, a line for each request, with its line end or without. -/
  | lines (rest : Text) (keepEnd : Bool)
  /-- The reply to the first request, to the second, and so on, counted from one. -/
  | scripted (reply : Nat → Reply)

namespace Source

/-- The first line of a stream with its end, and what follows it. -/
def splitLine : Text → Text × Text
  | [] => ([], [])
  | c :: rest =>
    if c = '\n' then ([c], rest) else ((c :: (splitLine rest).1), (splitLine rest).2)

/-- A line without the carriage returns and line feeds at its end. -/
def withoutEnd (line : Text) : Text := line.dropTrailing (fun c => c == '\r' || c == '\n')

/-- A text more at the end of a queue. -/
def feed (text : Text) : Source → Source
  | .queue texts => .queue (texts ++ [text])
  | source => source

end Source

/-! ### Sinks -/

/-- What a scripted sink does at a call. -/
structure Reaction where
  signals : List Signal := []
  failure : Option Failure := none

/-- Where the characters go. -/
inductive Sink
  | silent
  /-- A stream. With `room` given, the user breaks in at the write after so many. -/
  | stream (room : Option Nat)
  /-- The reaction to the first character, to the second, and so on, counted from one. -/
  | scripted (reaction : Nat → Reaction)

end TapeMachine
