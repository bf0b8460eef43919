import TapeMachine.Thread

/-! Calls on a session.

A start begins a run on a fresh machine, or resumes a paused one; if the run loop
has not noticed the pause yet, the start only takes the pause back. A single step
is refused while a run is going on or the machine is busy. What the calls return
is the state they ended in, unless a reset has come between. -/
namespace TapeMachine.Bench

def putSession (b : Bench) (s : Session) : Bench := {b with session := some s}

def callStart (b : Bench) (frames : List Frame) : Bench × Turn :=
  match b.session with
  | none => (b, .value (.state none) frames)
  | some s =>
    match s.phase, s.current with
    | .paused, some i =>
      let going := b.putSession {s with phase := .running}
      if going.holds i (·.looping) then
        (going.update i Machine.unpause, .value (.state none) frames)
      else (going, .go (.call (.resume i)) (.starting i :: frames))
    | .idle, _ =>
      match b.make s.program s.options with
      | .error e => (b, .fail e frames)
      | .ok made =>
        let i := b.machines.size
        ((made.putSession {s with phase := .running, current := some i}).log .started,
          .go (.call (.run i)) (.starting i :: frames))
    | _, _ => (b, .value (.state none) frames)

/-- The run that a start began or resumed has ended without a failure; if the
machine had nothing to resume, its present state counts. -/
def endStart (b : Bench) (i : Nat) (v : Value) (frames : List Frame) : Bench × Turn :=
  let ended : Option Snapshot :=
    match v with
    | .state (some s) => some s
    | _ => b.snapshot? i
  match b.session, ended with
  | some s, some state =>
    (b.putSession (s.settle i (b.holds i (·.looping)) state),
      .value (.state (if s.current = some i then some state else none)) frames)
  | _, _ => (b, .value (.state none) frames)

def callSessionStep (b : Bench) (frames : List Frame) : Bench × Turn :=
  match b.session with
  | none => (b, .value (.state none) frames)
  | some s =>
    match s.phase, s.current with
    | .running, _ => (b, .value (.state none) frames)
    | _, some i =>
      if b.holds i Machine.busy then (b, .value (.state none) frames)
      else (b, .go (.call (.step i)) (.stepping i :: frames))
    | _, none =>
      match b.make s.program s.options with
      | .error e => (b, .fail e frames)
      | .ok made =>
        let i := b.machines.size
        (made.putSession {s with current := some i},
          .go (.call (.step i)) (.stepping i :: frames))

/-- The machine's part of a session's single step has ended without a failure. -/
def endSessionStep (b : Bench) (i : Nat) (frames : List Frame) : Bench × Turn :=
  match b.session, b.snapshot? i with
  | some s, some state =>
    (b.putSession (s.note i state),
      .value (.state (if s.current = some i then some state else none)) frames)
  | _, _ => (b, .value (.state none) frames)

end TapeMachine.Bench
