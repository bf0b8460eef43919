import TapeMachine.Event
import TapeMachine.Program
import TapeMachine.Session
import TapeMachine.Callback

/-! The bench.

All that the callers share: the machines that were ever made, the session if
there is one, the source and the sink, and the record of what happened. Callbacks
act on the session if there is one, else on the first machine. -/
namespace TapeMachine

/-- Machines, session, source, sink and the record of events. -/
structure Bench where
  machines : Array Machine := #[]
  session : Option Session := none
  source : Option Source := none
  sink : Option Sink := none
  /-- How often the source was called. -/
  requests : Nat := 0
  /-- How often the sink was called. -/
  deliveries : Nat := 0
  events : Array Event := #[]

namespace Bench

def record (b : Bench) (e : Event) : Bench := {b with events := b.events.push e}

def log (b : Bench) (n : Notice) : Bench := b.record (.notice n)

/-! ### Machines by number -/

def machine? (b : Bench) (i : Nat) : Option Machine := b.machines[i]?

def update (b : Bench) (i : Nat) (f : Machine → Machine) : Bench :=
  {b with machines := b.machines.modify i f}

/-- A property of a machine; false of one that was never made. -/
def holds (b : Bench) (i : Nat) (p : Machine → Bool) : Bool := (b.machine? i).any p

def epoch? (b : Bench) (i : Nat) : Option Nat := (b.machine? i).map (·.epoch)

def snapshot? (b : Bench) (i : Nat) : Option Snapshot := (b.machine? i).map (·.toSnapshot)

/-- A machine more, made for a program under options. Its number is the count of
the machines before it. -/
def make (b : Bench) (p : Program) (o : Options) : Except Failure Bench :=
  match h : o.memorySize.cellCount? with
  | none => .error (.memorySize o.memorySize)
  | some n =>
    let m := {Machine.ofProgram p n (Datum.cellCount?_pos h) with
      cooperative := o.cooperative, hears := b.source.isSome, speaks := b.sink.isSome}
    .ok ({b with machines := b.machines.push m}.log (.created p.size n))

/-! ### Pause and reset -/

def signalMachine (b : Bench) (i : Nat) : Signal → Bench
  | .pause => b.update i Machine.pause
  | .reset => (b.update i Machine.reset).log .reset

/-- A session pauses a run that it takes to be going on, and discards its machine
on a reset. -/
def signalSession (b : Bench) (s : Session) : Signal → Bench
  | .pause =>
    match s.current, s.phase with
    | some i, .running => {b.update i Machine.pause with session := some {s with phase := .paused}}
    | _, _ => b
  | .reset =>
    match s.current with
    | some i => {b.signalMachine i .reset with session := some s.forget}
    | none => {b with session := some s.forget}

/-- What a callback or a user does to the session, or else to the first machine. -/
def signal (b : Bench) (s : Signal) : Bench :=
  match b.session with
  | some session => b.signalSession session s
  | none => b.signalMachine 0 s

/-- A callback gives signals one after the other. -/
def obey (b : Bench) (waits : Bool) (signals : List Signal) : Bench :=
  signals.foldl (fun b s => (b.signal s).record (.signalled s waits)) b

/-! ### What the session shows -/

/-- The machine that the session works with. -/
def sessionMachine? (b : Bench) : Option Machine :=
  (b.session.bind (·.current)).bind b.machine?

/-- The present state of the session's machine. -/
def sessionState? (b : Bench) : Option Snapshot := b.sessionMachine?.map (·.toSnapshot)

/-- The place in the session's program that the counter of its machine points at. -/
def marker? (b : Bench) : Option Position :=
  match b.session, b.sessionMachine? with
  | some s, some m => some (s.program.locate m.counter)
  | _, _ => none

/-- The line that is marked while the session's machine runs. -/
def markedLine? (b : Bench) : Option Nat := b.marker?.map (·.line)

/-! ### Output -/

/-- The machine in charge: the session's, or else the first. -/
def inCharge? (b : Bench) : Option Machine :=
  match b.session with
  | some _ => b.sessionMachine?
  | none => b.machine? 0

def outputSize? (b : Bench) : Option Nat := b.inCharge?.map (·.output.size)

/-- The user breaks in at the next write to the stream. -/
def blocked (b : Bench) : Bool :=
  match b.sink with
  | some (.stream (some 0)) => true
  | _ => false

/-- Writes to the stream behind the sink, which then has room for one write less. -/
def write (b : Bench) (text : Text) : Bench :=
  let sink : Option Sink :=
    match b.sink with
    | some (.stream (some room)) => some (.stream (some (room - 1)))
    | sink => sink
  {b with sink := sink}.record (.wrote text)

/-- The sink takes a character of machine `i`, and may fail over it. -/
def deliver (b : Bench) (i : Nat) (c : Char) : Bench × Option Failure :=
  let size := b.outputSize?
  let called := {b with deliveries := b.deliveries + 1}.record (.emitted i c size)
  match called.sink with
  | none | some .silent => (called, none)
  | some (.stream _) =>
    if called.blocked then (called, some .interrupted)
    else ((called.write [c]).record .flushed, none)
  | some (.scripted reaction) =>
    let r := reaction called.deliveries
    (called.obey false r.signals, r.failure)

end Bench
end TapeMachine
