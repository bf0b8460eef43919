import TapeMachine.Files
import TapeMachine.Scheduler

/-! Running a program to its end.

One machine, alone on its bench, is run by one thread until nothing more can
happen. What it wrote is collected from what its sink was handed. A step by step
run makes one call of a single step after the other instead. A program from a file
is loaded first, and one that cannot be loaded is not run. -/
namespace TapeMachine

/-- What came of a program that was run to its end. -/
structure Report where
  /-- All characters handed to the sink. -/
  output : Text
  steps : Nat
  state : Snapshot

namespace Bench

/-- The characters that were handed to the sink, in order. -/
def delivered (b : Bench) : Text :=
  b.events.toList.filterMap fun
    | .emitted _ c _ => some c
    | _ => none

/-- A bench with one machine for a program. -/
def withMachine (p : Program) (o : Options) (source : Source) (sink : Sink) :
    Except Failure Bench :=
  Bench.make {source := some source, sink := some sink} p o

end Bench

namespace Scheduler

/-- A single call, from beginning to end; without an outcome if it waits for ever
or takes more small turns than it was given. -/
def complete (fuel : Nat) (s : Scheduler) (c : Call) : Scheduler × Option Outcome :=
  let t := s.roster.threads.size
  let ended := exhaust fuel (s.spawn c)
  (ended, ended.outcome? t)

/-- What a run of the first machine ended with. -/
def report? (s : Scheduler) (state : Snapshot) : Option Report :=
  (s.bench.machine? 0).map (fun m => ⟨s.bench.delivered, m.steps, state⟩)

/-- What thread `t`, a run of the first machine, has come to. -/
def ended (s : Scheduler) (t : Nat) : Scheduler × Option (Except Failure Report) :=
  match s.outcome? t with
  | some (.ok (.state (some state))) => (s, (s.report? state).map .ok)
  | some (.error e) => (s, some (.error e))
  | _ => (s, none)

/-- Runs the first machine to its end. -/
def runToEnd (fuel : Nat) (s : Scheduler) : Scheduler × Option (Except Failure Report) :=
  (s.complete fuel (.run 0)).1.ended s.roster.threads.size

/-- How a single step ended. -/
inductive Stepped
  | executed
  | ended
  | failed (e : Failure)
  | stuck

/-- One step of the first machine, in a call of its own. -/
def stepOnce (fuel : Nat) (s : Scheduler) : Scheduler × Stepped :=
  match s.complete fuel (.step 0) with
  | (after, some (.ok (.stepped true))) => (after, .executed)
  | (after, some (.ok _)) => (after, .ended)
  | (after, some (.error e)) => (after, .failed e)
  | (after, none) => (after, .stuck)

/-- At most `n` steps of the first machine, and after each of them, the one that
finds the end included, what `look` sees. -/
def stepwise {α : Type} (fuel : Nat) (look : Bool → Machine → α) :
    Nat → Scheduler → Scheduler × List α × Option Failure
  | 0, s => (s, [], none)
  | n + 1, s =>
    match s.stepOnce fuel with
    | (after, .executed) =>
      let seen := ((after.bench.machine? 0).map (look true)).toList
      let (last, rows, e) := stepwise fuel look n after
      (last, seen ++ rows, e)
    | (after, .ended) => (after, ((after.bench.machine? 0).map (look false)).toList, none)
    | (after, .failed e) => (after, [], some e)
    | (after, .stuck) => (after, [], none)

end Scheduler

/-- Runs a program under options, with a source and a sink. -/
def Program.run (fuel : Nat) (p : Program) (o : Options) (source : Source) (sink : Sink) :
    Scheduler × Option (Except Failure Report) :=
  match Bench.withMachine p o source sink with
  | .error e => ({}, some (.error e))
  | .ok bench => Scheduler.runToEnd fuel {bench := bench}

/-! ### Programs from files -/

/-- Why a program from a file did not come to its end. -/
inductive RunError
  | load (e : LoadError)
  | run (e : Failure)

/-- Loads the program at a path and runs it under options, with a source and a sink. -/
def Files.run (fuel : Nat) (files : Files) (path encoding : Text) (o : Options) (source : Source)
    (sink : Sink) : Scheduler × Option (Except RunError Report) :=
  match files.load path encoding with
  | .error e => ({}, some (.error (.load e)))
  | .ok text =>
    let (ended, result) := (Program.ofList text).run fuel o source sink
    (ended, result.map (·.mapError .run))

end TapeMachine
