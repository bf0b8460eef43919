import TapeMachine.Thread.Advance

/-! The scheduler.

Threads take turns on the bench in strict order of arrival. At most one thread is
running; it runs until it sleeps, waits or ends. A thread that sleeps goes to the
end of the ready queue. A thread that waits for text goes to the end of the line of
getters; a text fed to the queue makes the first getter ready, and a getter that
then finds the queue empty goes to the end of the line again. -/
namespace TapeMachine

/-- Threads by number, and whose turn it is. -/
structure Roster where
  threads : Array Thread := #[]
  /-- The threads that are ready to run, next one first. -/
  ready : List Nat := []
  /-- The threads that wait for text, next one first. -/
  getters : List Nat := []
  /-- The thread that is running. -/
  running : Option Nat := none

namespace Roster

def put (r : Roster) (t : Nat) (thread : Thread) : Roster :=
  {r with threads := r.threads.setIfInBounds t thread}

/-- The running thread has come to the end of a small turn. -/
def settle (r : Roster) (t : Nat) : Turn → Roster
  | .go f frames => r.put t (.active f frames)
  | .sleep frames =>
    {r.put t (.active .resumed frames) with ready := r.ready ++ [t], running := none}
  | .await frames =>
    {r.put t (.active .resumed frames) with getters := r.getters ++ [t], running := none}
  | .done o => {r.put t (.finished o) with running := none}

/-- A new thread at the end of the ready queue. -/
def spawn (r : Roster) (c : Call) : Roster :=
  {r with
    threads := r.threads.push (.active (.call c) []), ready := r.ready ++ [r.threads.size]}

/-- If no thread is running, the first one that is ready starts. -/
def dispatch (r : Roster) : Roster :=
  match r.running, r.ready with
  | none, t :: ready => {r with ready := ready, running := some t}
  | _, _ => r

/-- The first getter in line becomes ready. -/
def wakeGetter (r : Roster) : Roster :=
  match r.getters with
  | [] => r
  | t :: getters => {r with getters := getters, ready := r.ready ++ [t]}

/-- The running thread, if it has something to do. -/
def current? (r : Roster) : Option (Nat × Focus × List Frame) :=
  match r.running with
  | none => none
  | some t =>
    match r.threads[t]? with
    | some (.active f frames) => some (t, f, frames)
    | _ => none

end Roster

/-- The bench and the threads at work on it. -/
structure Scheduler where
  bench : Bench := {}
  roster : Roster := {}

namespace Scheduler

/-- The running thread takes a small turn; without one nothing happens. -/
def advance : Scheduler → Scheduler
  | ⟨bench, roster⟩ =>
    match roster.current? with
    | none => ⟨bench, {roster with running := none}⟩
    | some (t, f, frames) =>
      let (bench, turn) := bench.advance frames f
      ⟨bench, roster.settle t turn⟩

def dispatch (s : Scheduler) : Scheduler := {s with roster := s.roster.dispatch}

def spawn (s : Scheduler) (c : Call) : Scheduler := {s with roster := s.roster.spawn c}

/-- The running thread goes on until it sleeps, waits or ends, for so many small
turns at most. -/
def drain : Nat → Scheduler → Scheduler
  | 0, s => s
  | fuel + 1, s => if s.roster.running.isNone then s else drain fuel s.advance

/-- The next `n` threads of the ready queue run in turn. -/
def turns (fuel : Nat) : Nat → Scheduler → Scheduler
  | 0, s => s
  | n + 1, s => turns fuel n (drain fuel s.dispatch)

/-- All threads that are ready now run in turn; those that become ready again
meanwhile have to wait for the next round. -/
def round (fuel : Nat) (s : Scheduler) : Scheduler := turns fuel s.roster.ready.length s

/-- Small turns and changes of thread until nothing is ready, so many of them at most. -/
def exhaust : Nat → Scheduler → Scheduler
  | 0, s => s
  | fuel + 1, s =>
    if s.roster.running.isSome then exhaust fuel s.advance
    else if s.roster.ready.isEmpty then s
    else exhaust fuel s.dispatch

/-- A text for the queue, and a getter more to take it. -/
def feed (s : Scheduler) (text : Text) : Scheduler :=
  ⟨{s.bench with source := s.bench.source.map (Source.feed text)}, s.roster.wakeGetter⟩

def onBench (f : Bench → Bench) : Scheduler → Scheduler
  | ⟨bench, roster⟩ => ⟨f bench, roster⟩

/-- How thread `t` ended, if it has. -/
def outcome? (s : Scheduler) (t : Nat) : Option Outcome :=
  s.roster.threads[t]?.bind Thread.outcome?

end Scheduler
end TapeMachine
