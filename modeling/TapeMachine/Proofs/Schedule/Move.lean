import TapeMachine.Scheduler

/-! Moves.

Everything that can happen to a scheduler happens one move at a time. The running
thread takes a small turn, or the first of the ready ones starts; and while no
thread is running, the surroundings may step in: start a call, pause or reset,
feed the queue, change the settings. A run is a list of moves. -/
namespace TapeMachine

/-- What the surroundings may do while no thread is running. -/
inductive Intervention
  | spawn (c : Call)
  /-- To the session, or else to the first machine. -/
  | signal (g : Signal)
  /-- To a machine itself, past the session. -/
  | signalMachine (i : Nat) (g : Signal)
  | feed (text : Text)
  | cooperate (i : Nat) (on : Bool)
  /-- The session gets another program and other options for its next machine. -/
  | edit (p : Program) (o : Options)

inductive Move
  /-- The running thread takes a small turn. -/
  | turn
  /-- If no thread is running, the first one that is ready starts. -/
  | dispatch
  | outside (x : Intervention)

/-- A call, and so many turns of the thread that makes it. -/
def Move.alone (c : Call) (n : Nat) : List Move :=
  .outside (.spawn c) :: .dispatch :: List.replicate n .turn

namespace Scheduler

def intervene (s : Scheduler) : Intervention → Scheduler
  | .spawn c => s.spawn c
  | .signal g => s.onBench (·.signal g)
  | .signalMachine i g =>
    if i < s.bench.machines.size then s.onBench (·.signalMachine i g) else s
  | .feed text => s.feed text
  | .cooperate i on => s.onBench (·.update i fun m => {m with cooperative := on})
  | .edit p o =>
    s.onBench fun b => {b with session := b.session.map ({· with program := p, options := o})}

def move (s : Scheduler) : Move → Scheduler
  | .turn => s.advance
  | .dispatch => s.dispatch
  | .outside x => if s.roster.running.isNone then s.intervene x else s

/-- The state after a run. -/
def play (s : Scheduler) (moves : List Move) : Scheduler := moves.foldl move s

theorem play_append (s : Scheduler) (a b : List Move) : s.play (a ++ b) = (s.play a).play b :=
  List.foldl_append

theorem play_concat (s : Scheduler) (moves : List Move) (x : Move) :
    s.play (moves ++ [x]) = (s.play moves).move x := play_append s moves [x]

/-- In a run something is true of every move, in the state in which it is made. -/
def Along (P : Scheduler → Move → Prop) : Scheduler → List Move → Prop
  | _, [] => True
  | s, x :: rest => P s x ∧ Along P (s.move x) rest

instance decidableAlong (P : Scheduler → Move → Prop) [∀ s, DecidablePred (P s)] :
    (s : Scheduler) → DecidablePred (s.Along P)
  | _, [] => .isTrue trivial
  | s, x :: rest => @instDecidableAnd _ _ _ (decidableAlong P (s.move x) rest)

theorem along_append (P : Scheduler → Move → Prop) (s : Scheduler) (a b : List Move) :
    s.Along P (a ++ b) ↔ s.Along P a ∧ (s.play a).Along P b := by
  induction a generalizing s with
  | nil => exact (iff_of_eq (true_and _)).symm
  | cons x rest ih => exact (and_congr_right' (ih (s.move x))).trans and_assoc.symm

/-- A scheduler left to itself makes moves of its own only. -/
theorem exhaust_eq_play (fuel : Nat) (s : Scheduler) : ∃ moves, exhaust fuel s = s.play moves := by
  induction fuel generalizing s with
  | zero => exact ⟨[], rfl⟩
  | succ fuel ih =>
    rw [exhaust]
    split
    · obtain ⟨moves, h⟩ := ih s.advance
      exact ⟨.turn :: moves, h⟩
    · split
      · exact ⟨[], rfl⟩
      · obtain ⟨moves, h⟩ := ih s.dispatch
        exact ⟨.dispatch :: moves, h⟩

end Scheduler
end TapeMachine
