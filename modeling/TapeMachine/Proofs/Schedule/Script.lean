import TapeMachine.Thread.Advance
import TapeMachine.Proofs.Schedule.Roster
import TapeMachine.Proofs.Schedule.Stage

/-! Scripts.

A callback that follows a script follows the same one all the time: requests take texts
out of a queue or lines off a stream, and writes use up the room of a stream, but
nothing puts another script in the place of one, or takes one away. -/
namespace TapeMachine

def Source.replies? : Source → Option (Nat → Reply)
  | .scripted reply => some reply
  | _ => none

def Sink.reactions? : Sink → Option (Nat → Reaction)
  | .scripted reaction => some reaction
  | _ => none

namespace Bench
variable (b : Bench) (i : Nat) (fs : List Frame)

/-- The scripts that the callbacks follow. -/
def scripts (b : Bench) : Option (Nat → Reply) × Option (Nat → Reaction) :=
  (b.source.bind Source.replies?, b.sink.bind Sink.reactions?)

@[simp] theorem scripts_record (e : Event) : (b.record e).scripts = b.scripts := rfl

@[simp] theorem scripts_signalMachine (g : Signal) :
    (b.signalMachine i g).scripts = b.scripts := by
  cases g <;> rfl

@[simp] theorem scripts_signal (g : Signal) : (b.signal g).scripts = b.scripts := by
  rw [signal]
  split
  · cases g <;> simp only [signalSession] <;> split <;> rfl
  · exact scripts_signalMachine b 0 g

@[simp] theorem scripts_obey (waits : Bool) (gs : List Signal) :
    (b.obey waits gs).scripts = b.scripts := by
  induction gs generalizing b with
  | nil => rfl
  | cons g rest ih => exact (ih _).trans (scripts_signal b g)

@[simp] theorem scripts_write (text : Text) : (b.write text).scripts = b.scripts := by
  simp only [scripts, write, record]
  congr 1
  split
  next h => rw [h]; rfl
  next => rfl

@[simp] theorem scripts_deliver (c : Char) : (b.deliver i c).1.scripts = b.scripts := by
  simp only [deliver]
  split
  any_goals rfl
  next =>
    split
    · rfl
    · rw [scripts_record, scripts_write]
      rfl
  next => exact scripts_obey _ _ _

theorem scripts_make {b made : Bench} {p : Program} {o : Options} (h : b.make p o = .ok made) :
    made.scripts = b.scripts := by
  obtain ⟨n, hn, -, rfl⟩ := eq_of_make h
  rfl

/-! ### Turns -/

@[simp] theorem scripts_ask : (b.ask i fs).1.scripts = b.scripts := by
  have hasked : ({b with requests := b.requests + 1}.record (.asked i)).scripts = b.scripts := rfl
  simp only [ask]
  split
  any_goals rfl
  next h =>
    rw [← hasked, scripts, scripts, h]
    rfl
  next =>
    split
    · exact scripts_obey _ _ _
    · rfl

@[simp] theorem scripts_request : (b.request i fs).1.scripts = b.scripts := by
  rw [request]
  split
  · rfl
  · exact scripts_ask _ _ _

@[simp] theorem scripts_putOut : (b.putOut i fs).1.scripts = b.scripts := by
  rw [putOut]
  split
  any_goals rfl
  next c epoch _ =>
    have h := scripts_deliver (b.update i Machine.emit) i c
    split
    next heq =>
      rw [heq] at h
      exact h
    next heq =>
      rw [heq] at h
      split
      · exact h
      · exact h

@[simp] theorem scripts_complain : (b.complain i).scripts = b.scripts := by
  rw [complain]
  split
  · rfl
  · rfl

@[simp] theorem scripts_callStep : (b.callStep i fs).1.scripts = b.scripts := by
  rw [callStep]
  split
  any_goals rfl
  · exact scripts_putOut b i fs
  · exact scripts_request b i fs
  · exact scripts_complain b i

@[simp] theorem scripts_endReading (epoch : Nat) (a : Answer) :
    (b.endReading i epoch a fs).1.scripts = b.scripts := by
  rw [endReading.eq_def]
  simp only
  split
  · rfl
  · split
    · rfl
    · rfl

@[simp] theorem scripts_callRun : (b.callRun i fs).1.scripts = b.scripts := by
  simp only [callRun]
  split
  · rfl
  · rfl

@[simp] theorem scripts_callResume : (b.callResume i fs).1.scripts = b.scripts := by
  rw [callResume]
  split
  · exact scripts_callRun b i fs
  · rfl

@[simp] theorem scripts_endRun : (b.endRun i fs).1.scripts = b.scripts := by
  simp only [endRun]
  split
  · rfl
  · rfl

@[simp] theorem scripts_nextStep : (b.nextStep i fs).1.scripts = b.scripts := by
  rw [nextStep]
  split
  · rfl
  · exact scripts_endRun b i fs

@[simp] theorem scripts_afterStep (o : Outcome) :
    (b.afterStep i o fs).1.scripts = b.scripts := by
  rw [afterStep.eq_def]
  split
  · rfl
  · split
    · rfl
    · rfl
  · exact scripts_endRun b i fs

@[simp] theorem scripts_callStart : (b.callStart fs).1.scripts = b.scripts := by
  rw [callStart]
  split
  · rfl
  · split
    · simp only
      split
      · rfl
      · rfl
    · split
      · rfl
      next hmade => exact (scripts_make hmade :)
    · rfl

@[simp] theorem scripts_endStart (v : Value) : (b.endStart i v fs).1.scripts = b.scripts := by
  rw [endStart.eq_def]
  simp only
  split
  · rfl
  · rfl

@[simp] theorem scripts_callSessionStep : (b.callSessionStep fs).1.scripts = b.scripts := by
  rw [callSessionStep]
  split
  · rfl
  · split
    · rfl
    · split
      · rfl
      · rfl
    · split
      · rfl
      next hmade => exact (scripts_make hmade :)

@[simp] theorem scripts_endSessionStep : (b.endSessionStep i fs).1.scripts = b.scripts := by
  rw [endSessionStep]
  split
  · rfl
  · rfl

theorem scripts_advance (f : Focus) : (b.advance fs f).1.scripts = b.scripts := by
  cases f with
  | call c => cases c <;> simp [advance, call]
  | returned o =>
    simp only [advance, giveBack]
    split
    any_goals rfl
    · simp
    · split <;> simp
    · split <;> simp
  | answered a =>
    simp only [advance, hear]
    split <;> simp
  | resumed =>
    simp only [advance, goOn]
    split
    any_goals rfl
    · simp
    next =>
      split
      next h => simp [scripts, h, Source.replies?]
      next => rfl
    · simp

end Bench

namespace Scheduler

theorem scripts_move (s : Scheduler) (x : Move) : (s.move x).bench.scripts = s.bench.scripts := by
  obtain ⟨bench, roster⟩ := s
  cases x with
  | turn =>
    rw [move, advance]
    cases roster.current? with
    | none => rfl
    | some c => exact bench.scripts_advance _ _
  | dispatch => rfl
  | outside x =>
    rw [move]
    split
    · cases x with
      | signal g => exact bench.scripts_signal g
      | signalMachine i g =>
        rw [intervene]
        split
        · exact bench.scripts_signalMachine i g
        · rfl
      | feed text =>
        show (Option.bind (bench.source.map _) _, _) = bench.scripts
        rw [Bench.scripts]
        rcases bench.source with - | (text | texts | ⟨rest, keepEnd⟩ | reply) <;> rfl
      | _ => rfl
    · rfl

end Scheduler
end TapeMachine
