import TapeMachine.Proofs.Machine.Later
import TapeMachine.Proofs.Machine.Scene

/-! Machines on a wider tape.

Where a tape ends is of no matter but to a head that goes past its end. So a machine with
more cells behind those of another one, all of them zero (`Machine.widened`), does the same
as the other one, instruction by instruction, and its further cells stay zero, as long as
the other one does not go around its circle (`Machine.Wraps`). -/
namespace TapeMachine

namespace Tape
variable {t : Tape} {k : Nat}

/-- The tape with so many zeros more behind its last cell. -/
def widened (k : Nat) (t : Tape) : Tape :=
  ⟨t.cells ++ Array.replicate k 0, t.head, by
    rw [Array.size_append]
    exact Nat.lt_add_right _ t.head_lt⟩

theorem widened_eq {s : Tape} (hcells : s.cells = t.cells ++ Array.replicate k 0)
    (hhead : s.head = t.head) : s = t.widened k := by
  cases s
  cases hcells
  cases hhead
  rfl

@[simp] theorem cells_widened (k : Nat) (t : Tape) :
    (t.widened k).cells = t.cells ++ Array.replicate k 0 := rfl

@[simp] theorem head_widened (k : Nat) (t : Tape) : (t.widened k).head = t.head := rfl

@[simp] theorem size_widened (k : Nat) (t : Tape) : (t.widened k).size = t.size + k := by
  simp [size]

@[simp] theorem read_widened (k : Nat) (t : Tape) : (t.widened k).read = t.read :=
  Array.getElem_append_left t.head_lt

@[simp] theorem write_widened (k : Nat) (t : Tape) (v : UInt8) :
    (t.widened k).write v = (t.write v).widened k :=
  widened_eq (Array.set_append_left t.head_lt) rfl

@[simp] theorem increment_widened (k : Nat) (t : Tape) :
    (t.widened k).increment = t.increment.widened k := by
  rw [increment, increment, read_widened, write_widened]

@[simp] theorem decrement_widened (k : Nat) (t : Tape) :
    (t.widened k).decrement = t.decrement.widened k := by
  rw [decrement, decrement, read_widened, write_widened]

/-- On both tapes there is a next cell. -/
theorem right_widened (h : t.head + 1 ≠ t.size) : (t.widened k).right = t.right.widened k := by
  refine widened_eq rfl ?_
  have hlt : t.head + 1 < t.size := Nat.lt_of_le_of_ne t.head_lt h
  have hlt' : t.head + 1 < (t.widened k).size := by
    rw [size_widened]
    exact Nat.lt_add_right k hlt
  exact (Nat.mod_eq_of_lt hlt').trans (Nat.mod_eq_of_lt hlt).symm

theorem head_left_of_ne_zero (h : t.head ≠ 0) : t.left.head = t.head - 1 := by
  have hlt : t.head < t.size := t.head_lt
  have hback : t.head + (t.size - 1) = t.head - 1 + t.size := by omega
  show (t.head + (t.size - 1)) % t.size = t.head - 1
  rw [hback, Nat.add_mod_right, Nat.mod_eq_of_lt (by omega)]

/-- On both tapes there is a cell before. -/
theorem left_widened (h : t.head ≠ 0) : (t.widened k).left = t.left.widened k := by
  refine widened_eq rfl ?_
  rw [head_left_of_ne_zero h]
  exact head_left_of_ne_zero (t := t.widened k) h

theorem blank_add {n : Nat} (hn : 0 < n) (k : Nat) :
    blank (n + k) (Nat.add_pos_left hn k) = (blank n hn).widened k :=
  widened_eq Array.replicate_append_replicate.symm rfl

@[simp] theorem cleared_widened (k : Nat) (t : Tape) :
    (t.widened k).cleared = t.cleared.widened k := by
  refine widened_eq ?_ rfl
  show Array.replicate (t.widened k).size 0 = Array.replicate t.size 0 ++ Array.replicate k 0
  rw [size_widened, Array.replicate_append_replicate]

end Tape

namespace Machine
variable {m : Machine} {k : Nat}

/-- The machine on a tape with so many zeros more. -/
def widened (k : Nat) (m : Machine) : Machine := {m with tape := m.tape.widened k}

/-- The instruction at the counter takes the head past the end of the tape, on one side or
the other. -/
def Wraps (m : Machine) : Prop :=
  (m.program.command? m.counter = some .right ∧ m.tape.head + 1 = m.tape.size) ∨
    (m.program.command? m.counter = some .left ∧ m.tape.head = 0)

instance (m : Machine) : Decidable m.Wraps := inferInstanceAs (Decidable (_ ∨ _))

/-! ### What is the same -/

@[simp] theorem cellChar_widened (k : Nat) (m : Machine) :
    (m.widened k).cellChar = m.cellChar := by
  rw [cellChar, cellChar, widened, Tape.read_widened]

@[simp] theorem fault?_widened (k : Nat) (m : Machine) : (m.widened k).fault? = m.fault? := by
  rw [fault?, fault?, widened]
  simp only [Tape.read_widened]

@[simp] theorem complaint?_widened (k : Nat) (m : Machine) :
    (m.widened k).complaint? = m.complaint? := by
  rw [complaint?, complaint?, fault?_widened]
  rfl

/-! ### What is done to both -/

theorem noted_widened (k : Nat) (m : Machine) : (m.widened k).noted = m.noted.widened k := by
  rw [noted, noted, complaint?_widened]
  cases m.complaint? <;> rfl

theorem advance_widened (k : Nat) (m : Machine) :
    (m.widened k).advance = m.advance.widened k := rfl

theorem receive_widened (k : Nat) (m : Machine) (t : Text) :
    (m.widened k).receive t = (m.receive t).widened k := rfl

theorem emit_widened (k : Nat) (m : Machine) : (m.widened k).emit = m.emit.widened k := by
  rw [emit, emit, cellChar_widened]
  rfl

theorem consume_widened (k : Nat) (m : Machine) :
    (m.widened k).consume = m.consume.widened k := by
  have hnext : (m.widened k).input[(m.widened k).cursor]? = m.input[m.cursor]? := rfl
  rw [consume, consume, hnext]
  cases m.input[m.cursor]? with
  | none => simp [widened]
  | some c => simp [widened]

theorem openLoop_widened (k : Nat) (m : Machine) :
    (m.widened k).openLoop = m.openLoop.widened k := by
  have hread : (m.widened k).tape.read = m.tape.read := Tape.read_widened k _
  rw [openLoop, openLoop, hread]
  split <;> rfl

theorem closeLoop_widened (k : Nat) (m : Machine) :
    (m.widened k).closeLoop = m.closeLoop.widened k := by
  have hread : (m.widened k).tape.read = m.tape.read := Tape.read_widened k _
  have hloops : (m.widened k).loops = m.loops := rfl
  rw [closeLoop, closeLoop, hread, hloops]
  cases m.loops with
  | nil => rfl
  | cons start outer =>
    simp only
    split <;> rfl

/-- Only at the end of the tape does its size matter. -/
theorem execute_widened (h : ¬ m.Wraps) : (m.widened k).execute = m.execute.widened k := by
  have hcommand : (m.widened k).program.command? (m.widened k).counter =
      m.program.command? m.counter := rfl
  rw [execute, execute, hcommand]
  cases hc : m.program.command? m.counter with
  | none => rfl
  | some c =>
    cases c
    case right =>
      have hinside : m.tape.head + 1 ≠ m.tape.size := fun he => h (.inl ⟨hc, he⟩)
      simp [perform, widened, Tape.right_widened hinside]
    case left =>
      have hinside : m.tape.head ≠ 0 := fun he => h (.inr ⟨hc, he⟩)
      simp [perform, widened, Tape.left_widened hinside]
    case increment => simp [perform, widened]
    case decrement => simp [perform, widened]
    case output => exact emit_widened k m
    case input => exact consume_widened k m
    case opening => exact openLoop_widened k m
    case closing => exact closeLoop_widened k m
    case comment => rfl

theorem reset_widened (k : Nat) (m : Machine) : (m.widened k).reset = m.reset.widened k := by
  rw [reset, reset, widened]
  simp [widened]

theorem wiped_widened (k j : Nat) (m : Machine) :
    (m.widened k).wiped j = (m.wiped j).widened k := by
  induction j generalizing m with
  | zero => rfl
  | succ j ih =>
    rw [wiped, wiped, reset_widened]
    exact ih m.reset

/-- A complaint moves nothing. -/
theorem not_wraps_noted (h : ¬ m.Wraps) : ¬ m.noted.Wraps := by
  rw [noted_eq]
  exact h

theorem ofProgram_add (p : Program) {n : Nat} (hn : 0 < n) (k : Nat) :
    ofProgram p (n + k) (Nat.add_pos_left hn k) = (ofProgram p n hn).widened k := by
  rw [ofProgram, ofProgram, widened, Snapshot.blank, Snapshot.blank, Tape.blank_add hn k]

end Machine

namespace Scene
variable {x : Scene} {k : Nat}

/-- The scene with the machine on a tape with so many zeros more. -/
def widened (k : Nat) (x : Scene) : Scene := x.withMachine (x.machine.widened k)

theorem resets_widened (k j : Nat) (x : Scene) :
    (x.widened k).resets j = (x.resets j).widened k := by
  have hwiped : (x.widened k).machine.wiped j = (x.machine.wiped j).widened k :=
    Machine.wiped_widened k j x.machine
  rw [resets, resets, hwiped]
  rfl

theorem asked_widened (k : Nat) (x : Scene) (r : Hearing) :
    (x.widened k).asked r = (x.asked r).widened k :=
  resets_widened k r.resets
    {x.tell [.asked 0] with source := r.source, requests := x.requests + 1}

theorem handed_widened (k : Nat) (x : Scene) (c : Char) (r : Taking) :
    (x.widened k).handed c r = (x.handed c r).widened k :=
  resets_widened k r.resets
    {x.tell [.emitted 0 c] with sink := r.sink, deliveries := x.deliveries + 1}

theorem work_widened (h : ¬ x.machine.Wraps) : (x.widened k).work = x.work.widened k := by
  have hcomplaint : (x.widened k).machine.complaint? = x.machine.complaint? :=
    Machine.complaint?_widened k x.machine
  have hdone : (x.widened k).machine.noted.execute.advance =
      x.machine.noted.execute.advance.widened k := by
    show (x.machine.widened k).noted.execute.advance = _
    rw [Machine.noted_widened, Machine.execute_widened (Machine.not_wraps_noted h),
      Machine.advance_widened]
  rw [work, work, hcomplaint, hdone]
  rfl

theorem put_widened (k : Nat) (x : Scene) :
    (x.widened k).put = (x.put.1.widened k, x.put.2) := by
  have hchar : (x.widened k).machine.cellChar = x.machine.cellChar :=
    Machine.cellChar_widened k x.machine
  have hemit : (x.widened k).withMachine (x.widened k).machine.emit =
      (x.withMachine x.machine.emit).widened k :=
    congrArg x.withMachine (Machine.emit_widened k x.machine)
  have hspeaks : (x.widened k).machine.speaks = x.machine.speaks := rfl
  have htaking : Sink.taking ((x.widened k).deliveries + 1) (x.widened k).sink =
      Sink.taking (x.deliveries + 1) x.sink := rfl
  rw [put, put, hchar, hemit, hspeaks, htaking]
  cases x.machine.speaks with
  | false => rfl
  | true =>
    simp only [if_true, handed_widened]
    cases (Sink.taking (x.deliveries + 1) x.sink).failure with
    | some e => rfl
    | none =>
      simp only
      split <;> rfl

theorem read_widened (k : Nat) (x : Scene) (r : Hearing) :
    (x.widened k).read r = ((x.read r).1.widened k, (x.read r).2) := by
  rw [read, read, asked_widened]
  cases r.answer with
  | error e => rfl
  | ok text =>
    have hread : ∀ y : Scene, ((y.widened k).machine.receive text).consume.advance =
        (y.machine.receive text).consume.advance.widened k := fun y => by
      show ((y.machine.widened k).receive text).consume.advance = _
      rw [Machine.receive_widened, Machine.consume_widened, Machine.advance_widened]
    simp only
    split
    · exact congrArg (fun m => (((x.asked r).tell [.answered 0 text]).withMachine m, _))
        (hread (x.asked r))
    · rfl

/-- A step comes to the same on the wider tape, if it comes to anything. -/
theorem step_widened (h : ¬ x.machine.Wraps) :
    (x.widened k).step = x.step.map fun y => (y.1.widened k, y.2) := by
  have hstance : (x.widened k).machine.stance = x.machine.stance := rfl
  rw [step, step, hstance]
  cases x.machine.stance with
  | occupied counter => rfl
  | ended => rfl
  | inward => exact congrArg (fun y => some (y, _)) (work_widened h)
  | output => exact congrArg some (put_widened k x)
  | request =>
    have hhearing : Source.hearing? ((x.widened k).requests + 1) (x.widened k).source =
        Source.hearing? (x.requests + 1) x.source := rfl
    simp only [hhearing, Option.map_map]
    exact congrArg (Option.map · _) (funext fun r => read_widened k x r)

end Scene
end TapeMachine
