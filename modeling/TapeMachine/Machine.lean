import TapeMachine.Program
import TapeMachine.Tape
import TapeMachine.Text.Numeral

/-! The machine.

A `Snapshot` is what an observer sees: tape, counter, output, input, and whether
a run is going on or a pause was asked for. A `Machine` adds the program, the
stack of open loops, the number of steps taken, and what keeps concurrent
callers apart: whether a step waits for input, whether a run loop is active, and
the epoch, the number of resets so far. A step that began in an earlier epoch
has lost its machine and changes nothing more.

`Machine.execute` is the effect of the instruction at the counter, all but the
hand-over of a character to the sink and the request for text; `Machine.advance`
moves past it. -/
namespace TapeMachine

/-- What an observer sees of a machine at one moment. -/
structure Snapshot where
  tape : Tape
  counter : Nat := 0
  output : Array Char := #[]
  input : Array Char := #[]
  /-- How many characters of the input have been read. -/
  cursor : Nat := 0
  running : Bool := false
  paused : Bool := false
  deriving DecidableEq

namespace Snapshot

def blank (n : Nat) (h : 0 < n) : Snapshot := {tape := Tape.blank n h}

def consumedInput (s : Snapshot) : Text := s.input.toList.take s.cursor

def pendingInput (s : Snapshot) : Text := s.input.toList.drop s.cursor

end Snapshot

/-- A machine with a program on a tape. -/
structure Machine extends Snapshot where
  program : Program
  /-- The positions of the open loops, innermost first. -/
  loops : List Nat := []
  /-- How many steps were completed since the machine was made or reset. -/
  steps : Nat := 0
  /-- How often the machine was reset. -/
  epoch : Nat := 0
  /-- A step waits for the source. -/
  stepping : Bool := false
  /-- A run loop is active. -/
  looping : Bool := false
  /-- A run lets other tasks go first after every step. -/
  cooperative : Bool := true
  /-- A source is bound. -/
  hears : Bool := true
  /-- A sink is bound. -/
  speaks : Bool := true
  /-- The brackets already complained about. -/
  reported : List Nat := []

/-- A bracket without a partner that was just executed. -/
inductive Complaint
  | unclosed (index : Nat)
  | unopened (index : Nat)
  deriving DecidableEq

def Complaint.index : Complaint → Nat
  | .unclosed i => i
  | .unopened i => i

namespace Machine

/-- A machine at rest at the start of a program, on a blank tape. -/
def ofProgram (p : Program) (n : Nat) (h : 0 < n) : Machine :=
  {toSnapshot := Snapshot.blank n h, program := p}

/-- A run loop is active or a step waits for input. -/
def busy (m : Machine) : Bool := m.looping || m.stepping

def depth (m : Machine) : Nat := m.loops.length

def current? (m : Machine) : Option Char := m.program.char? m.counter

/-- The counter has left the program. -/
def ended (m : Machine) : Bool := m.program.size ≤ m.counter

/-! ### The instructions -/

/-- Reads the next character of the input into the cell: the low byte of its
code point, or zero when the input is used up. -/
def consume (m : Machine) : Machine :=
  match m.input[m.cursor]? with
  | some c => {m with tape := m.tape.write c.toNat.toUInt8, cursor := m.cursor + 1}
  | none => {m with tape := m.tape.write 0}

/-- Text that arrived from the source joins the input. -/
def receive (m : Machine) (text : Text) : Machine := {m with input := m.input ++ text}

/-- The character that the cell under the head stands for. -/
def cellChar (m : Machine) : Char := Char.ofNat m.tape.read.toNat

def emit (m : Machine) : Machine := {m with output := m.output.push m.cellChar}

/-- Enters the loop, or on a zero cell goes to its end; a loop without an end
takes the machine to the last character. -/
def openLoop (m : Machine) : Machine :=
  if m.tape.read = 0 then
    {m with counter := (m.program.loopEnd? m.counter).getD (m.program.size - 1)}
  else {m with loops := m.counter :: m.loops}

/-- Back to the start of the innermost loop, or on a zero cell out of it. With no
loop open nothing happens. -/
def closeLoop (m : Machine) : Machine :=
  match m.loops with
  | [] => m
  | start :: outer => if m.tape.read = 0 then {m with loops := outer} else {m with counter := start}

/-- The effect of a command, before the counter moves on. -/
def perform (m : Machine) : Command → Machine
  | .right => {m with tape := m.tape.right}
  | .left => {m with tape := m.tape.left}
  | .increment => {m with tape := m.tape.increment}
  | .decrement => {m with tape := m.tape.decrement}
  | .output => m.emit
  | .input => m.consume
  | .opening => m.openLoop
  | .closing => m.closeLoop
  | .comment => m

/-- The effect of the instruction at the counter. -/
def execute (m : Machine) : Machine :=
  match m.program.command? m.counter with
  | some c => m.perform c
  | none => m

/-- Past the instruction, with one step more to its account. -/
def advance (m : Machine) : Machine := {m with counter := m.counter + 1, steps := m.steps + 1}

/-- What is wrong with the bracket at the counter, whether reported or not. -/
def fault? (m : Machine) : Option Complaint :=
  match m.program.command? m.counter with
  | some .opening =>
    if m.tape.read = 0 && (m.program.loopEnd? m.counter).isNone then some (.unclosed m.counter)
    else none
  | some .closing => if m.loops.isEmpty then some (.unopened m.counter) else none
  | _ => none

/-- A bracket is complained about once between two resets. -/
def complaint? (m : Machine) : Option Complaint :=
  m.fault?.filter (fun c => !m.reported.contains c.index)

def report (m : Machine) (c : Complaint) : Machine := {m with reported := c.index :: m.reported}

/-! ### What a step is up against -/

/-- How a step begins. -/
inductive Stance
  /-- Another step at this counter waits for input. -/
  | occupied (counter : Nat)
  | ended
  /-- A character goes out. -/
  | output
  /-- The input is used up and a source is bound. -/
  | request
  /-- Nothing but the machine itself is involved. -/
  | inward
  deriving DecidableEq

def stance (m : Machine) : Stance :=
  if m.stepping then .occupied m.counter else
  match m.program.command? m.counter with
  | none => .ended
  | some .output => .output
  | some .input => if m.hears && m.input.size ≤ m.cursor then .request else .inward
  | some _ => .inward

/-! ### Between steps -/

/-- Starts over on a blank tape. Only the flags of calls still in progress stay:
those calls clear them when they end. -/
def reset (m : Machine) : Machine :=
  {m with
    toSnapshot := {tape := m.tape.cleared}, loops := [], steps := 0, epoch := m.epoch + 1,
    reported := []}

def pause (m : Machine) : Machine := {m with paused := true}

/-- Takes back a pause. -/
def unpause (m : Machine) : Machine := {m with paused := false}

/-- The flags of a run loop that begins. -/
def enterLoop (m : Machine) : Machine := {m with running := true, looping := true}

/-- The flags of a run loop that ends, however it ends. -/
def leaveLoop (m : Machine) : Machine := {m with running := false, looping := false}

/-- A run loop goes on. -/
def goesOn (m : Machine) : Bool := m.running && !m.paused

/-! ### The status line -/

/-- The character of a cell if it is a visible one or the blank, else a point. -/
def visible (v : UInt8) : Char :=
  if 32 ≤ v ∧ v ≤ 126 then Char.ofNat v.toNat else '.'

/-- Counter with line and column from one, head, next instruction, cell and step count. -/
def statusLine (m : Machine) : Text :=
  let place := m.program.locate m.counter
  "PC: ".toList ++ Text.natural m.counter ++ " (".toList ++ Text.natural (place.line + 1) ++
    ":".toList ++ Text.natural (place.column + 1) ++ ") | Pointer: ".toList ++
    Text.natural m.tape.head ++ " | Instruction: '".toList ++
    (match m.current? with
      | some c => [c]
      | none => "End".toList) ++
    "' | Value: ".toList ++ Text.natural m.tape.read.toNat ++ " ('".toList ++
    [visible m.tape.read] ++ "') | Steps: ".toList ++ Text.grouped m.steps

end Machine
end TapeMachine
