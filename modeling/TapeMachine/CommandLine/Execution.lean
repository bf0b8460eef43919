import TapeMachine.CommandLine.Invocation
import TapeMachine.Run
import TapeMachine.Machine
import TapeMachine.Tape.Window

/-! The commands at work.

A command finds its program among files, reads standard input and leaves a
transcript: how it ended and what it wrote. Standard output is what was written to
the stream behind the sink, so the texts a command prints and the characters of the
program are writes of one kind, in order, and the user may break in at any of
them. What is put on record goes to standard error, with a stamp for the time. -/
namespace TapeMachine.CommandLine

/-- What a command finds around it. -/
structure Surroundings where
  files : Files
  /-- The text of standard input, with unified line ends. -/
  input : Text := []
  /-- The user breaks in at the write after so many. -/
  room : Option Nat := none
  /-- What stands for the time in front of a notice. -/
  stamp : Text
  /-- How long the run took. -/
  elapsed : Text
  /-- A bound on small turns. -/
  fuel : Nat

/-- How a command ends. -/
inductive Ending
  /-- With a status. -/
  | status (n : Nat)
  /-- Already when the arguments were read. -/
  | stopped (n : Nat)
  /-- With an error that is not about reading a program file. -/
  | crashed (e : LoadError)

structure Transcript where
  ending : Ending
  output : Text
  errors : Text

/-! ### Writing -/

/-- The texts one after the other; false if the user broke in. -/
def writeAll (b : Bench) : List Text → Bench × Bool
  | [] => (b, true)
  | t :: rest => if b.blocked then (b, false) else writeAll (b.write t) rest

/-- A line is written in two pieces, the text and the line end. -/
def lineOf (t : Text) : List Text := [t, ['\n']]

def emptyLine : List Text := [['\n']]

/-- All that was written to standard output. -/
def written (b : Bench) : Text :=
  (b.events.toList.filterMap (fun
    | .wrote t => some t
    | _ => none)).flatten

/-- The notices that show: warnings, and all when asked to be verbose. -/
def notices (verbose : Bool) (b : Bench) : List Notice :=
  b.events.toList.filterMap fun
    | .notice n => if verbose || n.level = .warning then some n else none
    | _ => none

def log (stamp : Text) (verbose : Bool) (b : Bench) : Text :=
  (notices verbose b).flatMap (fun n => n.logLine stamp ++ ['\n'])

/-- What a command came to: its bench, its status, and more for standard error. -/
structure Finished where
  bench : Bench
  status : Nat
  errors : Text := []

def Finished.transcript (w : Surroundings) (verbose : Bool) (f : Finished) : Transcript :=
  ⟨.status f.status, written f.bench, log w.stamp verbose f.bench ++ f.errors⟩

/-- The status after the user broke in. -/
def brokenIn : Nat := 130

/-! ### The commands -/

/-- Warnings about the brackets of a program, before it runs. -/
def warnings (p : Program) : Bench :=
  p.diagnostics.foldl (fun b d => b.log (.bracket d)) {}

/-- The bench for a program: what it may read and write, and the warnings on record. -/
def benchFor (p : Program) (source : Source) (room : Option Nat) : Bench :=
  {warnings p with source := some source, sink := some (.stream room)}

/-- The line about time and steps. -/
def statistics (elapsed : Text) (steps : Nat) : Text :=
  "\n================\nExecution took ".toList ++ elapsed ++ " ms (".toList ++
    Text.grouped steps ++ " steps)\n".toList

/-- What a run adds to standard error at its end. -/
def RunRequest.epilogue (r : RunRequest) (elapsed : Text) (report : Report) : Text :=
  (if r.stats then statistics elapsed report.steps else []) ++
    (if r.dump ≠ 0 then memoryDump report.state.tape.values r.dump ++ ['\n'] else [])

def RunRequest.source (r : RunRequest) (input : Text) : Source :=
  match r.input with
  | some t => .fixed t
  | none => .lines input false

/-- The machine for a run, about to start. -/
def RunRequest.start (r : RunRequest) (w : Surroundings) (p : Program) : Except Failure Scheduler :=
  ((benchFor p (r.source w.input) w.room).make p
    {memorySize := .integer r.memorySize, cooperative := !r.batch}).map
    (fun bench => {bench := bench})

/-- How a command ends on a failure: the user broke in, or there is a message. -/
def finishFailed (bench : Bench) (e : Failure) : Finished :=
  match e with
  | .interrupted => ⟨bench, brokenIn, []⟩
  | e => ⟨bench, 1, "Error: ".toList ++ e.message ++ ['\n']⟩

/-- A run has come to its end. -/
def RunRequest.finish (r : RunRequest) (elapsed : Text) :
    Scheduler × Option (Except Failure Report) → Finished
  | (ended, some (.ok report)) => ⟨ended.bench, 0, r.epilogue elapsed report⟩
  | (ended, some (.error e)) => finishFailed ended.bench e
  | (ended, none) => ⟨ended.bench, 1, []⟩

def RunRequest.execute (r : RunRequest) (w : Surroundings) (p : Program) : Finished :=
  match r.start w p with
  | .error e => finishFailed (warnings p) e
  | .ok s => r.finish w.elapsed (s.runToEnd w.fuel)

/-- What is printed after a step: an empty line, the status line and the window. -/
def traceBlock (window : Int) (m : Machine) : List Text :=
  emptyLine ++ lineOf m.statusLine ++ lineOf (m.tape.renderWindow window)

/-- Writes something about the first machine; false if the user broke in. -/
def writeAbout (f : Machine → List Text) : Scheduler → Scheduler × Bool
  | ⟨bench, roster⟩ =>
    let pieces := ((bench.machine? 0).map f).getD []
    let (bench, complete) := writeAll bench pieces
    (⟨bench, roster⟩, complete)

/-- Takes at most `n` steps and writes a block after each. -/
def traceSteps (fuel : Nat) (window : Int) : Nat → Scheduler → Finished
  | 0, s => ⟨s.bench, 0, []⟩
  | n + 1, s =>
    match s.stepOnce fuel with
    | (after, .executed) =>
      match writeAbout (traceBlock window) after with
      | (written, true) => traceSteps fuel window n written
      | (written, false) => ⟨written.bench, brokenIn, []⟩
    | (after, .ended) =>
      match writeAll after.bench (lineOf "Program finished.".toList) with
      | (bench, true) => ⟨bench, 0, []⟩
      | (bench, false) => ⟨bench, brokenIn, []⟩
    | (after, .failed e) => finishFailed after.bench e
    | (after, .stuck) => ⟨after.bench, 1, []⟩

def TraceRequest.execute (r : TraceRequest) (w : Surroundings) (p : Program) : Finished :=
  match (benchFor p (.fixed (r.input.getD [])) w.room).make p
      {memorySize := .integer r.memorySize} with
  | .error e => finishFailed (warnings p) e
  | .ok bench =>
    match writeAbout (fun m => lineOf m.statusLine) {bench := bench} with
    | (written, true) => traceSteps w.fuel r.window r.steps.toNat written
    | (written, false) => ⟨written.bench, brokenIn, []⟩

/-- The last line of a check. -/
def verdict (file : Text) (count : Nat) : Text :=
  if count = 0 then file ++ ": brackets balanced".toList
  else Text.natural count ++ " unmatched bracket(s) in ".toList ++ file

def CheckRequest.execute (r : CheckRequest) (w : Surroundings) (p : Program) : Finished :=
  let diagnostics := p.diagnostics
  let pieces := diagnostics.flatMap (fun d => lineOf d.text ++ emptyLine) ++
    lineOf (verdict r.file diagnostics.length)
  match writeAll {sink := some (.stream w.room)} pieces with
  | (bench, true) => ⟨bench, if diagnostics.isEmpty then 0 else 1, []⟩
  | (bench, false) => ⟨bench, brokenIn, []⟩

/-! ### The whole -/

def Request.file : Request → Text
  | .run r => r.file
  | .trace r => r.file
  | .check r => r.file

def Request.execute (w : Surroundings) (p : Program) : Request → Finished
  | .run r => r.execute w p
  | .trace r => r.execute w p
  | .check r => r.execute w p

/-- The encoding of program files on the command line. -/
def encoding : Text := "utf-8".toList

/-- A program file that cannot be read ends a command with a message; any other
trouble with the path crashes it. -/
def transcriptOf (e : LoadError) : Transcript :=
  match e.path? with
  | some _ => ⟨.status 1, [], "Error: ".toList ++ e.message ++ ['\n']⟩
  | none => ⟨.crashed e, [], []⟩

/-- Executes a command line. -/
def execute (w : Surroundings) (arguments : List Text) : Transcript :=
  match Invocation.ofArguments arguments with
  | .error stop => ⟨.stopped stop.status, stop.output, stop.errors⟩
  | .ok invocation =>
    match w.files.load invocation.request.file encoding with
    | .error e => transcriptOf e
    | .ok text =>
      (invocation.request.execute w (Program.ofList text)).transcript w invocation.verbose

end TapeMachine.CommandLine
