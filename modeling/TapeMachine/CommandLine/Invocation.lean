import TapeMachine.CommandLine.Arguments

/-! The commands and their options.

There is one grammar for the program as a whole and one for each command. An
`Invocation` is what a command line that follows them asks for. Arguments that a
command leaves over are a misuse of the whole. -/
namespace TapeMachine.CommandLine

/-! ### The options -/

def helpOption : Choice := ⟨["-h".toList, "--help".toList], .help⟩
def verboseOption : Choice := ⟨["-v".toList, "--verbose".toList], .nothing⟩
def memorySizeOption : Choice := ⟨["--memory-size".toList], .positive⟩
def inputOption : Choice := ⟨["--input".toList], .text⟩
def batchOption : Choice := ⟨["--batch".toList], .nothing⟩
def statsOption : Choice := ⟨["--stats".toList], .nothing⟩
def dumpOption : Choice := ⟨["--dump".toList], .integer⟩
def stepsOption : Choice := ⟨["--steps".toList], .integer⟩
def windowOption : Choice := ⟨["--window".toList], .integer⟩

/-! ### The grammars -/

def wholeGrammar : Grammar where
  program := "bftape".toList
  usage := "usage: bftape [-h] [-v] \x7brun,trace,check\x7d ...\n".toList
  help :=
    ("Step-wise Brainfuck interpreter.\n" ++
      "\n" ++
      "positional arguments:\n" ++
      "  \x7brun,trace,check\x7d\n" ++
      "    run              Run a program to completion\n" ++
      "    trace            Step through a program printing machine state\n" ++
      "    check            Report unmatched brackets\n" ++
      "\n" ++
      "options:\n" ++
      "  -h, --help         show this help message and exit\n" ++
      "  -v, --verbose      Enable debug logging\n").toList
  options := [helpOption, verboseOption]
  operand := "command".toList
  takesRest := true

def runGrammar : Grammar where
  program := "bftape run".toList
  usage :=
    ("usage: bftape run [-h] [--memory-size MEMORY_SIZE] [--input INPUT] [--batch]\n" ++
      "                  [--stats] [--dump N]\n" ++
      "                  file\n").toList
  help :=
    ("positional arguments:\n" ++
      "  file\n" ++
      "\n" ++
      "options:\n" ++
      "  -h, --help            show this help message and exit\n" ++
      "  --memory-size MEMORY_SIZE\n" ++
      "                        Tape length in cells (default 30000)\n" ++
      "  --input INPUT         Fixed input text instead of reading stdin lines\n" ++
      "  --batch               Do not yield to the event loop between steps\n" ++
      "  --stats               Print execution time and step count to stderr\n" ++
      "  --dump N              Print the first N cells after the run\n").toList
  options := [helpOption, memorySizeOption, inputOption, batchOption, statsOption, dumpOption]
  operand := "file".toList

def traceGrammar : Grammar where
  program := "bftape trace".toList
  usage :=
    ("usage: bftape trace [-h] [--memory-size MEMORY_SIZE] [--input INPUT]\n" ++
      "                    [--steps STEPS] [--window WINDOW]\n" ++
      "                    file\n").toList
  help :=
    ("positional arguments:\n" ++
      "  file\n" ++
      "\n" ++
      "options:\n" ++
      "  -h, --help            show this help message and exit\n" ++
      "  --memory-size MEMORY_SIZE\n" ++
      "  --input INPUT\n" ++
      "  --steps STEPS         Maximum steps to show (default 100)\n" ++
      "  --window WINDOW       Memory cells to show around the pointer\n").toList
  options := [helpOption, memorySizeOption, inputOption, stepsOption, windowOption]
  operand := "file".toList

def checkGrammar : Grammar where
  program := "bftape check".toList
  usage := "usage: bftape check [-h] file\n".toList
  help :=
    ("positional arguments:\n" ++
      "  file\n" ++
      "\n" ++
      "options:\n" ++
      "  -h, --help  show this help message and exit\n").toList
  options := [helpOption]
  operand := "file".toList

/-! ### What is asked for -/

/-- Run a program to its end. -/
structure RunRequest where
  file : Text
  memorySize : Int := 30000
  /-- A fixed input in place of the lines of standard input. -/
  input : Option Text := none
  batch : Bool := false
  stats : Bool := false
  dump : Int := 0
  deriving DecidableEq

/-- Show the machine after every step. -/
structure TraceRequest where
  file : Text
  memorySize : Int := 30000
  input : Option Text := none
  steps : Int := 100
  window : Int := 20
  deriving DecidableEq

/-- Report the brackets without a partner. -/
structure CheckRequest where
  file : Text
  deriving DecidableEq

inductive Request
  | run (r : RunRequest)
  | trace (r : TraceRequest)
  | check (r : CheckRequest)
  deriving DecidableEq

structure Invocation where
  verbose : Bool
  request : Request
  deriving DecidableEq

namespace Reading

/-- The value that an option was given last. -/
def setting? (r : Reading) (o : Choice) : Option Setting :=
  (r.settings.find? (fun entry => entry.1 == o)).map (·.2)

def isOn (r : Reading) (o : Choice) : Bool := (r.setting? o).isSome

def number (r : Reading) (o : Choice) (fallback : Int) : Int :=
  match r.setting? o with
  | some (.number n) => n
  | _ => fallback

def text? (r : Reading) (o : Choice) : Option Text :=
  match r.setting? o with
  | some (.text t) => some t
  | _ => none

def file (r : Reading) : Text := ((r.operand.getD []).head?).getD []

def runRequest (r : Reading) : Request :=
  .run ⟨r.file, r.number memorySizeOption 30000, r.text? inputOption, r.isOn batchOption,
    r.isOn statsOption, r.number dumpOption 0⟩

def traceRequest (r : Reading) : Request :=
  .trace ⟨r.file, r.number memorySizeOption 30000, r.text? inputOption,
    r.number stepsOption 100, r.number windowOption 20⟩

def checkRequest (r : Reading) : Request := .check ⟨r.file⟩

end Reading

/-- The commands by name, with their grammars. -/
def commands : List (Text × Grammar × (Reading → Request)) :=
  [("run".toList, runGrammar, Reading.runRequest),
    ("trace".toList, traceGrammar, Reading.traceRequest),
    ("check".toList, checkGrammar, Reading.checkRequest)]

/-- What the arguments ask for. -/
def Invocation.ofArguments (arguments : List Text) : Except Stop Invocation := do
  let whole ← wholeGrammar.read arguments
  let name := whole.file
  match commands.find? (fun entry => entry.1 == name) with
  | none =>
    throw (.misuse wholeGrammar
      (.badCommand wholeGrammar.operand name (commands.map (fun entry => entry.1))))
  | some (_, grammar, request) =>
    let read ← grammar.read ((whole.operand.getD []).drop 1)
    let extras := whole.extras ++ read.extras
    if extras.isEmpty then return ⟨whole.isOn verboseOption, request read⟩
    else throw (.misuse wholeGrammar (.unrecognized extras))

end TapeMachine.CommandLine
