import TapeMachine.CommandLine.Execution

/-! The program.

Everything it does is decided by pure functions; here files and standard input
are read, and what was written is shown while a run goes on. -/
namespace TapeMachine.CommandLine

/-- The small turns between two looks at what a run has written. -/
def turnsPerLook : Nat := 100000

/-- All of a stream as text, with unified line ends. -/
def readAll (stream : IO.FS.Stream) : IO Text := do
  let mut bytes : ByteArray := .empty
  let mut chunk ← stream.read 65536
  while !chunk.isEmpty do
    bytes := bytes ++ chunk
    chunk ← stream.read 65536
  match Codec.decode (.utf8 false) bytes.toList with
  | .ok text => return Text.unifyLineEnds text
  | .error m => throw (IO.userError (String.ofList (m.message (.utf8 false))))

def obstacleOf : IO.Error → Obstacle
  | .inappropriateType _ 20 _ => .notDirectory
  | .inappropriateType .. => .isDirectory
  | .permissionDenied .. => .denied
  | _ => .missing

/-- The files, as far as one path is concerned. -/
def filesAt (path : Text) : IO Files := do
  try
    let content ← IO.FS.readBinFile (String.ofList (Path.ofText path).text)
    return fun _ => .ok content.toList
  catch e => return fun _ => .error (obstacleOf e)

def surroundings (files : Files) (input : Text) : Surroundings :=
  {files := files, input := input, stamp := "-".toList, elapsed := "0".toList,
    fuel := 1000000000000000}

/-- Shows what has been written since `seen` events. -/
def showSince (verbose : Bool) (bench : Bench) (seen : Nat) : IO Nat := do
  let news : Bench := {events := bench.events.extract seen bench.events.size}
  let errors := log "-".toList verbose news
  let output := written news
  unless errors.isEmpty do IO.eprint (String.ofList errors)
  unless output.isEmpty do
    IO.print (String.ofList output)
    (← IO.getStdout).flush
  return bench.events.size

/-- Goes on with a run until nothing more can happen. -/
partial def follow (verbose : Bool) (s : Scheduler) (seen : Nat) : IO Scheduler := do
  let next := s.exhaust turnsPerLook
  let seen ← showSince verbose next.bench seen
  if next.roster.running.isNone && next.roster.ready.isEmpty then return next
  else follow verbose next seen

/-- A run, shown while it goes on. -/
def runShown (r : RunRequest) (verbose : Bool) (p : Program) : IO UInt32 := do
  let input ←
    if r.input.isNone && p.chars.contains ',' then readAll (← IO.getStdin) else pure []
  match r.start (surroundings (fun _ => .error .missing) input) p with
  | .error e =>
    IO.eprint (String.ofList ("Error: ".toList ++ e.message ++ ['\n']))
    return 1
  | .ok s =>
    let before ← IO.monoMsNow
    let ended ← follow verbose (s.spawn (.run 0)) 0
    let after ← IO.monoMsNow
    let finished := r.finish (Text.natural (after - before)) (ended.ended 0)
    IO.eprint (String.ofList finished.errors)
    return finished.status.toUInt32

/-- Any other command, shown at its end. -/
def executeShown (files : Files) (arguments : List Text) : IO UInt32 := do
  let t := execute (surroundings files []) arguments
  IO.print (String.ofList t.output)
  IO.eprint (String.ofList t.errors)
  match t.ending with
  | .status n | .stopped n => return n.toUInt32
  | .crashed e => throw (IO.userError (String.ofList e.message))

end TapeMachine.CommandLine

open TapeMachine CommandLine in
def main (arguments : List String) : IO UInt32 := do
  let arguments := arguments.map String.toList
  match Invocation.ofArguments arguments with
  | .error _ => executeShown (fun _ => .error .missing) arguments
  | .ok ⟨verbose, request⟩ =>
    let files ← filesAt request.file
    match request, files.load request.file encoding with
    | .run r, .ok text => runShown r verbose (Program.ofList text)
    | _, _ => executeShown files arguments
