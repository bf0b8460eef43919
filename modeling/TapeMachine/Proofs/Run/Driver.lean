import TapeMachine.Proofs.CommandLine.RunCommand
import TapeMachine.Proofs.Files.Load
import TapeMachine.Proofs.Run.Complete
import TapeMachine.Proofs.Text.Numeral

/-! Ways to run a program.

A program with an input may be run from its text, from a file, or by the command line on
this file, each time with others going first after every step or not. If one of these
runs comes to its end, then all do, and all of them tell the same (`Job.agree`). -/
namespace TapeMachine

namespace CommandLine

/-- The command line asks for a run, and the run comes to an end, whatever end it is. -/
def Ends (w : Surroundings) (arguments : List Text) : Prop :=
  ∃ verbose request text s, Invocation.ofArguments arguments = .ok ⟨verbose, .run request⟩ ∧
    w.files.load request.file encoding = .ok text ∧
    request.start w (Program.ofList text) = .ok s ∧ (s.runToEnd w.fuel).2.isSome

/-- A command line that is understood and finds its program is executed. -/
theorem execute_eq {w : Surroundings} {arguments : List Text} {invocation : Invocation}
    {text : Text} (hinvocation : Invocation.ofArguments arguments = .ok invocation)
    (hload : w.files.load invocation.request.file encoding = .ok text) :
    execute w arguments =
      (invocation.request.execute w (Program.ofList text)).transcript w invocation.verbose := by
  simp only [execute, hinvocation, hload]

end CommandLine

/-- A program to be run on so many cells with an input. The text of the program, without
carriage returns, is also in a file at a path that the command takes for an operand, and the
number of cells is also given by a numeral. -/
structure Job where
  text : Text
  cells : Int
  input : Text
  files : Files
  path : Text
  numeral : Text
  /-- What else a command finds around it. -/
  stdin : Text
  stamp : Text
  elapsed : Text
  unified : '\r' ∉ text
  stored : files (Path.ofText path) = .ok (Utf8.encode text)
  named : '\x00' ∉ path
  operand : CommandLine.classify CommandLine.runGrammar path = .ok .operand
  spelled : Text.readInteger? numeral = some cells

/-- What runs a job. -/
inductive Driver
  /-- From the text of the program. -/
  | text (cooperative : Bool)
  /-- From the file. -/
  | file (cooperative : Bool)
  /-- By the command line, on the file. -/
  | command (batch : Bool)

namespace Driver

def cooperative : Driver → Bool
  | .text c | .file c => c
  | .command batch => !batch

/-- The command line writes to standard output, which nobody breaks in on. -/
def sink : Driver → Sink
  | .text _ | .file _ => .silent
  | .command _ => .stream none

end Driver

namespace Job
variable (j : Job)

def options (cooperative : Bool) : Options :=
  {memorySize := .integer j.cells, cooperative := cooperative}

def surroundings (fuel : Nat) : CommandLine.Surroundings :=
  {files := j.files, input := j.stdin, stamp := j.stamp, elapsed := j.elapsed, fuel := fuel}

def arguments (batch : Bool) : List Text :=
  CommandLine.runArguments j.path j.numeral j.input batch

/-- The run comes to its end in so many small turns. -/
def Finishes (fuel : Nat) : Driver → Prop
  | .text c => ∃ report,
    ((Program.ofList j.text).run fuel (j.options c) (.fixed j.input) .silent).2 =
      some (.ok report)
  | .file c => ∃ report,
    (j.files.run fuel j.path "utf-8".toList (j.options c) (.fixed j.input) .silent).2 =
      some (.ok report)
  | .command batch => CommandLine.Ends (j.surroundings fuel) (j.arguments batch)

/-- The run tells this: as its result, or with a status of zero and on standard output. -/
def Tells (report : Report) (fuel : Nat) : Driver → Prop
  | .text c =>
    ((Program.ofList j.text).run fuel (j.options c) (.fixed j.input) .silent).2 =
      some (.ok report)
  | .file c =>
    (j.files.run fuel j.path "utf-8".toList (j.options c) (.fixed j.input) .silent).2 =
      some (.ok report)
  | .command batch => ∃ errors, CommandLine.execute (j.surroundings fuel) (j.arguments batch) =
    ⟨.status 0, report.output, errors⟩

/-! ### One run for all -/

/-- The bench before the machine is made. -/
def bench : Driver → Bench
  | .text _ | .file _ => {source := some (.fixed j.input), sink := some .silent}
  | .command _ => CommandLine.benchFor (Program.ofList j.text) (.fixed j.input) none

/-- The bench with the machine for the program, if the number of cells is one. -/
def made? (d : Driver) : Except Failure Bench :=
  (j.bench d).make (Program.ofList j.text) (j.options d.cooperative)

/-- The input comes with the first request. -/
def texts (n : Nat) : Text := if n = 1 then j.input else []

variable {j} {d : Driver} {fuel : Nat} {made : Bench} {s : Scheduler} {report : Report}
  {batch : Bool}

theorem fresh (d : Driver) : (j.bench d).Fresh j.texts d.sink := by
  have hgives : Source.Gives j.texts 0 (some (.fixed j.input)) := fun _ _ => rfl
  cases d with
  | text | file => exact ⟨⟨rfl, rfl, rfl, rfl, rfl⟩, ⟨_, rfl, trivial⟩, hgives, rfl, trivial⟩
  | command batch => exact Bench.fresh_benchFor (Program.ofList j.text) j.input

theorem load_eq : j.files.load j.path "utf-8".toList = .ok j.text := by
  rw [Files.load_encode j.stored j.named, Text.unifyLineEnds_eq_self j.unified]

/-- What the command line asks for. -/
def request (j : Job) (batch : Bool) : CommandLine.RunRequest :=
  {file := j.path, memorySize := j.cells, input := some j.input, batch := batch}

theorem ofArguments_eq (hcells : 0 < j.cells) :
    CommandLine.Invocation.ofArguments (j.arguments batch) =
      .ok ⟨false, .run (j.request batch)⟩ := by
  rw [arguments, CommandLine.ofArguments_run j.operand, CommandLine.positiveInteger, j.spelled]
  simp only [if_neg (Int.not_le.mpr hcells)]
  rfl

theorem cells_pos_of_invocation {invocation : CommandLine.Invocation}
    (h : CommandLine.Invocation.ofArguments (j.arguments batch) = .ok invocation) :
    0 < j.cells := by
  rw [arguments, CommandLine.ofArguments_run j.operand, CommandLine.positiveInteger,
    j.spelled] at h
  by_contra hle
  simp only [if_pos (Int.not_lt.mp hle)] at h
  cases h

theorem cells_pos_of_made (h : j.made? d = .ok made) : 0 < j.cells := by
  obtain ⟨n, hn, hcells, -⟩ := Bench.eq_of_make h
  have hdatum : Datum.cellCount? (.integer j.cells) = some n := hcells
  cases hc : j.cells with
  | ofNat k =>
    cases k with
    | zero =>
      rw [hc] at hdatum
      cases hdatum
    | succ k => exact Int.natCast_pos.mpr (Nat.succ_pos k)
  | negSucc k =>
    rw [hc] at hdatum
    cases hdatum

theorem start_eq : (j.request batch).start (j.surroundings fuel) (Program.ofList j.text) =
    (j.made? (.command batch)).map fun bench => {bench := bench} := rfl

theorem run_text (c : Bool) :
    (Program.ofList j.text).run fuel (j.options c) (.fixed j.input) .silent =
      match j.made? (.text c) with
      | .error e => ({}, some (.error e))
      | .ok made => Scheduler.runToEnd fuel {bench := made} := rfl

theorem run_file (c : Bool) :
    (j.files.run fuel j.path "utf-8".toList (j.options c) (.fixed j.input) .silent).2 =
      ((Program.ofList j.text).run fuel (j.options c) (.fixed j.input) .silent).2.map
        (·.mapError .run) := by
  rw [Files.run, load_eq]

/-- A run that comes to its end is a run of the machine that is made. -/
theorem Finishes.run (h : j.Finishes fuel d) : ∃ made r, j.made? d = .ok made ∧
    (Scheduler.runToEnd fuel {bench := made}).2 = some r := by
  have htext : ∀ c r, ((Program.ofList j.text).run fuel (j.options c) (.fixed j.input) .silent).2 =
      some (.ok r) → ∃ made, j.made? (.text c) = .ok made ∧
        (Scheduler.runToEnd fuel {bench := made}).2 = some (.ok r) := by
    intro c r hr
    rw [run_text] at hr
    cases hmade : j.made? (.text c) with
    | error e =>
      rw [hmade] at hr
      cases hr
    | ok made =>
      rw [hmade] at hr
      exact ⟨made, rfl, hr⟩
  cases d with
  | text c =>
    obtain ⟨report, hr⟩ := h
    obtain ⟨made, hmade, hrun⟩ := htext c report hr
    exact ⟨made, _, hmade, hrun⟩
  | file c =>
    obtain ⟨report, hr⟩ := h
    rw [run_file] at hr
    obtain ⟨r, hr, hmap⟩ := Option.map_eq_some_iff.mp hr
    cases r with
    | error e => cases hmap
    | ok r =>
      obtain ⟨made, hmade, hrun⟩ := htext c r hr
      exact ⟨made, _, hmade, hrun⟩
  | command batch =>
    obtain ⟨verbose, request, text, s, hinvocation, hload, hstart, hrun⟩ := h
    rw [ofArguments_eq (cells_pos_of_invocation hinvocation)] at hinvocation
    cases hinvocation
    obtain rfl : j.text = text := Except.ok.inj (load_eq.symm.trans hload)
    rw [start_eq] at hstart
    cases hmade : j.made? (.command batch) with
    | error e =>
      rw [hmade] at hstart
      cases hstart
    | ok made =>
      rw [hmade] at hstart
      cases hstart
      obtain ⟨r, hr⟩ := Option.isSome_iff_exists.mp hrun
      exact ⟨made, r, rfl, hr⟩

/-- Whoever drives the run, it tells the result. -/
theorem tells_of_run (hmade : j.made? d = .ok made)
    (hrun : Scheduler.runToEnd fuel {bench := made} = (s, some (.ok report)))
    (hwritten : d.sink = .stream none → CommandLine.written s.bench = report.output) :
    j.Tells report fuel d := by
  have htext : ∀ c, j.made? (.text c) = .ok made →
      ((Program.ofList j.text).run fuel (j.options c) (.fixed j.input) .silent).2 =
        some (.ok report) := by
    intro c hc
    rw [run_text, hc]
    exact congrArg Prod.snd hrun
  cases d with
  | text c => exact htext c hmade
  | file c =>
    show (j.files.run fuel j.path _ _ _ _).2 = _
    rw [run_file, htext c hmade]
    rfl
  | command batch =>
    have hinvocation : CommandLine.Invocation.ofArguments (j.arguments batch) = _ :=
      ofArguments_eq (cells_pos_of_made hmade)
    have hstart : (j.request batch).start (j.surroundings fuel) (Program.ofList j.text) =
        .ok {bench := made} := by
      rw [start_eq, hmade]
      rfl
    have hexecute : (j.request batch).execute (j.surroundings fuel) (Program.ofList j.text) =
        ⟨s.bench, 0, (j.request batch).epilogue j.elapsed report⟩ := by
      rw [CommandLine.RunRequest.execute, hstart]
      exact congrArg ((j.request batch).finish j.elapsed) hrun
    have htranscript := CommandLine.execute_eq (w := j.surroundings fuel) hinvocation load_eq
    simp only [CommandLine.Request.execute, hexecute, CommandLine.Finished.transcript,
      hwritten rfl] at htranscript
    exact ⟨_, htranscript⟩

/-- A run of the machine that is made with a result comes to its end. -/
theorem finishes_of_run (hmade : j.made? d = .ok made)
    (hrun : Scheduler.runToEnd fuel {bench := made} = (s, some (.ok report))) :
    j.Finishes fuel d := by
  cases d with
  | text c => exact ⟨report, tells_of_run hmade hrun fun h => by cases h⟩
  | file c => exact ⟨report, tells_of_run hmade hrun fun h => by cases h⟩
  | command batch =>
    refine ⟨false, j.request batch, j.text, {bench := made},
      ofArguments_eq (cells_pos_of_made hmade), load_eq, ?_, ?_⟩
    · rw [start_eq, hmade]
      rfl
    · exact congrArg (fun x => x.2.isSome) hrun

/-- All drivers agree. If one of them finishes then all do, as soon as they are given
enough small turns, and all tell the same, whatever they were given beyond that. The
output is that of the last state. -/
theorem agree (h : j.Finishes fuel d) : ∃ report : Report,
    report.output = report.state.output.toList ∧
      (∀ d' fuel', j.Finishes fuel' d' → j.Tells report fuel' d') ∧
      ∀ d', ∃ n, ∀ fuel', n ≤ fuel' → j.Finishes fuel' d' := by
  obtain ⟨made, r, hmade, hrun⟩ := h.run
  obtain ⟨n, hn, y, hcells, hy⟩ := (fresh d).arrives hmade hrun
  have hmakes : ∀ d', ∃ made', j.made? d' = .ok made' := fun d' => Bench.exists_made hcells
  have hresult := fun d' made' (hmade' : j.made? d' = .ok made') =>
    (fresh d').result hmade' hcells hy
  refine ⟨y.1.account, rfl, fun d' fuel' h' => ?_, fun d' => ?_⟩
  · obtain ⟨made', r', hmade', hrun'⟩ := h'.run
    obtain ⟨k, s', hafter, hbefore, hwritten⟩ := hresult d' made' hmade'
    by_cases hle : k ≤ fuel'
    · exact tells_of_run hmade' (hafter fuel' hle) hwritten
    · rw [hbefore fuel' (Nat.lt_of_not_le hle)] at hrun'
      cases hrun'
  · obtain ⟨made', hmade'⟩ := hmakes d'
    obtain ⟨k, s', hafter, -, -⟩ := hresult d' made' hmade'
    exact ⟨k, fun fuel' hle => finishes_of_run hmade' (hafter fuel' hle)⟩

/-- A program that puts out what it reads, from its text and by the command line. -/
theorem agree_echo : ∃ (j : Job) (report : Report) (fuel : Nat),
    j.text = ",.".toList ∧ j.Tells report 20 (.text true) ∧ j.Tells report fuel (.command true) ∧
      report.output = ['a'] := by
  let j : Job := {
    text := ",.".toList, cells := 2, input := ['a'], files := fun _ => .ok [44, 46]
    path := "echo.b".toList, numeral := Text.integer 2, stdin := [], stamp := [], elapsed := []
    unified := by decide, stored := rfl, named := by decide
    operand := CommandLine.classify_operand (by decide)
    spelled := Text.readInteger?_integer (by decide)}
  have hrun : ((Program.ofList j.text).run 20 (j.options true) (.fixed j.input) .silent).2.bind
      (fun r => r.toOption.map (·.output)) = some ['a'] := by decide +kernel
  obtain ⟨r, hr, hresult⟩ := Option.bind_eq_some_iff.mp hrun
  obtain ⟨report, hok, hout⟩ := Option.map_eq_some_iff.mp hresult
  obtain rfl : r = .ok report := by
    cases r with
    | error e => cases hok
    | ok report' => exact congrArg Except.ok (Option.some.inj hok)
  have htext : j.Finishes 20 (.text true) := ⟨report, hr⟩
  obtain ⟨report', -, htells, hall⟩ := j.agree htext
  obtain ⟨fuel, hcommand⟩ := hall (.command true)
  have htold : _ = some (Except.ok report') := htells (.text true) 20 htext
  rw [hr] at htold
  cases htold
  exact ⟨j, report, fuel, rfl, hr, htells _ _ (hcommand fuel (Nat.le_refl fuel)), hout⟩

end Job
end TapeMachine
