import TapeMachine.Proofs.CommandLine.Settings
import TapeMachine.Proofs.Run.Driver
import TapeMachine.Proofs.Run.Lifetime

/-! What a trace shows.

A trace writes about the machine to the stream that the program writes to, and between two
of its texts takes a single step. What it writes does not get in the way of the machine, so
each text is about the machine that as many single steps make of a new one
(`traceSteps_of_tended`). If the bound on steps is greater than the number of steps for which
the program lasts, then the trace comes to the step that finds the end, and says so; this
step shows nothing else (`execute_trace`). -/
namespace TapeMachine

/-! ### What a step puts out -/

namespace Machine
variable {m : Machine}

/-- What the next instruction puts out. -/
def said (m : Machine) : Text :=
  if m.program.command? m.counter = some .output then [m.cellChar] else []

/-- A step adds this to the output. -/
theorem output_onward (texts : Nat → Text) (k : Nat) (hs : m.stepping = false)
    (hr : m.counter < m.program.size) :
    (m.onward texts k).1.output.toList = m.output.toList ++ m.said := by
  rw [onward, said]
  rcases stance_inside hs hr with hst | hst | hst
  · obtain ⟨-, hasks⟩ := stance_eq_request_iff.mp hst
    obtain ⟨tape, cursor, heq⟩ := consume_eq (m.receive (texts (k + 1)))
    have hinput : m.program.command? m.counter = some .input := hasks.1
    rw [if_pos hst, hinput, if_neg (by simp), heq]
    exact (List.append_nil _).symm
  · obtain ⟨-, houtput⟩ := stance_eq_output_iff.mp hst
    rw [if_neg (by simp [hst]), if_pos houtput, noted_execute_of_output hst]
    exact Array.toList_push
  · obtain ⟨-, -, c, hc, hne⟩ := stance_eq_inward_iff.mp hst
    have hsilent : m.program.command? m.counter ≠ some .output := by
      rw [hc]
      simpa using hne
    rw [if_neg (by simp [hst]), if_neg hsilent, List.append_nil, noted_eq, execute_reported]
    exact congrArg Array.toList (output_execute hsilent)

end Machine

/-! ### What is shown -/

namespace CommandLine
open Machine Scheduler

variable {s : Scheduler} {m : Machine} {texts : Nat → Text} {prior : Bench.Prior} {k n : Nat}
  {window : Int}

/-- What is shown of a step from one machine to the next: what it puts out, and then an empty
line, the status line and the window. -/
def shown (window : Int) (m m' : Machine) : Text :=
  m.said ++ ['\n'] ++ m'.statusLine ++ ['\n'] ++ m'.tape.renderWindow window ++ ['\n']

theorem writeAbout_of_tended (h : Bench.Tended texts (.stream none) prior s.bench m k)
    (f : Machine → List Text) : ∃ b, writeAbout f s = (⟨b, s.roster⟩, true) ∧
      written b = written s.bench ++ (f m).flatten ∧
      Bench.Tended texts (.stream none) ⟨m.output.toList, written b⟩ b m k := by
  obtain ⟨bench, roster⟩ := s
  obtain ⟨b, hall, hwritten, h'⟩ := h.writeAll (f m)
  refine ⟨b, ?_, hwritten, h'⟩
  have hm : bench.machine? 0 = some m := h.machine
  simp only [writeAbout, hm, Option.map_some, Option.getD_some]
  rw [hall]

/-- A step inside the program is shown, and the trace goes on. -/
theorem traceSteps_inside (window : Int) (hi : s.Idle)
    (h : Bench.Tended texts (.stream none) prior s.bench m k)
    (hs : m.stepping = false) (hr : m.counter < m.program.size) :
    ∃ s' enough, s'.Idle ∧
      (∃ prior', Bench.Tended texts (.stream none) prior' s'.bench (m.onward texts k).1
        (m.onward texts k).2) ∧
      written s'.bench = written s.bench ++ shown window m (m.onward texts k).1 ∧
      ∀ n fuel, enough ≤ fuel → traceSteps fuel window (n + 1) s = traceSteps fuel window n s' := by
  obtain ⟨s₁, ⟨enough, hstep⟩, hi₁, h₁⟩ := executed_of_tended hi h.now hs hr
  obtain ⟨b, habout, hwritten, h'⟩ := writeAbout_of_tended h₁ (traceBlock window)
  refine ⟨⟨b, s₁.roster⟩, enough, ⟨hi₁.running, hi₁.ready⟩, ⟨_, h'⟩, ?_, fun n fuel hle => ?_⟩
  · have hsaid := h₁.written_eq (output_onward texts k hs hr)
    rw [hwritten, hsaid]
    simp [shown, traceBlock, emptyLine, lineOf]
  · simp only [traceSteps, hstep fuel hle, habout]

/-- At the end of the program the trace says so, and ends. -/
theorem traceSteps_end (window : Int) (hi : s.Idle)
    (h : Bench.Tended texts (.stream none) prior s.bench m k)
    (hs : m.stepping = false) (he : m.program.size ≤ m.counter) :
    ∃ b enough, written b = written s.bench ++ "Program finished.\n".toList ∧
      ∀ n fuel, enough ≤ fuel → traceSteps fuel window (n + 1) s = ⟨b, 0, []⟩ := by
  obtain ⟨s₁, ⟨enough, hstep⟩, h₁⟩ := ended_of_tended hi h.now hs he
  obtain ⟨b, hall, hwritten, -⟩ := h₁.writeAll (lineOf "Program finished.".toList)
  refine ⟨b, enough, ?_, fun n fuel hle => ?_⟩
  · have hsame := h₁.written_eq (List.append_nil _).symm
    rw [hwritten, hsame, List.append_nil]
    rfl
  · simp only [traceSteps, hstep fuel hle, hall]

/-- A trace from a step on. It shows as many steps as are left, but no more than its bound
allows. -/
theorem traceSteps_of_tended (window : Int) (hs : m.stepping = false) (n j : Nat) (hi : s.Idle)
    (h : Bench.Tended texts (.stream none) prior s.bench (serial texts m j).1
      (serial texts m j).2) (hlasts : Lasts texts m j) :
    ∃ count, count ≤ n ∧ Lasts texts m (j + count) ∧
      (count < n → ¬ Lasts texts m (j + count + 1)) ∧
      ∃ b enough, (∀ fuel, enough ≤ fuel → traceSteps fuel window n s = ⟨b, 0, []⟩) ∧
        written b = written s.bench ++ (List.range' j count).flatMap (fun k =>
            shown window (serial texts m k).1 (serial texts m (k + 1)).1) ++
          if count < n then "Program finished.\n".toList else [] := by
  induction n generalizing j s prior with
  | zero =>
    exact ⟨0, le_rfl, hlasts, fun hlt => absurd hlt (Nat.lt_irrefl 0), s.bench, 0,
      fun _ _ => rfl, by simp⟩
  | succ n ih =>
    have hfree := (stepping_serial texts j).trans hs
    by_cases hr : (serial texts m j).1.counter < (serial texts m j).1.program.size
    · obtain ⟨s₁, enough₁, hi₁, ⟨prior₁, h₁⟩, hwritten₁, hfirst⟩ :=
        traceSteps_inside window hi h hfree hr
      have hlasts₁ : Lasts texts m (j + 1) := fun k hk =>
        (Nat.lt_succ_iff_lt_or_eq.mp hk).elim (hlasts k) fun hk => hk ▸ hr
      obtain ⟨count, hle, hlasts', hend, b, enough, hrest, hwritten⟩ := ih (j + 1) hi₁ h₁ hlasts₁
      rw [show j + 1 + count = j + (count + 1) by omega] at hlasts' hend
      refine ⟨count + 1, by omega, hlasts', fun hlt => hend (by omega), b, enough₁ + enough,
        fun fuel hfuel => ?_, ?_⟩
      · rw [hfirst n fuel (by omega)]
        exact hrest fuel (by omega)
      · rw [hwritten, hwritten₁, List.range'_succ, List.flatMap_cons]
        simp only [Nat.succ_lt_succ_iff, List.append_assoc]
        rfl
    · obtain ⟨b, enough, hwritten, hfirst⟩ :=
        traceSteps_end window hi h hfree (Nat.le_of_not_lt hr)
      refine ⟨0, Nat.zero_le _, hlasts, fun _ hmore => hr (hmore j (Nat.lt_succ_self j)), b, enough,
        fun fuel hfuel => hfirst n fuel hfuel, ?_⟩
      rw [hwritten]
      simp

/-- A machine can be made for every trace that a command line asks for. -/
theorem TraceRequest.exists_made {arguments : List Text} {verbose : Bool} {r : TraceRequest}
    (h : Invocation.ofArguments arguments = .ok ⟨verbose, .trace r⟩) (b : Bench) (p : Program) :
    ∃ made, b.make p {memorySize := .integer r.memorySize} = .ok made := by
  obtain ⟨cells, hcells⟩ := Int.eq_succ_of_zero_lt (r.memorySize_pos h)
  refine Bench.exists_made (n := cells + 1) ?_
  rw [hcells]
  rfl

/-- A trace shows the machine as it is after each single step, as far as the program lasts
and its bound on steps allows, and says that the program is finished if it lasts for fewer
steps than this bound. -/
theorem execute_trace {w : Surroundings} {arguments : List Text} {verbose : Bool}
    {r : TraceRequest} {text : Text}
    (hinvocation : Invocation.ofArguments arguments = .ok ⟨verbose, .trace r⟩)
    (hload : w.files.load r.file encoding = .ok text) (hroom : w.room = none) :
    ∃ made, ∃ m : Nat → Machine, ∃ count : Nat,
      (benchFor (Program.ofList text) (.fixed (r.input.getD [])) none).make (Program.ofList text)
        {memorySize := .integer r.memorySize} = .ok made ∧
      (count : ℕ∞) = min (r.steps.toNat : ℕ∞) (lifetime {bench := made}) ∧
      (∀ k, k ≤ count → (m k).program = Program.ofList text ∧ (m k).steps = k ∧
        ∃ s, StepTimes k {bench := made} s ∧ s.bench.machine? 0 = some (m k)) ∧
      (∀ k, k < count → (m (k + 1)).output.toList = (m k).output.toList ++ (m k).said) ∧
      ∃ errors enough, ∀ fuel, enough ≤ fuel → execute {w with fuel := fuel} arguments =
        ⟨.status 0,
          (m 0).statusLine ++ ['\n'] ++
            (List.range count).flatMap (fun k => shown r.window (m k) (m (k + 1))) ++
            (if lifetime {bench := made} < r.steps.toNat then "Program finished.\n".toList else []),
          errors⟩ := by
  obtain ⟨made, hmade⟩ := TraceRequest.exists_made hinvocation
    (benchFor (Program.ofList text) (.fixed (r.input.getD [])) none) (Program.ofList text)
  obtain ⟨texts, m, hs, hprogram, hsteps, houtput, h⟩ : ∃ texts, ∃ m : Machine,
      m.stepping = false ∧ m.program = Program.ofList text ∧ m.steps = 0 ∧
      m.output.toList = [] ∧ Bench.Tended texts (.stream none) {} made m 0 := by
    obtain ⟨cells, hcells, -, h⟩ :=
      (Bench.fresh_benchFor (Program.ofList text) (r.input.getD [])).tended hmade
    exact ⟨_, _, rfl, rfl, rfl, rfl, h⟩
  have hi := idle_of_bench made
  obtain ⟨b₀, hfirst, hwritten₀, h₀⟩ :=
    writeAbout_of_tended (s := {bench := made}) h fun m => lineOf m.statusLine
  obtain ⟨count, hle, hlasts, hend, b, enough, hrest, hwritten⟩ :=
    traceSteps_of_tended r.window hs r.steps.toNat 0 (s := ⟨b₀, _⟩) ⟨hi.running, hi.ready⟩ h₀
      (fun k hk => absurd hk (Nat.not_lt_zero k))
  rw [Nat.zero_add] at hlasts hend
  obtain ⟨hcount, hfinished⟩ := eq_min_lifetime hi h hs hle hlasts hend
  have hearlier : ∀ k, k ≤ count → Lasts texts m k := fun k hk i hik => hlasts i (hik.trans_le hk)
  refine ⟨made, fun k => (serial texts m k).1, count, hmade, hcount, fun k hk => ?_,
    fun k hk => ?_, log w.stamp verbose b, enough, fun fuel hfuel => ?_⟩
  · obtain ⟨s, htimes, -, htended⟩ := stepTimes_of_lasts hi h hs (hearlier k hk)
    obtain ⟨hp, hn⟩ := (hearlier k hk).stepped hs
    exact ⟨hp.trans hprogram, by rw [hn, hsteps, Nat.zero_add], s, htimes, htended.machine⟩
  · exact output_onward texts _ ((stepping_serial texts k).trans hs) (hlasts k hk)
  · have hrun : r.execute {w with fuel := fuel} (Program.ofList text) = ⟨b, 0, []⟩ := by
      simp only [TraceRequest.execute, hroom, hmade, hfirst]
      exact hrest fuel hfuel
    have hnothing : written made = [] := h.written_eq houtput
    have hall : written b = m.statusLine ++ ['\n'] ++
        (List.range count).flatMap (fun k =>
          shown r.window (serial texts m k).1 (serial texts m (k + 1)).1) ++
        if lifetime {bench := made} < r.steps.toNat then "Program finished.\n".toList else [] := by
      rw [hwritten, hwritten₀, hnothing, List.range_eq_range']
      simp only [hfinished, lineOf, List.flatten_cons, List.flatten_nil, List.nil_append,
        List.append_nil, List.append_assoc]
    rw [execute_eq (w := {w with fuel := fuel}) hinvocation hload, Request.execute, hrun,
      Finished.transcript, hall, List.append_nil]
    rfl

/-- A bound on steps that the program just reaches: nothing is said of its end. -/
theorem execute_trace_reached : ∃ errors enough, ∀ fuel, enough ≤ fuel →
    execute {files := fun _ => .ok [43, 46], stamp := [], elapsed := [], fuel := fuel}
        (["trace", "--memory-size", "1", "--steps", "2", "p.b"].map String.toList) =
      ⟨.status 0,
        ("PC: 0 (1:1) | Pointer: 0 | Instruction: '+' | Value: 0 ('.') | Steps: 0\n" ++
          "\nPC: 1 (1:2) | Pointer: 0 | Instruction: '.' | Value: 1 ('.') | Steps: 1\n" ++
          " v\n  1\n  0\n" ++
          "\x01\nPC: 2 (1:3) | Pointer: 0 | Instruction: 'End' | Value: 1 ('.') | Steps: 2\n" ++
          " v\n  1\n  0\n").toList,
        errors⟩ := by
  have hinvocation : Invocation.ofArguments
      (["trace", "--memory-size", "1", "--steps", "2", "p.b"].map String.toList) =
        .ok ⟨false, .trace {file := "p.b".toList, memorySize := 1, steps := 2}⟩ := rfl
  have hload : Files.load (fun _ => .ok [43, 46]) "p.b".toList encoding = .ok ['+', '.'] := rfl
  obtain ⟨made, m, count, hmade, hcount, hm, -, errors, enough, hall⟩ := execute_trace
    (w := {files := fun _ => .ok [43, 46], stamp := [], elapsed := [], fuel := 0})
    hinvocation hload rfl
  have hi := idle_of_bench made
  obtain rfl : _ = made := Except.ok.inj hmade
  -- two steps on their own, and the machines that they make
  obtain ⟨s₁, h₁, hi₁, hb₁⟩ := stepsTo_of_advance hi rfl rfl
  obtain ⟨s₂, h₂, -, hb₂⟩ := stepsTo_of_advance hi₁ hb₁ rfl
  have htimes : StepTimes 2 _ s₂ := .succ (.succ .zero h₁) h₂
  have htwo := le_lifetime_iff.mpr ⟨s₂, htimes⟩
  obtain rfl : count = 2 := by
    have hmin : (count : ℕ∞) = ((2 : Nat) : ℕ∞) := hcount.trans (min_eq_left htwo)
    exact Nat.cast_inj.mp hmin
  obtain ⟨-, -, t₀, ht₀, hm₀⟩ := hm 0 (by decide)
  obtain ⟨-, -, t₁, ht₁, hm₁⟩ := hm 1 (by decide)
  obtain ⟨-, -, t₂, ht₂, hm₂⟩ := hm 2 (by decide)
  rw [ht₀.unique .zero] at hm₀
  rw [ht₁.unique (.succ .zero h₁), hb₁] at hm₁
  rw [ht₂.unique htimes, hb₂] at hm₂
  refine ⟨errors, enough, fun fuel hle => (hall fuel hle).trans ?_⟩
  rw [show List.range 2 = [0, 1] from rfl]
  simp only [List.flatMap_cons, List.flatMap_nil, ← Option.some.inj hm₀, ← Option.some.inj hm₁,
    ← Option.some.inj hm₂]
  split
  next h => exact absurd h (not_lt_of_ge htwo)
  next =>
    exact congrArg (fun output => (⟨.status 0, output, errors⟩ : Transcript)) (by decide +kernel)

end CommandLine
end TapeMachine
