import TapeMachine.Proofs.Schedule.Single

/-! Rows of single steps.

Single steps of a machine that is alone, one after the other, each of which comes to an
end (`Scheduler.Row`). A failure ends a step like any other and the row goes on after it;
only a step that waits for ever ends the row. The log of a row says what each step found
at the counter and how it ended. What is true of all rows of a scene is true of all rows
of a bench that shows it (`row_of_scene`, `scene_of_row`). -/
namespace TapeMachine

/-- What a step found at the counter, and whether it executed an instruction or why not. -/
structure Entry where
  command : Option Command
  result : Except Failure Bool

/-- Steps of a scene, one after the other. -/
inductive Scene.Row : Scene → List Entry → Scene → Prop
  | nil {x : Scene} : Scene.Row x [] x
  | snoc {x y z : Scene} {log : List Entry} {r : Except Failure Bool} : Scene.Row x log y →
      y.step = some (z, r) →
      Scene.Row x (log ++ [⟨y.machine.program.command? y.machine.counter, r⟩]) z

/-- A machine before its first step, with its callbacks. -/
def Scene.start (m : Machine) (source : Option Source) (sink : Option Sink) : Scene :=
  ⟨m, source, sink, 0, 0, []⟩

theorem Scene.Row.trans {x y z : Scene} {log log' : List Entry} (h : Row x log y)
    (h' : Row y log' z) : Row x (log ++ log') z := by
  induction h' with
  | nil => rwa [List.append_nil]
  | snoc _ hstep ih =>
    rw [← List.append_assoc]
    exact ih.snoc hstep

/-- A scene has at most one row of a length. -/
theorem Scene.Row.unique {x y y' : Scene} {log log' : List Entry} (h : Row x log y)
    (h' : Row x log' y') (hlength : log.length = log'.length) : log = log' ∧ y = y' := by
  induction h generalizing log' y' with
  | nil =>
    cases h' with
    | nil => exact ⟨rfl, rfl⟩
    | snoc => simp at hlength
  | snoc _ hstep ih =>
    cases h' with
    | nil => simp at hlength
    | snoc hrow' hstep' =>
      obtain ⟨rfl, rfl⟩ := ih hrow' (by simpa using hlength)
      rw [hstep] at hstep'
      cases hstep'
      exact ⟨rfl, rfl⟩

namespace Scheduler
variable {s s' : Scheduler} {x y : Scene} {log : List Entry}

/-- Single steps of the first machine, one after the other. -/
inductive Row : Scheduler → List Entry → Scheduler → Prop
  | nil {s : Scheduler} : Row s [] s
  | snoc {s s₁ s' : Scheduler} {log : List Entry} {m : Machine} {r : Except Failure Bool} :
      Row s log s₁ → s₁.bench.machine? 0 = some m → StepsTo s₁ s' (.ofResult r) →
      Row s (log ++ [⟨m.program.command? m.counter, r⟩]) s'

theorem Stepped.ofResult_injective {r r' : Except Failure Bool}
    (h : Stepped.ofResult r = Stepped.ofResult r') : r = r' := by
  rcases r with e | (_ | _) <;> rcases r' with e' | (_ | _) <;> cases h <;> rfl

theorem Stepped.ofResult_ne_stuck (r : Except Failure Bool) : Stepped.ofResult r ≠ .stuck := by
  rcases r with e | (_ | _) <;> exact nofun

theorem command?_of_shows {m : Machine} (h : s.bench.Shows x) (hm : s.bench.machine? 0 = some m) :
    m.program.command? m.counter = x.machine.program.command? x.machine.counter := by
  obtain ⟨n, hn, hb⟩ := h.exists_machine?
  rw [← hb, Option.some.inj (hm.symm.trans hn)]
  rfl

theorem row_of_scene (hrow : x.Row log y) (hi : s.Idle) (h : s.bench.Shows x) :
    ∃ s', Row s log s' ∧ s'.Idle ∧ s'.bench.Shows y := by
  induction hrow with
  | nil => exact ⟨s, .nil, hi, h⟩
  | snoc _ hstep ih =>
    obtain ⟨s₁, hrow, hi₁, h₁⟩ := ih
    obtain ⟨s', hto, hi', h'⟩ := stepsTo_of_shows hi₁ h₁ hstep
    obtain ⟨m, hm, -⟩ := h₁.exists_machine?
    have hlast := hrow.snoc hm hto
    rw [command?_of_shows h₁ hm] at hlast
    exact ⟨s', hlast, hi', h'⟩

theorem scene_of_row (hrow : Row s log s') (hi : s.Idle) (h : s.bench.Shows x) :
    ∃ y, x.Row log y ∧ s'.Idle ∧ s'.bench.Shows y := by
  induction hrow with
  | nil => exact ⟨x, .nil, hi, h⟩
  | @snoc s₁ s' log m r _ hm hto ih =>
    obtain ⟨y, hrow, hi₁, h₁⟩ := ih
    rw [command?_of_shows h₁ hm]
    cases hstep : y.step with
    | none =>
      obtain ⟨s₂, hstuck⟩ := stuck_of_shows hi₁ h₁ hstep
      exact absurd (hto.unique hstuck).2 (Stepped.ofResult_ne_stuck r)
    | some z =>
      obtain ⟨z, r'⟩ := z
      obtain ⟨s₂, hto', hi', h'⟩ := stepsTo_of_shows hi₁ h₁ hstep
      obtain ⟨rfl, hr⟩ := hto.unique hto'
      rw [Stepped.ofResult_injective hr]
      exact ⟨z, hrow.snoc hstep, hi', h'⟩

/-- A machine made for its callers is alone with its callbacks. -/
theorem shows_of_make {source : Option Source} {sink : Option Sink} {p : Program} {o : Options}
    {b : Bench} (hb : Bench.make {source, sink} p o = .ok b) :
    ∃ n, ∃ hn : 0 < n, o.memorySize.cellCount? = some n ∧
      b.Shows (.start {Machine.ofProgram p n hn with
        hears := source.isSome, speaks := sink.isSome} source sink) := by
  obtain ⟨n, hn, hcells, rfl⟩ := Bench.eq_of_make hb
  exact ⟨n, hn, hcells, rfl, rfl, rfl, rfl, rfl, rfl, rfl⟩

/-- Whether a machine can be made is a matter of the options alone. -/
theorem exists_make {b₀ b₁ b : Bench} {p : Program} {o : Options} (hb : b₀.make p o = .ok b)
    (p' : Program) : ∃ b', b₁.make p' o = .ok b' := by
  obtain ⟨n, hn, hcells, -⟩ := Bench.eq_of_make hb
  exact Bench.exists_made hcells

end Scheduler
end TapeMachine
