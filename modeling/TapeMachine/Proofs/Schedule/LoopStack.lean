import TapeMachine.Proofs.Machine.Nested
import TapeMachine.Proofs.Schedule.Past

/-! The stack of open loops.

In every run, with any callers and callbacks, the stack of a machine is a matter of
its program and counter alone. -/
namespace TapeMachine.Scheduler
open Machine

variable {s : Scheduler} {moves : List Move} {i : Nat} {m m₁ : Machine}

/-- The step in which a machine completed its last step is the last step. -/
theorem LastStep.stepped (hs : s.Starts) (hm : (s.play moves).bench.machine? i = some m)
    (hlast : LastStep s moves i m m₁) : Stepped m₁ m := by
  rcases atStart_or_lastStep hs hm with hstart | ⟨m₂, hlast₂, hstep⟩
  · obtain ⟨before, after, -, -, -, hsteps⟩ := hlast
    rw [hstart.steps] at hsteps
    cases hsteps
  · exact hstep.of_still (hlast.still hs.sound hlast₂)

theorem play_nested (hs : s.Starts) (hm : (s.play moves).bench.machine? i = some m) :
    m.Nested :=
  (play_each hs (fun _ hn => hn.atStart.nested) (fun _ _ hsh h => hsh.nested h) hm).still
    (Still.bare m).symm

/-- At the end of the program the stack is that of the whole text, unless the last
step was to skip. -/
theorem loops_at_end (hs : s.Starts) (hm : (s.play moves).bench.machine? i = some m)
    (hend : m.counter = m.program.size)
    (hskip : ∀ m₁, LastStep s moves i m m₁ → ¬ m₁.Skips) :
    m.loops = m.program.openAt m.program.size := by
  rcases atStart_or_lastStep hs hm with hstart | ⟨m₁, hlast, hstep⟩
  · rw [hstart.loops, ← hend, hstart.counter, Program.openAt_zero]
  · have hgoes := hskip m₁ hlast
    obtain ⟨before, after, -, hm₁, -, -⟩ := hlast
    rw [hstep.loops_eq (play_nested hs hm₁) hgoes, hend]

/-- Wherever a machine stands, the stack is one that its text has somewhere. -/
theorem exists_loops_eq (hs : s.Starts) (hm : (s.play moves).bench.machine? i = some m) :
    ∃ k, m.loops = m.program.openAt k := by
  have hnested := play_nested hs hm
  by_cases hlt : m.counter < m.program.size
  · exact ⟨_, hnested.loops_eq hlt⟩
  · by_cases hskip : ∃ m₁, LastStep s moves i m m₁ ∧ m₁.Skips
    · obtain ⟨m₁, hlast, hskip⟩ := hskip
      have hstep := hlast.stepped hs hm
      obtain ⟨before, after, -, hm₁, -, -⟩ := hlast
      refine ⟨m₁.counter, ?_⟩
      rw [hstep.loops, hskip.execute.2, hstep.program]
      exact (play_nested hs hm₁).loops_eq hstep.running
    · have hend : m.counter = m.program.size :=
        Nat.le_antisymm hnested.counter_le (Nat.le_of_not_lt hlt)
      exact ⟨_, loops_at_end hs hm hend fun m₁ hlast hs₁ => hskip ⟨m₁, hlast, hs₁⟩⟩

/-- The stack of open loops is what a matcher of brackets leaves open in the text
before the counter: in the program always, and at its end unless the last step was to
skip from a `[` without a partner on a zero cell. -/
theorem play_loops (hs : s.Starts) (moves : List Move)
    (hm : (s.play moves).bench.machine? i = some m) :
    m.counter ≤ m.program.size ∧ m.loops.reverse.Pairwise (· < ·) ∧
      (m.counter < m.program.size → m.loops = m.program.openAt m.counter ∧
        m.depth = (m.program.openAt m.counter).length) ∧
      (m.counter = m.program.size →
        (∀ m₁, LastStep s moves i m m₁ → m₁.Skips → m.loops = m₁.loops) ∧
        ((∀ m₁, LastStep s moves i m m₁ → ¬ m₁.Skips) →
          m.loops = m.program.openAt m.program.size)) := by
  have hnested := play_nested hs hm
  obtain ⟨k, hk⟩ := exists_loops_eq hs hm
  refine ⟨hnested.counter_le, ?_, fun hlt => ?_, fun hend => ⟨fun m₁ hlast hskip => ?_, ?_⟩⟩
  · rw [hk, List.pairwise_reverse]
    exact Program.openAt_descends _ k
  · have hloops := hnested.loops_eq hlt
    exact ⟨hloops, congrArg List.length hloops⟩
  · rw [(hlast.stepped hs hm).loops, hskip.execute.2]
  · exact loops_at_end hs hm hend

/-- A run in a loop that the text never closes. -/
theorem play_loops_unclosed : ∃ b m,
    Bench.make {} ⟨#['+', '[', '-']⟩ {memorySize := .integer 2, cooperative := false} = .ok b ∧
      (({bench := b} : Scheduler).play (Move.alone (.run 0) 6)).bench.machine? 0 = some m ∧
      m.counter = 2 ∧ m.loops = m.program.openAt m.counter ∧ m.loops = [1] := by
  have hb : Bench.make {} ⟨#['+', '[', '-']⟩ {memorySize := .integer 2, cooperative := false} =
      .ok _ := rfl
  refine ⟨_, _, hb, rfl, rfl, ?_, rfl⟩
  exact ((play_loops (i := 0) (.machine hb) (Move.alone (.run 0) 6) rfl).2.2.1 (by decide)).1

end TapeMachine.Scheduler
