import TapeMachine.Proofs.Machine.Later

/-! Nesting at run time.

While the counter is in the program, the open loops of a machine are those that the
text before the counter opens (`Nested`). Every instruction keeps this: a jump goes
from one end of a loop to the other, and the text between them closes all that it
opens. Only a `[` without a partner may be left on a zero cell with the loops that
were open there, and that ends the program (`Skips`). -/
namespace TapeMachine.Machine

variable {m m' : Machine}

/-- The next instruction is a `[` without a partner, on a zero cell. -/
structure Skips (m : Machine) : Prop where
  opening : m.program.command? m.counter = some .opening
  unmatched : m.counter ∈ m.program.unmatched
  zero : m.tape.read = 0

/-- The open loops are those that the text opens. -/
structure Nested (m : Machine) : Prop where
  counter_le : m.counter ≤ m.program.size
  loops_eq : m.counter < m.program.size → m.loops = m.program.openAt m.counter

theorem skips_iff (ho : m.program.command? m.counter = some .opening) (hz : m.tape.read = 0) :
    m.Skips ↔ m.program.loopEnd? m.counter = none := by
  constructor
  · intro h
    rcases Program.mem_unmatched_iff.mp h.unmatched with ⟨hc, -⟩ | ⟨-, hn⟩
    · rw [ho] at hc
      cases hc
    · exact hn
  · exact fun hn => ⟨ho, Program.mem_unmatched_iff.mpr (.inr ⟨ho, hn⟩), hz⟩

theorem Skips.execute (h : m.Skips) :
    m.execute.counter + 1 = m.program.size ∧ m.execute.loops = m.loops := by
  have hn := (skips_iff h.opening h.zero).mp h
  have hlt := Program.lt_size_of_command? h.opening
  rw [execute_of h.opening, perform, openLoop, if_pos h.zero, hn]
  refine ⟨?_, rfl⟩
  show m.program.size - 1 + 1 = m.program.size
  omega

theorem openLoop_nested (ho : m.program.command? m.counter = some .opening)
    (hl : m.loops = m.program.openAt m.counter) (hs : ¬ m.Skips) :
    m.openLoop.counter < m.program.size ∧
      m.openLoop.loops = m.program.openAt (m.openLoop.counter + 1) := by
  rw [openLoop]
  split
  next hz =>
    cases he : m.program.loopEnd? m.counter with
    | none => exact absurd ((skips_iff ho hz).mpr he) hs
    | some e =>
      obtain ⟨-, hc, -⟩ := Program.openAt_loopEnd ho he
      refine ⟨Program.lt_size_of_command? hc, ?_⟩
      exact hl.trans (Program.openAt_loopEnd_succ ho he).symm
  next =>
    refine ⟨Program.lt_size_of_command? ho, ?_⟩
    show m.counter :: m.loops = _
    rw [Program.openAt_succ_opening ho, hl]

theorem closeLoop_nested (hc : m.program.command? m.counter = some .closing)
    (hl : m.loops = m.program.openAt m.counter) :
    m.closeLoop.counter < m.program.size ∧
      m.closeLoop.loops = m.program.openAt (m.closeLoop.counter + 1) := by
  have hlt := Program.lt_size_of_command? hc
  have hsucc := Program.openAt_succ_closing hc
  rw [closeLoop]
  split
  next h =>
    -- with no loop open in the machine there is none open in the text
    refine ⟨hlt, ?_⟩
    rw [hsucc, ← hl, h]
    rfl
  next start outer h =>
    split
    next =>
      refine ⟨hlt, ?_⟩
      show outer = _
      rw [hsucc, ← hl, h, List.tail_cons]
    next =>
      have hopen : m.program.openAt m.counter = start :: outer := hl.symm.trans h
      obtain ⟨hstart, -, -⟩ := Program.openAt_cons hopen
      refine ⟨Nat.lt_trans hstart hlt, ?_⟩
      exact h.trans (Program.openAt_start_succ hopen).symm

/-- One instruction, from anywhere in the program. -/
theorem execute_nested (hr : m.counter < m.program.size)
    (hl : m.loops = m.program.openAt m.counter) (hs : ¬ m.Skips) :
    m.execute.counter < m.program.size ∧
      m.execute.loops = m.program.openAt (m.execute.counter + 1) := by
  rcases m.program.command?_cases m.counter with ho | hc | ⟨ho, hc⟩
  · rw [execute_of ho]
    exact openLoop_nested ho hl hs
  · rw [execute_of hc]
    exact closeLoop_nested hc hl
  · obtain ⟨hcounter, hloops⟩ := execute_plain ho hc
    rw [hcounter, hloops, Program.openAt_succ_other ho hc]
    exact ⟨hr, hl⟩

/-! ### Steps and resets -/

theorem Nested.still (h : m.Nested) (h' : Still m m') : m'.Nested where
  counter_le := by
    rw [h'.counter, h'.program]
    exact h.counter_le
  loops_eq := by
    rw [h'.counter, h'.program, h'.loops]
    exact h.loops_eq

theorem AtStart.nested (h : m.AtStart) : m.Nested where
  counter_le := by
    rw [h.counter]
    exact Nat.zero_le _
  loops_eq _ := by
    rw [h.counter, h.loops, Program.openAt_zero]

/-- A step takes the machine to its end past the `[` that it skips, or goes on. -/
theorem Stepped.nested (hs : Stepped m m') (h : m.Nested) : m'.Nested := by
  by_cases hk : m.Skips
  · obtain ⟨hc, -⟩ := hk.execute
    refine ⟨?_, fun hlt => ?_⟩
    · refine Nat.le_of_eq ?_
      rw [hs.counter, hs.program, hc]
    · rw [hs.counter, hs.program, hc] at hlt
      exact absurd hlt (Nat.lt_irrefl _)
  · obtain ⟨hlt, hl⟩ := execute_nested hs.running (h.loops_eq hs.running) hk
    refine ⟨?_, fun _ => ?_⟩
    · rw [hs.counter, hs.program]
      exact hlt
    · rw [hs.loops, hs.counter, hs.program, hl]

/-- Unless it skips, a step leaves the loops open that the text opens, also at the end. -/
theorem Stepped.loops_eq (hs : Stepped m m') (h : m.Nested) (hk : ¬ m.Skips) :
    m'.loops = m'.program.openAt m'.counter := by
  obtain ⟨-, hl⟩ := execute_nested hs.running (h.loops_eq hs.running) hk
  rw [hs.loops, hl, ← hs.counter, ← hs.program]

theorem Shift.nested (hs : m.Shift m') (h : m.Nested) : m'.Nested := by
  rcases hs.progress with hstill | hstep | ⟨-, hstart⟩
  · exact h.still hstill
  · exact hstep.nested h
  · exact hstart.nested

end TapeMachine.Machine
