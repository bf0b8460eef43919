import TapeMachine.Proofs.Machine.Stir

/-! Later states.

Some acts complete a step and some do not, and what is not completed leaves hardly
a trace: the machine stands where it stood (`Still`). So a machine that was not
reset and completed no step is still the same, and in between there is one last
step that it completed (`LastStep`). -/
namespace TapeMachine.Machine

variable {m m' m'' : Machine} {a : Act}

/-- The acts that complete a step. -/
def Act.Completes : Act → Prop
  | .hear _ | .work | .put => True
  | .ask | .drop _ | .spill => False

/-- A machine stands where it stood: only its output may be longer, and a step may
have begun or ended to wait. -/
structure Still (m m' : Machine) : Prop where
  program : m'.program = m.program
  tape : m'.tape = m.tape
  counter : m'.counter = m.counter
  loops : m'.loops = m.loops
  input : m'.input = m.input
  cursor : m'.cursor = m.cursor
  reported : m'.reported = m.reported
  steps : m'.steps = m.steps
  epoch : m'.epoch = m.epoch

theorem Still.refl (m : Machine) : Still m m := ⟨rfl, rfl, rfl, rfl, rfl, rfl, rfl, rfl, rfl⟩

theorem Still.trans (h : Still m m') (h' : Still m' m'') : Still m m'' where
  program := h'.program.trans h.program
  tape := h'.tape.trans h.tape
  counter := h'.counter.trans h.counter
  loops := h'.loops.trans h.loops
  input := h'.input.trans h.input
  cursor := h'.cursor.trans h.cursor
  reported := h'.reported.trans h.reported
  steps := h'.steps.trans h.steps
  epoch := h'.epoch.trans h.epoch

theorem Still.bare (m : Machine) : Still m m.bare := ⟨rfl, rfl, rfl, rfl, rfl, rfl, rfl, rfl, rfl⟩

theorem Still.symm (h : Still m m') : Still m' m where
  program := h.program.symm
  tape := h.tape.symm
  counter := h.counter.symm
  loops := h.loops.symm
  input := h.input.symm
  cursor := h.cursor.symm
  reported := h.reported.symm
  steps := h.steps.symm
  epoch := h.epoch.symm

/-- A machine without the step that waits. -/
def settled (m : Machine) : Machine := {m with stepping := false}

theorem settled_eq (h : m.stepping = false) : m.settled = m := by
  rw [settled, ← h]

theorem settled_wiped (m : Machine) (k : Nat) : (m.wiped k).settled = m.settled.wiped k := by
  induction k generalizing m with
  | zero => rfl
  | succ k ih => exact ih m.reset

theorem Does.still (h : Does m a m') (ha : ¬ a.Completes) : Still m m' := by
  cases h with
  | ask => exact ⟨rfl, rfl, rfl, rfl, rfl, rfl, rfl, rfl, rfl⟩
  | drop => exact ⟨rfl, rfl, rfl, rfl, rfl, rfl, rfl, rfl, rfl⟩
  | spill => exact ⟨rfl, rfl, rfl, rfl, rfl, rfl, rfl, rfl, rfl⟩
  | hear => exact absurd trivial ha
  | work => exact absurd trivial ha
  | put => exact absurd trivial ha

/-! ### Instructions -/

/-- What an instruction does is decided by where the machine stands. -/
theorem Still.execute (h : Still m m') : Still m.execute m'.execute := by
  obtain ⟨hp, ht, hc, hl, hi, hn, hr, hs, he⟩ := h
  rw [Machine.execute, Machine.execute, hp, hc]
  cases m.program.command? m.counter with
  | none => exact ⟨hp, ht, hc, hl, hi, hn, hr, hs, he⟩
  | some c =>
    cases c
    case right => exact ⟨hp, congrArg Tape.right ht, hc, hl, hi, hn, hr, hs, he⟩
    case left => exact ⟨hp, congrArg Tape.left ht, hc, hl, hi, hn, hr, hs, he⟩
    case increment => exact ⟨hp, congrArg Tape.increment ht, hc, hl, hi, hn, hr, hs, he⟩
    case decrement => exact ⟨hp, congrArg Tape.decrement ht, hc, hl, hi, hn, hr, hs, he⟩
    case input =>
      simp only [perform, consume, hi, hn]
      split
      · exact ⟨hp, congrArg (Tape.write · _) ht, hc, hl, rfl, rfl, hr, hs, he⟩
      · exact ⟨hp, congrArg (Tape.write · 0) ht, hc, hl, rfl, rfl, hr, hs, he⟩
    case opening =>
      simp only [perform, openLoop, ht, hc, hp, hl]
      split
      · exact ⟨rfl, rfl, rfl, rfl, hi, hn, hr, hs, he⟩
      · exact ⟨rfl, ht, hc, rfl, hi, hn, hr, hs, he⟩
    case closing =>
      simp only [perform, closeLoop, ht, hl]
      split
      · exact ⟨hp, ht, hc, hl, hi, hn, hr, hs, he⟩
      · split
        · exact ⟨hp, ht, hc, rfl, hi, hn, hr, hs, he⟩
        · exact ⟨hp, rfl, rfl, rfl, hi, hn, hr, hs, he⟩
    all_goals exact ⟨hp, ht, hc, hl, hi, hn, hr, hs, he⟩

theorem Still.complaint? (h : Still m m') : m'.complaint? = m.complaint? := by
  rw [Machine.complaint?, Machine.complaint?, fault?, fault?, h.program, h.counter, h.tape,
    h.loops, h.reported]

theorem Still.noted (h : Still m m') : m'.noted.reported = m.noted.reported := by
  rw [Machine.noted, Machine.noted, h.complaint?]
  cases m.complaint? with
  | none => exact h.reported
  | some c => exact congrArg (c.index :: ·) h.reported

/-! ### The last step -/

/-- A machine has just completed a step, whatever the text was that came for it. -/
structure Stepped (m m' : Machine) : Prop where
  running : m.counter < m.program.size
  program : m'.program = m.program
  counter : m'.counter = m.execute.counter + 1
  loops : m'.loops = m.execute.loops
  reported : m'.reported = m.noted.reported
  steps : m'.steps = m.steps + 1
  epoch : m'.epoch = m.epoch

theorem consume_eq (m : Machine) : ∃ t n, m.consume = {m with tape := t, cursor := n} := by
  rw [consume]
  split
  · exact ⟨_, _, rfl⟩
  · exact ⟨_, m.cursor, rfl⟩

theorem execute_of {c : Command} (h : m.program.command? m.counter = some c) :
    m.execute = m.perform c := by
  rw [execute, h]

/-- Only brackets move the counter, and only they change the stack. -/
theorem execute_plain (ho : m.program.command? m.counter ≠ some .opening)
    (hc : m.program.command? m.counter ≠ some .closing) :
    m.execute.counter = m.counter ∧ m.execute.loops = m.loops := by
  rw [execute]
  cases h : m.program.command? m.counter with
  | none => exact ⟨rfl, rfl⟩
  | some c =>
    cases c
    case opening => exact absurd h ho
    case closing => exact absurd h hc
    case input =>
      obtain ⟨t, n, heq⟩ := consume_eq m
      show m.consume.counter = _ ∧ m.consume.loops = _
      rw [heq]
      exact ⟨rfl, rfl⟩
    all_goals exact ⟨rfl, rfl⟩

/-- Instructions do not look at what was complained about. -/
theorem execute_reported (m : Machine) (rs : List Nat) :
    ({m with reported := rs} : Machine).execute = {m.execute with reported := rs} := by
  rw [execute, execute]
  cases m.program.command? m.counter with
  | none => rfl
  | some c =>
    cases c
    case input =>
      simp only [perform, consume]
      split
      · rfl
      · rfl
    case opening =>
      simp only [perform, openLoop]
      split
      · rfl
      · rfl
    case closing =>
      simp only [perform, closeLoop]
      split
      · rfl
      · split
        · rfl
        · rfl
    all_goals rfl

theorem noted_eq (m : Machine) : m.noted = {m with reported := m.noted.reported} := by
  rw [noted]
  split
  · rfl
  · rfl

/-- Only brackets are at fault. -/
theorem complaint?_eq_none (ho : m.program.command? m.counter ≠ some .opening)
    (hc : m.program.command? m.counter ≠ some .closing) : m.complaint? = none := by
  rw [complaint?, fault?]
  split
  next h => exact absurd h ho
  next h => exact absurd h hc
  next => rfl

theorem noted_of_complaint?_eq_none (h : m.complaint? = none) : m.noted = m := by
  rw [noted, h]

theorem noted_execute_of_output (h : m.stance = .output) : m.noted.execute = m.emit := by
  obtain ⟨-, hc⟩ := stance_eq_output_iff.mp h
  have hnone := complaint?_eq_none (m := m) (by rw [hc]; decide) (by rw [hc]; decide)
  rw [noted_of_complaint?_eq_none hnone, execute_of hc]
  rfl

theorem noted_execute_of_input (hc : m.program.command? m.counter = some .input) :
    m.complaint? = none ∧ m.noted.execute = m.consume := by
  have hnone := complaint?_eq_none (m := m) (by rw [hc]; decide) (by rw [hc]; decide)
  rw [noted_of_complaint?_eq_none hnone, execute_of hc]
  exact ⟨hnone, rfl⟩

theorem Does.stepped (h : Does m a m') (ha : a.Completes) : Stepped m m' := by
  cases h with
  | ask => exact absurd ha id
  | drop => exact absurd ha id
  | spill => exact absurd ha id
  | hear text hs hasks =>
    obtain ⟨hc, -, -⟩ := hasks
    have hn := noted_of_complaint?_eq_none
      (m := m) (complaint?_eq_none (by rw [hc]; decide) (by rw [hc]; decide))
    obtain ⟨t, n, heq⟩ := consume_eq ({m with stepping := false}.receive text)
    obtain ⟨t', n', heq'⟩ := consume_eq m
    have hexec : m.execute = m.consume := execute_of hc
    rw [heq]
    refine ⟨Program.lt_size_of_command? hc, rfl, ?_, ?_, ?_, rfl, rfl⟩
    · rw [hexec, heq']
      rfl
    · rw [hexec, heq']
      rfl
    · rw [hn]
      rfl
  | work hst =>
    obtain ⟨-, -, c, hc, -⟩ := stance_eq_inward_iff.mp hst
    have hinner := inner_execute m
    rw [noted_eq, execute_reported]
    exact ⟨Program.lt_size_of_command? hc, hinner.program, rfl, rfl, rfl,
      congrArg (· + 1) hinner.steps, hinner.epoch⟩
  | put hst =>
    obtain ⟨-, hc⟩ := stance_eq_output_iff.mp hst
    have hn := noted_of_complaint?_eq_none
      (m := m) (complaint?_eq_none (by rw [hc]; decide) (by rw [hc]; decide))
    have hexec : m.execute = m.emit := execute_of hc
    refine ⟨Program.lt_size_of_command? hc, rfl, ?_, ?_, ?_, rfl, rfl⟩
    · rw [hexec]
      rfl
    · rw [hexec]
      rfl
    · rw [hn]
      rfl

theorem Stepped.of_bare (h : Stepped m.bare m'.bare) : Stepped m m' where
  running := h.running
  program := h.program
  counter := by
    have hc := h.counter
    rw [← bare_execute] at hc
    exact hc
  loops := by
    have hl := h.loops
    rw [← bare_execute] at hl
    exact hl
  reported := by
    have hr := h.reported
    rw [← bare_noted] at hr
    exact hr
  steps := h.steps
  epoch := h.epoch

theorem Stepped.of_still (h : Still m m') (h' : Stepped m' m'') : Stepped m m'' where
  running := by
    rw [← h.counter, ← h.program]
    exact h'.running
  program := h'.program.trans h.program
  counter := by rw [h'.counter, h.execute.counter]
  loops := h'.loops.trans h.execute.loops
  reported := h'.reported.trans h.noted
  steps := by rw [h'.steps, h.steps]
  epoch := h'.epoch.trans h.epoch

theorem Stepped.still (h : Stepped m m') (h' : Still m' m'') : Stepped m m'' where
  running := h.running
  program := h'.program.trans h.program
  counter := h'.counter.trans h.counter
  loops := h'.loops.trans h.loops
  reported := h'.reported.trans h.reported
  steps := h'.steps.trans h.steps
  epoch := h'.epoch.trans h.epoch

/-! ### One turn and many -/

/-- A machine as it is made and after a reset. -/
structure AtStart (m : Machine) : Prop where
  counter : m.counter = 0
  loops : m.loops = []
  reported : m.reported = []
  steps : m.steps = 0

theorem AtStart.still (h : m.AtStart) (h' : Still m m') : m'.AtStart where
  counter := h'.counter.trans h.counter
  loops := h'.loops.trans h.loops
  reported := h'.reported.trans h.reported
  steps := h'.steps.trans h.steps

theorem IsNew.atStart (h : m.IsNew) : m.AtStart := by
  obtain ⟨p, n, hn, hears, speaks, rfl⟩ := h
  exact ⟨rfl, rfl, rfl, rfl⟩

theorem IsNew.stepping (h : m.IsNew) : m.stepping = false := by
  obtain ⟨p, n, hn, hears, speaks, rfl⟩ := h
  rfl

theorem atStart_wiped {k : Nat} (h : 0 < k) : (m.wiped k).AtStart := by
  obtain ⟨k, rfl⟩ := Nat.exists_eq_add_one.mpr h
  rw [wiped_succ]
  exact ⟨rfl, rfl, rfl, rfl⟩

/-- In one turn a machine completes a step, is reset, or stands where it stood. -/
theorem Shift.progress (h : m.Shift m') :
    Still m m' ∨ Stepped m m' ∨ (m.epoch < m'.epoch ∧ m'.AtStart) := by
  obtain ⟨m₁, k, hd, rfl⟩ := h
  have hepoch : m₁.epoch = m.epoch := by
    rcases hd with rfl | ⟨a, hd⟩
    · rfl
    · exact hd.kept.epoch
  by_cases hk : 0 < k
  · refine .inr (.inr ⟨?_, atStart_wiped hk⟩)
    rw [epoch_wiped]
    omega
  · obtain rfl : k = 0 := by omega
    rcases hd with rfl | ⟨a, hd⟩
    · exact .inl (.refl m₁)
    · by_cases ha : a.Completes
      · exact .inr (.inl (hd.stepped ha))
      · exact .inl (hd.still ha)

/-- A machine some time later: reset since, or further on, or still the same. -/
inductive Later (m m' : Machine) : Prop
  | reset : m.epoch < m'.epoch → Later m m'
  | further : m'.epoch = m.epoch → m.steps < m'.steps → Later m m'
  | still : Still m m' → Later m m'

theorem Later.trans (h : Later m m') (h' : Later m' m'') : Later m m'' := by
  cases h with
  | reset h =>
    cases h' with
    | reset h' => exact .reset (Nat.lt_trans h h')
    | further he _ => exact .reset (he ▸ h)
    | still h' => exact .reset (h'.epoch ▸ h)
  | further he hlt =>
    cases h' with
    | reset h' => exact .reset (he ▸ h')
    | further he' hlt' => exact .further (he'.trans he) (Nat.lt_trans hlt hlt')
    | still h' => exact .further (h'.epoch.trans he) (h'.steps ▸ hlt)
  | still h =>
    cases h' with
    | reset h' => exact .reset (h.epoch ▸ h')
    | further he hlt => exact .further (he.trans h.epoch) (h.steps ▸ hlt)
    | still h' => exact .still (h.trans h')

theorem Shift.later (h : m.Shift m') : Later m m' := by
  rcases h.progress with h | h | ⟨h, -⟩
  · exact .still h
  · refine .further h.epoch ?_
    rw [h.steps]
    exact Nat.lt_succ_self _
  · exact .reset h

/-- Resets and steps are only ever added. -/
theorem Later.le (h : Later m m') :
    m.epoch ≤ m'.epoch ∧ (m'.epoch = m.epoch → m.steps ≤ m'.steps) := by
  cases h with
  | reset h => exact ⟨Nat.le_of_lt h, fun he => absurd he (Nat.ne_of_gt h)⟩
  | further he h => exact ⟨Nat.le_of_eq he.symm, fun _ => Nat.le_of_lt h⟩
  | still h => exact ⟨Nat.le_of_eq h.epoch.symm, fun _ => Nat.le_of_eq h.steps.symm⟩

/-- As many steps without a reset leave a machine where it stood. -/
theorem Later.still_of (h : Later m m') (he : m'.epoch = m.epoch) (hs : m'.steps = m.steps) :
    Still m m' := by
  cases h with
  | reset h => omega
  | further _ h => omega
  | still h => exact h

end TapeMachine.Machine
