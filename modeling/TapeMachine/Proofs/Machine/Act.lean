import TapeMachine.Event
import TapeMachine.Proofs.Program.Nesting

/-! Acts.

Whatever the callers of a machine do, and in whatever order, little can happen to
the machine itself once pauses and the flags of run loops are left out of sight
(`Machine.bare`): a step begins to wait for text, ends with a text or without
one, is executed as a whole, or loses its last part to a sink that fails or
resets (`Act`); and the machine starts over. In one turn of a thread at most one
machine acts, and only resets come after the act (`Stir`). What of it can be told
from outside is a list of `Sign`s. -/
namespace TapeMachine

/-! ### Signs -/

/-- What happens to machines, as far as it can be told from outside. -/
inductive Sign
  | asked (i : Nat)
  | answered (i : Nat) (text : Text)
  | emitted (i : Nat) (c : Char)
  | complained (c : Complaint)
  | reset
  deriving DecidableEq

def Event.sign? : Event → Option Sign
  | .asked i => some (.asked i)
  | .answered i text => some (.answered i text)
  | .emitted i c _ => some (.emitted i c)
  | .notice (.unclosed index) => some (.complained (.unclosed index))
  | .notice (.unopened index) => some (.complained (.unopened index))
  | .notice .reset => some .reset
  | _ => none

namespace Machine

/-! ### One machine -/

/-- The machine without what pauses and run loops leave on it. -/
def bare (m : Machine) : Machine :=
  {m with running := false, paused := false, looping := false, cooperative := true}

/-- The next step needs text that only a source can give. -/
def Asks (m : Machine) : Prop :=
  m.program.command? m.counter = some .input ∧ m.hears = true ∧ m.input.size ≤ m.cursor

/-- The machine with the bracket at its counter complained about if that is due. -/
def noted (m : Machine) : Machine :=
  match m.complaint? with
  | some c => m.report c
  | none => m

/-- So many resets one after the other. -/
def wiped : Nat → Machine → Machine
  | 0, m => m
  | k + 1, m => wiped k m.reset

/-- What a machine can do. -/
inductive Act
  /-- A step asks for text and begins to wait. -/
  | ask
  /-- The step that waits gets its text and is executed. -/
  | hear (text : Text)
  /-- The step that waits ends without effect; a text may have come too late. -/
  | drop (late : Option Text)
  /-- A step that needs nothing from outside. -/
  | work
  /-- A step that puts out a character. -/
  | put
  /-- A character is put out, but the step is not completed. -/
  | spill

/-- What of an act of machine `i` can be told from outside. -/
def Act.signs (i : Nat) (m : Machine) : Act → List Sign
  | .ask => [.asked i]
  | .hear text => [.answered i text]
  | .drop late => (late.map (Sign.answered i)).toList
  | .work => (m.complaint?.map Sign.complained).toList
  | .put | .spill => if m.speaks then [.emitted i m.cellChar] else []

/-- A machine acts. No act but the end of a wait is possible while a step waits, and
no text is late without a reset. -/
inductive Does : Machine → Act → Machine → Prop
  | ask {m : Machine} : m.stance = .request → Does m .ask {m with stepping := true}
  | hear {m : Machine} (text : Text) : m.stepping = true → m.Asks →
      Does m (.hear text) (({m with stepping := false}.receive text).consume.advance)
  | drop {m : Machine} (late : Option Text) : m.stepping = true → (late ≠ none → 0 < m.epoch) →
      Does m (.drop late) {m with stepping := false}
  | work {m : Machine} : m.stance = .inward → Does m .work m.noted.execute.advance
  | put {m : Machine} : m.stance = .output → Does m .put m.emit.advance
  | spill {m : Machine} : m.stance = .output → Does m .spill m.emit

/-- What one turn can make of a machine: an act or nothing, and resets after it. -/
def Shift (m m' : Machine) : Prop :=
  ∃ m₁ k, (m₁ = m ∨ ∃ a, Does m a m₁) ∧ m' = m₁.wiped k

/-! ### How a step begins -/

section Stance
variable {m : Machine}

theorem stance_of_stepping (h : m.stepping = true) : m.stance = .occupied m.counter := by
  rw [stance, h]
  rfl

theorem stance_of_not_stepping (h : m.stepping = false) : m.stance =
    match m.program.command? m.counter with
    | none => .ended
    | some .output => .output
    | some .input => if m.hears && m.input.size ≤ m.cursor then .request else .inward
    | some _ => .inward := by
  rw [stance, h]
  rfl

theorem stance_eq_request_iff : m.stance = .request ↔ m.stepping = false ∧ m.Asks := by
  cases hs : m.stepping with
  | true => simp [stance_of_stepping hs]
  | false =>
    rw [stance_of_not_stepping hs, Asks]
    cases hc : m.program.command? m.counter with
    | none => simp
    | some c => cases c <;> simp

theorem stance_eq_output_iff :
    m.stance = .output ↔ m.stepping = false ∧ m.program.command? m.counter = some .output := by
  cases hs : m.stepping with
  | true => simp [stance_of_stepping hs]
  | false =>
    rw [stance_of_not_stepping hs]
    cases hc : m.program.command? m.counter with
    | none => simp
    | some c =>
      cases c <;> simp
      split <;> simp

theorem stance_eq_inward_iff : m.stance = .inward ↔
    m.stepping = false ∧ ¬ m.Asks ∧
      ∃ c, m.program.command? m.counter = some c ∧ c ≠ .output := by
  cases hs : m.stepping with
  | true => simp [stance_of_stepping hs]
  | false =>
    rw [stance_of_not_stepping hs, Asks]
    cases hc : m.program.command? m.counter with
    | none => simp
    | some c => cases c <;> simp

theorem stepping_of_stance {c : Nat} (h : m.stance = .occupied c) : m.stepping = true := by
  cases hs : m.stepping with
  | true => rfl
  | false =>
    rw [stance_of_not_stepping hs] at h
    split at h
    · cases h
    · cases h
    · split at h
      · cases h
      · cases h
    · cases h

theorem stance_eq_ended_iff : m.stance = .ended ↔ m.stepping = false ∧ m.ended = true := by
  cases hs : m.stepping with
  | true => simp [stance_of_stepping hs]
  | false =>
    rw [stance_of_not_stepping hs, ended, decide_eq_true_eq, ← Program.command?_eq_none_iff]
    cases hc : m.program.command? m.counter with
    | none => simp
    | some c =>
      cases c <;> simp
      split <;> simp

/-- Inside the program a machine that is free does one of three things. -/
theorem stance_inside (hs : m.stepping = false) (hr : m.counter < m.program.size) :
    m.stance = .request ∨ m.stance = .output ∨ m.stance = .inward := by
  cases hst : m.stance with
  | occupied =>
    rw [stepping_of_stance hst] at hs
    cases hs
  | ended =>
    have hended := (stance_eq_ended_iff.mp hst).2
    rw [ended, decide_eq_true_eq] at hended
    omega
  | request => exact .inl rfl
  | output => exact .inr (.inl rfl)
  | inward => exact .inr (.inr rfl)

end Stance

/-! ### Out of sight -/

@[simp] theorem bare_pause (m : Machine) : m.pause.bare = m.bare := rfl
@[simp] theorem bare_unpause (m : Machine) : m.unpause.bare = m.bare := rfl
@[simp] theorem bare_enterLoop (m : Machine) : m.enterLoop.bare = m.bare := rfl
@[simp] theorem bare_leaveLoop (m : Machine) : m.leaveLoop.bare = m.bare := rfl
@[simp] theorem bare_reset (m : Machine) : m.reset.bare = m.bare.reset := rfl
@[simp] theorem bare_emit (m : Machine) : m.emit.bare = m.bare.emit := rfl
@[simp] theorem bare_advance (m : Machine) : m.advance.bare = m.bare.advance := rfl

@[simp] theorem bare_receive (m : Machine) (t : Text) :
    (m.receive t).bare = m.bare.receive t := rfl

@[simp] theorem stance_bare (m : Machine) : m.bare.stance = m.stance := rfl
@[simp] theorem complaint?_bare (m : Machine) : m.bare.complaint? = m.complaint? := rfl

@[simp] theorem bare_consume (m : Machine) : m.consume.bare = m.bare.consume := by
  have h : m.bare.input[m.bare.cursor]? = m.input[m.cursor]? := rfl
  rw [consume, consume, h]
  cases m.input[m.cursor]? <;> rfl

@[simp] theorem bare_noted (m : Machine) : m.noted.bare = m.bare.noted := by
  rw [noted, noted, complaint?_bare]
  cases m.complaint? <;> rfl

@[simp] theorem bare_openLoop (m : Machine) : m.openLoop.bare = m.bare.openLoop := by
  have h : m.bare.tape.read = m.tape.read := rfl
  rw [openLoop, openLoop, h]
  split <;> rfl

@[simp] theorem bare_closeLoop (m : Machine) : m.closeLoop.bare = m.bare.closeLoop := by
  have h : m.bare.loops = m.loops := rfl
  have ht : m.bare.tape.read = m.tape.read := rfl
  rw [closeLoop, closeLoop, h, ht]
  cases m.loops with
  | nil => rfl
  | cons i outer =>
    simp only
    split <;> rfl

@[simp] theorem bare_execute (m : Machine) : m.execute.bare = m.bare.execute := by
  have h : m.bare.program.command? m.bare.counter = m.program.command? m.counter := rfl
  rw [execute, execute, h]
  cases m.program.command? m.counter with
  | none => rfl
  | some c =>
    cases c
    case input => exact bare_consume m
    case opening => exact bare_openLoop m
    case closing => exact bare_closeLoop m
    all_goals rfl

/-! ### What every act leaves alone -/

/-- What no act changes. -/
structure Kept (m m' : Machine) : Prop where
  program : m'.program = m.program
  size : m'.tape.size = m.tape.size
  epoch : m'.epoch = m.epoch
  hears : m'.hears = m.hears
  speaks : m'.speaks = m.speaks

/-- What no instruction changes. -/
structure Inner (m m' : Machine) : Prop extends Kept m m' where
  stepping : m'.stepping = m.stepping
  steps : m'.steps = m.steps

theorem Inner.refl (m : Machine) : Inner m m := ⟨⟨rfl, rfl, rfl, rfl, rfl⟩, rfl, rfl⟩

theorem inner_write (m : Machine) (c : UInt8) (n : Nat) :
    Inner m {m with tape := m.tape.write c, cursor := n} :=
  ⟨⟨rfl, Tape.size_write _ _, rfl, rfl, rfl⟩, rfl, rfl⟩

theorem inner_consume (m : Machine) : Inner m m.consume := by
  rw [consume]
  split
  · exact inner_write m _ _
  · exact inner_write m _ m.cursor

theorem inner_noted (m : Machine) : Inner m m.noted := by
  rw [noted]
  split
  · exact ⟨⟨rfl, rfl, rfl, rfl, rfl⟩, rfl, rfl⟩
  · exact .refl m

theorem inner_openLoop (m : Machine) : Inner m m.openLoop := by
  rw [openLoop]
  split
  · exact ⟨⟨rfl, rfl, rfl, rfl, rfl⟩, rfl, rfl⟩
  · exact ⟨⟨rfl, rfl, rfl, rfl, rfl⟩, rfl, rfl⟩

theorem inner_closeLoop (m : Machine) : Inner m m.closeLoop := by
  rw [closeLoop]
  split
  · exact .refl m
  · split
    · exact ⟨⟨rfl, rfl, rfl, rfl, rfl⟩, rfl, rfl⟩
    · exact ⟨⟨rfl, rfl, rfl, rfl, rfl⟩, rfl, rfl⟩

theorem inner_execute (m : Machine) : Inner m m.execute := by
  rw [execute]
  cases m.program.command? m.counter with
  | none => exact .refl m
  | some c =>
    cases c
    case increment => exact inner_write m _ m.cursor
    case decrement => exact inner_write m _ m.cursor
    case input => exact inner_consume m
    case opening => exact inner_openLoop m
    case closing => exact inner_closeLoop m
    case comment => exact .refl m
    all_goals exact ⟨⟨rfl, rfl, rfl, rfl, rfl⟩, rfl, rfl⟩

theorem Does.kept {m m' : Machine} {a : Act} (h : Does m a m') : Kept m m' := by
  cases h with
  | ask => exact ⟨rfl, rfl, rfl, rfl, rfl⟩
  | hear text =>
    obtain ⟨⟨hp, hz, he, hh, hs⟩, -, -⟩ := inner_consume ({m with stepping := false}.receive text)
    exact ⟨hp, hz, he, hh, hs⟩
  | drop late => exact ⟨rfl, rfl, rfl, rfl, rfl⟩
  | work =>
    obtain ⟨⟨hp, hz, he, hh, hs⟩, -, -⟩ := inner_noted m
    obtain ⟨⟨hp', hz', he', hh', hs'⟩, -, -⟩ := inner_execute m.noted
    exact ⟨hp'.trans hp, hz'.trans hz, he'.trans he, hh'.trans hh, hs'.trans hs⟩
  | put => exact ⟨rfl, rfl, rfl, rfl, rfl⟩
  | spill => exact ⟨rfl, rfl, rfl, rfl, rfl⟩

/-- While a step waits, only the end of its wait is an act. -/
theorem Does.stepping_false {m m' : Machine} {a : Act} (h : Does m a m')
    (hs : m.stepping = true) : m'.stepping = false := by
  cases h with
  | ask h => rw [stance_of_stepping hs] at h; cases h
  | hear text =>
    exact (inner_consume _).stepping
  | drop late => rfl
  | work h => rw [stance_of_stepping hs] at h; cases h
  | put h => rw [stance_of_stepping hs] at h; cases h
  | spill h => rw [stance_of_stepping hs] at h; cases h

end Machine
end TapeMachine
