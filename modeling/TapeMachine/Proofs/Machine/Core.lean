import TapeMachine.Proofs.Machine.Later

/-! The core of a machine.

What callers leave on a machine are the marks of their pauses, of their run loops and of a
step that waits; how often it was reset tells apart the steps of different callers. All the
rest is its core (`Machine.core`). Program, size of the tape and callbacks never change
(`Kin`), so whatever a machine was made to do, a reset gives it the core that it was made
with. A turn that resets a machine at all leaves it so, since nothing is executed after a
reset (`Shift.core`). -/
namespace TapeMachine

theorem Tape.cleared_congr {s t : Tape} (h : s.size = t.size) : s.cleared = t.cleared := by
  rw [cleared, cleared]
  congr 1

namespace Machine
variable {m m' m'' : Machine}

/-- The machine without the marks of its callers and the number of its resets. -/
def core (m : Machine) : Machine := {m.bare.settled with epoch := 0}

@[simp] theorem core_pause (m : Machine) : m.pause.core = m.core := rfl
@[simp] theorem core_unpause (m : Machine) : m.unpause.core = m.core := rfl
@[simp] theorem core_enterLoop (m : Machine) : m.enterLoop.core = m.core := rfl
@[simp] theorem core_leaveLoop (m : Machine) : m.leaveLoop.core = m.core := rfl
@[simp] theorem core_settled (m : Machine) : m.settled.core = m.core := rfl

/-- Machines that were made alike. -/
structure Kin (m m' : Machine) : Prop where
  program : m'.program = m.program
  size : m'.tape.size = m.tape.size
  hears : m'.hears = m.hears
  speaks : m'.speaks = m.speaks

theorem Kin.refl (m : Machine) : Kin m m := ⟨rfl, rfl, rfl, rfl⟩

theorem Kin.trans (h : Kin m m') (h' : Kin m' m'') : Kin m m'' :=
  ⟨h'.program.trans h.program, h'.size.trans h.size, h'.hears.trans h.hears,
    h'.speaks.trans h.speaks⟩

theorem Kin.reset (m : Machine) : Kin m m.reset := ⟨rfl, Tape.size_cleared _, rfl, rfl⟩

theorem kin_wiped (m : Machine) (k : Nat) : Kin m (m.wiped k) := by
  induction k generalizing m with
  | zero => exact .refl m
  | succ k ih => exact (Kin.reset m).trans (ih m.reset)

theorem Does.kin {a : Act} (h : Does m a m') : Kin m m' :=
  ⟨h.kept.program, h.kept.size, h.kept.hears, h.kept.speaks⟩

theorem Shift.kin (h : m.Shift m') : Kin m m' := by
  obtain ⟨m₁, k, rfl | ⟨a, hd⟩, rfl⟩ := h
  · exact kin_wiped _ k
  · exact hd.kin.trans (kin_wiped _ k)

/-- A reset leaves nothing but what a machine was made with. -/
theorem Kin.core_reset (h : Kin m m') : m'.reset.core = m.reset.core := by
  rw [core, core, Machine.reset, Machine.reset, Tape.cleared_congr h.size]
  simp only [bare, settled, h.program, h.hears, h.speaks]

theorem IsNew.core_reset (h : m.IsNew) : m.reset.core = m.core := by
  obtain ⟨p, n, hn, hears, speaks, rfl⟩ := h
  have hcleared : (Tape.blank n hn).cleared = Tape.blank n hn := by
    rw [Tape.cleared]
    congr 1
    exact Array.size_replicate
  rw [core, core, Machine.reset]
  simp only [ofProgram, Snapshot.blank, hcleared]
  rfl

/-- A turn leaves a machine in its epoch, or as a reset does. -/
theorem Shift.core (h : m.Shift m') :
    m'.epoch = m.epoch ∨ (m.epoch < m'.epoch ∧ m'.core = m.reset.core) := by
  obtain ⟨m₁, k, hm₁, rfl⟩ := h
  have hepoch : m₁.epoch = m.epoch := by
    rcases hm₁ with rfl | ⟨a, hd⟩
    · rfl
    · exact hd.kept.epoch
  cases k with
  | zero => exact .inl hepoch
  | succ k =>
    have hkin : Kin m (m₁.wiped k) := by
      rcases hm₁ with rfl | ⟨a, hd⟩
      · exact kin_wiped _ k
      · exact hd.kin.trans (kin_wiped _ k)
    refine .inr ⟨?_, ?_⟩
    · rw [epoch_wiped, hepoch]
      omega
    · rw [wiped_succ]
      exact hkin.core_reset

/-! ### What the core tells -/

section Core
variable (h : m.core = m'.core)
include h

theorem snapshot_of_core (hr : m.running = m'.running) :
    m.toSnapshot = {m'.toSnapshot with paused := m.paused} := by
  obtain ⟨⟨t, c, out, inp, cur, r, pa⟩, p, l, s, e, st, lo, co, he, sp, re⟩ := m
  obtain ⟨⟨t', c', out', inp', cur', r', pa'⟩, p', l', s', e', st', lo', co', he', sp', re'⟩ := m'
  obtain rfl : r = r' := hr
  cases h
  rfl

theorem steps_of_core : m.steps = m'.steps :=
  (congrArg Machine.steps h : m.core.steps = m'.core.steps)

theorem loops_of_core : m.loops = m'.loops :=
  (congrArg Machine.loops h : m.core.loops = m'.core.loops)

/-- Machines with the same core, on which no caller has left a mark that lasts. -/
theorem eq_of_core (hr : m.running = m'.running) (hs : m.stepping = m'.stepping)
    (hl : m.looping = m'.looping) :
    m = {m' with paused := m.paused, cooperative := m.cooperative, epoch := m.epoch} := by
  obtain ⟨⟨t, c, out, inp, cur, r, pa⟩, p, l, s, e, st, lo, co, he, sp, re⟩ := m
  obtain ⟨⟨t', c', out', inp', cur', r', pa'⟩, p', l', s', e', st', lo', co', he', sp', re'⟩ := m'
  obtain rfl : r = r' := hr
  obtain rfl : st = st' := hs
  obtain rfl : lo = lo' := hl
  cases h
  rfl

end Core
end Machine
end TapeMachine
