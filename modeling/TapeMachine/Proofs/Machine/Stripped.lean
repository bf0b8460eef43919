import TapeMachine.Proofs.Machine.Later
import TapeMachine.Proofs.Program.Rank

/-! Machines on stripped programs.

A machine on a program and one on the same program without comments stand at the same
place (`Stripped`) when they hold the same things, and the counter, the open loops and
the brackets complained about of the one are at the places of those of the other. An
instruction leads from one such pair to the next; a comment moves only the machine that
has it. -/
namespace TapeMachine

/-- The complaint about the bracket at another position. -/
def Complaint.relocate (f : Nat → Nat) : Complaint → Complaint
  | .unclosed i => .unclosed (f i)
  | .unopened i => .unopened (f i)

theorem Complaint.index_relocate (f : Nat → Nat) (c : Complaint) :
    (c.relocate f).index = f c.index := by
  cases c <;> rfl

namespace Machine

/-- The second machine stands on the stripped program where the first one stands on its
own. -/
structure Stripped (m m' : Machine) : Prop where
  program : m'.program = m.program.strip
  tape : m'.tape = m.tape
  counter : m'.counter = m.program.rank m.counter
  output : m'.output = m.output
  input : m'.input = m.input
  cursor : m'.cursor = m.cursor
  loops : m'.loops = m.loops.map m.program.rank
  reported : m'.reported = m.reported.map m.program.rank
  epoch : m'.epoch = m.epoch
  stepping : m'.stepping = m.stepping
  hears : m'.hears = m.hears
  speaks : m'.speaks = m.speaks
  /-- Loops begin at instructions. -/
  opens : ∀ i ∈ m.loops, m.program.command? i = some .opening
  /-- Complaints are about instructions. -/
  blames : ∀ i ∈ m.reported, ∃ c, m.program.command? i = some c ∧ c ≠ .comment

namespace Stripped
variable {m m' : Machine} {c : Command}

theorem depth (h : Stripped m m') : m'.depth = m.depth := by
  rw [Machine.depth, Machine.depth, h.loops, List.length_map]

theorem command? (h : Stripped m m') (hc : m.program.command? m.counter = some c)
    (hne : c ≠ .comment) : m'.program.command? m'.counter = some c := by
  rw [h.program, h.counter]
  exact Program.command?_strip hc hne

/-- Both are at the end. -/
theorem ended (h : Stripped m m') (he : m.ended = true) : m'.ended = true := by
  have hle : m.program.size ≤ m.counter := of_decide_eq_true he
  have hsize : m'.program.size = m'.counter := by
    rw [h.program, h.counter, Program.rank_of_size_le hle]
  exact decide_eq_true (Nat.le_of_eq hsize)

/-! ### Between steps -/

theorem emit (h : Stripped m m') : Stripped m.emit m'.emit := by
  have hchar : m'.cellChar = m.cellChar := by rw [cellChar, cellChar, h.tape]
  exact {h with output := show m'.output.push _ = m.output.push _ by rw [h.output, hchar]}

theorem receive (h : Stripped m m') (t : Text) : Stripped (m.receive t) (m'.receive t) :=
  {h with input := show m'.input ++ t = m.input ++ t by rw [h.input]}

theorem reset (h : Stripped m m') : Stripped m.reset m'.reset :=
  {h with
    tape := congrArg Tape.cleared h.tape
    counter := rfl
    output := rfl
    input := rfl
    cursor := rfl
    loops := rfl
    reported := rfl
    epoch := congrArg (· + 1) h.epoch
    opens := fun _ hi => by cases hi
    blames := fun _ hi => by cases hi}

theorem wiped (h : Stripped m m') (k : Nat) : Stripped (m.wiped k) (m'.wiped k) := by
  induction k generalizing m m' with
  | zero => exact h
  | succ k ih => exact ih h.reset

/-! ### Complaints -/

theorem fault? (h : Stripped m m') (hc : m.program.command? m.counter = some c)
    (hne : c ≠ .comment) : m'.fault? = m.fault?.map (Complaint.relocate m.program.rank) := by
  rw [Machine.fault?, Machine.fault?, h.command? hc hne, hc]
  cases c
  case opening =>
    have hnone : (m'.program.loopEnd? m'.counter).isNone =
        (m.program.loopEnd? m.counter).isNone := by
      rw [h.program, h.counter, Program.loopEnd?_strip hc, Option.isNone_map]
    have hread : m'.tape.read = m.tape.read := congrArg Tape.read h.tape
    simp only [hnone, hread]
    split
    · exact congrArg (fun i => some (Complaint.unclosed i)) h.counter
    · rfl
  case closing =>
    simp only [h.loops, List.isEmpty_map]
    split
    · exact congrArg (fun i => some (Complaint.unopened i)) h.counter
    · rfl
  all_goals rfl

/-- A fault is at the counter. -/
theorem index_of_fault? {x : Complaint} (hx : m.fault? = some x) : x.index = m.counter := by
  rw [Machine.fault?] at hx
  split at hx
  · split at hx
    · cases hx
      rfl
    · cases hx
  · split at hx
    · cases hx
      rfl
    · cases hx
  · cases hx

theorem complaint? (h : Stripped m m') (hc : m.program.command? m.counter = some c)
    (hne : c ≠ .comment) :
    m'.complaint? = m.complaint?.map (Complaint.relocate m.program.rank) := by
  rw [Machine.complaint?, Machine.complaint?, h.fault? hc hne]
  cases hx : m.fault? with
  | none => rfl
  | some x =>
    have hcontains : m'.reported.contains (m.program.rank x.index) =
        m.reported.contains x.index := by
      rw [h.reported, index_of_fault? hx, Bool.eq_iff_iff, List.contains_iff_mem,
        List.contains_iff_mem, List.mem_map]
      constructor
      · rintro ⟨i, hi, heq⟩
        obtain ⟨d, hd, hdne⟩ := h.blames i hi
        rwa [Program.rank_injective hd hdne hc hne heq] at hi
      · exact fun hm => ⟨_, hm, rfl⟩
    simp only [Option.map_some, Option.filter_some, Complaint.index_relocate, hcontains]
    split <;> rfl

theorem noted (h : Stripped m m') (hc : m.program.command? m.counter = some c)
    (hne : c ≠ .comment) : Stripped m.noted m'.noted := by
  rw [Machine.noted, Machine.noted, h.complaint? hc hne]
  cases hx : m.complaint? with
  | none => exact h
  | some x =>
    obtain ⟨hfault, -⟩ := Option.filter_eq_some_iff.mp hx
    refine {h with reported := ?_, blames := fun i hi => ?_}
    · show (x.relocate m.program.rank).index :: m'.reported =
        (x.index :: m.reported).map m.program.rank
      rw [Complaint.index_relocate, List.map_cons, h.reported]
    · rcases List.mem_cons.mp hi with rfl | hi
      · rw [index_of_fault? hfault]
        exact ⟨c, hc, hne⟩
      · exact h.blames i hi

/-! ### Instructions -/

theorem stance (h : Stripped m m') (hs : m.stepping = false)
    (hc : m.program.command? m.counter = some c) (hne : c ≠ .comment) :
    m'.stance = m.stance := by
  rw [stance_of_not_stepping hs, stance_of_not_stepping (h.stepping.trans hs),
    h.command? hc hne, hc, h.hears, h.input, h.cursor]

theorem consume (h : Stripped m m') : Stripped m.consume m'.consume := by
  have hnext : m'.input[m'.cursor]? = m.input[m.cursor]? := by rw [h.input, h.cursor]
  rw [Machine.consume, Machine.consume, hnext]
  cases m.input[m.cursor]? with
  | none => exact {h with tape := congrArg (Tape.write · 0) h.tape}
  | some c =>
    exact {h with
      tape := congrArg (Tape.write · _) h.tape, cursor := congrArg (· + 1) h.cursor}

theorem advance (h : Stripped m m') (hc : m.program.command? m.counter = some c)
    (hne : c ≠ .comment) : Stripped m.advance m'.advance := by
  refine {h with counter := ?_}
  show m'.counter + 1 = m.program.rank (m.counter + 1)
  rw [h.counter, Program.rank_succ hc hne]

theorem consume_advance (h : Stripped m m') (hc : m.program.command? m.counter = some c)
    (hne : c ≠ .comment) : Stripped m.consume.advance m'.consume.advance := by
  obtain ⟨t, n, heq⟩ := consume_eq m
  refine h.consume.advance ?_ hne
  rw [heq]
  exact hc

/-- A loop without an end goes to the last character, which may be a comment; one past it
is the end of either program. -/
theorem openLoop (h : Stripped m m') (hc : m.program.command? m.counter = some .opening) :
    Stripped m.openLoop.advance m'.openLoop.advance := by
  have hread : m'.tape.read = m.tape.read := congrArg Tape.read h.tape
  have hsucc := Program.rank_succ hc (by decide)
  rw [Machine.openLoop, Machine.openLoop, hread]
  split
  next =>
    refine {h with counter := ?_}
    show (m'.program.loopEnd? m'.counter).getD (m'.program.size - 1) + 1 =
      m.program.rank ((m.program.loopEnd? m.counter).getD (m.program.size - 1) + 1)
    rw [h.program, h.counter, Program.loopEnd?_strip hc]
    cases he : m.program.loopEnd? m.counter with
    | none =>
      have hlt := Program.lt_size_of_command? hc
      have hlt' := Program.rank_lt_size_strip hc (by decide)
      have hlast : m.program.size - 1 + 1 = m.program.size := by omega
      rw [Option.map_none, Option.getD_none, Option.getD_none, hlast, Program.rank_size]
      omega
    | some e =>
      obtain ⟨-, hclosing, -⟩ := Program.openAt_loopEnd hc he
      exact (Program.rank_succ hclosing (by decide)).symm
  next =>
    refine {h with counter := ?_, loops := ?_, opens := fun i hi => ?_}
    · exact (congrArg (· + 1) h.counter).trans hsucc.symm
    · show m'.counter :: m'.loops = (m.counter :: m.loops).map m.program.rank
      rw [h.counter, h.loops, List.map_cons]
    · rcases List.mem_cons.mp hi with rfl | hi
      · exact hc
      · exact h.opens i hi

theorem closeLoop (h : Stripped m m') (hc : m.program.command? m.counter = some .closing) :
    Stripped m.closeLoop.advance m'.closeLoop.advance := by
  have hcounter : m'.counter + 1 = m.program.rank (m.counter + 1) := by
    rw [h.counter, Program.rank_succ hc (by decide)]
  have hread : m'.tape.read = m.tape.read := congrArg Tape.read h.tape
  rw [Machine.closeLoop, Machine.closeLoop, hread]
  cases hl : m.loops with
  | nil =>
    have hl' : m'.loops = [] := by rw [h.loops, hl, List.map_nil]
    rw [hl']
    exact {h with counter := hcounter}
  | cons start outer =>
    have hl' : m'.loops = m.program.rank start :: outer.map m.program.rank := by
      rw [h.loops, hl, List.map_cons]
    have hopens : ∀ i ∈ start :: outer, m.program.command? i = some .opening := hl ▸ h.opens
    obtain ⟨hstart, houter⟩ := List.forall_mem_cons.mp hopens
    simp only [hl']
    split
    next => exact {h with counter := hcounter, loops := rfl, opens := houter}
    next =>
      have hcounter := (Program.rank_succ hstart (by decide)).symm
      exact {h with counter := hcounter, loops := rfl, opens := hopens}

/-- An instruction does the same on either machine. -/
theorem execute (h : Stripped m m') (hc : m.program.command? m.counter = some c)
    (hne : c ≠ .comment) : Stripped m.execute.advance m'.execute.advance := by
  have hadvance := h.advance hc hne
  rw [execute_of hc, execute_of (h.command? hc hne)]
  cases c
  case right => exact {hadvance with tape := congrArg Tape.right h.tape}
  case left => exact {hadvance with tape := congrArg Tape.left h.tape}
  case increment => exact {hadvance with tape := congrArg Tape.increment h.tape}
  case decrement => exact {hadvance with tape := congrArg Tape.decrement h.tape}
  case output => exact h.emit.advance hc hne
  case input => exact h.consume_advance hc hne
  case opening => exact h.openLoop hc
  case closing => exact h.closeLoop hc
  case comment => exact absurd rfl hne

/-- A comment does nothing. -/
theorem comment (h : Stripped m m') (hc : m.program.command? m.counter = some .comment) :
    Stripped m.noted.execute.advance m' := by
  have hnone := complaint?_eq_none (m := m) (by rw [hc]; decide) (by rw [hc]; decide)
  rw [noted_of_complaint?_eq_none hnone, execute_of hc]
  refine {h with counter := ?_}
  show m'.counter = m.program.rank (m.counter + 1)
  rw [h.counter, Program.rank_succ_comment hc]

end Stripped
end Machine
end TapeMachine
