import TapeMachine.Proofs.Machine.Nested
import TapeMachine.Proofs.Machine.Onward

/-! Bounds.

Nothing on a machine ever runs off: the counter stands in the program or just after
it, the cursor in the input or just after it, and the open loops are places of `[`
(`Bounded`). The counter and the stack are a matter of `Nested`; what is left of it is
kept by every act and by resets (`Tidy`).

`Machine.execute` is total, and would go on with some value where there is nothing to
look up. `Machine.execute?` is the same instruction with every look-up made, in the
program, on the tape, in the input and on the stack; inside the program it never comes
up empty (`execute?_eq`). -/
namespace TapeMachine

/-! ### Look-ups -/

namespace Tape

/-- The cell under the head, looked up. -/
def read? (t : Tape) : Option UInt8 := t.cells[t.head]?

/-- Another value in the cell under the head, if there is that cell. -/
def write? (t : Tape) (v : UInt8) : Option Tape :=
  if h : t.head < t.cells.size then
    some ⟨t.cells.set t.head v h, t.head, (Array.size_set h).symm ▸ h⟩
  else none

theorem read?_eq (t : Tape) : t.read? = some t.read := Array.getElem?_eq_getElem t.head_lt

theorem write?_eq (t : Tape) (v : UInt8) : t.write? v = some (t.write v) := dif_pos t.head_lt

end Tape

namespace Program

/-- `closingFrom` with every character looked up. -/
def closingFrom? (p : Program) : (n i depth : Nat) → Option (Option Nat)
  | 0, _, _ => some none
  | n + 1, i, depth => do
    let c ← p.command? i
    match c, depth with
    | .opening, _ => closingFrom? p n (i + 1) (depth + 1)
    | .closing, 0 => some (some i)
    | .closing, depth + 1 => closingFrom? p n (i + 1) depth
    | _, _ => closingFrom? p n (i + 1) depth

theorem exists_command? {p : Program} {i : Nat} (h : i < p.size) : ∃ c, p.command? i = some c :=
  Option.ne_none_iff_exists'.mp fun hn => Nat.not_le.mpr h (command?_eq_none_iff.mp hn)

/-- A search for the end of a loop stays in the program. -/
theorem closingFrom?_eq (p : Program) {n i : Nat} (h : i + n ≤ p.size) (depth : Nat) :
    p.closingFrom? n i depth = some (p.closingFrom n i depth) := by
  induction n generalizing i depth with
  | zero => rfl
  | succ n ih =>
    obtain ⟨c, hc⟩ := exists_command? (p := p) (i := i) (by omega)
    have hrest : i + 1 + n ≤ p.size := by omega
    rw [closingFrom?, hc, Option.bind_eq_bind, Option.bind_some]
    cases c
    case opening =>
      rw [closingFrom_opening hc]
      exact ih hrest _
    case closing =>
      cases depth with
      | zero =>
        rw [closingFrom_closing hc]
      | succ depth =>
        rw [closingFrom_closing_succ hc]
        exact ih hrest _
    all_goals
      rw [closingFrom_other (by rw [hc]; decide) (by rw [hc]; decide)]
      exact ih hrest _

/-- `loopEnd?` with every character looked up. -/
def seekEnd? (p : Program) (i : Nat) : Option (Option Nat) :=
  p.closingFrom? (p.size - (i + 1)) (i + 1) 0

theorem seekEnd?_eq (p : Program) {i : Nat} (h : i < p.size) :
    p.seekEnd? i = some (p.loopEnd? i) := p.closingFrom?_eq (by omega) 0

end Program

namespace Machine
variable {m m' : Machine} {a : Act}

/-- `consume` with every look-up made. -/
def consume? (m : Machine) : Option Machine :=
  if m.cursor < m.input.size then do
    let c ← m.input[m.cursor]?
    let tape ← m.tape.write? c.toNat.toUInt8
    some {m with tape := tape, cursor := m.cursor + 1}
  else do
    let tape ← m.tape.write? 0
    some {m with tape := tape}

/-- `openLoop` with every look-up made. -/
def openLoop? (m : Machine) : Option Machine := do
  let v ← m.tape.read?
  if v = 0 then
    let closing ← m.program.seekEnd? m.counter
    some {m with counter := closing.getD (m.program.size - 1)}
  else some {m with loops := m.counter :: m.loops}

/-- `closeLoop` with every look-up made. -/
def closeLoop? (m : Machine) : Option Machine := do
  let v ← m.tape.read?
  if m.loops.isEmpty then some m
  else if v = 0 then some {m with loops := m.loops.tail}
  else
    let start ← m.loops[0]?
    some {m with counter := start}

/-- `perform` with every look-up made. -/
def perform? (m : Machine) : Command → Option Machine
  | .right => some {m with tape := m.tape.right}
  | .left => some {m with tape := m.tape.left}
  | .increment => do
    let v ← m.tape.read?
    let tape ← m.tape.write? (v + 1)
    some {m with tape := tape}
  | .decrement => do
    let v ← m.tape.read?
    let tape ← m.tape.write? (v - 1)
    some {m with tape := tape}
  | .output => do
    let v ← m.tape.read?
    some {m with output := m.output.push (Char.ofNat v.toNat)}
  | .input => m.consume?
  | .opening => m.openLoop?
  | .closing => m.closeLoop?
  | .comment => some m

/-- `execute` with every look-up made; nothing if one of them comes up empty. -/
def execute? (m : Machine) : Option Machine := do
  let c ← m.program.command? m.counter
  m.perform? c

theorem consume?_eq (m : Machine) : m.consume? = some m.consume := by
  rw [consume?, consume]
  split
  next h =>
    rw [Array.getElem?_eq_getElem h]
    simp only [Option.bind_eq_bind, Option.bind_some, Tape.write?_eq]
  next h =>
    rw [Array.getElem?_eq_none (Nat.le_of_not_lt h)]
    simp only [Option.bind_eq_bind, Option.bind_some, Tape.write?_eq]

theorem openLoop?_eq (h : m.counter < m.program.size) : m.openLoop? = some m.openLoop := by
  rw [openLoop?, openLoop, Tape.read?_eq, Option.bind_eq_bind, Option.bind_some,
    Program.seekEnd?_eq _ h]
  split <;> rfl

theorem closeLoop?_eq (m : Machine) : m.closeLoop? = some m.closeLoop := by
  rw [closeLoop?, closeLoop, Tape.read?_eq, Option.bind_eq_bind, Option.bind_some]
  cases m.loops with
  | nil => rfl
  | cons start outer =>
    simp only [List.isEmpty_cons, Bool.false_eq_true, if_false]
    split <;> rfl

/-- Inside the program an instruction finds all that it looks up. -/
theorem execute?_eq (h : m.counter < m.program.size) : m.execute? = some m.execute := by
  obtain ⟨c, hc⟩ := Program.exists_command? h
  rw [execute?, execute_of hc, hc, Option.bind_eq_bind, Option.bind_some]
  cases c
  case increment =>
    simp only [perform?, Tape.read?_eq, Tape.write?_eq, Option.bind_eq_bind, Option.bind_some]
    rfl
  case decrement =>
    simp only [perform?, Tape.read?_eq, Tape.write?_eq, Option.bind_eq_bind, Option.bind_some]
    rfl
  case output =>
    simp only [perform?, Tape.read?_eq, Option.bind_eq_bind, Option.bind_some]
    rfl
  case input => exact m.consume?_eq
  case opening => exact openLoop?_eq h
  case closing => exact m.closeLoop?_eq
  all_goals rfl

/-! ### What acts and resets keep -/

/-- The cursor is not past the input, and every character put out is a byte. -/
structure Tidy (m : Machine) : Prop where
  cursor_le : m.cursor ≤ m.input.size
  output_le : ∀ c ∈ m.output.toList, c.toNat ≤ 0xFF

theorem toNat_cellChar (m : Machine) : m.cellChar.toNat = m.tape.read.toNat := by
  have hbyte := m.tape.read.toNat_lt
  have hvalid : m.tape.read.toNat.isValidChar := .inl (by omega)
  rw [cellChar, Char.ofNat, dif_pos hvalid]
  rfl

theorem Tidy.emit (h : m.Tidy) : m.emit.Tidy where
  cursor_le := h.cursor_le
  output_le c hc := by
    rw [Machine.emit, Array.toList_push, List.mem_append, List.mem_singleton] at hc
    rcases hc with hc | rfl
    · exact h.output_le c hc
    · have hbyte := m.tape.read.toNat_lt
      rw [toNat_cellChar]
      omega

theorem Tidy.receive (h : m.Tidy) (t : Text) : (m.receive t).Tidy where
  cursor_le := by
    have hcursor := h.cursor_le
    show m.cursor ≤ (m.receive t).input.size
    rw [← Array.length_toList, toList_receive, List.length_append, Array.length_toList]
    omega
  output_le := h.output_le

theorem Tidy.consume (h : m.Tidy) : m.consume.Tidy where
  cursor_le := by
    rw [(input_consume m).1]
    exact (input_consume m).2 h.cursor_le
  output_le := by
    obtain ⟨t, n, heq⟩ := consume_eq m
    rw [heq]
    exact h.output_le

/-- An instruction that puts nothing out. -/
theorem Tidy.execute (h : m.Tidy) (hc : m.program.command? m.counter ≠ some .output) :
    m.execute.Tidy where
  cursor_le := by
    rw [(input_execute m).1]
    exact (input_execute m).2 h.cursor_le
  output_le := by
    rw [output_execute hc]
    exact h.output_le

theorem Does.tidy (hd : Does m a m') (h : m.Tidy) : m'.Tidy := by
  cases hd with
  | ask => exact ⟨h.cursor_le, h.output_le⟩
  | hear text =>
    have hfree : ({m with stepping := false} : Machine).Tidy := ⟨h.cursor_le, h.output_le⟩
    have hread := (hfree.receive text).consume
    exact ⟨hread.cursor_le, hread.output_le⟩
  | drop late => exact ⟨h.cursor_le, h.output_le⟩
  | work hst =>
    obtain ⟨-, -, c, hc, hne⟩ := stance_eq_inward_iff.mp hst
    have hexec := h.execute (by rw [hc]; simpa using hne)
    rw [noted_eq, execute_reported]
    exact ⟨hexec.cursor_le, hexec.output_le⟩
  | put => exact ⟨h.emit.cursor_le, h.emit.output_le⟩
  | spill => exact h.emit

theorem tidy_reset (m : Machine) : m.reset.Tidy :=
  ⟨Nat.le_refl 0, fun _ hc => absurd hc List.not_mem_nil⟩

theorem Tidy.wiped (h : m.Tidy) (k : Nat) : (m.wiped k).Tidy := by
  cases k with
  | zero => exact h
  | succ k =>
    rw [wiped_succ]
    exact tidy_reset _

theorem Shift.tidy (hs : m.Shift m') (h : m.Tidy) : m'.Tidy := by
  obtain ⟨m₁, k, rfl | ⟨a, hd⟩, rfl⟩ := hs
  · exact h.wiped k
  · exact (hd.tidy h).wiped k

theorem IsNew.tidy (h : m.IsNew) : m.Tidy := by
  obtain ⟨p, n, hn, hears, speaks, rfl⟩ := h
  exact ⟨Nat.le_refl 0, fun _ hc => absurd hc List.not_mem_nil⟩

/-! ### All of it -/

/-- Nothing on the machine has run off. -/
structure Bounded (m : Machine) : Prop where
  head_lt : m.tape.head < m.tape.size
  cell_le : ∀ v ∈ m.tape.cells, v.toNat ≤ 255
  counter_le : m.counter ≤ m.program.size
  cursor_le : m.cursor ≤ m.input.size
  /-- What was read of the input and what was not are the input. -/
  input_eq : m.consumedInput ++ m.pendingInput = m.input.toList
  output_le : ∀ c ∈ m.output, c.toNat ≤ 0xFF
  opening : ∀ k ∈ m.loops, m.program.char? k = some '['
  /-- The stack ascends, from the outermost loop to the innermost. -/
  ascends : m.loops.reverse.Pairwise (· < ·)

/-- A step from this state finds what it looks up, also if it waits for a text first. -/
structure Finds (m : Machine) : Prop where
  instruction : m.counter < m.program.size → m.execute? = some m.execute
  text : ∀ t, (m.receive t).consume? = some (m.receive t).consume

theorem finds (m : Machine) : m.Finds := ⟨execute?_eq, fun t => (m.receive t).consume?_eq⟩

end Machine

theorem Program.char?_of_opening {p : Program} {k : Nat} (h : p.command? k = some .opening) :
    p.char? k = some '[' := by
  obtain ⟨c, hc, hop⟩ := Option.map_eq_some_iff.mp h
  rw [hc]
  unfold Command.ofChar at hop
  split at hop <;> first | rfl | cases hop

theorem Machine.Nested.bounded {m : Machine} (h : m.Nested) (ht : m.Tidy)
    (hl : ∃ k, m.loops = m.program.openAt k) : m.Bounded where
  head_lt := m.tape.head_lt
  cell_le v _ := by
    have hbyte := v.toNat_lt
    omega
  counter_le := h.counter_le
  cursor_le := ht.cursor_le
  input_eq := List.take_append_drop _ _
  output_le c hc := ht.output_le c (Array.mem_toList_iff.mpr hc)
  opening k hk := by
    obtain ⟨j, hj⟩ := hl
    rw [hj] at hk
    exact Program.char?_of_opening (Program.opening_of_mem_openAt hk).2
  ascends := by
    obtain ⟨j, hj⟩ := hl
    rw [hj, List.pairwise_reverse]
    exact Program.openAt_descends _ j

end TapeMachine
