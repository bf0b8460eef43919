/-! The tape.

A fixed number of cells, each a byte, bent into a circle: past the last cell
comes the first. The head always stands on a cell. -/
namespace TapeMachine

/-- A circular tape of bytes and the cell its head stands on. -/
structure Tape where
  cells : Array UInt8
  head : Nat
  head_lt : head < cells.size
  deriving DecidableEq

namespace Tape

/-- A tape of `n` zeros with the head on the first. -/
def blank (n : Nat) (h : 0 < n) : Tape := ⟨Array.replicate n 0, 0, by simpa using h⟩

def size (t : Tape) : Nat := t.cells.size

theorem size_pos (t : Tape) : 0 < t.size := Nat.zero_lt_of_lt t.head_lt

/-- The tape as it was made: all zeros, head on the first cell. -/
def cleared (t : Tape) : Tape := blank t.size t.size_pos

def read (t : Tape) : UInt8 := have := t.head_lt; t.cells[t.head]

def write (t : Tape) (v : UInt8) : Tape :=
  ⟨t.cells.set t.head v t.head_lt, t.head, by simpa using t.head_lt⟩

/-- One cell up; from the last cell to the first. -/
def right (t : Tape) : Tape := ⟨t.cells, (t.head + 1) % t.cells.size, Nat.mod_lt _ t.size_pos⟩

/-- One cell down; from the first cell to the last. -/
def left (t : Tape) : Tape :=
  ⟨t.cells, (t.head + (t.cells.size - 1)) % t.cells.size, Nat.mod_lt _ t.size_pos⟩

/-- Adds one modulo 256 to the cell under the head. -/
def increment (t : Tape) : Tape := t.write (t.read + 1)

def decrement (t : Tape) : Tape := t.write (t.read - 1)

@[simp] theorem size_write (t : Tape) (v : UInt8) : (t.write v).size = t.size := by
  simp [write, size]

@[simp] theorem size_right (t : Tape) : t.right.size = t.size := rfl

@[simp] theorem size_left (t : Tape) : t.left.size = t.size := rfl

@[simp] theorem size_cleared (t : Tape) : t.cleared.size = t.size := by
  simp [cleared, blank, size]

@[simp] theorem read_write (t : Tape) (v : UInt8) : (t.write v).read = v := by
  simp [write, read]

end Tape
end TapeMachine
