import TapeMachine.Tape
import TapeMachine.Text.Numeral

/-! Windows on a memory.

A window shows the cells around a pointer in three rows: a mark over the pointer,
the values, and the addresses, in columns as wide as the longest address and at
least three characters. A dump shows values only, eight to a row. -/
namespace TapeMachine

/-- Values of consecutive addresses. -/
structure Window where
  start : Int
  values : List Int
  deriving DecidableEq

namespace Window

/-- The address after the last. -/
def stop (w : Window) : Int := w.start + w.values.length

def addresses (w : Window) : List Int :=
  (List.range w.values.length).map (fun (k : Nat) => w.start + k)

/-- So many cells around a pointer: half of them before it, but from the first cell
on and no further than the last. Without cells to show the window is empty and
stands at the pointer. -/
def around {α : Type} (number : α → Int) (memory : Array α) (pointer cells : Int) : Window :=
  if cells ≤ 0 then ⟨pointer, []⟩
  else
    let start := max 0 (pointer - cells / 2)
    let stop := min (memory.size : Int) (start + cells)
    ⟨start, (memory.extract start.toNat stop.toNat).toList.map number⟩

/-- The width of a column. -/
def width (w : Window) : Nat :=
  w.addresses.foldl (fun width a => max width (Text.integer a).length) 3

/-- A row: its columns with a blank between them, without blanks at the end. -/
def row (columns : List Text) : Text := (Text.join [' '] columns).dropTrailing (· == ' ')

/-- The three rows, with the mark at an address that need not be in the window. -/
def rows (w : Window) (marked : Int) : List Text :=
  [row (w.addresses.map (fun a => Text.center w.width (if a = marked then ['v'] else []))),
    row (w.values.map (fun v => (Text.integer v).padLeft w.width)),
    row (w.addresses.map (fun a => (Text.integer a).padLeft w.width))]

def render (w : Window) (marked : Int) : Text := Text.unlines (w.rows marked)

end Window

/-- The values in front of an index; a negative index counts from the end. -/
def firstCells (values : List Int) (cells : Int) : List Int :=
  if 0 ≤ cells then values.take cells.toNat else values.take (values.length + cells).toNat

/-- Rows of eight values; `n` bounds their number. -/
def dumpRows : (n : Nat) → List Int → List Text
  | 0, _ => []
  | _, [] => []
  | n + 1, values =>
    Text.join [' '] ((values.take 8).map (fun v => (Text.integer v).padLeft 3)) ::
      dumpRows n (values.drop 8)

/-- The first cells of a memory, eight to a row. -/
def memoryDump (values : List Int) (cells : Int) : Text :=
  let shown := firstCells values cells
  Text.unlines (dumpRows shown.length shown)

namespace Tape

def number (v : UInt8) : Int := v.toNat

def values (t : Tape) : List Int := t.cells.toList.map number

/-- The window around the head. -/
def window (t : Tape) (cells : Int) : Window := Window.around number t.cells t.head cells

/-- The window around the head in three rows, with the head marked. -/
def renderWindow (t : Tape) (cells : Int) : Text := (t.window cells).render t.head

end Tape
end TapeMachine
