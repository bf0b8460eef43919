import Mathlib.Data.List.Nodup
import Mathlib.Order.Bounds.Defs
import TapeMachine.Proofs.Text.Columns
import TapeMachine.Proofs.Text.Lines
import TapeMachine.Proofs.Text.Numeral
import TapeMachine.Tape.Window

/-! Windows show the tape.

A window around the head is a part of the tape with the head in it, as large as it was asked
for if the tape goes on so far (`Tape.exists_window`). Written out in three rows it can be
read again: values and addresses are the words of their rows, each in its column, and the
only mark stands in the column of the head (`Window.Displays`). -/
namespace TapeMachine

namespace Window
variable {w : Window} {marked a : Int} {k : Nat} {c : Char}

/-! ### Addresses -/

theorem length_addresses (w : Window) : w.addresses.length = w.values.length := by
  rw [addresses, List.length_map, List.length_range]

theorem getElem?_addresses (h : k < w.values.length) : w.addresses[k]? = some (w.start + k) := by
  rw [addresses, List.getElem?_map, List.getElem?_range h]
  rfl

theorem nodup_addresses (w : Window) : w.addresses.Nodup :=
  List.Nodup.map (fun _ _ h => Int.ofNat_inj.mp (Int.add_left_cancel h)) List.nodup_range

/-- A column is as wide as the longest address, and at least three characters. -/
theorem isLeast_width (w : Window) :
    IsLeast {n | 3 ≤ n ∧ ∀ a ∈ w.addresses, (Text.integer a).length ≤ n} w.width := by
  have hfold : ∀ (as : List Int) (start n : Nat),
      as.foldl (fun width a => max width (Text.integer a).length) start ≤ n ↔
        start ≤ n ∧ ∀ a ∈ as, (Text.integer a).length ≤ n := by
    intro as
    induction as with
    | nil => exact fun start n => ⟨fun h => ⟨h, nofun⟩, And.left⟩
    | cons a as ih =>
      intro start n
      rw [List.foldl_cons, ih, Nat.max_le, List.forall_mem_cons, and_assoc]
  exact ⟨(hfold _ _ _).mp (Nat.le_refl _), fun n h => (hfold _ _ _).mpr h⟩

/-! ### Rows -/

/-- The rows of a window can be read: the values and the addresses are the words of the second
row and of the third, each in the column of its number, and there is one mark in the first
row, in the column of the marked address. -/
structure Displays (w : Window) (marked : Int) (first second third : Text) : Prop where
  values : Text.words second = w.values.map Text.integer
  addresses : Text.words third = w.addresses.map Text.integer
  width : IsLeast {n | 3 ≤ n ∧ ∀ a ∈ w.addresses, (Text.integer a).length ≤ n} w.width
  value : ∀ k v, w.values[k]? = some v →
    Text.column w.width k second = (Text.integer v).padLeft w.width
  address : ∀ k a, w.addresses[k]? = some a →
    Text.column w.width k third = (Text.integer a).padLeft w.width
  single : first.count 'v' = 1
  mark : ∃ k offset, w.addresses[k]? = some marked ∧ first[offset]? = some 'v' ∧
    k * (w.width + 1) ≤ offset ∧ offset < k * (w.width + 1) + w.width

theorem mem_of_mem_row {columns : List Text} (h : c ∈ row columns) :
    c = ' ' ∨ ∃ t ∈ columns, c ∈ t := by
  obtain ⟨rest, hrest, -⟩ :=
    Text.exists_append_of_dropTrailing (· == ' ') (Text.join [' '] columns)
  have hjoin : c ∈ Text.join [' '] columns := by
    rw [hrest]
    exact List.mem_append_left rest h
  exact (Text.exists_mem_of_mem_join hjoin).imp_left List.mem_singleton.mp

theorem ne_blank_of_mem_integer {n : Int} (h : c ∈ Text.integer n) : c ≠ ' ' := by
  rintro rfl
  rcases Text.isDigit_or_eq_of_mem_integer h with hdigit | hminus
  · exact absurd hdigit (by decide)
  · cases hminus

/-- A row of numbers ends with the last of them. -/
theorem row_integers {ns : List Int} (hne : ns ≠ []) (width : Nat) :
    row (ns.map fun n => (Text.integer n).padLeft width) =
      Text.join [' '] ((ns.map Text.integer).map (Text.padLeft width)) := by
  rw [List.map_map]
  obtain ⟨n, hn⟩ := Option.ne_none_iff_exists'.mp (mt List.getLast?_eq_none_iff.mp hne)
  have hpad : ((Text.integer n).padLeft width).getLast? = (Text.integer n).getLast? :=
    List.getLast?_append_of_ne_nil _ (Text.integer_ne_nil n)
  have hpadded : (Text.integer n).padLeft width ≠ [] :=
    List.append_ne_nil_of_right_ne_nil _ (Text.integer_ne_nil n)
  have hlast : (ns.map (Text.padLeft width ∘ Text.integer)).getLast? =
      some ((Text.integer n).padLeft width) := by
    rw [List.getLast?_map, hn]
    rfl
  obtain ⟨c, hc⟩ := Option.ne_none_iff_exists'.mp
    (mt List.getLast?_eq_none_iff.mp (Text.integer_ne_nil n))
  refine Text.dropTrailing_eq_self ((Text.getLast?_join hlast hpadded).trans (hpad.trans hc)) ?_
  rw [beq_iff_eq]
  exact ne_blank_of_mem_integer (List.mem_of_getLast? hc)

/-- The numbers of a row are its words, each in its column. -/
theorem row_integers_spec {ns : List Int} {width : Nat} (hne : ns ≠ [])
    (hfit : ∀ n ∈ ns, (Text.integer n).length ≤ width) :
    let r := row (ns.map fun n => (Text.integer n).padLeft width)
    Text.words r = ns.map Text.integer ∧
      ∀ k n, ns[k]? = some n → Text.column width k r = (Text.integer n).padLeft width := by
  intro r
  have hr : r = Text.join [' '] ((ns.map Text.integer).map (Text.padLeft width)) :=
    row_integers hne width
  rw [hr]
  refine ⟨Text.words_join ?_ ?_, fun k n hn => Text.column_join ?_ ?_⟩
  · exact List.forall_mem_map.mpr fun n _ => Text.integer_ne_nil n
  · exact List.forall_mem_map.mpr fun n _ h => ne_blank_of_mem_integer h rfl
  · rw [List.map_map]
    exact List.forall_mem_map.mpr fun n hn => Text.length_padLeft (hfit n hn)
  · rw [List.getElem?_map, List.getElem?_map, hn]
    rfl

/-! ### The mark -/

/-- The column of an address in the first row. -/
def markColumn (w : Window) (marked a : Int) : Text :=
  Text.center w.width (if a = marked then ['v'] else [])

theorem exists_markColumn_eq (w : Window) (marked a : Int) : ∃ before after,
    before + (if a = marked then ['v'] else []).length + after = w.width ∧
      w.markColumn marked a = List.replicate before ' ' ++ (if a = marked then ['v'] else []) ++
        List.replicate after ' ' := by
  have hwide : 3 ≤ w.width := w.isLeast_width.1.1
  refine Text.exists_center_eq ?_
  split
  · exact Nat.le_trans (by decide) hwide
  · exact Nat.zero_le _

theorem length_markColumn (w : Window) (marked a : Int) :
    (w.markColumn marked a).length = w.width := by
  obtain ⟨before, after, hwidth, heq⟩ := w.exists_markColumn_eq marked a
  rw [heq, List.length_append, List.length_append, List.length_replicate, List.length_replicate,
    hwidth]

theorem count_markColumn (w : Window) (marked a : Int) :
    (w.markColumn marked a).count 'v' = if a = marked then 1 else 0 := by
  obtain ⟨before, after, -, heq⟩ := w.exists_markColumn_eq marked a
  rw [heq]
  split <;> simp [List.count_replicate]

theorem sum_count_markColumn (w : Window) (marked : Int) (as : List Int) :
    (as.map fun a => (w.markColumn marked a).count 'v').sum = as.count marked := by
  induction as with
  | nil => rfl
  | cons a as ih =>
    rw [List.map_cons, List.sum_cons, ih, count_markColumn, List.count_cons, Nat.add_comm]
    simp only [beq_iff_eq]

/-- There is one mark, in the column of the marked address. -/
theorem row_markColumn (hm : marked ∈ w.addresses) :
    (row (w.addresses.map (w.markColumn marked))).count 'v' = 1 ∧
      ∃ k offset, w.addresses[k]? = some marked ∧
        (row (w.addresses.map (w.markColumn marked)))[offset]? = some 'v' ∧
        k * (w.width + 1) ≤ offset ∧ offset < k * (w.width + 1) + w.width := by
  -- what is dropped at the end of the row is blank
  obtain ⟨rest, hrest, hblank⟩ := Text.exists_append_of_dropTrailing (· == ' ')
    (Text.join [' '] (w.addresses.map (w.markColumn marked)))
  have hclear : 'v' ∉ rest := fun h => absurd (hblank 'v' h) (by decide)
  rw [← row] at hrest
  refine ⟨?_, ?_⟩
  · have hcount := congrArg (List.count 'v') hrest
    rw [Text.count_join (by decide), List.map_map, List.count_append,
      List.count_eq_zero_of_not_mem hclear, Nat.add_zero] at hcount
    rw [← hcount, ← List.count_eq_one_of_mem w.nodup_addresses hm]
    exact w.sum_count_markColumn marked w.addresses
  · obtain ⟨k, hk⟩ := List.mem_iff_getElem?.mp hm
    obtain ⟨before, after, hwidth, heq⟩ := w.exists_markColumn_eq marked marked
    rw [if_pos rfl] at hwidth heq
    have hcolumn : Text.column w.width k (row (w.addresses.map (w.markColumn marked)) ++ rest) =
        w.markColumn marked marked := by
      rw [← hrest]
      refine Text.column_join ?_ ?_
      · exact List.forall_mem_map.mpr fun a _ => w.length_markColumn marked a
      · rw [List.getElem?_map, hk]
        rfl
    have hbefore : before < w.width := by
      rw [List.length_singleton] at hwidth
      omega
    have hmark : (w.markColumn marked marked)[before]? = some 'v' := by
      rw [heq]
      simp
    rw [← hcolumn, Text.column, List.getElem?_take_of_lt hbefore, List.getElem?_drop] at hmark
    refine ⟨k, k * (w.width + 1) + before, hk, ?_, Nat.le_add_right _ _,
      Nat.add_lt_add_left hbefore _⟩
    rcases Nat.lt_or_ge (k * (w.width + 1) + before)
      (row (w.addresses.map (w.markColumn marked))).length with hlt | hge
    · rwa [List.getElem?_append_left hlt] at hmark
    · rw [List.getElem?_append_right hge] at hmark
      exact absurd (List.mem_of_getElem? hmark) hclear

/-! ### The three rows -/

theorem rows_eq (w : Window) (marked : Int) : w.rows marked =
    [row (w.addresses.map (w.markColumn marked)),
      row (w.values.map fun v => (Text.integer v).padLeft w.width),
      row (w.addresses.map fun a => (Text.integer a).padLeft w.width)] := rfl

theorem end_not_mem_row_integers (ns : List Int) (width : Nat) :
    '\n' ∉ row (ns.map fun n => (Text.integer n).padLeft width) := by
  intro h
  rcases mem_of_mem_row h with hblank | ⟨t, ht, hc⟩
  · cases hblank
  · obtain ⟨n, -, rfl⟩ := List.mem_map.mp ht
    rw [Text.padLeft, List.mem_append] at hc
    rcases hc with hc | hc
    · cases List.eq_of_mem_replicate hc
    · rcases Text.isDigit_or_eq_of_mem_integer hc with hdigit | hminus
      · exact absurd hdigit (by decide)
      · cases hminus

theorem end_not_mem_row_marks (w : Window) (marked : Int) :
    '\n' ∉ row (w.addresses.map (w.markColumn marked)) := by
  intro h
  rcases mem_of_mem_row h with hblank | ⟨t, ht, hc⟩
  · cases hblank
  · obtain ⟨a, -, rfl⟩ := List.mem_map.mp ht
    obtain ⟨before, after, -, heq⟩ := w.exists_markColumn_eq marked a
    rw [heq] at hc
    split at hc <;> simp at hc

/-- A window in which every value fits its column can be read from its three rows. -/
theorem displays_render (hm : marked ∈ w.addresses)
    (hfit : ∀ v ∈ w.values, (Text.integer v).length ≤ w.width) :
    ∃ first second third, (w.render marked).lines = [first, second, third] ∧
      w.Displays marked first second third := by
  have hends : ∀ r ∈ w.rows marked, '\n' ∉ r := by
    rw [rows_eq]
    simp only [List.forall_mem_cons, List.not_mem_nil, false_implies, implies_true, and_true]
    exact ⟨w.end_not_mem_row_marks marked, end_not_mem_row_integers _ _,
      end_not_mem_row_integers _ _⟩
  have hlines : (w.render marked).lines = w.rows marked :=
    Text.lines_unlines (List.cons_ne_nil _ _) hends
  have haddresses : w.addresses ≠ [] := List.ne_nil_of_mem hm
  have hvalues : w.values ≠ [] := by
    rwa [← List.length_pos_iff, length_addresses, List.length_pos_iff] at haddresses
  obtain ⟨hvalueWords, hvalue⟩ := row_integers_spec hvalues hfit
  obtain ⟨haddressWords, haddress⟩ := row_integers_spec haddresses w.isLeast_width.1.2
  obtain ⟨hsingle, hmark⟩ := row_markColumn hm
  exact ⟨_, _, _, hlines.trans (w.rows_eq marked),
    hvalueWords, haddressWords, w.isLeast_width, hvalue, haddress, hsingle, hmark⟩

end Window

namespace Tape

/-- The window around the head is a part of the tape with the head in it. It has as many cells
as it was asked for if the tape has so many from its first cell on. -/
theorem exists_window (t : Tape) {cells : Int} (h : 0 < cells) : ∃ start n : Nat,
    t.window cells = ⟨start, ((t.cells.toList.drop start).take n).map number⟩ ∧
      start ≤ t.head ∧ t.head < start + n ∧ start + n ≤ t.size ∧ (n : Int) ≤ cells ∧
      (start + cells ≤ t.size → (n : Int) = cells) := by
  have hhead : t.head < t.size := t.head_lt
  obtain ⟨count, rfl⟩ := Int.eq_ofNat_of_zero_le (Int.le_of_lt h)
  refine ⟨t.head - count / 2, min t.size (t.head - count / 2 + count) - (t.head - count / 2),
    ?_, by omega, by omega, by omega, by omega, by omega⟩
  have hstart : max 0 ((t.head : Int) - count / 2) = (t.head - count / 2 : Nat) := by omega
  have hstop : min (t.cells.size : Int) ((t.head - count / 2 : Nat) + count) =
      (min t.size (t.head - count / 2 + count) : Nat) := by
    rw [← size]
    omega
  rw [window, Window.around, if_neg (Int.not_le.mpr h)]
  simp only [hstart, hstop, Int.toNat_natCast, Array.toList_extract,
    List.extract_eq_take_drop]

theorem length_integer_number (v : UInt8) : (Text.integer (number v)).length ≤ 3 :=
  (Text.length_natural_le_iff (by decide)).mpr (Nat.lt_trans v.toNat_lt (by decide))

/-- The window around the head shows so many cells of the tape at most, and just so many if
the tape goes on so far, each under its address, and the head among them. Written out in
three rows it can be read again. -/
theorem renderWindow_displays (t : Tape) {cells : Int} (h : 0 < cells) :
    0 ≤ (t.window cells).start ∧ (t.window cells).start ≤ t.head ∧
    t.head < (t.window cells).stop ∧ (t.window cells).stop ≤ t.size ∧
    ((t.window cells).values.length : Int) ≤ cells ∧
    (∀ k < (t.window cells).values.length, (t.window cells).values[k]? =
      t.cells[(t.window cells).start.toNat + k]?.map number) ∧
    ((t.window cells).start + cells ≤ t.size →
      ((t.window cells).values.length : Int) = cells) ∧
    ∃ first second third, (t.renderWindow cells).lines = [first, second, third] ∧
      (t.window cells).Displays t.head first second third := by
  obtain ⟨start, n, hwindow, hle, hlt, hsize, hcells, hall⟩ := t.exists_window h
  have hlength : (t.window cells).values.length = n := by
    have hcount : t.cells.toList.length = t.size := Array.length_toList
    rw [hwindow, List.length_map, List.length_take, List.length_drop, hcount]
    omega
  have hstart : (t.window cells).start = start := by rw [hwindow]
  have hstop : (t.window cells).stop = (start + n : Nat) := by
    rw [Window.stop, hlength, hstart]
    exact (Int.natCast_add _ _).symm
  refine ⟨by omega, by omega, by omega, by omega, by omega, fun k hk => ?_, fun hfar => ?_, ?_⟩
  · rw [hlength] at hk
    rw [hstart, Int.toNat_natCast, hwindow, List.getElem?_map, List.getElem?_take_of_lt hk,
      List.getElem?_drop, Array.getElem?_toList]
  · rw [hlength]
    exact hall (hstart ▸ hfar)
  · refine Window.displays_render ?_ fun v hv => ?_
    · have hk : t.head - start < (t.window cells).values.length := by omega
      refine List.mem_of_getElem? (i := t.head - start) ?_
      rw [Window.getElem?_addresses hk, hstart]
      exact congrArg some (by omega)
    · rw [hwindow] at hv
      obtain ⟨cell, -, rfl⟩ := List.mem_map.mp hv
      exact Nat.le_trans (length_integer_number cell) (t.window cells).isLeast_width.1.1

/-- At the end of a tape of three cells a window of four has three. -/
theorem renderWindow_displays_end :
    let t : Tape := ⟨#[7, 0, 255], 2, by decide⟩
    (0 : Int) < 4 ∧ (t.window 4).values = [7, 0, 255] ∧
      ∃ first second third, (t.renderWindow 4).lines = [first, second, third] ∧
        Text.words second = [['7'], ['0'], "255".toList] ∧
        Text.words third = [['0'], ['1'], ['2']] ∧ first.count 'v' = 1 := by
  intro t
  have h := (t.renderWindow_displays (show (0 : Int) < 4 by decide)).2.2.2.2.2.2.2
  obtain ⟨first, second, third, hlines, hdisplays⟩ := h
  have hvalues : (t.window 4).values.map Text.integer = [['7'], ['0'], "255".toList] := by decide
  have haddresses : (t.window 4).addresses.map Text.integer = [['0'], ['1'], ['2']] := by decide
  exact ⟨by decide, rfl, first, second, third, hlines, hdisplays.values.trans hvalues,
    hdisplays.addresses.trans haddresses, hdisplays.single⟩

end Tape
end TapeMachine
