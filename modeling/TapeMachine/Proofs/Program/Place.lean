import Mathlib.Algebra.GroupWithZero.Nat
import TapeMachine.Proofs.Program.Location

/-! Counters and places.

A place of a text is a column on one of its lines, or the one just after the line
(`Text.HasPlace`). So many characters stand before it, counted over the lines before its
line (`Text.offset`), and the more there are the later is the place (`Text.offset_lt_iff`).
The place that a counter is located at has the counter as its offset. So each place is that
of one counter, and the order is the same (`Program.locate_bijective`). -/
namespace TapeMachine

/-- Lines come first, then columns. -/
def Position.Before (a b : Position) : Prop :=
  a.line < b.line ∨ a.line = b.line ∧ a.column < b.column

theorem Position.before_or_eq_or_before (a b : Position) : a.Before b ∨ a = b ∨ b.Before a := by
  rcases Nat.lt_trichotomy a.line b.line with hline | hline | hline
  · exact .inl (.inl hline)
  · rcases Nat.lt_trichotomy a.column b.column with hcolumn | hcolumn | hcolumn
    · exact .inl (.inr ⟨hline, hcolumn⟩)
    · exact .inr (.inl (congrArg₂ Position.mk hline hcolumn))
    · exact .inr (.inr (.inr ⟨hline.symm, hcolumn⟩))
  · exact .inr (.inr (.inl hline))

namespace Text
variable {t : Text} {k : Nat} {a b pos : Position}

/-- A line of the text, and a column on it or just after it. -/
def HasPlace (t : Text) (pos : Position) : Prop :=
  ∃ line, t.lines[pos.line]? = some line ∧ pos.column ≤ line.length

/-- What stands before a place: the lines before its line, each with its line end, and so
many characters as its column says. -/
def offset (t : Text) (pos : Position) : Nat :=
  ((t.lines.take pos.line).map fun line => line.length + 1).sum + pos.column

theorem offset_eq (t : Text) (pos : Position) :
    t.offset pos = t.lineStart pos.line + pos.column := by
  simp [offset, lineStart, List.length_flatMap]

theorem lineStart_length (t : Text) : t.lineStart t.lines.length = t.length + 1 := by
  rw [lineStart, List.take_length, flatMap_lines, List.length_append, List.length_singleton]

theorem lineStart_concat_end {n : Nat} (h : n ≤ t.lines.length) :
    lineStart (t ++ ['\n']) n = t.lineStart n := by
  rw [lineStart, lines_concat_end, List.take_append_of_le_length h, lineStart]

/-! ### The order of offsets -/

theorem HasPlace.line_lt (h : t.HasPlace pos) : pos.line < t.lines.length := by
  obtain ⟨line, hline, -⟩ := h
  exact (List.getElem?_eq_some_iff.mp hline).1

/-- A place comes before the next line. -/
theorem HasPlace.offset_lt (h : t.HasPlace pos) : t.offset pos < t.lineStart (pos.line + 1) := by
  obtain ⟨line, hline, hcolumn⟩ := h
  rw [lineStart_succ hline, offset_eq]
  omega

theorem HasPlace.offset_le (h : t.HasPlace pos) : t.offset pos ≤ t.length := by
  have hnext : t.lineStart (pos.line + 1) ≤ t.lineStart t.lines.length := lineStart_mono h.line_lt
  have hlt := h.offset_lt
  rw [lineStart_length] at hnext
  omega

theorem HasPlace.offset_lt_of_before (ha : t.HasPlace a) (h : a.Before b) :
    t.offset a < t.offset b := by
  rcases h with hline | ⟨hline, hcolumn⟩
  · have hnext : t.lineStart (a.line + 1) ≤ t.lineStart b.line := lineStart_mono hline
    have hlt := ha.offset_lt
    rw [offset_eq t b]
    omega
  · rw [offset_eq, offset_eq, hline]
    exact Nat.add_lt_add_left hcolumn _

theorem offset_lt_iff (ha : t.HasPlace a) (hb : t.HasPlace b) :
    t.offset a < t.offset b ↔ a.Before b := by
  refine ⟨fun hlt => ?_, ha.offset_lt_of_before⟩
  rcases a.before_or_eq_or_before b with h | rfl | h
  · exact h
  · exact absurd hlt (Nat.lt_irrefl _)
  · exact absurd (hb.offset_lt_of_before h) (Nat.lt_asymm hlt)

theorem eq_of_offset_eq (ha : t.HasPlace a) (hb : t.HasPlace b) (h : t.offset a = t.offset b) :
    a = b := by
  rcases a.before_or_eq_or_before b with hab | heq | hba
  · exact absurd h (Nat.ne_of_lt (ha.offset_lt_of_before hab))
  · exact heq
  · exact absurd h (Nat.ne_of_gt (hb.offset_lt_of_before hba))

/-! ### The place of a counter -/

/-- The place after so many characters is one of the text, and that many characters stand
before it. With a line end after the text it is the place of a character. -/
theorem hasPlace_after (h : k ≤ t.length) :
    t.HasPlace (.after (t.take k)) ∧ t.offset (.after (t.take k)) = k := by
  have hlt : k < (t ++ ['\n']).length := by
    rw [List.length_append, List.length_singleton]
    exact Nat.lt_succ_of_le h
  have hshows := shows_after hlt
  rw [List.take_append_of_le_length h] at hshows
  generalize Position.after (t.take k) = pos at hshows ⊢
  obtain ⟨line, c, hline, hc, -⟩ := hshows.character
  have hindex := hshows.index
  have hlast : pos.line < t.lines.length := by
    -- the line that the line end adds starts behind the counter
    by_contra hge
    have hstart : lineStart (t ++ ['\n']) t.lines.length ≤ lineStart (t ++ ['\n']) pos.line :=
      lineStart_mono (Nat.le_of_not_lt hge)
    rw [lineStart_concat_end (Nat.le_refl _), lineStart_length] at hstart
    omega
  rw [lines_concat_end, List.getElem?_append_left hlast] at hline
  rw [lineStart_concat_end (Nat.le_of_lt hlast)] at hindex
  refine ⟨⟨line, hline, ?_⟩, (offset_eq t pos).trans hindex⟩
  have hcolumn := (List.getElem?_eq_some_iff.mp hc).1
  rw [List.length_append, List.length_singleton] at hcolumn
  exact Nat.le_of_lt_succ hcolumn

end Text

namespace Program
variable (p : Program)

theorem hasPlace_locate {k : Nat} (h : k ≤ p.size) :
    Text.HasPlace p.toList (p.locate k) ∧ Text.offset p.toList (p.locate k) = k :=
  Text.hasPlace_after (t := p.toList) h

/-- From the start of a program to its end counters and places are one to one, with as many
characters before the place as the counter says, and in the same order. Any other counter
has the place of the nearest end. -/
theorem locate_bijective :
    (∀ k : Nat, k ≤ p.size →
      Text.HasPlace p.toList (p.locate k) ∧ Text.offset p.toList (p.locate k) = k) ∧
    (∀ pos, Text.HasPlace p.toList pos → ∃! k : Nat, k ≤ p.size ∧ p.locate k = pos) ∧
    (∀ j k : Nat, j < k → k ≤ p.size → (p.locate j).Before (p.locate k)) ∧
    (∀ c : Int, c < 0 → p.locate c = p.locate 0) ∧
    (∀ c : Int, p.size < c → p.locate c = p.locate p.size) := by
  refine ⟨fun k hk => p.hasPlace_locate hk, fun pos hpos => ?_, fun j k hjk hk => ?_,
    fun c hc => ?_, fun c hc => ?_⟩
  · obtain ⟨hplace, hoffset⟩ := p.hasPlace_locate hpos.offset_le
    refine ⟨_, ⟨hpos.offset_le, Text.eq_of_offset_eq hplace hpos hoffset⟩, ?_⟩
    rintro k ⟨hk, rfl⟩
    exact (p.hasPlace_locate hk).2.symm
  · obtain ⟨hj, hoffset⟩ := p.hasPlace_locate (Nat.le_trans (Nat.le_of_lt hjk) hk)
    obtain ⟨hk, hoffset'⟩ := p.hasPlace_locate hk
    rw [← Text.offset_lt_iff hj hk, hoffset, hoffset']
    exact hjk
  · have hzero : c.toNat = 0 := Int.toNat_of_nonpos (Int.le_of_lt hc)
    rw [locate, hzero]
    rfl
  · have hall : ∀ n : Nat, p.size ≤ n → p.toList.take n = p.toList := fun _ hn =>
      List.take_of_length_le hn
    have hbeyond : p.size ≤ c.toNat := by omega
    rw [locate, hall _ hbeyond]
    exact congrArg Position.after (hall p.size (Nat.le_refl _)).symm

/-- Two empty lines and one with a character: the end of the second line is the place of the
second character only, and the end of the program comes after all others. -/
theorem locate_bijective_empty_lines :
    let p : Program := ⟨#['\n', '\n', '+']⟩
    (∃! k : Nat, k ≤ p.size ∧ p.locate k = ⟨1, 0⟩) ∧ p.locate 1 = ⟨1, 0⟩ ∧
      (∀ j < 3, (p.locate (j : Nat)).Before ⟨2, 1⟩) ∧ p.locate 7 = ⟨2, 1⟩ ∧
      p.locate (-1) = ⟨0, 0⟩ := by
  obtain ⟨-, hplaces, horder, hbelow, habove⟩ := locate_bijective ⟨#['\n', '\n', '+']⟩
  exact ⟨hplaces ⟨1, 0⟩ ⟨[], rfl, Nat.le_refl 0⟩, rfl, fun j hj => horder j 3 hj (by decide),
    habove 7 (by decide), hbelow (-1) (by decide)⟩

end Program
end TapeMachine
