import Mathlib.Data.List.Induction
import TapeMachine.Program
import TapeMachine.Proofs.Program.Nesting
import TapeMachine.Proofs.Text.Lines

/-! Places in a text.

A text that is split at its line ends has each of its characters at one place, a line end
at the last column of the line that it ends (`Text.Shows`). That is the place just after
the characters before it (`Text.shows_iff`). -/
namespace TapeMachine

namespace Position

theorem after_concat (t : Text) (c : Char) : after (t ++ [c]) = (after t).past c :=
  List.foldl_append

/-- On the first line of what follows, columns go on from where they stand. -/
theorem foldl_past (p : Position) (t : Text) : t.foldl past p =
    ⟨p.line + (after t).line,
      if (after t).line = 0 then p.column + (after t).column else (after t).column⟩ := by
  induction t using List.reverseRecOn with
  | nil => rfl
  | append_singleton t c ih =>
    rw [List.foldl_append, ih, after_concat, List.foldl_cons, List.foldl_nil, past, past]
    by_cases hc : c = '\n'
    · simp only [if_pos hc]
      rfl
    · simp only [if_neg hc]
      split
      · rfl
      · rfl

theorem after_cons_end (t : Text) : after ('\n' :: t) = ⟨(after t).line + 1, (after t).column⟩ := by
  rw [after, List.foldl_cons, foldl_past]
  have hpast : past {} '\n' = ⟨1, 0⟩ := rfl
  rw [hpast, Nat.add_comm, Nat.zero_add, ite_self]

theorem after_cons {c : Char} (hc : c ≠ '\n') (t : Text) : after (c :: t) =
    ⟨(after t).line, if (after t).line = 0 then (after t).column + 1 else (after t).column⟩ := by
  rw [after, List.foldl_cons, foldl_past]
  have hpast : past {} c = ⟨0, 1⟩ := if_neg hc
  rw [hpast, Nat.zero_add, Nat.add_comm]

end Position

namespace Text
variable {t : Text} {k : Nat} {pos pos' : Position} {c : Char}

/-- How many characters of a text stand before one of its lines. -/
def lineStart (t : Text) (n : Nat) : Nat := ((t.lines.take n).flatMap (· ++ ['\n'])).length

theorem lineStart_zero (t : Text) : t.lineStart 0 = 0 := rfl

theorem lineStart_cons_end (t : Text) (n : Nat) :
    lineStart ('\n' :: t) (n + 1) = t.lineStart n + 1 := by
  rw [lineStart, lines_cons_end, List.take_succ_cons, List.flatMap_cons, List.length_append,
    lineStart]
  exact Nat.add_comm _ _

theorem lineStart_cons (hc : c ≠ '\n') (t : Text) (n : Nat) :
    lineStart (c :: t) (n + 1) = t.lineStart (n + 1) + 1 := by
  obtain ⟨first, others, ht, hct⟩ := lines_cons hc t
  rw [lineStart, lineStart, hct, ht, List.take_succ_cons, List.take_succ_cons,
    List.flatMap_cons, List.flatMap_cons]
  rfl

theorem lineStart_succ {n : Nat} {line : Text} (h : t.lines[n]? = some line) :
    t.lineStart (n + 1) = t.lineStart n + (line.length + 1) := by
  rw [lineStart, List.take_add_one, h, List.flatMap_append, List.length_append]
  simp [lineStart]

theorem lineStart_mono {m n : Nat} (h : m ≤ n) : t.lineStart m ≤ t.lineStart n := by
  induction h with
  | refl => exact Nat.le_refl _
  | step _ ih =>
    refine Nat.le_trans ih ?_
    rw [lineStart, lineStart, List.take_add_one, List.flatMap_append, List.length_append]
    exact Nat.le_add_right _ _

/-- Split at its line ends, the text has its character number `k` at a place. -/
structure Shows (t : Text) (k : Nat) (pos : Position) : Prop where
  index : t.lineStart pos.line + pos.column = k
  character : ∃ line c, t.lines[pos.line]? = some line ∧
    (line ++ ['\n'])[pos.column]? = some c ∧ t[k]? = some c

namespace Shows

/-- A place is on its line, or at the end of it. -/
theorem lt_lineStart (h : t.Shows k pos) : k < t.lineStart (pos.line + 1) := by
  obtain ⟨line, c, hline, hc, -⟩ := h.character
  have hlt := (List.getElem?_eq_some_iff.mp hc).1
  rw [List.length_append, List.length_singleton] at hlt
  rw [lineStart_succ hline, ← h.index]
  omega

theorem line_le (h : t.Shows k pos) (h' : t.Shows k pos') : pos.line ≤ pos'.line := by
  by_contra hlt
  have hnext : t.lineStart (pos'.line + 1) ≤ t.lineStart pos.line :=
    lineStart_mono (Nat.lt_of_not_le hlt)
  have hk := h'.lt_lineStart
  have hindex := h.index
  omega

/-- A character stands at one place only. -/
theorem unique (h : t.Shows k pos) (h' : t.Shows k pos') : pos = pos' := by
  have hline : pos.line = pos'.line := Nat.le_antisymm (h.line_le h') (h'.line_le h)
  have hcolumn : pos.column = pos'.column := by
    have hindex := h.index
    have hindex' := h'.index
    rw [hline] at hindex
    omega
  exact congrArg₂ Position.mk hline hcolumn

theorem cons_end (h : t.Shows k pos) :
    Shows ('\n' :: t) (k + 1) ⟨pos.line + 1, pos.column⟩ := by
  refine ⟨?_, h.character⟩
  rw [lineStart_cons_end, ← h.index]
  exact Nat.add_right_comm _ _ _

/-- A character more on the first line moves that line only. -/
theorem cons (hc : c ≠ '\n') (h : t.Shows k pos) : Shows (c :: t) (k + 1)
    ⟨pos.line, if pos.line = 0 then pos.column + 1 else pos.column⟩ := by
  obtain ⟨first, others, ht, hct⟩ := lines_cons hc t
  obtain ⟨line, d, hline, hd, hk⟩ := h.character
  have hindex := h.index
  cases hn : pos.line with
  | zero =>
    rw [hn, lineStart_zero] at hindex
    rw [hn, ht] at hline
    cases hline
    refine ⟨?_, c :: first, d, ?_, hd, hk⟩
    · show 0 + (pos.column + 1) = k + 1
      omega
    · exact congrArg (·[0]?) hct
  | succ n =>
    rw [hn] at hindex hline
    refine ⟨?_, line, d, ?_, hd, hk⟩
    · rw [lineStart_cons hc, if_neg (Nat.succ_ne_zero n), ← hindex]
      exact Nat.add_right_comm _ _ _
    · rw [ht] at hline
      exact (congrArg (·[n + 1]?) hct).trans hline

end Shows

/-- The first character stands at the first place. -/
theorem shows_zero (c : Char) (t : Text) : Shows (c :: t) 0 ⟨0, 0⟩ := by
  refine ⟨rfl, ?_⟩
  by_cases hc : c = '\n'
  · subst hc
    exact ⟨[], '\n', rfl, rfl, rfl⟩
  · obtain ⟨first, others, -, hct⟩ := lines_cons hc t
    exact ⟨c :: first, c, congrArg (·[0]?) hct, rfl, rfl⟩

/-- Every character stands just after those before it. -/
theorem shows_after (h : k < t.length) : t.Shows k (.after (t.take k)) := by
  induction t generalizing k with
  | nil => exact absurd h (Nat.not_lt_zero k)
  | cons c t ih =>
    cases k with
    | zero => exact shows_zero c t
    | succ k =>
      have hrest := ih (Nat.lt_of_succ_lt_succ h)
      rw [List.take_succ_cons]
      by_cases hc : c = '\n'
      · subst hc
        rw [Position.after_cons_end]
        exact hrest.cons_end
      · rw [Position.after_cons hc]
        exact hrest.cons hc

theorem shows_iff (h : k < t.length) : t.Shows k pos ↔ pos = .after (t.take k) := by
  refine ⟨fun hs => hs.unique (shows_after h), ?_⟩
  rintro rfl
  exact shows_after h

end Text

/-- A counter in a program is located where the text has the character. -/
theorem Program.shows_iff {p : Program} {k : Nat} {pos : Position} (h : k < p.size) :
    Text.Shows p.toList k pos ↔ pos = p.locate k := Text.shows_iff (t := p.toList) h

example : Text.Shows "+\n-".toList 1 ⟨0, 1⟩ ∧ Text.Shows "+\n-".toList 2 ⟨1, 0⟩ :=
  ⟨⟨rfl, _, _, rfl, rfl, rfl⟩, ⟨rfl, _, _, rfl, rfl, rfl⟩⟩

end TapeMachine
