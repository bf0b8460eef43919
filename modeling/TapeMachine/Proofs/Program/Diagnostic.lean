import Mathlib.Data.List.Basic
import TapeMachine.Program.Diagnostic
import TapeMachine.Proofs.Program.Location
import TapeMachine.Proofs.Program.Partner
import TapeMachine.Proofs.Text.Lines
import TapeMachine.Proofs.Text.Numeral

/-! Diagnostics point at their bracket.

A diagnostic counts line and column by itself, and comes to the place at which the bracket
stands in the program split at its line ends (`Diagnostic.Points`). Its context is cut out
of these lines (`Diagnostic.Frames`): two lines before that of the bracket and two after
it, as far as there are any, each with its number in front, and a row with a caret below
the bracket. -/
namespace TapeMachine

/-! ### Two ways to count -/

theorem Position.count_eq_line (t : Text) : t.count '\n' = (after t).line := by
  induction t using List.reverseRecOn with
  | nil => rfl
  | append_singleton t c ih =>
    rw [after_concat, past, List.count_append, ih]
    split
    next hc => rw [hc, List.count_singleton_self]
    next hc => rw [List.count_singleton, if_neg (by simpa using hc), Nat.add_zero]

/-- The characters of a text since its last line end. -/
theorem Position.length_takeWhile_eq_column (t : Text) :
    (t.reverse.takeWhile fun c => c != '\n').length = (after t).column := by
  induction t using List.reverseRecOn with
  | nil => rfl
  | append_singleton t c ih =>
    rw [after_concat, past, List.reverse_concat]
    split
    next hc => rw [hc, List.takeWhile_cons_of_neg (by simp), List.length_nil]
    next hc => rw [List.takeWhile_cons_of_pos (by simpa using hc), List.length_cons, ih]

theorem Diagnostic.lastLineStart_add_column (t : Text) :
    lastLineStart t + (Position.after t).column = t.length := by
  have hle := (List.takeWhile_sublist (p := fun c => c != '\n') (l := t.reverse)).length_le
  rw [List.length_reverse] at hle
  rw [lastLineStart, ← Position.length_takeWhile_eq_column]
  omega

namespace Diagnostic
variable {lines : List Text} {line content : Text} {number : Nat}

/-- A mark, the number of a line in four places or more, and the line. -/
def numbered (mark : Char) (number : Nat) (line : Text) : Text :=
  mark :: ' ' :: (Text.natural number).padLeft 4 ++ " | ".toList ++ line

/-- Of the lines of a source the context shows that with a number, marked, and the two
before it and the two after it, as far as there are any. Below the marked row is one with a
caret, at the offset that a column of the line has in the marked row. -/
def Frames (lines : List Text) (number : Nat) (content : Text) (column : Nat) (context : Text) :
    Prop :=
  ∃ above below : List (Text × Nat), ∃ offset,
    (above ++ (content, number) :: below).map (·.2) =
      List.range' (max 1 (number - 2)) (min lines.length (number + 2) + 1 - max 1 (number - 2)) ∧
    (∀ x ∈ above ++ (content, number) :: below, lines[x.2 - 1]? = some x.1) ∧
    context.lines = above.map (fun x => numbered ' ' x.2 x.1) ++
      numbered '>' number content :: (List.replicate offset ' ' ++ ['^']) ::
      below.map (fun x => numbered ' ' x.2 x.1) ∧
    offset = (numbered '>' number []).length + column ∧
    (numbered '>' number content)[offset]? = content[column]?

theorem gutter_append (marked : Bool) (number : Nat) (line : Text) :
    gutter marked number ++ line = numbered (if marked then '>' else ' ') number line := by
  cases marked <;> rfl

theorem numbered_eq_append (mark : Char) (number : Nat) (line : Text) :
    numbered mark number line = numbered mark number [] ++ line := by
  simp [numbered]

theorem end_not_mem_numbered {mark : Char} (hm : mark ≠ '\n') (hl : '\n' ∉ line) :
    '\n' ∉ numbered mark number line := by
  have hdigits : '\n' ∉ Text.natural number := fun h =>
    absurd (Text.isDigit_of_mem_natural h) (by decide)
  simp [numbered, Text.padLeft, hl, hdigits, Ne.symm hm]

theorem row_eq (marked : Bool) (number : Nat) (line : Text) (column : Nat) :
    row marked number line (some ((column + 1 : Nat) : Int)) =
      if marked then [numbered '>' number line,
        List.replicate ((numbered '>' number []).length + column) ' ' ++ ['^']]
      else [numbered ' ' number line] := by
  have hlength : ((gutter true number).length + ((column + 1 : Nat) : Int) - 1).toNat =
      (numbered '>' number []).length + column := by
    rw [← List.append_nil (gutter true number), gutter_append, if_pos rfl]
    omega
  cases marked with
  | true =>
    rw [row]
    simp only [hlength]
    rfl
  | false => rfl

/-- The rows of a context, counted in natural numbers. -/
theorem contextRows_eq (lines : List Text) (hn : 1 ≤ number) (column : Nat) :
    let first := max 1 (number - 2)
    let shown := (lines.drop (first - 1)).take (min lines.length (number + 2) + 1 - first)
    contextRows lines number 2 (some ((column + 1 : Nat) : Int)) =
      (shown.zipIdx first).flatMap fun x =>
        row (x.2 == number) x.2 x.1 (some ((column + 1 : Nat) : Int)) := by
  intro first shown
  have hcentre : max 1 (number : Int) = number := by omega
  have hfirst : max 1 ((number : Int) - 2) = first := by omega
  have hskip : ((first : Int) - 1).toNat = first - 1 := by omega
  have hcount : (min (lines.length : Int) (number + 2) - first + 1).toNat =
      min lines.length (number + 2) + 1 - first := by omega
  have hsame : ∀ n : Nat, ((number : Int) == (n : Int)) = (n == number) := fun n => by
    rw [Bool.eq_iff_iff, beq_iff_eq, beq_iff_eq]
    omega
  simp only [contextRows, hcentre, hfirst, hskip, hcount, hsame, Int.toNat_natCast]
  rfl

/-- The numbered lines from `first` on, `count` of them. -/
theorem mem_zipIdx_iff (lines : List Text) {first : Nat} (hfirst : 1 ≤ first) (count : Nat)
    (x : Text × Nat) :
    x ∈ ((lines.drop (first - 1)).take count).zipIdx first ↔
      first ≤ x.2 ∧ x.2 < first + count ∧ lines[x.2 - 1]? = some x.1 := by
  obtain ⟨l, n⟩ := x
  rw [List.mk_mem_zipIdx_iff_le_and_getElem?_sub, List.getElem?_take]
  refine and_congr_right fun hle => ?_
  have hindex : first - 1 + (n - first) = n - 1 := by
    have hle : first ≤ n := hle
    omega
  split
  next hlt =>
    rw [List.getElem?_drop, hindex]
    exact ⟨fun h => ⟨by omega, h⟩, And.right⟩
  next hge => exact ⟨nofun, fun h => absurd h.1 (by omega)⟩

/-- Rows of lines that are not marked. -/
theorem flatMap_row {xs : List (Text × Nat)} (h : number ∉ xs.map (·.2)) (column : Nat) :
    (xs.flatMap fun x => row (x.2 == number) x.2 x.1 (some ((column + 1 : Nat) : Int))) =
      xs.map fun x => numbered ' ' x.2 x.1 := by
  induction xs with
  | nil => rfl
  | cons x xs ih =>
    rw [List.map_cons, List.mem_cons, not_or] at h
    have hplain : (x.2 == number) = false := beq_false_of_ne (Ne.symm h.1)
    rw [List.flatMap_cons, List.map_cons, ih h.2, hplain, row_eq]
    rfl

theorem frames_contextText (hn : 1 ≤ number) (hline : lines[number - 1]? = some content)
    (hends : ∀ l ∈ lines, '\n' ∉ l) (column : Nat) :
    Frames lines number content column
      (contextText lines number 2 (some ((column + 1 : Nat) : Int))) := by
  have hrows := contextRows_eq lines hn column
  simp only at hrows
  generalize hfirst : max 1 (number - 2) = first at hrows
  generalize hcount : min lines.length (number + 2) + 1 - first = count at hrows
  have hlt := (List.getElem?_eq_some_iff.mp hline).1
  have hmem := mem_zipIdx_iff lines (by omega : 1 ≤ first) count
  have hnumbers : (((lines.drop (first - 1)).take count).zipIdx first).map (·.2) =
      List.range' first count := by
    rw [List.zipIdx_map_snd, List.length_take, List.length_drop]
    congr 1
    omega
  obtain ⟨above, below, hall⟩ :=
    List.append_of_mem ((hmem (content, number)).mpr ⟨by omega, by omega, hline⟩)
  rw [hall] at hrows hmem hnumbers
  -- no other line has this number
  have hnodup : ((above ++ (content, number) :: below).map (·.2)).Nodup :=
    hnumbers ▸ List.nodup_range'
  rw [List.map_append, List.map_cons, List.nodup_append, List.nodup_cons] at hnodup
  obtain ⟨-, ⟨hbelow, -⟩, hapart⟩ := hnodup
  have habove : number ∉ above.map (·.2) := fun h => hapart _ h _ List.mem_cons_self rfl
  rw [List.flatMap_append, List.flatMap_cons, flatMap_row habove, flatMap_row hbelow,
    beq_self_eq_true, row_eq, if_pos rfl] at hrows
  have hchar : ∀ x ∈ above ++ (content, number) :: below, lines[x.2 - 1]? = some x.1 :=
    fun x hx => ((hmem x).mp hx).2.2
  refine ⟨above, below, _, ?_, hchar, ?_, rfl, ?_⟩
  · rw [hnumbers, hfirst, hcount]
  · rw [contextText, hrows, Text.lines_unlines]
    · rfl
    · simp
    · have hclean : ∀ x ∈ above ++ (content, number) :: below, '\n' ∉ x.1 := fun x hx =>
        hends _ (List.mem_of_getElem? (hchar x hx))
      have hplain : ∀ x ∈ above ++ (content, number) :: below, '\n' ∉ numbered ' ' x.2 x.1 :=
        fun x hx => end_not_mem_numbered (by decide) (hclean x hx)
      have hmarked : '\n' ∉ numbered '>' number content :=
        end_not_mem_numbered (by decide) (hclean (content, number) (by simp))
      intro l hl
      simp only [List.mem_append, List.mem_map, List.mem_cons, List.not_mem_nil, or_false] at hl
      rcases hl with ⟨x, hx, rfl⟩ | (rfl | rfl) | ⟨x, hx, rfl⟩
      · exact hplain x (by simp [hx])
      · exact hmarked
      · simp
      · exact hplain x (by simp [hx])
  · rw [numbered_eq_append _ _ content, List.getElem?_append_right (Nat.le_add_right _ _),
      Nat.add_sub_cancel_left]

/-! ### The diagnostic of a bracket -/

/-- The diagnostic is about the character `c` at position `k` of the program: it gives line
and column, counted from one, at which the character stands in the program split at its line
ends, shows the lines around, and ends with the hint for the bracket that it is. -/
structure Points (p : Program) (k : Nat) (c : Char) (d : Diagnostic) : Prop where
  index : d.index = k
  character : p.char? k = some c
  line : d.line = (p.locate d.index).line + 1
  column : d.column = (p.locate d.index).column + 1
  shows : ∃ content, (Text.lines p.toList)[d.line - 1]? = some content ∧
    content[(p.locate d.index).column]? = some c ∧
    Frames (Text.lines p.toList) d.line content (p.locate d.index).column d.context
  text : d.text = "BracketError: Unmatched '".toList ++ [c] ++ "' (line ".toList ++
    Text.natural d.line ++ ", column ".toList ++ Text.integer d.column ++ ")\n".toList ++
    d.context ++ "\nHint: ".toList ++ (if c = ']' then Hint.unopened else Hint.unclosed).text

variable {p : Program} {k : Nat} {c : Char}

/-- The bracket stands where the diagnostic says. -/
theorem shows_bracket (hc : p.char? k = some c) (hb : c = '[' ∨ c = ']') :
    ∃ content, (Text.lines p.toList)[(p.locate k).line]? = some content ∧
      content[(p.locate k).column]? = some c := by
  have hlt := Program.lt_size_of_command? (Program.command?_of_char? hc)
  obtain ⟨content, c', hline, hcolumn, hc'⟩ := (Text.shows_after (t := p.toList) hlt).character
  rw [Program.char?_eq, hc', Option.some.injEq] at hc
  subst hc
  refine ⟨content, hline, ?_⟩
  rwa [List.getElem?_append_left] at hcolumn
  by_contra hge
  rw [List.getElem?_append_right (Nat.le_of_not_lt hge), List.getElem?_singleton] at hcolumn
  split at hcolumn
  · cases hcolumn
    exact absurd hb (by decide)
  · cases hcolumn

theorem suffix_of_bracket (hb : c = '[' ∨ c = ']') :
    Hint.suffix ("Unmatched '".toList ++ [c, '\x27']) = "\nHint: ".toList ++
      (if c = ']' then Hint.unopened else Hint.unclosed).text := by
  rw [Hint.suffix]
  rcases hb with rfl | rfl
  · have hhint : Hint.ofMessage? ("Unmatched '".toList ++ ['[', '\x27']) = some .unclosed := by
      decide
    rw [hhint]
    rfl
  · have hhint : Hint.ofMessage? ("Unmatched '".toList ++ [']', '\x27']) = some .unopened := by
      decide
    rw [hhint]
    rfl

/-- Line and column of a diagnostic are those of the place, counted from one. -/
theorem ofIndex_eq (message : Text) (hk : k < p.size) : ofIndex message p.toList k =
    ⟨message, k, (p.locate k).line + 1, ((p.locate k).column + 1 : Nat),
      contextText (Text.lines p.toList) ((p.locate k).line + 1 : Nat) 2
        (some ((p.locate k).column + 1 : Nat))⟩ := by
  have hlength : (p.toList.take k).length = k := List.length_take_of_le (Nat.le_of_lt hk)
  have hbefore : before p.toList k = p.toList.take k := if_pos (Int.natCast_nonneg k)
  have hplace : Position.after (p.toList.take k) = p.locate k := rfl
  have hcolumns := lastLineStart_add_column (p.toList.take k)
  rw [hlength, hplace] at hcolumns
  have hcolumn : (k : Int) - lastLineStart (p.toList.take k) + 1 =
      ((p.locate k).column + 1 : Nat) := by omega
  simp only [ofIndex, hbefore, Position.count_eq_line, hplace, hcolumn]

theorem text_eq (d : Diagnostic) : d.text =
    "BracketError: ".toList ++ d.message ++ " (line ".toList ++ Text.natural d.line ++
      ", column ".toList ++ Text.integer d.column ++ ")\n".toList ++ d.context ++
      Hint.suffix d.message := rfl

theorem points_ofIndex (hc : p.char? k = some c) (hb : c = '[' ∨ c = ']') :
    Points p k c (ofIndex ("Unmatched '".toList ++ [c, '\x27']) p.toList k) := by
  have hk := Program.lt_size_of_command? (Program.command?_of_char? hc)
  obtain ⟨content, hline, hcharacter⟩ := shows_bracket hc hb
  have hframes := frames_contextText (Nat.le_add_left 1 (p.locate k).line) hline
    (fun l hl => Text.not_mem_of_mem_lines hl) (p.locate k).column
  have hopen : "BracketError: ".toList ++ ("Unmatched '".toList ++ [c, '\x27']) ++
      " (line ".toList = "BracketError: Unmatched '".toList ++ [c] ++ "' (line ".toList := by
    simp
  rw [ofIndex_eq _ hk]
  refine ⟨rfl, hc, rfl, rfl, ⟨content, hline, hcharacter, hframes⟩, ?_⟩
  refine (text_eq _).trans ?_
  simp only [hopen, suffix_of_bracket hb, List.append_assoc]

end Diagnostic

namespace Program

/-- What is left over are brackets, and each has its diagnostic. -/
theorem diagnostics_eq (p : Program) : ∃ diagnose : Nat → Diagnostic,
    p.diagnostics = p.unmatched.map diagnose ∧
      ∀ k ∈ p.unmatched, ∃ c, (c = '[' ∨ c = ']') ∧ (diagnose k).Points p k c := by
  have hchar : ∀ k ∈ p.unmatched, ∃ c, p.char? k = some c ∧ (c = '[' ∨ c = ']') := by
    intro k hk
    rcases (mem_unmatched_iff_partners.mp hk).1 with ho | hc
    · exact ⟨_, ho, .inl rfl⟩
    · exact ⟨_, hc, .inr rfl⟩
  refine ⟨fun k => .ofIndex ("Unmatched '".toList ++ [(p.char? k).getD ' ', '\x27']) p.toList k,
    List.filterMap_eq_map_iff_forall_eq_some.mpr fun k hk => ?_, fun k hk => ?_⟩
  · obtain ⟨c, hc, -⟩ := hchar k hk
    rw [hc, Option.map_some, Option.getD_some]
  · obtain ⟨c, hc, hb⟩ := hchar k hk
    refine ⟨c, hb, ?_⟩
    simp only [hc, Option.getD_some]
    exact Diagnostic.points_ofIndex hc hb

/-- There is a diagnostic for each bracket without a partner, in ascending order, and each
points at its bracket. -/
theorem diagnostics_point (p : Program) :
    p.diagnostics.map (·.index) = p.unmatched.map (fun k : Nat => (k : Int)) ∧
      p.diagnostics.Pairwise (·.index < ·.index) ∧
      ∀ d ∈ p.diagnostics, ∃ k ∈ p.unmatched, ∃ c, (c = '[' ∨ c = ']') ∧ d.Points p k c := by
  obtain ⟨diagnose, heq, hpoints⟩ := p.diagnostics_eq
  have hindex : p.diagnostics.map (·.index) = p.unmatched.map (fun k : Nat => (k : Int)) := by
    rw [heq, List.map_map]
    refine List.map_congr_left fun k hk => ?_
    obtain ⟨c, -, h⟩ := hpoints k hk
    exact h.index
  refine ⟨hindex, ?_, fun d hd => ?_⟩
  · rw [← List.pairwise_map (f := Diagnostic.index) (R := (· < ·)), hindex, List.pairwise_map]
    exact p.unmatched_ascends.imp Int.ofNat_lt.mpr
  · rw [heq] at hd
    obtain ⟨k, hk, rfl⟩ := List.mem_map.mp hd
    exact ⟨k, hk, hpoints k hk⟩

/-- A stray `]` on the second line of three. -/
theorem diagnostics_point_second_line : ∃ d : Diagnostic,
    let p : Program := ⟨#['+', '\n', '-', ']', '\n']⟩
    p.diagnostics = [d] ∧ d.line = 2 ∧ d.column = 2 ∧ d.Points p 3 ']' ∧
      Diagnostic.Frames [['+'], ['-', ']'], []] 2 ['-', ']'] 1 d.context := by
  refine ⟨_, rfl, rfl, rfl, ?_⟩
  obtain ⟨k, hk, c, -, h⟩ :=
    (diagnostics_point ⟨#['+', '\n', '-', ']', '\n']⟩).2.2 _ (List.mem_singleton_self _)
  obtain rfl : k = 3 := List.mem_singleton.mp hk
  obtain rfl : ']' = c := Option.some.inj h.character
  obtain ⟨content, hline, -, hframes⟩ := h.shows
  obtain rfl : ['-', ']'] = content := Option.some.inj hline
  exact ⟨h, hframes⟩

end Program
end TapeMachine
