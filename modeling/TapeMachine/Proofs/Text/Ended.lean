import TapeMachine.Proofs.Text.Lines
import TapeMachine.Callback

/-! Lines with their ends.

A stream gives a text line by line, each line with its line end; what follows the last line
end is a line without one, unless it is empty (`endedLines`). Together the lines are the text
(`flatten_endedLines`), a line end stands in them only where a line ends
(`endedLines_ended`), and splitting off one line after the other gives them
(`endedLines_eq`). -/
namespace TapeMachine.Text

variable {t line : Text} {c : Char}

/-- A line end after every line but the last, which is left out if it is empty. -/
def withEnds : List Text → List Text
  | [] => []
  | [last] => if last = [] then [] else [last]
  | line :: rest => (line ++ ['\n']) :: withEnds rest

/-- The lines of a text with their ends. -/
def endedLines (t : Text) : List Text := withEnds t.lines

theorem withEnds_cons {ls : List Text} (h : ls ≠ []) :
    withEnds (line :: ls) = (line ++ ['\n']) :: withEnds ls := by
  cases ls with
  | nil => exact absurd rfl h
  | cons l ls => rfl

theorem endedLines_cons_end (t : Text) : endedLines ('\n' :: t) = ['\n'] :: endedLines t := by
  rw [endedLines, lines_cons_end, withEnds_cons (lines_ne_nil t)]
  rfl

theorem endedLines_cons (hc : c ≠ '\n') (t : Text) :
    endedLines (c :: t) = match endedLines t with
      | [] => [[c]]
      | first :: others => (c :: first) :: others := by
  obtain ⟨first, others, ht, hct⟩ := lines_cons hc t
  rw [endedLines, endedLines, hct, ht]
  cases others with
  | nil =>
    by_cases hfirst : first = []
    · subst hfirst
      rfl
    · rw [withEnds, withEnds, if_neg hfirst]
      rfl
  | cons other others =>
    have hmore := List.cons_ne_nil other others
    rw [withEnds_cons hmore, withEnds_cons hmore]
    rfl

theorem flatten_endedLines (t : Text) : t.endedLines.flatten = t := by
  induction t with
  | nil => rfl
  | cons c t ih =>
    by_cases hc : c = '\n'
    · subst hc
      rw [endedLines_cons_end, List.flatten_cons, ih]
      rfl
    · rw [endedLines_cons hc]
      split
      next h =>
        rw [h] at ih
        rw [← ih]
        rfl
      next first others h =>
        rw [h] at ih
        rw [← ih]
        rfl

theorem withEnds_ended {ls : List Text} (hls : ∀ l ∈ ls, '\n' ∉ l) :
    (∀ line ∈ withEnds ls, line ≠ [] ∧ '\n' ∉ line.dropLast) ∧
      ∀ line ∈ (withEnds ls).dropLast, line.getLast? = some '\n' := by
  induction ls with
  | nil => exact ⟨nofun, nofun⟩
  | cons l ls ih =>
    obtain ⟨hl, hls⟩ := List.forall_mem_cons.mp hls
    obtain ⟨hends, hinit⟩ := ih hls
    by_cases hempty : ls = []
    · subst hempty
      rw [withEnds]
      split
      · exact ⟨nofun, nofun⟩
      next hne =>
        refine ⟨List.forall_mem_singleton.mpr ⟨hne, ?_⟩, nofun⟩
        exact fun h => hl (List.dropLast_subset l h)
    · rw [withEnds_cons hempty]
      refine ⟨List.forall_mem_cons.mpr ⟨⟨List.concat_ne_nil _ _, ?_⟩, hends⟩, ?_⟩
      · rwa [List.dropLast_concat]
      · cases hrest : withEnds ls with
        | nil => exact nofun
        | cons l' rest =>
          rw [hrest] at hinit
          exact List.forall_mem_cons.mpr ⟨List.getLast?_concat, hinit⟩

/-- A line has its line end as its last character and no other one, and only the last line may
be without. -/
theorem endedLines_ended (t : Text) :
    (∀ line ∈ t.endedLines, line ≠ [] ∧ '\n' ∉ line.dropLast) ∧
      ∀ line ∈ t.endedLines.dropLast, line.getLast? = some '\n' :=
  withEnds_ended fun _ => not_mem_of_mem_lines

/-- Splitting off the first line leaves the others. -/
theorem endedLines_eq (h : t ≠ []) :
    t.endedLines = (Source.splitLine t).1 :: endedLines (Source.splitLine t).2 := by
  induction t with
  | nil => exact absurd rfl h
  | cons c t ih =>
    by_cases hc : c = '\n'
    · subst hc
      rw [endedLines_cons_end, Source.splitLine, if_pos rfl]
    · rw [endedLines_cons hc, Source.splitLine, if_neg hc]
      by_cases ht : t = []
      · subst ht
        rfl
      · rw [ih ht]

end TapeMachine.Text
