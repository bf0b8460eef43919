import TapeMachine.Text

/-! Lines of a text.

A text is split at its line ends, so no line has one in it, and lines that are put together
are told apart again (`lines_unlines`). With a line end after every line the text is there
again, with one line end more at its end (`flatMap_lines`). -/
namespace TapeMachine.Text

variable {t : Text} {c : Char} {ls : List Text}

theorem lines_cons_end (t : Text) : lines ('\n' :: t) = [] :: lines t := rfl

theorem lines_cons (hc : c ≠ '\n') (t : Text) : ∃ first others, lines t = first :: others ∧
    lines (c :: t) = (c :: first) :: others := by
  obtain ⟨first, others, ht⟩ := List.exists_cons_of_ne_nil (lines_ne_nil t)
  refine ⟨first, others, ht, ?_⟩
  rw [lines, if_neg hc, ht]

theorem not_mem_of_mem_lines {line : Text} (h : line ∈ t.lines) : '\n' ∉ line := by
  induction t generalizing line with
  | nil =>
    rw [lines, List.mem_singleton] at h
    rw [h]
    exact List.not_mem_nil
  | cons c t ih =>
    by_cases hc : c = '\n'
    · subst hc
      rw [lines_cons_end, List.mem_cons] at h
      rcases h with rfl | h
      · exact List.not_mem_nil
      · exact ih h
    · obtain ⟨first, others, ht, hct⟩ := lines_cons hc t
      rw [hct, List.mem_cons] at h
      rcases h with rfl | h
      · have hfirst := ih (ht ▸ List.mem_cons_self)
        rw [List.mem_cons, not_or]
        exact ⟨Ne.symm hc, hfirst⟩
      · exact ih (ht ▸ List.mem_cons_of_mem first h)

/-- A text without line ends in front belongs to the first line. -/
theorem lines_append {s : Text} (hs : '\n' ∉ s) {first : Text} {others : List Text}
    (ht : t.lines = first :: others) : (s ++ t).lines = (s ++ first) :: others := by
  induction s with
  | nil => exact ht
  | cons c s ih =>
    rw [List.mem_cons, not_or] at hs
    obtain ⟨first', others', hst, hcst⟩ := lines_cons (Ne.symm hs.1) (s ++ t)
    rw [ih hs.2] at hst
    cases hst
    exact hcst

/-- Lines that were put together are told apart again. -/
theorem lines_unlines (hne : ls ≠ []) (h : ∀ l ∈ ls, '\n' ∉ l) : (unlines ls).lines = ls := by
  induction ls with
  | nil => exact absurd rfl hne
  | cons l rest ih =>
    obtain ⟨hl, hrest⟩ := List.forall_mem_cons.mp h
    cases rest with
    | nil =>
      have hnil : lines [] = [[]] := rfl
      have hlast := lines_append hl hnil
      rwa [List.append_nil] at hlast
    | cons l' rest =>
      have hunlines : unlines (l :: l' :: rest) = l ++ '\n' :: unlines (l' :: rest) :=
        List.append_assoc ..
      have hend : lines ('\n' :: unlines (l' :: rest)) = [] :: l' :: rest := by
        rw [lines_cons_end, ih (List.cons_ne_nil _ _) hrest]
      rw [hunlines, lines_append hl hend, List.append_nil]

/-- With a line end after it a text has an empty line more. -/
theorem lines_concat_end (t : Text) : lines (t ++ ['\n']) = t.lines ++ [[]] := by
  induction t with
  | nil => rfl
  | cons c t ih =>
    by_cases hc : c = '\n'
    · subst hc
      rw [List.cons_append, lines_cons_end, lines_cons_end, ih, List.cons_append]
    · obtain ⟨first, others, ht, hct⟩ := lines_cons hc t
      obtain ⟨first', others', ht', hct'⟩ := lines_cons hc (t ++ ['\n'])
      rw [ih, ht, List.cons_append] at ht'
      cases ht'
      rw [List.cons_append, hct', hct, List.cons_append]

theorem flatMap_lines (t : Text) : t.lines.flatMap (· ++ ['\n']) = t ++ ['\n'] := by
  induction t with
  | nil => rfl
  | cons c t ih =>
    by_cases hc : c = '\n'
    · subst hc
      rw [lines_cons_end, List.flatMap_cons, ih]
      rfl
    · obtain ⟨first, others, ht, hct⟩ := lines_cons hc t
      rw [ht, List.flatMap_cons] at ih
      rw [hct, List.flatMap_cons, List.cons_append, List.cons_append, List.cons_append, ih]

end TapeMachine.Text
