import Mathlib.Algebra.GroupWithZero.Nat
import Mathlib.Data.List.DropRight
import TapeMachine.Text

/-! Rows of columns.

Columns that are joined with a blank between them are found again by their width
(`column_join`), and words that were made as wide as the columns are found again by the
blanks around them (`words_join`). -/
namespace TapeMachine.Text

variable {s t w : Text} {ts : List Text} {width k : Nat} {c : Char}

/-- What stands between the blanks of a text. -/
def words (t : Text) : List Text := (t.splitOn ' ').filter fun w => !w.isEmpty

/-- A column of a row whose columns are so wide and have a blank between them. -/
def column (width k : Nat) (row : Text) : Text := (row.drop (k * (width + 1))).take width

/-! ### Joining -/

theorem join_cons (sep t : Text) (h : ts ≠ []) : join sep (t :: ts) = t ++ sep ++ join sep ts := by
  cases ts with
  | nil => exact absurd rfl h
  | cons t' ts => rfl

theorem exists_mem_of_mem_join {sep : Text} (h : c ∈ join sep ts) : c ∈ sep ∨ ∃ t ∈ ts, c ∈ t := by
  induction ts with
  | nil => cases h
  | cons t ts ih =>
    by_cases hts : ts = []
    · subst hts
      exact .inr ⟨t, List.mem_cons_self, h⟩
    · rw [join_cons sep t hts, List.mem_append, List.mem_append] at h
      rcases h with (h | h) | h
      · exact .inr ⟨t, List.mem_cons_self, h⟩
      · exact .inl h
      · refine (ih h).imp_right ?_
        rintro ⟨t', ht', hc⟩
        exact ⟨t', List.mem_cons_of_mem t ht', hc⟩

theorem count_join {sep : Text} (hc : c ∉ sep) :
    (join sep ts).count c = (ts.map fun t => t.count c).sum := by
  induction ts with
  | nil => rfl
  | cons t ts ih =>
    by_cases hts : ts = []
    · subst hts
      rfl
    · rw [join_cons sep t hts, List.count_append, List.count_append, ih,
        List.count_eq_zero_of_not_mem hc, List.map_cons, List.sum_cons, Nat.add_zero]

theorem getLast?_join {sep : Text} {last : Text} (hl : ts.getLast? = some last) (hne : last ≠ []) :
    (join sep ts).getLast? = last.getLast? := by
  induction ts with
  | nil => cases hl
  | cons t ts ih =>
    by_cases hts : ts = []
    · subst hts
      cases hl
      rfl
    · rw [List.getLast?_cons_of_ne_nil hts] at hl
      have hjoin := ih hl
      obtain ⟨d, hd⟩ := Option.ne_none_iff_exists'.mp (mt List.getLast?_eq_none_iff.mp hne)
      rw [join_cons sep t hts, List.getLast?_append, hjoin, hd]
      rfl

/-- Columns that were joined are told apart by their width. -/
theorem column_join (hwidth : ∀ t ∈ ts, t.length = width) (ht : ts[k]? = some t) :
    column width k (join [' '] ts) = t := by
  induction ts generalizing k with
  | nil => cases ht
  | cons t' ts ih =>
    obtain ⟨hfirst, hrest⟩ := List.forall_mem_cons.mp hwidth
    cases k with
    | zero =>
      cases ht
      rw [column, Nat.zero_mul, List.drop_zero]
      by_cases hts : ts = []
      · subst hts
        exact List.take_of_length_le (Nat.le_of_eq hfirst)
      · rw [join_cons _ _ hts, List.append_assoc]
        exact List.take_left' hfirst
    | succ k =>
      have htk : ts[k]? = some t := ht
      have hts : ts ≠ [] := List.ne_nil_of_mem (List.mem_of_getElem? htk)
      have hskip : (t' ++ [' ']).length = width + 1 := by
        rw [List.length_append, hfirst, List.length_singleton]
      rw [column, join_cons _ _ hts, Nat.succ_mul, Nat.add_comm, ← List.drop_drop,
        List.drop_left' hskip]
      exact ih hrest htk

/-! ### Words -/

theorem words_append_blank (s t : Text) : words (s ++ ' ' :: t) = words s ++ words t := by
  rw [words, List.splitOn, List.splitOnP_append_cons s t (by decide), List.filter_append]
  rfl

theorem words_eq_singleton (hw : w ≠ []) (hblank : ' ' ∉ w) : words w = [w] := by
  have hsplit : w.splitOn ' ' = [w] := List.splitOnP_eq_singleton fun c hc =>
    beq_false_of_ne fun heq => hblank (heq ▸ hc)
  rw [words, hsplit]
  simpa using hw

theorem words_padLeft (hw : w ≠ []) (hblank : ' ' ∉ w) (width : Nat) :
    words (padLeft width w) = [w] := by
  rw [padLeft]
  induction width - w.length with
  | zero => exact words_eq_singleton hw hblank
  | succ n ih =>
    rw [List.replicate_succ]
    exact (words_append_blank [] _).trans ih

/-- Words in columns are told apart by the blanks around them. -/
theorem words_join (hne : ∀ w ∈ ts, w ≠ []) (hblank : ∀ w ∈ ts, ' ' ∉ w) :
    words (join [' '] (ts.map (padLeft width))) = ts := by
  induction ts with
  | nil => rfl
  | cons w ts ih =>
    obtain ⟨hw, hrest⟩ := List.forall_mem_cons.mp hne
    obtain ⟨hb, hblanks⟩ := List.forall_mem_cons.mp hblank
    by_cases hts : ts = []
    · subst hts
      exact words_padLeft hw hb width
    · have hrow : ∀ row, padLeft width w ++ [' '] ++ row = padLeft width w ++ ' ' :: row :=
        fun _ => List.append_assoc ..
      rw [List.map_cons, join_cons _ _ (mt List.map_eq_nil_iff.mp hts), hrow,
        words_append_blank, words_padLeft hw hb, ih hrest hblanks]
      rfl

/-! ### Widths -/

theorem length_padLeft (h : w.length ≤ width) : (padLeft width w).length = width := by
  rw [padLeft, List.length_append, List.length_replicate]
  omega

/-- A text that fits has as many blanks in front of it as are before it. -/
theorem exists_center_eq (h : w.length ≤ width) : ∃ before after, before + w.length + after = width ∧
    center width w = List.replicate before ' ' ++ w ++ List.replicate after ' ' := by
  refine ⟨_, _, ?_, rfl⟩
  split
  next hodd =>
    rw [Bool.and_eq_true, decide_eq_true_eq] at hodd
    omega
  next => omega

/-! ### Without what comes last -/

/-- What is dropped at the end of a text is only what may be dropped. -/
theorem exists_append_of_dropTrailing (p : Char → Bool) (t : Text) :
    ∃ rest, t = dropTrailing p t ++ rest ∧ ∀ c ∈ rest, p c := by
  refine ⟨(t.reverse.takeWhile p).reverse, ?_, fun c hc => ?_⟩
  · rw [dropTrailing, ← List.reverse_append, List.takeWhile_append_dropWhile, List.reverse_reverse]
  · exact List.mem_takeWhile_imp (List.mem_reverse.mp hc)

/-- A text stays as it is if its last character may not be dropped. -/
theorem dropTrailing_eq_self {p : Char → Bool} (hc : t.getLast? = some c) (hp : ¬ p c) :
    dropTrailing p t = t := by
  refine List.rdropWhile_eq_self_iff.mpr fun hne => ?_
  rw [List.getLast?_eq_some_getLast hne, Option.some.injEq] at hc
  rwa [hc]

end TapeMachine.Text
