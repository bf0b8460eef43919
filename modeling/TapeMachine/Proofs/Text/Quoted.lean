import Mathlib.Data.Bool.AllAny
import Mathlib.Data.List.Infix
import TapeMachine.Failure
import TapeMachine.Text.Quoted

/-! What is found in quotes.

A hint about a bracket is found by words with the bracket in single quotes (`Hint.words`). In
a text that stands in single quotes every single quote has a backslash in front of it, so the
words are not found there, unless they go on behind the text; in a text that stands in double
quotes the characters of the words stand for themselves, so they are found there if the text
has them (`names_quoted`). -/
namespace TapeMachine

/-- The words by which a hint about a bracket is found. -/
def Hint.words (bracket : Char) : Text := "unmatched ".toList ++ ['\x27', bracket, '\x27']

theorem Hint.words_eq (bracket : Char) :
    words bracket = "unmatched ".toList ++ '\x27' :: [bracket, '\x27'] := rfl

namespace Text

/-- The words for a bracket stand in a text, in whatever case. -/
def Names (bracket : Char) (t : Text) : Prop := Hint.words bracket <:+: t.map Char.toLower

variable {part t w more after : Text} {c d q bracket : Char}

theorem occurs_iff : occurs part t = true ↔ part <:+: t := by
  induction t with
  | nil => rw [occurs, List.isEmpty_iff, List.infix_nil]
  | cons c t ih =>
    rw [occurs, Bool.or_eq_true, List.isPrefixOf_iff_prefix, ih, List.infix_cons_iff]

instance (bracket : Char) (t : Text) : Decidable (Names bracket t) :=
  decidable_of_iff (occurs (Hint.words bracket) (t.map Char.toLower) = true) occurs_iff

/-! ### Characters on the way -/

theorem names_cons_iff :
    Names bracket (c :: t) ↔
      Hint.words bracket <+: c.toLower :: t.map Char.toLower ∨ Names bracket t :=
  List.infix_cons_iff

/-- A character with which the words do not begin is passed over. -/
theorem names_cons (hc : c.toLower ≠ 'u') : Names bracket (c :: t) ↔ Names bracket t := by
  rw [names_cons_iff, or_iff_right]
  rintro ⟨more, h⟩
  exact hc (List.cons.inj h).1.symm

theorem names_append (hs : ∀ c ∈ s, c.toLower ≠ 'u') :
    Names bracket (s ++ t) ↔ Names bracket t := by
  induction s with
  | nil => rfl
  | cons c s ih =>
    obtain ⟨hc, hs⟩ := List.forall_mem_cons.mp hs
    rw [List.cons_append, names_cons hc, ih hs]

/-- So is the first letter of the words if the second does not follow. -/
theorem names_cons_cons (hd : d.toLower ≠ 'n') :
    Names bracket (c :: d :: t) ↔ Names bracket (d :: t) := by
  rw [names_cons_iff, or_iff_right]
  rintro ⟨more, h⟩
  exact hd (List.cons.inj (List.cons.inj h).2).1.symm

theorem not_names_of_forall (hs : ∀ c ∈ s, c.toLower ≠ 'u') : ¬ Names bracket s := by
  rw [← List.append_nil s, names_append hs, Names, List.map_nil, List.infix_nil]
  exact List.cons_ne_nil _ _

/-! ### Escapes -/

/-- A character that prints and is in the first half of the code page. -/
def Visible (c : Char) : Prop := 0x20 ≤ c.toNat ∧ c.toNat < 0x7f

instance (c : Char) : Decidable (Visible c) := inferInstanceAs (Decidable (_ ∧ _))

theorem isPrintable_of_visible (h : Visible c) : isPrintable c := by
  obtain ⟨hlow, hhigh⟩ := h
  rw [isPrintable, printableBounds, turnAt, if_neg (Nat.not_lt.mpr hlow), turnAt, if_pos hhigh]
  rfl

theorem toLower_cases (c : Char) :
    c.toLower = c ∨ 65 ≤ c.toNat ∧ c.toNat ≤ 90 ∧ c.toLower.toNat = c.toNat + 32 := by
  unfold Char.toLower
  split
  case isTrue h =>
    have hlow : 65 ≤ c.toNat := h.1
    have hhigh : c.toNat ≤ 90 := h.2
    refine .inr ⟨hlow, hhigh, ?_⟩
    show (c.val + 32).toNat = c.val.toNat + 32
    rw [UInt32.toNat_add]
    exact Nat.mod_eq_of_lt (by simp at hhigh ⊢; omega)
  case isFalse => exact .inl rfl

theorem visible_of_toLower (h : Visible c.toLower) : Visible c := by
  rcases toLower_cases c with hc | ⟨hlow, hhigh, -⟩
  · rwa [hc] at h
  · exact ⟨by omega, by omega⟩

/-- A character that is no small letter is lowered to from itself only. -/
theorem eq_of_toLower_eq (hd : d.toNat < 97) (h : c.toLower = d) : c = d := by
  rcases toLower_cases c with hc | ⟨hlow, -, hc⟩
  · rwa [hc] at h
  · rw [h] at hc
    omega

theorem escape_of_visible (hc : Visible c) (hq : c ≠ q) (hb : c ≠ '\\') : escape q c = [c] := by
  have hprints := isPrintable_of_visible hc
  have hcontrol : ∀ d : Char, d.toNat < 0x20 → c ≠ d := by
    rintro d hd rfl
    exact absurd hc.1 (by omega)
  rw [escape, if_neg (not_or.mpr ⟨hq, hb⟩), if_neg (hcontrol '\t' (by decide)),
    if_neg (hcontrol '\n' (by decide)), if_neg (hcontrol '\r' (by decide)), if_pos hprints]

theorem toLower_of_mem_hexadecimal {width n : Nat} (h : c ∈ hexadecimal width n) :
    c.toLower ≠ 'u' ∧ c.toLower ≠ 'n' := by
  have hdigit : ∀ d < 16, (hexDigit d).toLower ≠ 'u' ∧ (hexDigit d).toLower ≠ 'n' := by decide
  induction width generalizing n with
  | zero => cases h
  | succ width ih =>
    rcases List.mem_append.mp h with h | h
    · exact ih h
    · cases List.mem_singleton.mp h
      exact hdigit (n % 16) (Nat.mod_lt n (by decide))

/-- The letter in front of hexadecimal digits may be the first one of the words, but no digit
is the second. -/
theorem names_cons_hexadecimal {width n : Nat} :
    Names bracket (c :: (hexadecimal (width + 1) n ++ t)) ↔ Names bracket t := by
  have hdigits : ∀ d ∈ hexadecimal (width + 1) n, d.toLower ≠ 'u' ∧ d.toLower ≠ 'n' :=
    fun d => toLower_of_mem_hexadecimal
  cases h : hexadecimal (width + 1) n with
  | nil => exact absurd (List.append_eq_nil_iff.mp h).2 (List.cons_ne_nil _ _)
  | cons d ds =>
    rw [h] at hdigits
    rw [List.cons_append, names_cons_cons (hdigits d List.mem_cons_self).2, ← List.cons_append,
      names_append fun x hx => (hdigits x hx).1]

/-- What stands for a character that does not stand for itself begins with a backslash, and the
words do not begin in it. -/
def Escaped (s : Text) : Prop :=
  ∃ rest, s = '\\' :: rest ∧ ∀ bracket t, Names bracket (rest ++ t) ↔ Names bracket t

theorem escaped_letter (hc : c.toLower ≠ 'u') : Escaped ['\\', c] :=
  ⟨[c], rfl, fun _ _ => names_cons hc⟩

theorem escaped_codePoint (c : Char) : Escaped (codePoint c) := by
  unfold codePoint
  split_ifs
  · exact ⟨_, rfl, fun _ _ => names_cons_hexadecimal⟩
  · exact ⟨_, rfl, fun _ _ => names_cons_hexadecimal⟩
  · exact ⟨_, rfl, fun _ _ => names_cons_hexadecimal⟩

theorem escape_cases (hq : q.toLower ≠ 'u') :
    escape q c = [c] ∧ c ≠ q ∧ c ≠ '\\' ∨ Escaped (escape q c) := by
  rw [escape]
  split_ifs with hc
  · refine .inr (escaped_letter ?_)
    rcases hc with rfl | rfl
    · exact hq
    · decide
  · exact .inr (escaped_letter (by decide))
  · exact .inr (escaped_letter (by decide))
  · exact .inr (escaped_letter (by decide))
  · exact .inl ⟨rfl, not_or.mp hc⟩
  · exact .inr (escaped_codePoint c)

/-! ### Texts in quotes -/

theorem escape_of_toLower (hd : Visible d) (hquote : d ≠ '"') (hback : d ≠ '\\')
    (h : d = c.toLower) : escape '"' c = [c] := by
  subst h
  refine escape_of_visible (visible_of_toLower hd) ?_ ?_
  · rintro rfl
    exact hquote rfl
  · rintro rfl
    exact hback rfl

/-- What begins in double quotes, begins in the text itself, as long as it has neither a quote
nor a backslash. -/
theorem prefix_flatMap_escape_iff (hw : ∀ d ∈ w, Visible d ∧ d ≠ '"' ∧ d ≠ '\\') :
    w <+: (t.flatMap (escape '"') ++ '"' :: after).map Char.toLower ↔ w <+: t.map Char.toLower := by
  induction w generalizing t with
  | nil => exact iff_of_true List.nil_prefix List.nil_prefix
  | cons d w ih =>
    obtain ⟨⟨hd, hquote, hback⟩, hw⟩ := List.forall_mem_cons.mp hw
    cases t with
    | nil =>
      refine iff_of_false (fun h => hquote (List.cons_prefix_cons.mp h).1) ?_
      exact fun h => List.cons_ne_nil d w (List.prefix_nil.mp h)
    | cons c t =>
      rw [List.flatMap_cons]
      rcases escape_cases (c := c) (show '"'.toLower ≠ 'u' by decide) with ⟨hc, -⟩ | ⟨rest, hc, -⟩
      · rw [hc, List.singleton_append, List.cons_append, List.map_cons, List.map_cons,
          List.cons_prefix_cons, List.cons_prefix_cons, ih hw]
      · rw [hc]
        refine iff_of_false (fun h => hback (List.cons_prefix_cons.mp h).1) fun h => ?_
        have hself := escape_of_toLower hd hquote hback (List.cons_prefix_cons.mp h).1
        rw [hself] at hc
        rw [(List.cons.inj hc).1] at h
        exact hback (List.cons_prefix_cons.mp h).1

/-- A single quote is met only behind a text in single quotes. -/
theorem prefix_of_flatMap_escape (hw : ∀ d ∈ w, d ≠ '\x27' ∧ d ≠ '\\')
    (h : w ++ '\x27' :: more <+: (t.flatMap (escape '\x27') ++ '\x27' :: after).map Char.toLower) :
    more <+: after.map Char.toLower := by
  induction w generalizing t with
  | nil =>
    cases t with
    | nil => exact (List.cons_prefix_cons.mp h).2
    | cons c t =>
      rw [List.flatMap_cons] at h
      rcases escape_cases (c := c) (show '\x27'.toLower ≠ 'u' by decide)
        with ⟨hc, hquote, -⟩ | ⟨rest, hc, -⟩
      · rw [hc] at h
        have hlower := (List.cons_prefix_cons.mp h).1
        exact absurd (eq_of_toLower_eq (by decide) hlower.symm) hquote
      · rw [hc] at h
        exact absurd (List.cons_prefix_cons.mp h).1 (by decide)
  | cons d w ih =>
    obtain ⟨⟨hquote, hback⟩, hw⟩ := List.forall_mem_cons.mp hw
    cases t with
    | nil => exact absurd (List.cons_prefix_cons.mp h).1 hquote
    | cons c t =>
      rw [List.flatMap_cons] at h
      rcases escape_cases (c := c) (show '\x27'.toLower ≠ 'u' by decide)
        with ⟨hc, -⟩ | ⟨rest, hc, -⟩
      · rw [hc] at h
        exact ih hw (List.cons_prefix_cons.mp h).2
      · rw [hc] at h
        exact absurd (List.cons_prefix_cons.mp h).1 hback

theorem visible_of_mem_words (hb : bracket = '[' ∨ bracket = ']') :
    ∀ d ∈ Hint.words bracket, Visible d ∧ d ≠ '"' ∧ d ≠ '\\' := by
  rcases hb with rfl | rfl <;> exact List.all_iff_forall_prop.mp (by decide)

theorem names_double (hb : bracket = '[' ∨ bracket = ']') :
    Names bracket (t.flatMap (escape '"') ++ '"' :: after) ↔
      Names bracket t ∨ Names bracket after := by
  induction t with
  | nil =>
    have hnone : ¬ Names bracket [] := not_names_of_forall fun c h => by cases h
    rw [List.flatMap_nil, List.nil_append, names_cons (by decide), or_iff_right hnone]
  | cons c t ih =>
    rcases escape_cases (c := c) (show '"'.toLower ≠ 'u' by decide) with ⟨hc, -⟩ | ⟨rest, hc, hrest⟩
    · have hhead : _ <+: ((c :: t).flatMap (escape '"') ++ '"' :: after).map Char.toLower ↔ _ :=
        prefix_flatMap_escape_iff (visible_of_mem_words hb)
      rw [List.flatMap_cons, hc, List.singleton_append, List.cons_append, List.map_cons,
        List.map_cons] at hhead
      rw [List.flatMap_cons, hc, List.singleton_append, List.cons_append, names_cons_iff, hhead, ih,
        names_cons_iff, or_assoc]
    · have hfirst : c.toLower ≠ 'u' := by
        intro hu
        rw [escape_of_toLower (by decide) (by decide) (by decide) hu.symm] at hc
        rw [(List.cons.inj hc).1] at hu
        exact absurd hu (by decide)
      rw [List.flatMap_cons, hc, List.cons_append, List.cons_append, names_cons (by decide),
        List.append_assoc, hrest, ih, names_cons hfirst]

theorem names_single (hafter : ¬ [bracket, '\x27'] <+: after.map Char.toLower) :
    Names bracket (t.flatMap (escape '\x27') ++ '\x27' :: after) ↔ Names bracket after := by
  induction t with
  | nil => exact names_cons (by decide)
  | cons c t ih =>
    rcases escape_cases (c := c) (show '\x27'.toLower ≠ 'u' by decide)
      with ⟨hc, -⟩ | ⟨rest, hc, hrest⟩
    · have hhead := mt (prefix_of_flatMap_escape (t := c :: t) (w := "unmatched ".toList)
        (List.all_iff_forall_prop.mp (by decide))) hafter
      rw [List.flatMap_cons, hc, List.singleton_append, List.cons_append, List.map_cons,
        ← Hint.words_eq] at hhead
      rw [List.flatMap_cons, hc, List.singleton_append, List.cons_append, names_cons_iff,
        or_iff_right hhead, ih]
    · rw [List.flatMap_cons, hc, List.cons_append, List.cons_append, names_cons (by decide),
        List.append_assoc, hrest, ih]

/-- The words have a single quote. -/
theorem quote_mem_of_names (h : Names bracket t) : '\x27' ∈ t := by
  have hwords : '\x27' ∈ Hint.words bracket := List.mem_append_right _ List.mem_cons_self
  obtain ⟨c, hc, hlower⟩ := List.mem_map.mp (List.IsInfix.subset h hwords)
  rwa [eq_of_toLower_eq (by decide) hlower] at hc

theorem quote_mem_take (h : [c, '\x27'] <+: t.map Char.toLower) : '\x27' ∈ t.take 2 := by
  match t with
  | [] => exact absurd (List.prefix_nil.mp h) (List.cons_ne_nil _ _)
  | [d] => exact absurd (List.prefix_nil.mp (List.cons_prefix_cons.mp h).2) (List.cons_ne_nil _ _)
  | d :: e :: t =>
    have hlower := (List.cons_prefix_cons.mp (List.cons_prefix_cons.mp h).2).1
    rw [← eq_of_toLower_eq (by decide) hlower.symm]
    exact List.mem_cons_of_mem d List.mem_cons_self

/-- The words for a bracket are found in a quoted text exactly if it has them and goes between
double quotes; what follows must not take up the words. -/
theorem names_quoted (hb : bracket = '[' ∨ bracket = ']') (hafter : '\x27' ∉ after.take 2) :
    Names bracket (quoted t ++ after) ↔ '"' ∉ t ∧ Names bracket t ∨ Names bracket after := by
  rw [quoted, List.append_assoc, List.cons_append, List.singleton_append]
  by_cases hdouble : '\x27' ∈ t ∧ '"' ∉ t
  · rw [quoteFor, if_pos hdouble, names_cons (by decide), names_double hb,
      and_iff_right hdouble.2]
  · have hnot : ¬ ('"' ∉ t ∧ Names bracket t) := fun h =>
      hdouble ⟨quote_mem_of_names h.2, h.1⟩
    have hopen : ¬ [bracket, '\x27'] <+: after.map Char.toLower := fun h =>
      hafter (quote_mem_take h)
    rw [quoteFor, if_neg hdouble, names_cons (by decide), names_single hopen, or_iff_right hnot]

end Text
end TapeMachine
