import Mathlib.Algebra.GroupWithZero.Nat
import TapeMachine.Text.Numeral

/-! Numerals are read as they are written.

The digits of a number stand for their values, nothing among them is a blank or a sign,
and so reading a number that was written gives the number again, as long as it has no more
digits than a numeral may have. -/
namespace TapeMachine.Text

variable {t : Text} {c : Char}

/-! ### Digits -/

theorem toNat_of_isDigit (h : c.isDigit) : 48 ≤ c.toNat ∧ c.toNat ≤ 57 := by
  rw [Char.isDigit, Bool.and_eq_true, decide_eq_true_eq, decide_eq_true_eq] at h
  exact h

theorem digitValue?_of_isDigit (h : c.isDigit) : digitValue? c = some (c.toNat - 48) := by
  obtain ⟨hlow, hhigh⟩ := toNat_of_isDigit h
  have hfind : digitZeros.find? (fun z => z ≤ c.toNat && c.toNat < z + 10) = some 0x30 :=
    List.find?_cons_of_pos (by simp; omega)
  rw [digitValue?, hfind]
  rfl

theorem digits?_of_isDigit (ht : t ≠ []) (h : ∀ c ∈ t, c.isDigit) :
    digits? t = some (t.map (·.toNat - 48)) := by
  induction t with
  | nil => exact absurd rfl ht
  | cons c t ih =>
    have hc := digitValue?_of_isDigit (h c List.mem_cons_self)
    cases t with
    | nil => rw [digits?, hc]; rfl
    | cons d t =>
      have hd : d ≠ '_' := by
        rintro rfl
        exact absurd (h '_' (by simp)) (by decide)
      have hrest := ih (List.cons_ne_nil d t) fun x hx => h x (List.mem_cons_of_mem c hx)
      rw [digits?, hc, hrest]
      · rfl
      · exact List.cons_ne_nil d t
      · exact fun rest he => hd (List.cons.inj he).1

/-! ### Numbers -/

theorem ofDigits_eq (t : Text) : ofDigits (t.map (·.toNat - 48)) = Nat.ofDigitChars 10 t 0 := by
  rw [ofDigits, List.foldl_map]
  rfl

theorem isDigit_of_mem_natural {n : Nat} (h : c ∈ natural n) : c.isDigit :=
  Nat.isDigit_of_mem_toDigits (by decide) (by decide) h

theorem readNatural?_natural {n : Nat} (h : (natural n).length ≤ digitLimit) :
    readNatural? (natural n) = some n := by
  have hds : digits? (natural n) = some ((natural n).map (·.toNat - 48)) :=
    digits?_of_isDigit Nat.toDigits_ne_nil fun _ => isDigit_of_mem_natural
  rw [readNatural?, hds]
  show (if _ then _ else _) = _
  rw [List.length_map, if_pos h, ofDigits_eq, natural, Nat.ofDigitChars_ten_toDigits]

/-- A text without blanks is left as it is. -/
theorem trim_eq_self (h : ∀ c ∈ t, ¬ isBlank c) : trim t = t := by
  have hfront : t.dropWhile isBlank = t := by
    cases t with
    | nil => rfl
    | cons c t => exact List.dropWhile_cons_of_neg (h c List.mem_cons_self)
  have hback : t.reverse.dropWhile isBlank = t.reverse := by
    cases hr : t.reverse with
    | nil => rfl
    | cons c r =>
      refine List.dropWhile_cons_of_neg (h c ?_)
      rw [← List.mem_reverse, hr]
      exact List.mem_cons_self
  rw [trim, hfront, dropTrailing, hback, List.reverse_reverse]

theorem not_isBlank_of_isDigit (h : c.isDigit) : ¬ isBlank c := by
  obtain ⟨hlow, hhigh⟩ := toNat_of_isDigit h
  simp [isBlank, blanks]
  omega

theorem sign_not_mem_natural {n : Nat} (hc : c = '-' ∨ c = '+') : c ∉ natural n := by
  intro h
  have hdigit := isDigit_of_mem_natural h
  rcases hc with rfl | rfl <;> exact absurd hdigit (by decide)

theorem integer_ne_nil (n : Int) : integer n ≠ [] := by
  cases n with
  | ofNat n => exact Nat.toDigits_ne_nil
  | negSucc n => exact List.cons_ne_nil _ _

/-- No blank and no line end stands in a number. -/
theorem isDigit_or_eq_of_mem_integer {n : Int} (h : c ∈ integer n) : c.isDigit ∨ c = '-' := by
  cases n with
  | ofNat n => exact .inl (isDigit_of_mem_natural h)
  | negSucc n => exact (List.mem_cons.mp h).symm.imp_left isDigit_of_mem_natural

theorem length_natural_le_iff {n k : Nat} (hk : 0 < k) : (natural n).length ≤ k ↔ n < 10 ^ k :=
  Nat.length_toDigits_le_iff (by decide) hk

/-- A number that was written is read again. -/
theorem readInteger?_integer {n : Int} (h : (natural n.natAbs).length ≤ digitLimit) :
    readInteger? (integer n) = some n := by
  have hblank : ∀ k, ∀ c ∈ natural k, ¬ isBlank c := fun _ _ hc =>
    not_isBlank_of_isDigit (isDigit_of_mem_natural hc)
  cases n with
  | ofNat n =>
    have hread : readNatural? (natural n) = some n := readNatural?_natural h
    rw [readInteger?, integer, trim_eq_self (hblank n)]
    split
    next rest heq => exact absurd (heq ▸ List.mem_cons_self) (sign_not_mem_natural (.inl rfl))
    next rest heq => exact absurd (heq ▸ List.mem_cons_self) (sign_not_mem_natural (.inr rfl))
    next =>
      rw [hread]
      rfl
  | negSucc n =>
    have hread : readNatural? (natural (n + 1)) = some (n + 1) := readNatural?_natural h
    have hminus : ∀ c ∈ '-' :: natural (n + 1), ¬ isBlank c := by
      intro c hc
      rcases List.mem_cons.mp hc with rfl | hc
      · decide
      · exact hblank _ c hc
    rw [readInteger?, integer, trim_eq_self hminus]
    show Option.map _ _ = _
    rw [hread]
    rfl

end TapeMachine.Text
