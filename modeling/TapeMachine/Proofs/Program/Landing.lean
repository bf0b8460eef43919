import TapeMachine.Proofs.Program.Partner

/-! Where a loop is left.

A loop on a zero cell is left at `Program.landing`: at the partner of its `[`, or at the last
character of the program if it has none. The depth of the loop can be counted in one go with
the end of the program looked out for at the same time (`Program.sweep`); then the position and
the depth at the end of the count say where the loop is left and whether a partner was found
(`sweep_spec`), also where the last character is the partner. -/
namespace TapeMachine.Program

variable {p : Program} {s e i depth : Nat}

/-- Where the machine goes from a `[` on a zero cell. -/
def landing (p : Program) (s : Nat) : Nat := (p.loopEnd? s).getD (p.size - 1)

theorem landing_eq_of_pairs (h : p.Pairs s e) : p.landing s = e := by
  rw [landing, (loopEnd?_eq_some_iff h.opening).mpr h, Option.getD_some]

theorem mem_unmatched_iff_loopEnd? (hs : p.char? s = some '[') :
    s ∈ p.unmatched ↔ p.loopEnd? s = none := by
  have hcommand := command?_eq_opening_iff.mpr hs
  rw [mem_unmatched_iff, or_iff_right, and_iff_right hcommand]
  rintro ⟨hclosing, -⟩
  rw [hcommand] at hclosing
  cases hclosing

theorem exists_pairs_iff (hs : p.char? s = some '[') : (∃ e, p.Pairs s e) ↔ s ∉ p.unmatched := by
  rw [mem_unmatched_iff_loopEnd? hs]
  exact (exists_congr fun e => (loopEnd?_eq_some_iff hs).symm).trans
    Option.ne_none_iff_exists'.symm

theorem landing_of_unmatched (hs : p.char? s = some '[') (h : s ∈ p.unmatched) :
    p.landing s = p.size - 1 := by
  rw [landing, (mem_unmatched_iff_loopEnd? hs).mp h, Option.getD_none]

theorem landing_bounds (hs : p.char? s = some '[') : s ≤ p.landing s ∧ p.landing s < p.size := by
  have hsize := lt_size_of_command? (command?_eq_opening_iff.mpr hs)
  by_cases hlone : s ∈ p.unmatched
  · rw [landing_of_unmatched hs hlone]
    omega
  · obtain ⟨e, he⟩ := (exists_pairs_iff hs).mpr hlone
    rw [landing_eq_of_pairs he]
    exact ⟨Nat.le_of_lt he.lt, lt_size_of_command? (command?_eq_closing_iff.mpr he.closing)⟩

/-! ### The count in one go -/

/-- Goes on from a position with so many loops open, until none is open or the program ends.
The result is the position after the last character that was looked at, with the depth there. -/
def sweep (p : Program) (i depth : Nat) : Nat × Nat :=
  if i < p.size ∧ 0 < depth then
    match p.command? i with
    | some .opening => sweep p (i + 1) (depth + 1)
    | some .closing => sweep p (i + 1) (depth - 1)
    | _ => sweep p (i + 1) depth
  else (i, depth)
termination_by p.size - i

theorem sweep_zero : p.sweep i 0 = (i, 0) := by
  rw [sweep, if_neg fun h => Nat.lt_irrefl 0 h.2]

theorem sweep_end : p.sweep p.size depth = (p.size, depth) := by
  rw [sweep, if_neg fun h => Nat.lt_irrefl _ h.1]

theorem sweep_opening (h : p.command? i = some .opening) :
    p.sweep i (depth + 1) = p.sweep (i + 1) (depth + 2) := by
  rw [sweep, if_pos ⟨lt_size_of_command? h, Nat.succ_pos depth⟩, h]

theorem sweep_closing (h : p.command? i = some .closing) :
    p.sweep i (depth + 1) = p.sweep (i + 1) depth := by
  rw [sweep, if_pos ⟨lt_size_of_command? h, Nat.succ_pos depth⟩, h]
  rfl

theorem sweep_other (hi : i < p.size) (ho : p.command? i ≠ some .opening)
    (hc : p.command? i ≠ some .closing) : p.sweep i (depth + 1) = p.sweep (i + 1) (depth + 1) := by
  rw [sweep, if_pos ⟨hi, Nat.succ_pos depth⟩]
  split
  next heq => exact absurd heq ho
  next heq => exact absurd heq hc
  next => rfl

/-- The count ends right after the `]` that the scan finds, and if the scan finds none, at the
end of the program with a loop still open. -/
theorem sweep_of_closingFrom {n : Nat} (hn : i + n = p.size) :
    match p.closingFrom n i depth with
    | some e => p.sweep i (depth + 1) = (e + 1, 0)
    | none => ∃ left, p.sweep i (depth + 1) = (p.size, left + 1) := by
  induction n generalizing i depth with
  | zero =>
    obtain rfl : i = p.size := hn
    exact ⟨depth, sweep_end⟩
  | succ n ih =>
    have hnext : i + 1 + n = p.size := by omega
    rcases p.command?_cases i with hc | hc | ⟨ho, hc⟩
    · rw [closingFrom_opening hc, sweep_opening hc]
      exact ih hnext
    · cases depth with
      | zero =>
        rw [closingFrom_closing hc, sweep_closing hc]
        exact sweep_zero
      | succ depth =>
        rw [closingFrom_closing_succ hc, sweep_closing hc]
        exact ih hnext
    · rw [closingFrom_other ho hc, sweep_other (by omega) ho hc]
      exact ih hnext

/-- The loop is left one character before the end of the count, and a loop is open there
exactly if the `[` has no partner. -/
theorem sweep_spec (hs : p.char? s = some '[') :
    p.landing s = (p.sweep (s + 1) 1).1 - 1 ∧
      (0 < (p.sweep (s + 1) 1).2 ↔ s ∈ p.unmatched) := by
  have hsize := lt_size_of_command? (command?_eq_opening_iff.mpr hs)
  have hsweep : match p.loopEnd? s with
      | some e => p.sweep (s + 1) 1 = (e + 1, 0)
      | none => ∃ left, p.sweep (s + 1) 1 = (p.size, left + 1) :=
    sweep_of_closingFrom (by omega)
  rw [mem_unmatched_iff_loopEnd? hs, landing]
  cases he : p.loopEnd? s with
  | some e =>
    rw [he] at hsweep
    rw [hsweep]
    exact ⟨rfl, iff_of_false (Nat.lt_irrefl 0) (by simp)⟩
  | none =>
    rw [he] at hsweep
    obtain ⟨left, hsweep⟩ := hsweep
    rw [hsweep]
    exact ⟨rfl, iff_of_true (Nat.succ_pos left) rfl⟩

end TapeMachine.Program
