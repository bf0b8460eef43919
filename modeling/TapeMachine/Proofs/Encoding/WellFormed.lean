import Mathlib.Data.List.Forall2
import TapeMachine.Encoding.Utf8

/-! Well-formed UTF-8.

A table has a row for each range of first bytes, with the ranges of the bytes after it
(`table`), and bytes are well-formed if they are sequences of the table one after the other.
A lead byte asks for the ranges of its row (`rows_eq`), so a character is decoded just where
a sequence of the table stands (`decodeOne_ok_iff`), and bytes are decoded exactly if they
are well-formed (`decode_ok_iff`). -/
namespace TapeMachine.Utf8

variable {n value length : Nat} {low high b : UInt8} {bytes rest s : Bytes}

/-- The least and the greatest value that a byte may have. -/
abbrev Range := UInt8 × UInt8

/-- The well-formed sequences of bytes that stand for a character: a range for each byte. -/
def table : List (List Range) :=
  [[(0x00, 0x7f)],
    [(0xc2, 0xdf), (0x80, 0xbf)],
    [(0xe0, 0xe0), (0xa0, 0xbf), (0x80, 0xbf)],
    [(0xe1, 0xec), (0x80, 0xbf), (0x80, 0xbf)],
    [(0xed, 0xed), (0x80, 0x9f), (0x80, 0xbf)],
    [(0xee, 0xef), (0x80, 0xbf), (0x80, 0xbf)],
    [(0xf0, 0xf0), (0x90, 0xbf), (0x80, 0xbf), (0x80, 0xbf)],
    [(0xf1, 0xf3), (0x80, 0xbf), (0x80, 0xbf), (0x80, 0xbf)],
    [(0xf4, 0xf4), (0x80, 0x8f), (0x80, 0xbf), (0x80, 0xbf)]]

/-- As many bytes as there are ranges, each within its range. -/
def Fits (s : Bytes) (row : List Range) : Prop :=
  List.Forall₂ (fun b r => r.1 ≤ b ∧ b ≤ r.2) s row

/-- Sequences of the table, one after the other. -/
inductive WellFormed : Bytes → Prop
  | nil : WellFormed []
  | append {s rest : Bytes} {row : List Range} :
      row ∈ table → Fits s row → WellFormed rest → WellFormed (s ++ rest)

theorem wellFormed_iff : WellFormed bytes ↔
    bytes = [] ∨ ∃ s row rest, row ∈ table ∧ Fits s row ∧ WellFormed rest ∧ bytes = s ++ rest := by
  constructor
  · intro h
    cases h with
    | nil => exact .inl rfl
    | append hrow hfits hrest => exact .inr ⟨_, _, _, hrow, hfits, hrest, rfl⟩
  · rintro (rfl | ⟨s, row, rest, hrow, hfits, hrest, rfl⟩)
    · exact .nil
    · exact .append hrow hfits hrest

/-- No row of the table is empty. -/
theorem ne_nil_of_fits {row : List Range} (hrow : row ∈ table) (h : Fits s row) : s ≠ [] := by
  rintro rfl
  cases h
  exact absurd hrow (by decide)

/-! ### Lead bytes -/

/-- The ranges of so many more bytes, of which the first is within its own. -/
def ranges : (n : Nat) → (low high : UInt8) → List Range
  | 0, _, _ => []
  | n + 1, low, high => (low, high) :: ranges n 0x80 0xbf

def Lead.ranges (lead : Lead) : List Range := Utf8.ranges lead.following lead.low lead.high

/-- What the rows of the table for a first byte say of the bytes after it. -/
def rows (b : UInt8) : List (List Range) :=
  table.filterMap fun row =>
    match row with
    | r :: more => if r.1 ≤ b ∧ b ≤ r.2 then some more else none
    | [] => none

theorem mem_rows {more : List Range} :
    more ∈ rows b ↔ ∃ r, (r :: more) ∈ table ∧ r.1 ≤ b ∧ b ≤ r.2 := by
  rw [rows, List.mem_filterMap]
  constructor
  · rintro ⟨row, hrow, hmore⟩
    split at hmore
    next r more' =>
      split at hmore
      next hr =>
        cases hmore
        exact ⟨r, hrow, hr⟩
      next => cases hmore
    next => cases hmore
  · rintro ⟨r, hrow, hr⟩
    exact ⟨r :: more, hrow, if_pos hr⟩

/-- A first byte has a row exactly if it is a lead byte, and then only one. -/
theorem rows_eq (b : UInt8) : rows b = ((lead? b).map Lead.ranges).toList := by
  have hall : ∀ n : Fin 256, rows (.ofFin n) = ((lead? (.ofFin n)).map Lead.ranges).toList := by
    decide +kernel
  exact hall b.toFin

/-! ### Decoding -/

/-- Reading more bytes of a character succeeds just where they are within their ranges. -/
theorem follow_ok_iff : (∃ c k, follow n low high value length bytes = .ok (c, k, rest)) ↔
    ∃ s, Fits s (ranges n low high) ∧ bytes = s ++ rest := by
  induction n generalizing low high value length bytes with
  | zero =>
    constructor
    · rintro ⟨c, k, h⟩
      cases h
      exact ⟨[], .nil, rfl⟩
    · rintro ⟨s, hs, rfl⟩
      cases hs
      exact ⟨_, _, rfl⟩
  | succ n ih =>
    constructor
    · rintro ⟨c, k, h⟩
      cases bytes with
      | nil => cases h
      | cons b bytes =>
        rw [follow] at h
        split at h
        next hb =>
          obtain ⟨s, hs, rfl⟩ := ih.mp ⟨c, k, h⟩
          exact ⟨b :: s, .cons hb hs, rfl⟩
        next => cases h
    · rintro ⟨s, hs, rfl⟩
      cases hs with
      | cons hb hs =>
        obtain ⟨c, k, h⟩ := ih.mpr ⟨_, hs, rfl⟩
        exact ⟨c, k, (if_pos hb).trans h⟩

/-- A character is decoded just where a sequence of the table stands. -/
theorem decodeOne_ok_iff : (∃ c k, decodeOne b bytes = .ok (c, k, rest)) ↔
    ∃ s row, row ∈ table ∧ Fits s row ∧ b :: bytes = s ++ rest := by
  have hrow : (∃ s row, row ∈ table ∧ Fits s row ∧ b :: bytes = s ++ rest) ↔
      ∃ more ∈ rows b, ∃ s, Fits s more ∧ bytes = s ++ rest := by
    constructor
    · rintro ⟨s, row, hrow, hfits, heq⟩
      cases hfits with
      | nil => exact absurd hrow (by decide)
      | cons hb hs =>
        cases heq
        exact ⟨_, mem_rows.mpr ⟨_, hrow, hb⟩, _, hs, rfl⟩
    · rintro ⟨more, hmore, s, hs, rfl⟩
      obtain ⟨r, hrow, hb⟩ := mem_rows.mp hmore
      exact ⟨b :: s, r :: more, hrow, .cons hb hs, rfl⟩
  rw [hrow, rows_eq, decodeOne]
  cases lead? b with
  | none => exact ⟨nofun, nofun⟩
  | some lead =>
    rw [Option.map_some, Option.toList_some]
    simp only [List.mem_singleton, exists_eq_left]
    exact follow_ok_iff

theorem decodeFrom_ok_iff {start : Nat} {done : Text} (hn : bytes.length ≤ n) :
    (∃ t, decodeFrom n start done bytes = .ok t) ↔ WellFormed bytes := by
  induction n generalizing start done bytes with
  | zero =>
    obtain rfl := List.eq_nil_of_length_eq_zero (Nat.le_zero.mp hn)
    exact ⟨fun _ => .nil, fun _ => ⟨_, rfl⟩⟩
  | succ n ih =>
    cases bytes with
    | nil => exact ⟨fun _ => .nil, fun _ => ⟨_, rfl⟩⟩
    | cons b bytes =>
      -- a character takes at least one byte, so enough turns are left for the rest
      have hshort : ∀ {s others row}, row ∈ table → Fits s row → b :: bytes = s ++ others →
          others.length ≤ n := by
        intro s others row hrow hfits heq
        have hpos := List.length_pos_iff.mpr (ne_nil_of_fits hrow hfits)
        have hlength := congrArg List.length heq
        rw [List.length_append] at hlength
        omega
      rw [decodeFrom]
      constructor
      · rintro ⟨t, h⟩
        split at h
        next => cases h
        next c k others hone =>
          obtain ⟨s, row, hrow, hfits, heq⟩ := decodeOne_ok_iff.mp ⟨c, k, hone⟩
          rw [heq]
          exact .append hrow hfits ((ih (hshort hrow hfits heq)).mp ⟨t, h⟩)
      · intro h
        rcases wellFormed_iff.mp h with hnil | ⟨s, row, others, hrow, hfits, hrest, heq⟩
        · cases hnil
        · obtain ⟨c, k, hone⟩ := decodeOne_ok_iff.mpr ⟨s, row, hrow, hfits, heq⟩
          rw [hone]
          exact (ih (hshort hrow hfits heq)).mpr hrest

/-- Bytes are decoded exactly if they are well-formed. -/
theorem decode_ok_iff : (∃ t, decode bytes = .ok t) ↔ WellFormed bytes :=
  decodeFrom_ok_iff (Nat.le_refl _)

end TapeMachine.Utf8
