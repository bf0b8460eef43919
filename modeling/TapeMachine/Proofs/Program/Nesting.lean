import TapeMachine.Program

/-! Nesting.

Which loops are open at a position is a matter of the text before it:
`Program.openAt` is what one pass over that text leaves open. Two facts tie it to
the scan for the end of a loop, which starts in the middle of the text and keeps
no positions: the scan finds the very `]` at which the loop is innermost again
(`openAt_loopEnd`), and it finds none exactly when the loop is open at the end of
the program. So a bracket is without a partner exactly if it is a `]` with
nothing open or a `[` whose scan finds no end (`mem_unmatched_iff`). -/
namespace TapeMachine

/-! ### One pass over a text -/

namespace Pairing

theorem ofText_concat (t : Text) (c : Char) : ofText (t ++ [c]) = (ofText t).pass c := by
  rw [ofText_append]
  rfl

theorem position_pass (s : Pairing) (c : Char) : (s.pass c).position = s.position + 1 := by
  unfold pass
  split <;> rfl

theorem position_foldl (t : Text) (s : Pairing) :
    (t.foldl pass s).position = s.position + t.length := by
  induction t generalizing s with
  | nil => rfl
  | cons c rest ih =>
    rw [List.foldl_cons, ih, position_pass, List.length_cons]
    omega

theorem position_ofText (t : Text) : (ofText t).position = t.length := by
  unfold ofText
  rw [position_foldl]
  exact Nat.zero_add _

end Pairing

namespace Program
variable {p : Program} {k : Nat}

/-- What a pass over the first `k` characters knows of their brackets. -/
def pairing (p : Program) (k : Nat) : Pairing := Pairing.ofText (p.toList.take k)

/-- The `[` before position `k` that are open there, innermost first. -/
def openAt (p : Program) (k : Nat) : List Nat := (p.pairing k).opened

theorem size_eq_length (p : Program) : p.size = p.toList.length := rfl

theorem char?_eq (p : Program) (k : Nat) : p.char? k = p.toList[k]? := by
  simp [char?, toList]

theorem lt_size_of_command? {c : Command} (h : p.command? k = some c) : k < p.size := by
  simp only [command?, char?_eq, Option.map_eq_some_iff] at h
  obtain ⟨ch, hch, -⟩ := h
  rw [size_eq_length]
  exact (List.getElem?_eq_some_iff.mp hch).1

theorem command?_eq_none_iff : p.command? k = none ↔ p.size ≤ k := by
  simp [command?, char?_eq, size_eq_length]

theorem pairing_succ {ch : Char} (h : p.char? k = some ch) :
    p.pairing (k + 1) = (p.pairing k).pass ch := by
  rw [char?_eq] at h
  rw [pairing, List.take_add_one, h, Option.toList_some, Pairing.ofText_concat]
  rfl

theorem pairing_of_size_le (h : p.size ≤ k) : p.pairing k = Pairing.ofText p.toList := by
  rw [size_eq_length] at h
  rw [pairing, List.take_of_length_le h]

theorem position_pairing (h : k ≤ p.size) : (p.pairing k).position = k := by
  rw [pairing, Pairing.position_ofText, List.length_take]
  exact Nat.min_eq_left h

/-- The character behind a command, with the pass over it. -/
theorem pairing_step {c : Command} (h : p.command? k = some c) :
    ∃ ch, Command.ofChar ch = c ∧ p.pairing (k + 1) = (p.pairing k).pass ch ∧
      (p.pairing k).position = k := by
  have hlt := lt_size_of_command? h
  simp only [command?, Option.map_eq_some_iff] at h
  obtain ⟨ch, hch, hc⟩ := h
  exact ⟨ch, hc, pairing_succ hch, position_pairing (Nat.le_of_lt hlt)⟩

/-! ### What is open from one position to the next -/

theorem openAt_zero : p.openAt 0 = [] := rfl

theorem openAt_of_size_le (h : p.size ≤ k) : p.openAt k = p.openAt p.size := by
  rw [openAt, openAt, pairing_of_size_le h, pairing_of_size_le (Nat.le_refl _)]

theorem openAt_succ_opening (h : p.command? k = some .opening) :
    p.openAt (k + 1) = k :: p.openAt k := by
  obtain ⟨ch, hc, hs, hk⟩ := pairing_step h
  rw [openAt, hs, Pairing.pass, hc, hk]
  rfl

theorem openAt_succ_closing (h : p.command? k = some .closing) :
    p.openAt (k + 1) = (p.openAt k).tail := by
  obtain ⟨ch, hc, hs, -⟩ := pairing_step h
  rw [openAt, hs, Pairing.pass, hc, openAt]
  cases (p.pairing k).opened <;> rfl

/-- At any other character, and past the end, nothing changes. -/
theorem openAt_succ_other (ho : p.command? k ≠ some .opening) (hc : p.command? k ≠ some .closing) :
    p.openAt (k + 1) = p.openAt k := by
  cases h : p.command? k with
  | none =>
    have hk := command?_eq_none_iff.mp h
    rw [openAt_of_size_le (Nat.le_succ_of_le hk), openAt_of_size_le hk]
  | some c =>
    obtain ⟨ch, hch, hs, -⟩ := pairing_step h
    rw [openAt, hs, Pairing.pass, hch, openAt]
    cases c <;> first | rfl | contradiction

theorem command?_cases (p : Program) (k : Nat) :
    p.command? k = some .opening ∨ p.command? k = some .closing ∨
      (p.command? k ≠ some .opening ∧ p.command? k ≠ some .closing) := by
  by_cases ho : p.command? k = some .opening
  · exact .inl ho
  · by_cases hc : p.command? k = some .closing
    · exact .inr (.inl hc)
    · exact .inr (.inr ⟨ho, hc⟩)

/-- Every loop open at a position stands before it, and the loops around it are
those that were open at its start. -/
theorem openAt_of_suffix {i : Nat} {outer : List Nat} (h : i :: outer <:+ p.openAt k) :
    i < k ∧ p.command? i = some .opening ∧ p.openAt i = outer := by
  induction k with
  | zero => simp [openAt_zero] at h
  | succ k ih =>
    have earlier : i :: outer <:+ p.openAt k →
        i < k + 1 ∧ p.command? i = some .opening ∧ p.openAt i = outer := fun hs =>
      ⟨Nat.lt_succ_of_lt (ih hs).1, (ih hs).2⟩
    rcases p.command?_cases k with hc | hc | ⟨ho, hc⟩
    · rw [openAt_succ_opening hc, List.suffix_cons_iff] at h
      rcases h with he | hs
      · cases he
        exact ⟨Nat.lt_succ_self _, hc, rfl⟩
      · exact earlier hs
    · rw [openAt_succ_closing hc] at h
      exact earlier (h.trans (List.tail_suffix _))
    · rw [openAt_succ_other ho hc] at h
      exact earlier h

theorem openAt_cons {i : Nat} {outer : List Nat} (h : p.openAt k = i :: outer) :
    i < k ∧ p.command? i = some .opening ∧ p.openAt i = outer :=
  openAt_of_suffix (h ▸ List.suffix_refl _)

/-- Past the start of the innermost open loop the same loops are open. -/
theorem openAt_start_succ {i : Nat} {outer : List Nat} (h : p.openAt k = i :: outer) :
    p.openAt (i + 1) = i :: outer := by
  obtain ⟨-, hi, ho⟩ := openAt_cons h
  rw [openAt_succ_opening hi, ho]

theorem opening_of_mem_openAt {i : Nat} (h : i ∈ p.openAt k) :
    i < k ∧ p.command? i = some .opening := by
  obtain ⟨inner, outer, hs⟩ := List.append_of_mem h
  have hsuffix : i :: outer <:+ p.openAt k := ⟨inner, hs.symm⟩
  obtain ⟨hlt, hc, -⟩ := openAt_of_suffix hsuffix
  exact ⟨hlt, hc⟩

/-- The loops open at a position descend from the innermost outwards. -/
theorem openAt_descends (p : Program) (k : Nat) : (p.openAt k).Pairwise (· > ·) := by
  suffices ∀ loops, loops <:+ p.openAt k → loops.Pairwise (· > ·) from this _ (List.suffix_refl _)
  intro loops
  induction loops with
  | nil => exact fun _ => .nil
  | cons i outer ih =>
    intro hs
    refine List.pairwise_cons.mpr ⟨fun j hj => ?_, ih ((List.suffix_cons i outer).trans hs)⟩
    obtain ⟨-, -, ho⟩ := openAt_of_suffix hs
    exact (opening_of_mem_openAt (ho ▸ hj)).1

/-- A loop open at a later position was open before or starts in between. -/
theorem mem_openAt_of_le {i j : Nat} (hjk : j ≤ k) (h : i ∈ p.openAt k) :
    i ∈ p.openAt j ∨ j ≤ i := by
  induction hjk with
  | refl => exact .inl h
  | @step k hjk ih =>
    rcases p.command?_cases k with hc | hc | ⟨ho, hc⟩
    · rw [openAt_succ_opening hc] at h
      rcases List.mem_cons.mp h with rfl | hm
      · exact .inr hjk
      · exact ih hm
    · rw [openAt_succ_closing hc] at h
      exact ih (List.mem_of_mem_tail h)
    · rw [openAt_succ_other ho hc] at h
      exact ih h

/-! ### The end of a loop

The scan is followed with what is open on its way: as many loops as it has
counted, and under them what was open where it started. -/

section Scan
variable {n i depth : Nat}

theorem closingFrom_opening (h : p.command? i = some .opening) :
    p.closingFrom (n + 1) i depth = p.closingFrom n (i + 1) (depth + 1) := by
  simp only [closingFrom, h]

theorem closingFrom_closing (h : p.command? i = some .closing) :
    p.closingFrom (n + 1) i 0 = some i := by
  simp only [closingFrom, h]

theorem closingFrom_closing_succ (h : p.command? i = some .closing) :
    p.closingFrom (n + 1) i (depth + 1) = p.closingFrom n (i + 1) depth := by
  simp only [closingFrom, h]

theorem closingFrom_other (ho : p.command? i ≠ some .opening) (hc : p.command? i ≠ some .closing) :
    p.closingFrom (n + 1) i depth = p.closingFrom n (i + 1) depth := by
  simp only [closingFrom]
  split
  next h => exact absurd h ho
  next h => exact absurd h hc
  next h => exact absurd h hc
  next => rfl

theorem closingFrom_eq_some {e : Nat} (h : p.closingFrom n i depth = some e) (inner : List Nat)
    {base : List Nat} (hopen : p.openAt i = inner ++ base) (hlen : inner.length = depth) :
    i ≤ e ∧ p.command? e = some .closing ∧ p.openAt e = base := by
  induction n generalizing i depth inner with
  | zero => cases h
  | succ n ih =>
    have onwards : ∀ (inner' : List Nat) {d : Nat}, p.closingFrom n (i + 1) d = some e →
        p.openAt (i + 1) = inner' ++ base → inner'.length = d →
        i ≤ e ∧ p.command? e = some .closing ∧ p.openAt e = base := fun inner' _ h' ho hl =>
      ⟨Nat.le_of_succ_le (ih h' inner' ho hl).1, (ih h' inner' ho hl).2⟩
    rcases p.command?_cases i with hc | hc | ⟨ho, hc⟩
    · rw [closingFrom_opening hc] at h
      refine onwards (i :: inner) h ?_ (by rw [List.length_cons, hlen])
      rw [openAt_succ_opening hc, hopen, List.cons_append]
    · cases inner with
      | nil =>
        subst hlen
        rw [List.length_nil, closingFrom_closing hc] at h
        cases h
        exact ⟨Nat.le_refl _, hc, hopen⟩
      | cons j inner =>
        subst hlen
        rw [List.length_cons, closingFrom_closing_succ hc] at h
        refine onwards inner h ?_ rfl
        rw [openAt_succ_closing hc, hopen]
        rfl
    · rw [closingFrom_other ho hc] at h
      exact onwards inner h (by rw [openAt_succ_other ho hc, hopen]) hlen

/-- A scan that finds nothing leaves open to the end what was open where it started. -/
theorem closingFrom_eq_none (h : p.closingFrom n i depth = none) (inner : List Nat)
    {base : List Nat} (hopen : p.openAt i = inner ++ base) (hlen : inner.length = depth)
    (hend : p.size ≤ i + n) : base <:+ p.openAt p.size := by
  induction n generalizing i depth inner with
  | zero =>
    rw [← openAt_of_size_le hend]
    exact ⟨inner, by rw [Nat.add_zero, hopen]⟩
  | succ n ih =>
    have hend' : p.size ≤ i + 1 + n := by omega
    rcases p.command?_cases i with hc | hc | ⟨ho, hc⟩
    · rw [closingFrom_opening hc] at h
      refine ih h (i :: inner) ?_ (by rw [List.length_cons, hlen]) hend'
      rw [openAt_succ_opening hc, hopen, List.cons_append]
    · cases inner with
      | nil =>
        subst hlen
        rw [List.length_nil, closingFrom_closing hc] at h
        cases h
      | cons j inner =>
        subst hlen
        rw [List.length_cons, closingFrom_closing_succ hc] at h
        refine ih h inner ?_ rfl hend'
        rw [openAt_succ_closing hc, hopen]
        rfl
    · rw [closingFrom_other ho hc] at h
      exact ih h inner (by rw [openAt_succ_other ho hc, hopen]) hlen hend'

end Scan

/-- At the end of a loop that loop is the innermost one open. -/
theorem openAt_loopEnd {e : Nat} (hk : p.command? k = some .opening) (h : p.loopEnd? k = some e) :
    k < e ∧ p.command? e = some .closing ∧ p.openAt e = k :: p.openAt k :=
  closingFrom_eq_some h [] (openAt_succ_opening hk) rfl

theorem openAt_loopEnd_succ {e : Nat} (hk : p.command? k = some .opening)
    (h : p.loopEnd? k = some e) : p.openAt (e + 1) = p.openAt k := by
  obtain ⟨-, hc, ho⟩ := openAt_loopEnd hk h
  rw [openAt_succ_closing hc, ho, List.tail_cons]

/-- A loop without an end is open at the end of the program, and no other loop that
starts at its place in the text is. -/
theorem loopEnd?_eq_none_iff (hk : p.command? k = some .opening) :
    p.loopEnd? k = none ↔ k ∈ p.openAt p.size := by
  constructor
  · intro h
    have hend : p.size ≤ k + 1 + (p.size - (k + 1)) := by omega
    have hs := closingFrom_eq_none h [] (openAt_succ_opening hk) rfl hend
    exact hs.subset (List.mem_cons_self ..)
  · intro hmem
    cases he : p.loopEnd? k with
    | none => rfl
    | some e =>
      obtain ⟨hlt, hc, ho⟩ := openAt_loopEnd hk he
      have hsize := lt_size_of_command? hc
      rcases mem_openAt_of_le (Nat.succ_le_of_lt hsize) hmem with hm | hle
      · rw [Nat.succ_eq_add_one, openAt_loopEnd_succ hk he] at hm
        exact absurd (opening_of_mem_openAt hm).1 (Nat.lt_irrefl k)
      · omega

/-! ### Brackets without a partner -/

/-- A pass adds a `]` to the stray ones just where nothing is open. -/
theorem stray_succ (n : Nat) : (p.pairing (n + 1)).stray =
    if p.command? n = some .closing ∧ p.openAt n = [] then n :: (p.pairing n).stray
    else (p.pairing n).stray := by
  cases h : p.command? n with
  | none =>
    have hn := command?_eq_none_iff.mp h
    rw [pairing_of_size_le (Nat.le_succ_of_le hn), pairing_of_size_le hn]
    simp
  | some c =>
    obtain ⟨ch, hch, hs, hn⟩ := pairing_step h
    rw [hs, Pairing.pass, hch, openAt, hn]
    cases c <;> cases (p.pairing n).opened <;> simp

theorem mem_stray_iff {n : Nat} : k ∈ (p.pairing n).stray ↔
    k < n ∧ p.command? k = some .closing ∧ p.openAt k = [] := by
  induction n with
  | zero => simp [pairing, Pairing.ofText]
  | succ n ih =>
    rw [stray_succ]
    split
    next h =>
      rw [List.mem_cons, ih]
      constructor
      · rintro (rfl | ⟨hlt, hk⟩)
        · exact ⟨Nat.lt_succ_self _, h⟩
        · exact ⟨Nat.lt_succ_of_lt hlt, hk⟩
      · rintro ⟨hlt, hk⟩
        rcases Nat.lt_succ_iff_lt_or_eq.mp hlt with hlt | rfl
        · exact .inr ⟨hlt, hk⟩
        · exact .inl rfl
    next h =>
      rw [ih]
      refine and_congr_left fun hk => ⟨Nat.lt_succ_of_lt, fun hlt => ?_⟩
      rcases Nat.lt_succ_iff_lt_or_eq.mp hlt with hlt | rfl
      · exact hlt
      · exact absurd hk h

theorem unmatched_eq (p : Program) :
    p.unmatched = (p.pairing p.size).stray.reverse ++ (p.openAt p.size).reverse := by
  rw [openAt, pairing_of_size_le (Nat.le_refl _)]
  rfl

/-- Where every bracket has a partner nothing is left open. -/
theorem openAt_of_unmatched_eq_nil (h : p.unmatched = []) : p.openAt p.size = [] := by
  rw [unmatched_eq, List.append_eq_nil_iff, List.reverse_eq_nil_iff] at h
  exact List.reverse_eq_nil_iff.mp h.2

/-- A bracket has no partner if it closes nothing or nothing closes it. -/
theorem mem_unmatched_iff : k ∈ p.unmatched ↔
    (p.command? k = some .closing ∧ p.openAt k = []) ∨
      (p.command? k = some .opening ∧ p.loopEnd? k = none) := by
  rw [unmatched_eq, List.mem_append, List.mem_reverse, List.mem_reverse, mem_stray_iff]
  refine or_congr ⟨And.right, fun h => ⟨lt_size_of_command? h.1, h⟩⟩ ⟨fun h => ?_, fun h => ?_⟩
  · have hk := (opening_of_mem_openAt h).2
    exact ⟨hk, (loopEnd?_eq_none_iff hk).mpr h⟩
  · exact (loopEnd?_eq_none_iff h.1).mp h.2

end Program
end TapeMachine
