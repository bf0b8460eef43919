import Mathlib.Data.List.Induction
import TapeMachine.Proofs.Program.Block

/-! Partners.

A text is balanced if it is put together from nothing, from characters that are no
brackets, and from brackets around a balanced text (`Balanced`). A `[` and a `]` after it
are partners if what stands between them is balanced (`Program.Pairs`). This says nothing
of a pass over the text; but the pass finds the partners, for at a `]` the innermost loop
that is open began at its partner (`Program.pairs_iff`), and so the brackets that are left
over are those without one (`Program.unmatched_partners`). -/
namespace TapeMachine

/-- The texts in which the brackets belong together in pairs. -/
inductive Balanced : Text → Prop
  | empty : Balanced []
  | plain {c : Char} : c ≠ '[' → c ≠ ']' → Balanced [c]
  | loop {t : Text} : Balanced t → Balanced ('[' :: t ++ [']'])
  | append {s t : Text} : Balanced s → Balanced t → Balanced (s ++ t)

/-- A pass over a balanced text knows after it of no other brackets than before. -/
theorem Balanced.foldl_pass {t : Text} (h : Balanced t) (s : Pairing) :
    t.foldl Pairing.pass s = ⟨s.position + t.length, s.opened, s.stray⟩ := by
  induction h generalizing s with
  | empty => rfl
  | @plain c ho hc =>
    have ho' : Command.ofChar c ≠ .opening := mt Block.ofChar_eq_opening ho
    have hc' : Command.ofChar c ≠ .closing := mt Block.ofChar_eq_closing hc
    rw [List.foldl_cons, List.foldl_nil, Pairing.pass]
    split
    next heq => exact absurd heq ho'
    next heq _ => exact absurd heq hc'
    next heq _ => exact absurd heq hc'
    next => rfl
  | @loop t _ ih =>
    have hopen : s.pass '[' = ⟨s.position + 1, s.position :: s.opened, s.stray⟩ := rfl
    rw [List.cons_append, List.foldl_cons, List.foldl_append, hopen, ih, List.foldl_cons,
      List.foldl_nil, List.length_cons, List.length_append, List.length_singleton]
    show Pairing.mk (s.position + 1 + t.length + 1) s.opened s.stray = _
    congr 1
    omega
  | append _ _ ihs iht =>
    rw [List.foldl_append, ihs, iht, List.length_append, Nat.add_assoc]

namespace Text
variable {s t : Text} {ks : List Nat}

/-- The text without the characters at the given positions. -/
def omitting (ks : List Nat) (t : Text) : Text :=
  (t.zipIdx.filter fun x => !ks.contains x.2).map (·.1)

theorem omitting_concat (ks : List Nat) (t : Text) (c : Char) :
    omitting ks (t ++ [c]) = omitting ks t ++ if t.length ∈ ks then [] else [c] := by
  rw [omitting, omitting, List.zipIdx_append, List.filter_append, List.map_append,
    List.zipIdx_singleton, Nat.zero_add]
  congr 1
  by_cases h : t.length ∈ ks <;> simp [h]

theorem omitting_nil (t : Text) : omitting [] t = t := by
  rw [omitting, List.filter_eq_self.mpr fun x hx => by simp]
  exact List.zipIdx_map_fst 0 t

/-- At the end nothing is omitted. -/
theorem omitting_append (h : ∀ k ∈ ks, k < s.length ∨ (s ++ t).length ≤ k) :
    omitting ks (s ++ t) = omitting ks s ++ t := by
  induction t using List.reverseRecOn with
  | nil => rw [List.append_nil, List.append_nil]
  | append_singleton t c ih =>
    rw [← List.append_assoc] at h ⊢
    rw [List.length_append, List.length_singleton] at h
    have hlast : (s ++ t).length ∉ ks := fun hmem => by
      have hk := h _ hmem
      rw [List.length_append] at hk
      omega
    rw [omitting_concat, if_neg hlast, ih, List.append_assoc]
    exact fun k hk => (h k hk).imp_right Nat.le_of_succ_le

end Text

namespace Program
variable {p : Program} {i j k n : Nat} {c : Char} {outer : List Nat}

/-! ### Pieces of a program -/

/-- The characters from one position on to another, which is not among them. -/
def slice (p : Program) (i j : Nat) : Text := (p.toList.take j).drop i

theorem slice_self (p : Program) (i : Nat) : p.slice i i = [] :=
  List.drop_eq_nil_of_le (List.length_take_le i p.toList)

theorem take_eq_append_slice (h : i ≤ j) : p.toList.take j = p.toList.take i ++ p.slice i j := by
  have htake : p.toList.take i = (p.toList.take j).take i := by
    rw [List.take_take, Nat.min_eq_left h]
  rw [htake, slice, List.take_append_drop]

theorem slice_append (hij : i ≤ j) (hjk : j ≤ k) (hj : j ≤ p.size) :
    p.slice i k = p.slice i j ++ p.slice j k := by
  have hlength : (p.toList.take j).length = j := List.length_take_of_le hj
  rw [slice, take_eq_append_slice hjk, List.drop_append_of_le_length (by rwa [hlength])]
  rfl

theorem slice_concat (hij : i ≤ j) (h : p.char? j = some c) :
    p.slice i (j + 1) = p.slice i j ++ [c] := by
  have hlt := lt_size_of_command? (command?_of_char? h)
  have hlength : (p.toList.take j).length = j := List.length_take_of_le (Nat.le_of_lt hlt)
  rw [char?_eq] at h
  rw [slice, List.take_add_one, h, Option.toList_some,
    List.drop_append_of_le_length (by rwa [hlength])]
  rfl

/-- A character and what follows it. -/
theorem slice_cons (hij : i < j) (h : p.char? i = some c) :
    p.slice i j = c :: p.slice (i + 1) j := by
  have hlt := lt_size_of_command? (command?_of_char? h)
  rw [slice_append (Nat.le_succ i) hij hlt, slice_concat (Nat.le_refl i) h, slice_self]
  rfl

/-- What a pass knows after a piece. -/
theorem pairing_eq_foldl (h : i ≤ j) :
    p.pairing j = (p.slice i j).foldl Pairing.pass (p.pairing i) := by
  rw [pairing, take_eq_append_slice h, Pairing.ofText_append]
  rfl

/-- A balanced piece leaves open what was open before. -/
theorem openAt_of_balanced (hij : i ≤ j) (h : Balanced (p.slice i j)) :
    p.openAt j = p.openAt i := by
  rw [openAt, pairing_eq_foldl hij, h.foldl_pass]
  rfl

/-! ### Brackets -/

theorem command?_eq_opening_iff : p.command? k = some .opening ↔ p.char? k = some '[' := by
  refine ⟨fun h => ?_, command?_of_char?⟩
  obtain ⟨c, hc, ho⟩ := Option.map_eq_some_iff.mp h
  rw [hc, Block.ofChar_eq_opening ho]

theorem command?_eq_closing_iff : p.command? k = some .closing ↔ p.char? k = some ']' := by
  refine ⟨fun h => ?_, command?_of_char?⟩
  obtain ⟨c, hc, ho⟩ := Option.map_eq_some_iff.mp h
  rw [hc, Block.ofChar_eq_closing ho]

theorem balanced_singleton (h : p.char? k = some c) (ho : p.command? k ≠ some .opening)
    (hc : p.command? k ≠ some .closing) : Balanced [c] := by
  refine .plain ?_ ?_
  · rintro rfl
    exact ho (command?_eq_opening_iff.mpr h)
  · rintro rfl
    exact hc (command?_eq_closing_iff.mpr h)

def IsBracket (p : Program) (k : Nat) : Prop := p.char? k = some '[' ∨ p.char? k = some ']'

/-- The `[` at `i` and the `]` at `j` have a balanced text between them. -/
structure Pairs (p : Program) (i j : Nat) : Prop where
  opening : p.char? i = some '['
  closing : p.char? j = some ']'
  lt : i < j
  balanced : Balanced (p.slice (i + 1) j)

/-- One of the two brackets is the partner of the other. -/
def Partners (p : Program) (k l : Nat) : Prop := p.Pairs k l ∨ p.Pairs l k

/-- Since the start of the innermost open loop the text is balanced. -/
theorem balanced_of_openAt (hj : j ≤ p.size) (h : p.openAt j = i :: outer) :
    Balanced (p.slice (i + 1) j) := by
  induction j using Nat.strongRecOn generalizing i outer with
  | ind j ih =>
    obtain ⟨hij, -, -⟩ := openAt_cons h
    obtain ⟨j, rfl⟩ : ∃ n, j = n + 1 := ⟨j - 1, by omega⟩
    rcases p.command?_cases j with hc | hc | ⟨ho, hc⟩
    · rw [openAt_succ_opening hc] at h
      cases h
      rw [slice_self]
      exact .empty
    · -- the loop that ends here began inside
      rw [openAt_succ_closing hc] at h
      cases hopen : p.openAt j with
      | nil =>
        rw [hopen] at h
        cases h
      | cons inner rest =>
        rw [hopen, List.tail_cons] at h
        subst h
        obtain ⟨hlt, hinner, houter⟩ := openAt_cons hopen
        have hbefore := ih inner (by omega) (by omega) houter
        have hinside := ih j (Nat.lt_succ_self j) (by omega) hopen
        rw [slice_append (openAt_cons houter).1 (by omega) (by omega : inner ≤ p.size),
          slice_cons (by omega) (command?_eq_opening_iff.mp hinner),
          slice_concat hlt (command?_eq_closing_iff.mp hc)]
        exact hbefore.append hinside.loop
    · rw [openAt_succ_other ho hc] at h
      obtain ⟨c, hchar, -⟩ := drop_eq_cons (p := p) (k := j) hj
      rw [slice_concat (openAt_cons h).1 hchar]
      exact (ih j (Nat.lt_succ_self j) (by omega) h).append (balanced_singleton hchar ho hc)

/-! ### Partners -/

/-- At a `]` the innermost open loop began at its partner. -/
theorem pairs_iff : p.Pairs i j ↔ p.char? j = some ']' ∧ ∃ outer, p.openAt j = i :: outer := by
  constructor
  · intro h
    refine ⟨h.closing, p.openAt i, ?_⟩
    rw [openAt_of_balanced h.lt h.balanced,
      openAt_succ_opening (command?_eq_opening_iff.mpr h.opening)]
  · rintro ⟨hclosing, outer, hopen⟩
    obtain ⟨hlt, hopening, -⟩ := openAt_cons hopen
    have hsize := lt_size_of_command? (command?_eq_closing_iff.mpr hclosing)
    exact ⟨command?_eq_opening_iff.mp hopening, hclosing, hlt,
      balanced_of_openAt (Nat.le_of_lt hsize) hopen⟩

/-- After its end a loop is never open again. -/
theorem Pairs.not_mem_openAt (h : p.Pairs i j) (hjk : j < k) : i ∉ p.openAt k := by
  intro hmem
  obtain ⟨hclosing, outer, hopen⟩ := pairs_iff.mp h
  have hlt := h.lt
  rcases mem_openAt_of_le hjk hmem with hmem | hle
  · rw [Nat.succ_eq_add_one, openAt_succ_closing (command?_eq_closing_iff.mpr hclosing), hopen,
      List.tail_cons, ← (openAt_cons hopen).2.2] at hmem
    exact absurd (opening_of_mem_openAt hmem).1 (Nat.lt_irrefl i)
  · omega

theorem Pairs.opening_unique {i' : Nat} (h : p.Pairs i j) (h' : p.Pairs i' j) : i' = i := by
  obtain ⟨-, outer, hopen⟩ := pairs_iff.mp h
  obtain ⟨-, outer', hopen'⟩ := pairs_iff.mp h'
  exact (List.cons.inj (hopen'.symm.trans hopen)).1

theorem Pairs.closing_unique {j' : Nat} (h : p.Pairs i j) (h' : p.Pairs i j') : j' = j := by
  have open_at : ∀ {j}, p.Pairs i j → i ∈ p.openAt j := fun h => by
    obtain ⟨-, outer, hopen⟩ := pairs_iff.mp h
    rw [hopen]
    exact List.mem_cons_self
  rcases Nat.lt_trichotomy j' j with hlt | heq | hlt
  · exact absurd (open_at h) (h'.not_mem_openAt hlt)
  · exact heq
  · exact absurd (open_at h') (h.not_mem_openAt hlt)

/-- The scan for the end of a loop finds the partner of its start. -/
theorem loopEnd?_eq_some_iff (hi : p.char? i = some '[') :
    p.loopEnd? i = some j ↔ p.Pairs i j := by
  have hopening := command?_eq_opening_iff.mpr hi
  have found : ∀ {e}, p.loopEnd? i = some e → p.Pairs i e := fun he => by
    obtain ⟨-, hclosing, hopen⟩ := openAt_loopEnd hopening he
    exact pairs_iff.mpr ⟨command?_eq_closing_iff.mp hclosing, _, hopen⟩
  refine ⟨found, fun h => ?_⟩
  cases he : p.loopEnd? i with
  | none =>
    have hsize := lt_size_of_command? (command?_eq_closing_iff.mpr h.closing)
    exact absurd ((loopEnd?_eq_none_iff hopening).mp he) (h.not_mem_openAt hsize)
  | some e => rw [h.closing_unique (found he)]

/-! ### What is left over -/

theorem Partners.unique {l l' : Nat} (h : p.Partners k l) (h' : p.Partners k l') : l' = l := by
  have differ : p.char? k = some '[' → p.char? k = some ']' → False := fun ho hc => by
    cases ho.symm.trans hc
  rcases h with h | h
  · rcases h' with h' | h'
    · exact h.closing_unique h'
    · exact (differ h.opening h'.closing).elim
  · rcases h' with h' | h'
    · exact (differ h'.opening h.closing).elim
    · exact h.opening_unique h'

/-- The brackets that are left over have no partner, and all others have one. -/
theorem mem_unmatched_iff_partners :
    k ∈ p.unmatched ↔ p.IsBracket k ∧ ∀ l, ¬ p.Partners k l := by
  rw [mem_unmatched_iff]
  constructor
  · rintro (⟨hc, hnil⟩ | ⟨ho, hnone⟩)
    · refine ⟨.inr (command?_eq_closing_iff.mp hc), fun l h => ?_⟩
      rcases h with h | h
      · rw [command?_eq_closing_iff, h.opening] at hc
        cases hc
      · obtain ⟨-, outer, hopen⟩ := pairs_iff.mp h
        rw [hnil] at hopen
        cases hopen
    · have hchar := command?_eq_opening_iff.mp ho
      refine ⟨.inl hchar, fun l h => ?_⟩
      rcases h with h | h
      · rw [(loopEnd?_eq_some_iff hchar).mpr h] at hnone
        cases hnone
      · rw [h.closing] at hchar
        cases hchar
  · rintro ⟨ho | hc, hlone⟩
    · refine .inr ⟨command?_eq_opening_iff.mpr ho, ?_⟩
      cases he : p.loopEnd? k with
      | none => rfl
      | some e => exact absurd (.inl ((loopEnd?_eq_some_iff ho).mp he)) (hlone e)
    · refine .inl ⟨command?_eq_closing_iff.mpr hc, ?_⟩
      cases hopen : p.openAt k with
      | nil => rfl
      | cons i outer => exact absurd (.inr (pairs_iff.mpr ⟨hc, outer, hopen⟩)) (hlone i)

/-- The stray `]` come one after the other. -/
theorem stray_descends (p : Program) (n : Nat) : (p.pairing n).stray.Pairwise (· > ·) := by
  induction n with
  | zero => exact .nil
  | succ n ih =>
    rw [stray_succ]
    split
    · exact ih.cons fun k hk => (mem_stray_iff.mp hk).1
    · exact ih

/-- Where a `]` is stray nothing is open, so what is open at the end begins after it. -/
theorem stray_lt_open (hi : i ∈ (p.pairing p.size).stray) (hj : j ∈ p.openAt p.size) : i < j := by
  obtain ⟨hlt, hclosing, hnil⟩ := mem_stray_iff.mp hi
  rcases mem_openAt_of_le (Nat.le_of_lt hlt) hj with hmem | hle
  · rw [hnil] at hmem
    cases hmem
  · refine Nat.lt_of_le_of_ne hle ?_
    rintro rfl
    rw [(opening_of_mem_openAt hj).2] at hclosing
    cases hclosing

theorem unmatched_ascends (p : Program) : p.unmatched.Pairwise (· < ·) := by
  rw [unmatched_eq, List.pairwise_append, List.pairwise_reverse, List.pairwise_reverse]
  refine ⟨p.stray_descends p.size, p.openAt_descends p.size, fun i hi j hj => ?_⟩
  exact stray_lt_open (List.mem_reverse.mp hi) (List.mem_reverse.mp hj)

theorem unmatched_closing_lt_opening (hi : i ∈ p.unmatched) (hj : j ∈ p.unmatched)
    (hclosing : p.char? i = some ']') (hopening : p.char? j = some '[') : i < j := by
  rw [unmatched_eq, List.mem_append, List.mem_reverse, List.mem_reverse] at hi hj
  have hi' : i ∈ (p.pairing p.size).stray := hi.resolve_right fun hopen => by
    have hc := command?_eq_opening_iff.mp (opening_of_mem_openAt hopen).2
    rw [hclosing] at hc
    cases hc
  have hj' : j ∈ p.openAt p.size := hj.resolve_left fun hstray => by
    have hc := command?_eq_closing_iff.mp (mem_stray_iff.mp hstray).2.1
    rw [hopening] at hc
    cases hc
  exact stray_lt_open hi' hj'

/-! ### Without what is left over -/

/-- Among the first `n` characters the bracket at `k` has no partner. -/
def Lost (p : Program) (n k : Nat) : Prop :=
  (p.command? k = some .closing ∧ p.openAt k = []) ∨ k ∈ p.openAt n

theorem mem_unmatched_iff_lost : k ∈ p.unmatched ↔ p.Lost p.size k := by
  rw [mem_unmatched_iff, Lost]
  refine or_congr_right ⟨fun h => (loopEnd?_eq_none_iff h.1).mp h.2, fun h => ?_⟩
  have hk := (opening_of_mem_openAt h).2
  exact ⟨hk, (loopEnd?_eq_none_iff hk).mpr h⟩

theorem lost_congr {n' : Nat} (h : p.openAt n' = p.openAt n) : p.Lost n' k ↔ p.Lost n k := by
  rw [Lost, Lost, h]

theorem lost_succ_opening (h : p.command? n = some .opening) (hk : k < n) :
    p.Lost (n + 1) k ↔ p.Lost n k := by
  rw [Lost, Lost, openAt_succ_opening h, List.mem_cons, or_iff_right (Nat.ne_of_lt hk)]

/-- From a `[` to its partner no bracket is lost. -/
theorem Pairs.not_lost (h : p.Pairs i j) (hik : i ≤ k) (hkj : k ≤ j) : ¬ p.Lost (j + 1) k := by
  obtain ⟨hclosing, outer, hopen⟩ := pairs_iff.mp h
  rintro (⟨hc, hnil⟩ | hmem)
  · have hi : i ∈ p.openAt j := hopen ▸ List.mem_cons_self
    rcases mem_openAt_of_le hkj hi with hmem | hle
    · rw [hnil] at hmem
      cases hmem
    · rw [Nat.le_antisymm hle hik, (openAt_cons hopen).2.1] at hc
      cases hc
  · rw [openAt_succ_closing (command?_eq_closing_iff.mpr hclosing), hopen, List.tail_cons,
      ← (openAt_cons hopen).2.2] at hmem
    exact absurd (opening_of_mem_openAt hmem).1 (Nat.not_lt_of_le hik)

theorem omitting_take_succ (ks : List Nat) (h : p.char? n = some c) :
    Text.omitting ks (p.toList.take (n + 1)) =
      Text.omitting ks (p.toList.take n) ++ if n ∈ ks then [] else [c] := by
  have hlt := lt_size_of_command? (command?_of_char? h)
  have hlength : (p.toList.take n).length = n := List.length_take_of_le (Nat.le_of_lt hlt)
  rw [char?_eq] at h
  rw [List.take_add_one, h, Option.toList_some, Text.omitting_concat, hlength]

/-- If nothing is omitted from a `[` to its partner, what stands between them stays. -/
theorem Pairs.omitting_take_succ {ks : List Nat} (h : p.Pairs i j)
    (hks : ∀ k ∈ ks, k < i ∨ j < k) : Text.omitting ks (p.toList.take (j + 1)) =
      Text.omitting ks (p.toList.take i) ++ ('[' :: p.slice (i + 1) j ++ [']']) := by
  have hlt := h.lt
  have hsize := lt_size_of_command? (command?_eq_closing_iff.mpr h.closing)
  have hstart : (p.toList.take i).length = i := by
    rw [List.length_take, ← size_eq_length]
    omega
  have hwhole : (p.toList.take (j + 1)).length = j + 1 := List.length_take_of_le hsize
  rw [take_eq_append_slice (by omega : i ≤ j + 1)] at hwhole ⊢
  rw [Text.omitting_append, slice_cons (by omega) h.opening, slice_concat hlt h.closing]
  · rfl
  · rwa [hwhole, hstart]

/-- Without the brackets that are lost among them the first `n` characters are balanced. -/
theorem balanced_omitting {ks : List Nat} (hn : n ≤ p.size)
    (hks : ∀ k < n, k ∈ ks ↔ p.Lost n k) : Balanced (Text.omitting ks (p.toList.take n)) := by
  induction n using Nat.strongRecOn with
  | ind n ih =>
    cases n with
    | zero => exact .empty
    | succ n =>
      obtain ⟨c, hchar, -⟩ := drop_eq_cons (p := p) (k := n) hn
      have hlast := hks n (Nat.lt_succ_self n)
      have earlier : ∀ i ≤ n, (∀ k < i, p.Lost (n + 1) k ↔ p.Lost i k) →
          Balanced (Text.omitting ks (p.toList.take i)) := fun i hi hlost =>
        ih i (Nat.lt_succ_of_le hi) (by omega) fun k hk => (hks k (by omega)).trans (hlost k hk)
      rcases p.command?_cases n with hc | hc | ⟨ho, hc⟩
      · have hmem : n ∈ ks := hlast.mpr (.inr (openAt_succ_opening hc ▸ List.mem_cons_self))
        rw [omitting_take_succ ks hchar, if_pos hmem, List.append_nil]
        exact earlier n (Nat.le_refl n) fun k hk => lost_succ_opening hc hk
      · have hopen := openAt_succ_closing hc
        cases hcons : p.openAt n with
        | nil =>
          have hmem : n ∈ ks := hlast.mpr (.inl ⟨hc, hcons⟩)
          rw [hcons, List.tail_nil, ← hcons] at hopen
          rw [omitting_take_succ ks hchar, if_pos hmem, List.append_nil]
          exact earlier n (Nat.le_refl n) fun k _ => lost_congr hopen
        | cons i outer =>
          -- from the partner on everything stays, and before it the same is lost
          have hpairs : p.Pairs i n := pairs_iff.mpr ⟨command?_eq_closing_iff.mp hc, _, hcons⟩
          have hstays : ∀ k ∈ ks, k < i ∨ n < k := fun k hk => by
            by_contra hbetween
            exact hpairs.not_lost (by omega) (by omega) ((hks k (by omega)).mp hk)
          rw [hcons, List.tail_cons, ← (openAt_cons hcons).2.2] at hopen
          rw [hpairs.omitting_take_succ hstays]
          exact (earlier i (Nat.le_of_lt hpairs.lt) fun k _ => lost_congr hopen).append
            hpairs.balanced.loop
      · have hopen := openAt_succ_other ho hc
        have hmem : n ∉ ks := fun hmem => by
          rcases hlast.mp hmem with ⟨hclosing, -⟩ | hmem
          · exact hc hclosing
          · rw [hopen] at hmem
            exact absurd (opening_of_mem_openAt hmem).1 (Nat.lt_irrefl n)
        rw [omitting_take_succ ks hchar, if_neg hmem]
        exact (earlier n (Nat.le_refl n) fun k _ => lost_congr hopen).append
          (balanced_singleton hchar ho hc)

theorem balanced_omitting_unmatched (p : Program) :
    Balanced (Text.omitting p.unmatched p.toList) := by
  have h := balanced_omitting (Nat.le_refl p.size) fun k _ => mem_unmatched_iff_lost
  rwa [size_eq_length, List.take_length] at h

theorem unmatched_eq_nil_iff : p.unmatched = [] ↔ Balanced p.toList := by
  constructor
  · intro h
    have hall := p.balanced_omitting_unmatched
    rwa [h, Text.omitting_nil] at hall
  · intro h
    rw [unmatched, Pairing.ofText, h.foldl_pass]
    rfl

/-- The brackets that a pass leaves over are, in ascending order, those without a partner;
every other bracket has one and only one. None is left over just if the whole text is
balanced, each `]` that is left over stands before each such `[`, and without what is left
over the text is balanced. -/
theorem unmatched_partners (p : Program) :
    p.unmatched.Pairwise (· < ·) ∧
      (∀ k, k ∈ p.unmatched ↔ p.IsBracket k ∧ ∀ l, ¬ p.Partners k l) ∧
      (∀ k, p.IsBracket k → k ∉ p.unmatched → ∃! l, p.Partners k l) ∧
      (p.unmatched = [] ↔ Balanced p.toList) ∧
      (∀ i ∈ p.unmatched, ∀ j ∈ p.unmatched, p.char? i = some ']' → p.char? j = some '[' →
        i < j) ∧
      Balanced (Text.omitting p.unmatched p.toList) := by
  refine ⟨p.unmatched_ascends, fun k => mem_unmatched_iff_partners, fun k hk hmem => ?_,
    unmatched_eq_nil_iff, fun i hi j hj => unmatched_closing_lt_opening hi hj,
    p.balanced_omitting_unmatched⟩
  have hexists : ∃ l, p.Partners k l := by
    by_contra hnone
    exact hmem (mem_unmatched_iff_partners.mpr ⟨hk, fun l hl => hnone ⟨l, hl⟩⟩)
  obtain ⟨l, hl⟩ := hexists
  exact ⟨l, hl, fun l' hl' => hl.unique hl'⟩

/-- A stray `]`, a `[` left open, and a loop that has both its brackets. -/
theorem unmatched_partners_stray : let p : Program := ⟨#[']', '[', '+', '[', ']']⟩
    p.unmatched = [0, 1] ∧ p.IsBracket 3 ∧ 3 ∉ p.unmatched ∧ (∃! l, p.Partners 3 l) ∧
      (∀ l, ¬ p.Partners 1 l) ∧ Text.omitting p.unmatched p.toList = ['+', '[', ']'] ∧
      Balanced ['+', '[', ']'] := by
  intro p
  obtain ⟨-, hlone, hone, -, -, hbalanced⟩ := unmatched_partners p
  exact ⟨rfl, .inl rfl, by decide, hone 3 (.inl rfl) (by decide), ((hlone 1).mp (by decide)).2,
    rfl, hbalanced⟩

end Program
end TapeMachine
