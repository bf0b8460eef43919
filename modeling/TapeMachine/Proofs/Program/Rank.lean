import TapeMachine.Proofs.Program.Nesting

/-! Programs without comments.

A position of a program has a place in the program without comments: as many characters
stand before it there as instructions did before (`Program.rank`). At that place stands
the same instruction, and a scan for the end of a loop that begins there ends at the
place of the end that it would have found. -/
namespace TapeMachine.Program

variable {p : Program} {i j : Nat} {c : Command}

/-- How many instructions stand before a position. -/
def rank (p : Program) (i : Nat) : Nat := (p.toList.take i).countP isInstruction

theorem toList_strip (p : Program) : p.strip.toList = p.toList.filter isInstruction := rfl

/-! ### From one position to the next -/

theorem rank_of_size_le (h : p.size ≤ i) : p.rank i = p.strip.size := by
  rw [size_eq_length] at h
  rw [rank, List.take_of_length_le h, size_eq_length, toList_strip, List.countP_eq_length_filter]

theorem rank_size (p : Program) : p.rank p.size = p.strip.size := rank_of_size_le (Nat.le_refl _)

/-- The character behind a command, with the count of instructions up to it. -/
theorem rank_step (h : p.command? i = some c) : ∃ ch, p.toList[i]? = some ch ∧
    Command.ofChar ch = c ∧ p.rank (i + 1) = p.rank i + if isInstruction ch then 1 else 0 := by
  simp only [command?, char?_eq, Option.map_eq_some_iff] at h
  obtain ⟨ch, hch, hc⟩ := h
  refine ⟨ch, hch, hc, ?_⟩
  rw [rank, rank, List.take_add_one, hch, Option.toList_some, List.countP_append,
    List.countP_singleton]

theorem rank_succ (h : p.command? i = some c) (hc : c ≠ .comment) :
    p.rank (i + 1) = p.rank i + 1 := by
  obtain ⟨ch, -, rfl, hrank⟩ := rank_step h
  have hinst : isInstruction ch = true := bne_iff_ne.mpr hc
  rw [hrank, if_pos hinst]

theorem rank_succ_comment (h : p.command? i = some .comment) : p.rank (i + 1) = p.rank i := by
  obtain ⟨ch, -, hc, hrank⟩ := rank_step h
  have hinst : ¬ isInstruction ch = true := fun hi => bne_iff_ne.mp hi hc
  rw [hrank, if_neg hinst, Nat.add_zero]

theorem rank_mono (p : Program) (h : i ≤ j) : p.rank i ≤ p.rank j :=
  (List.take_sublist_take_left h).countP_le

/-- Every instruction has a place of its own. -/
theorem rank_injective {d : Command} (hi : p.command? i = some c) (hc : c ≠ .comment)
    (hj : p.command? j = some d) (hd : d ≠ .comment) (h : p.rank i = p.rank j) : i = j := by
  have apart : ∀ {i j c}, p.command? i = some c → c ≠ .comment → i < j → p.rank i < p.rank j := by
    intro i j c hi hc hlt
    have hmono := p.rank_mono (Nat.succ_le_of_lt hlt)
    rw [Nat.succ_eq_add_one, rank_succ hi hc] at hmono
    exact hmono
  rcases Nat.lt_trichotomy i j with hlt | heq | hlt
  · have := apart hi hc hlt
    omega
  · exact heq
  · have := apart hj hd hlt
    omega

/-! ### What stands at a place -/

/-- At the place of an instruction stands that instruction. -/
theorem command?_strip (h : p.command? i = some c) (hc : c ≠ .comment) :
    p.strip.command? (p.rank i) = some c := by
  obtain ⟨ch, hch, rfl, -⟩ := rank_step h
  have hinst : isInstruction ch = true := bne_iff_ne.mpr hc
  obtain ⟨hlt, rfl⟩ := List.getElem?_eq_some_iff.mp hch
  have hsplit : p.strip.toList = (p.toList.take i).filter isInstruction ++
      p.toList[i] :: (p.toList.drop (i + 1)).filter isInstruction := by
    rw [toList_strip, ← List.filter_cons_of_pos hinst, ← List.drop_eq_getElem_cons hlt,
      ← List.filter_append, List.take_append_drop]
  rw [command?, char?_eq, hsplit, rank, List.countP_eq_length_filter,
    List.getElem?_append_right (Nat.le_refl _), Nat.sub_self]
  rfl

theorem rank_lt_size_strip (h : p.command? i = some c) (hc : c ≠ .comment) :
    p.rank i < p.strip.size := lt_size_of_command? (command?_strip h hc)

/-! ### The end of a loop -/

/-- The scan passes over comments as if they were not there. -/
theorem closingFrom_strip (n i depth : Nat) (hn : p.size = i + n) :
    p.strip.closingFrom (p.strip.size - p.rank i) (p.rank i) depth =
      (p.closingFrom n i depth).map p.rank := by
  induction n generalizing i depth with
  | zero =>
    have hrank : p.rank i = p.strip.size := rank_of_size_le (by omega)
    rw [hrank, Nat.sub_self]
    rfl
  | succ n ih =>
    have hlt : i < p.size := by omega
    have ih' := fun depth => ih (i + 1) depth (by omega)
    obtain ⟨c, hc⟩ := Option.ne_none_iff_exists'.mp
      (mt (command?_eq_none_iff (p := p)).mp (Nat.not_le_of_lt hlt))
    by_cases hcomment : c = .comment
    · subst hcomment
      rw [closingFrom_other (by rw [hc]; decide) (by rw [hc]; decide), ← ih',
        rank_succ_comment hc]
    · have hplace := command?_strip hc hcomment
      have hroom : p.strip.size - p.rank i = (p.strip.size - p.rank (i + 1)) + 1 := by
        have := rank_lt_size_strip hc hcomment
        rw [rank_succ hc hcomment]
        omega
      rw [hroom]
      have hsucc := rank_succ hc hcomment
      cases c
      case opening =>
        rw [closingFrom_opening hplace, closingFrom_opening hc, ← ih', hsucc]
      case closing =>
        cases depth with
        | zero =>
          rw [closingFrom_closing hplace, closingFrom_closing hc]
          rfl
        | succ depth =>
          rw [closingFrom_closing_succ hplace, closingFrom_closing_succ hc, ← ih', hsucc]
      case comment => exact absurd rfl hcomment
      all_goals
        rw [closingFrom_other (by rw [hplace]; decide) (by rw [hplace]; decide),
          closingFrom_other (by rw [hc]; decide) (by rw [hc]; decide), ← ih', hsucc]

/-- A loop ends at the place of its end. -/
theorem loopEnd?_strip (h : p.command? i = some .opening) :
    p.strip.loopEnd? (p.rank i) = (p.loopEnd? i).map p.rank := by
  have hlt := lt_size_of_command? h
  have hscan := closingFrom_strip (p := p) (p.size - (i + 1)) (i + 1) 0 (by omega)
  rwa [rank_succ h (by decide)] at hscan

end TapeMachine.Program
