import TapeMachine.Proofs.Machine.Nested
import TapeMachine.Proofs.Machine.Store

/-! Counters and trees.

A machine with a counter and a stack of open loops does what its structured program
means, as far as that goes on. It enters a loop in two places: at its `[` for the
first time, and at its `]`, from where it goes back past the `[`, every other time
(`Enters`). In the one direction the induction is on the evaluation (`Eval.walk`), in
the other on the number of steps that are left (`eval_of_walk`). -/
namespace TapeMachine

open Machine

variable {p : Program} {texts : Nat → Text} {source : Option (Nat → Text)} {i k n : Nat}
  {m : Machine} {t body rest : Block}

/-- A machine with a program, between two steps, and with this source. -/
structure Works (p : Program) (texts : Nat → Text) (source : Option (Nat → Text))
    (m : Machine) : Prop where
  program : m.program = p
  source : m.source? texts = source
  stepping : m.stepping = false

theorem Works.onward (h : Works p texts source m) (k : Nat) :
    Works p texts source (m.onward texts k).1 := by
  obtain ⟨hp, hsource, hs⟩ := h
  rw [Machine.onward]
  split
  · have hinner := inner_consume (m.receive (texts (k + 1)))
    refine ⟨hinner.program.trans hp, ?_, hinner.stepping.trans hs⟩
    rw [← hsource, source?, source?]
    exact congrArg (if · = true then _ else _) hinner.hears
  · have hnoted := inner_noted m
    have hinner := inner_execute m.noted
    refine ⟨hinner.program.trans (hnoted.program.trans hp), ?_,
      hinner.stepping.trans (hnoted.stepping.trans hs)⟩
    rw [← hsource, source?, source?]
    exact congrArg (if · = true then _ else _) (hinner.hears.trans hnoted.hears)

theorem Works.walk {x y : Machine × Nat} (hwalk : Walk texts n x y)
    (h : Works p texts source x.1) : Works p texts source y.1 := by
  induction hwalk with
  | nil => exact h
  | cons _ _ ih => exact ih (h.onward _)

/-- If all brackets have partners the open loops are those of the text wherever the
machine comes to. -/
theorem Works.loops_eq {x y : Machine × Nat} (hwalk : Walk texts n x y)
    (h : Works p texts source x.1) (hp : p.unmatched = []) (hn : x.1.Nested)
    (hl : x.1.loops = p.openAt x.1.counter) :
    y.1.counter ≤ p.size ∧ y.1.loops = p.openAt y.1.counter := by
  induction hwalk with
  | nil => exact ⟨h.program ▸ hn.counter_le, hl⟩
  | @cons _ x _ hr _ ih =>
    have hstep := stepped_onward texts x.2 h.stepping hr
    have hgoes : ¬ x.1.Skips := fun hskip => by
      have hmem := hskip.unmatched
      rw [h.program, hp] at hmem
      cases hmem
    have hworks := h.onward x.2
    refine ih hworks (hstep.nested hn) ?_
    rw [hstep.loops_eq hn hgoes, hworks.program]

/-- A machine stands at a position with the loops open that the text opens. -/
structure Reached (p : Program) (i : Nat) (m : Machine) : Prop where
  counter : m.counter = i
  loops : m.loops = p.openAt i

/-- A machine is about to go through a block that stands at `i`: it is at its start,
or at the end of the body of the loop that the block starts with. -/
inductive Enters (p : Program) (i : Nat) : Block → Machine → Prop
  | start {t : Block} {m : Machine} : Reached p i m → Enters p i t m
  | back {body rest : Block} {m : Machine} : Reached p (i + 1 + body.length) m →
      Enters p i (.loop body rest) m

/-! ### Steps -/

/-- Past the start or the end of a loop: on a zero cell behind the loop, else in front
of its body. -/
theorem Enters.step (k : Nat) (hw : Works p texts source m)
    (hstands : p.Stands i (Block.loop body rest).text) (h : Enters p i (.loop body rest) m) :
    m.counter < p.size ∧ (m.onward texts k).1.store (m.onward texts k).2 = m.store k ∧
      ((m.store k).cell = 0 → Reached p (i + 1 + body.length + 1) (m.onward texts k).1) ∧
      ((m.store k).cell ≠ 0 → Reached p (i + 1) (m.onward texts k).1) := by
  have hopen : p.openAt (i + 1) = i :: p.openAt i := Program.openAt_succ_opening hstands.opening
  have hbody : p.openAt (i + 1 + body.length) = i :: p.openAt i :=
    hstands.inside.openAt.trans hopen
  have hafter : p.openAt (i + 1 + body.length + 1) = p.openAt i := by
    rw [Program.openAt_succ_closing hstands.closing, hbody, List.tail_cons]
  obtain ⟨rfl, rfl, hs⟩ := hw
  rw [ne_eq, cell_store_eq_zero_iff]
  cases h with
  | start h =>
    have hc : m.program.command? m.counter = some .opening := by
      rw [h.counter]
      exact hstands.opening
    have hlt := Program.lt_size_of_command? hc
    obtain ⟨-, -, hcounter, hloops, -, -, -⟩ := stepped_onward texts k hs hlt
    rw [execute_of hc] at hcounter hloops
    simp only [perform, openLoop] at hcounter hloops
    refine ⟨hlt, store_onward texts k hc hs, fun hz => ?_, fun hz => ?_⟩
    · rw [if_pos hz, h.counter, hstands.loopEnd?] at hcounter
      rw [if_pos hz] at hloops
      exact ⟨hcounter, hloops.trans (h.loops.trans hafter.symm)⟩
    · rw [if_neg hz] at hcounter hloops
      refine ⟨by rw [hcounter, h.counter], ?_⟩
      rw [hloops, hopen, h.counter, h.loops]
  | back h =>
    have hc : m.program.command? m.counter = some .closing := by
      rw [h.counter]
      exact hstands.closing
    have hlt := Program.lt_size_of_command? hc
    obtain ⟨-, -, hcounter, hloops, -, -, -⟩ := stepped_onward texts k hs hlt
    rw [execute_of hc] at hcounter hloops
    have hstack : m.loops = i :: m.program.openAt i := h.loops.trans hbody
    simp only [perform, closeLoop, hstack] at hcounter hloops
    refine ⟨hlt, store_onward texts k hc hs, fun hz => ?_, fun hz => ?_⟩
    · rw [if_pos hz] at hcounter hloops
      refine ⟨by rw [hcounter, h.counter], ?_⟩
      rw [hloops, hafter]
    · rw [if_neg hz] at hcounter hloops
      exact ⟨hcounter, by rw [hloops, hopen]⟩

/-- Past a character that is no bracket. -/
theorem Reached.step {c : Char} {hplain : Plain c} (k : Nat) (hw : Works p texts source m)
    (hstands : p.Stands i (Block.plain c hplain rest).text) (h : Reached p i m) :
    m.counter < p.size ∧ Reached p (i + 1) (m.onward texts k).1 ∧
      (m.onward texts k).1.store (m.onward texts k).2 =
        (m.store k).exec source (Command.ofChar c) := by
  obtain ⟨rfl, rfl, hs⟩ := hw
  obtain ⟨rfl, hloops⟩ := h
  have hc := Program.command?_of_char? hstands.1
  have hlt := Program.lt_size_of_command? hc
  have hstep := stepped_onward texts k hs hlt
  obtain ⟨ho, hcl⟩ := Program.not_bracket hplain hstands.1
  obtain ⟨hcounter, hstack⟩ := execute_plain ho hcl
  refine ⟨hlt, ⟨by rw [hstep.counter, hcounter], ?_⟩, store_onward texts k hc hs⟩
  rw [hstep.loops, hstack, hloops, Program.openAt_succ_other ho hcl]

/-! ### Both directions -/

/-- Whatever a structured program evaluates to, the machine gets there. -/
theorem Eval.walk {s s' : Store} (he : Eval source t s s') (hw : Works p texts source m)
    (hstands : p.Stands i t.text) (h : Enters p i t m) (hs : m.store k = s) :
    ∃ n m' k', Walk texts n (m, k) (m', k') ∧ Works p texts source m' ∧
      Reached p (i + t.length) m' ∧ m'.store k' = s' := by
  induction he generalizing i m k with
  | done =>
    cases h with
    | start h => exact ⟨0, m, k, .nil, hw, h, hs⟩
  | @plain c hplain rest s s' _ ih =>
    cases h with
    | start h =>
      obtain ⟨hlt, hnext, hstore⟩ := h.step k hw hstands
      rw [hs] at hstore
      obtain ⟨n, m', k', hwalk, hw', hend, hs'⟩ :=
        ih (hw.onward k) hstands.2 (.start hnext) hstore
      refine ⟨n + 1, m', k', .cons (by rwa [hw.program]) hwalk, hw', ?_, hs'⟩
      rwa [Block.add_length_plain]
  | @leave body rest s s' hzero _ ih =>
    obtain ⟨hlt, hstore, hleave, -⟩ := h.step k hw hstands
    subst hs
    obtain ⟨n, m', k', hwalk, hw', hend, hs'⟩ :=
      ih (hw.onward k) hstands.after (.start (hleave hzero)) hstore
    refine ⟨n + 1, m', k', .cons (by rwa [hw.program]) hwalk, hw', ?_, hs'⟩
    rwa [Block.add_length_loop]
  | @again body rest s s₁ s' hnz _ _ ihb ihl =>
    obtain ⟨hlt, hstore, -, henter⟩ := h.step k hw hstands
    subst hs
    obtain ⟨n₁, m₁, k₁, hwalk₁, hw₁, hend₁, hs₁⟩ :=
      ihb (hw.onward k) hstands.inside (.start (henter hnz)) hstore
    -- the body ends at the `]`, and from there the loop is entered once more
    obtain ⟨n, m', k', hwalk, hw', hend, hs'⟩ := ihl hw₁ hstands (.back hend₁) hs₁
    exact ⟨n + (n₁ + 1), m', k', (Walk.cons (by rwa [hw.program]) hwalk₁).trans hwalk, hw', hend,
      hs'⟩

/-- A machine that comes to the end of its program went through every block on its way
as the block evaluates. -/
theorem eval_of_walk {x : Machine × Nat} (hwalk : Walk texts n (m, k) x)
    (hx : p.size ≤ x.1.counter) (hw : Works p texts source m) (hstands : p.Stands i t.text)
    (h : Enters p i t m) : ∃ n' m' k', n' ≤ n ∧ Walk texts n' (m', k') x ∧
      Works p texts source m' ∧ Reached p (i + t.length) m' ∧
      Eval source t (m.store k) (m'.store k') := by
  induction n using Nat.strongRecOn generalizing i m k t with
  | _ n ih =>
    have hfirst : m.counter < p.size → ∃ n₁ m₁ k₁, m.onward texts k = (m₁, k₁) ∧ n = n₁ + 1 ∧
        Walk texts n₁ (m₁, k₁) x := by
      intro hlt
      cases hwalk with
      | nil => exact absurd hlt (Nat.not_lt.mpr hx)
      | cons _ hrest => exact ⟨_, _, _, rfl, rfl, hrest⟩
    have hworks := hw.onward k
    cases t with
    | done =>
      cases h with
      | start h => exact ⟨n, m, k, Nat.le_refl n, hwalk, hw, h, .done⟩
    | plain c hplain rest =>
      cases h with
      | start h =>
        obtain ⟨hlt, hnext, hstore⟩ := h.step k hw hstands
        obtain ⟨n₁, m₁, k₁, honward, rfl, hrest⟩ := hfirst hlt
        rw [honward] at hnext hstore hworks
        obtain ⟨n', m', k', hle, hwalk', hw', hend, he⟩ :=
          ih n₁ (Nat.lt_succ_self _) hrest hworks hstands.2 (.start hnext)
        rw [hstore] at he
        refine ⟨n', m', k', Nat.le_succ_of_le hle, hwalk', hw', ?_, .plain he⟩
        rwa [Block.add_length_plain]
    | loop body rest =>
      obtain ⟨hlt, hstore, hleave, henter⟩ := h.step k hw hstands
      obtain ⟨n₁, m₁, k₁, honward, rfl, hrest⟩ := hfirst hlt
      rw [honward] at hstore hleave henter hworks
      by_cases hzero : (m.store k).cell = 0
      · obtain ⟨n', m', k', hle, hwalk', hw', hend, he⟩ :=
          ih n₁ (Nat.lt_succ_self _) hrest hworks hstands.after (.start (hleave hzero))
        rw [hstore] at he
        refine ⟨n', m', k', Nat.le_succ_of_le hle, hwalk', hw', ?_, .leave hzero he⟩
        rwa [Block.add_length_loop]
      · obtain ⟨n₂, m₂, k₂, hle₂, hwalk₂, hw₂, hend₂, he₂⟩ :=
          ih n₁ (Nat.lt_succ_self _) hrest hworks hstands.inside (.start (henter hzero))
        rw [hstore] at he₂
        obtain ⟨n', m', k', hle, hwalk', hw', hend, he⟩ :=
          ih n₂ (Nat.lt_succ_of_le hle₂) hwalk₂ hw₂ hstands (.back hend₂)
        exact ⟨n', m', k', by omega, hwalk', hw', hend, .again hzero he₂ he⟩

/-- A walk through the whole of a structured program is an evaluation of it. -/
theorem eval_of_walk_all {x : Machine × Nat} (hwalk : Walk texts n (m, k) x)
    (hx : p.size ≤ x.1.counter) (hw : Works p texts source m) (hstands : p.Stands 0 t.text)
    (hlength : t.length = p.size) (h : Reached p 0 m) :
    Eval source t (m.store k) (x.1.store x.2) := by
  obtain ⟨n', m', k', -, hrest, hw', hend, he⟩ := eval_of_walk hwalk hx hw hstands (.start h)
  cases hrest with
  | nil => exact he
  | cons hr =>
    rw [hend.counter, hw'.program, Nat.zero_add, hlength] at hr
    exact absurd hr (Nat.lt_irrefl _)

end TapeMachine
