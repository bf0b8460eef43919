import TapeMachine.Proofs.Machine.Counting
import TapeMachine.Proofs.Schedule.Alone
import TapeMachine.Proofs.Schedule.Past

/-! Counting loops in a run.

Instructions that involve nothing but the machine take it the same way in every run:
the number of steps that it has completed says where it stands (`still_ahead`), and
single steps get it there (`stepTimes_ahead`). For a loop that counts this gives the
number of steps after which it is left, or that it never is (`counting_loop`). -/
namespace TapeMachine

open Machine

variable {m m' : Machine} {i k n : Nat} {w : Text}

theorem Bench.complain_of_solitary {b : Bench} (hm : b.machine? i = some m) (h : m.Solitary) :
    b.complain i = b := by
  rw [complain, hm, Option.bind_some, h.complaint]

/-- A step that involves nothing but the machine. -/
theorem Bench.leads_solitary {b : Bench} (hm : b.machine? 0 = some m) (hs : m.stepping = false)
    (h : m.Solitary) : Leads b (.call (.step 0)) [] (b.update 0 fun m => m.execute.advance)
      (.returned (.ok (.stepped true))) [] := by
  refine .go ?_ .refl
  show b.callStep 0 [] = _
  rw [callStep, hm, Option.map_some, h.stance hs, complain_of_solitary hm h]
  rfl

namespace Scheduler

variable {s : Scheduler} {moves : List Move}

/-- As long as nothing but the machine is involved, single steps execute one instruction
after the other, whatever the callbacks are. -/
theorem stepTimes_ahead (hi : s.Idle) (hm : s.bench.machine? 0 = some m)
    (hs : m.stepping = false) (h : ∀ j < n, (m.ahead j).Solitary) :
    ∃ s', StepTimes n s s' ∧ s'.Idle ∧ s'.bench.machine? 0 = some (m.ahead n) := by
  induction n with
  | zero => exact ⟨s, .zero, hi, hm⟩
  | succ n ih =>
    obtain ⟨s₁, htimes, hi₁, hm₁⟩ := ih fun j hj => h j (Nat.lt_succ_of_lt hj)
    have hstepping : (m.ahead n).stepping = false := (ahead_kept m n).2.2.trans hs
    have hleads := Bench.leads_solitary hm₁ hstepping (h n (Nat.lt_succ_self n))
    obtain ⟨s', hto, hi', hbench⟩ := stepsTo_of_leads hi₁ hleads
    refine ⟨s', .succ htimes hto, hi', ?_⟩
    rw [hbench]
    exact Bench.machine?_update_self hm₁ _

/-- Whoever takes the steps, without a reset the number of completed steps says where
the machine stands, as long as nothing else is involved. -/
theorem still_ahead (hs : s.Sound) (hm : s.bench.machine? i = some m)
    (h : ∀ j < n, (m.ahead j).Solitary) (hm' : (s.play moves).bench.machine? i = some m')
    (he : m'.epoch = m.epoch) (hle : m'.steps ≤ m.steps + n) :
    Still (m.ahead (m'.steps - m.steps)) m' := by
  have hrun := play_follow (Q := fun x => m.epoch < x.epoch ∨
      (x.epoch = m.epoch ∧ m.steps + n < x.steps) ∨ ∃ j ≤ n, Still (m.ahead j) x)
    hs hm (.inr (.inr ⟨0, Nat.zero_le _, .bare m⟩)) ?_ moves
  · obtain ⟨x, hx, hcases⟩ := hrun
    obtain rfl := Option.some.inj (hx.symm.trans hm')
    rcases hcases with hreset | ⟨-, hfar⟩ | ⟨j, -, hstill⟩
    · exact absurd he (Nat.ne_of_gt hreset)
    · exact absurd hle (Nat.not_le_of_lt hfar)
    · have hsteps : x.steps = m.steps + j := hstill.steps.trans (ahead_kept m j).1
      rw [hsteps, Nat.add_sub_cancel_left]
      exact hstill.trans (Still.bare x).symm
  · intro x x' hshift hx
    obtain ⟨hle, hsteps⟩ := hshift.later.le
    rcases hx with hreset | ⟨he, hfar⟩ | ⟨j, hj, hstill⟩
    · exact .inl (Nat.lt_of_lt_of_le hreset hle)
    · rcases Nat.lt_or_eq_of_le hle with hlt | heq
      · exact .inl (he ▸ hlt)
      · exact .inr (.inl ⟨heq.symm.trans he, Nat.lt_of_lt_of_le hfar (hsteps heq.symm)⟩)
    · obtain ⟨hsteps, hepoch, -⟩ := ahead_kept m j
      rcases hshift.progress with hstay | hstep | ⟨hlt, -⟩
      · exact .inr (.inr ⟨j, hj, hstill.trans hstay⟩)
      · rcases Nat.lt_or_eq_of_le hj with hlt | rfl
        · -- the instruction is the one that is next in line
          rcases ((h j hlt).still hstill).shift hshift hstep.epoch with hstay | hnext
          · exact .inr (.inr ⟨j, hj, hstill.trans hstay⟩)
          · exact .inr (.inr ⟨j + 1, hlt, hstill.ahead_one.trans hnext⟩)
        · refine .inr (.inl ⟨hstep.epoch.trans (hstill.epoch.trans hepoch), ?_⟩)
          rw [hstep.steps, hstill.steps, hsteps]
          exact Nat.lt_succ_self _
      · rw [hstill.epoch, hepoch] at hlt
        exact .inl hlt

/-- A loop whose body only moves and adds and comes back to its cell is left in the
first round that leaves zero in this cell. Until then every step executes an instruction
of the loop, and then it has added to every cell as often what one round adds. If no
number of rounds leaves zero the machine stays in the loop. -/
theorem counting_loop (hs : s.Sound) (hm : s.bench.machine? i = some m) (h : m.Counts w) :
    (∀ k, m.Zeroes w k → (∀ j < k, ¬ m.Zeroes w j) →
      (∀ moves m', (s.play moves).bench.machine? i = some m' → m'.epoch = m.epoch →
        (m'.steps < m.steps + (1 + k * (w.length + 1)) → m.Within w m') ∧
        (m'.steps = m.steps + (1 + k * (w.length + 1)) → m.Counted w k m')) ∧
      (i = 0 → s.Idle → m.stepping = false → ∃ s' m',
        StepTimes (1 + k * (w.length + 1)) s s' ∧ s'.bench.machine? 0 = some m' ∧
          m.Counted w k m')) ∧
    ((∀ k, ¬ m.Zeroes w k) →
      (∀ moves m', (s.play moves).bench.machine? i = some m' → m'.epoch = m.epoch →
        m.Within w m') ∧
      (i = 0 → s.Idle → m.stepping = false → ∀ n, ∃ s' m',
        StepTimes n s s' ∧ s'.bench.machine? 0 = some m' ∧ m.Within w m')) := by
  refine ⟨fun k hk hfirst => ?_, fun hnever => ?_⟩
  · have hbefore : ∀ n < 1 + k * (w.length + 1), (m.ahead n).Solitary ∧ m.Within w (m.ahead n) := by
      intro n hn
      refine h.ahead_within fun j hj => hfirst j ?_
      by_contra hjk
      have hmul := Nat.mul_le_mul_right (w.length + 1) (Nat.le_of_not_lt hjk)
      omega
    refine ⟨fun moves m' hm' he => ⟨fun hlt => ?_, fun heq => ?_⟩, ?_⟩
    · have hstill := still_ahead hs hm (fun n hn => (hbefore n hn).1) hm' he (Nat.le_of_lt hlt)
      exact (hbefore _ (by omega)).2.still hstill
    · have hstill := still_ahead hs hm (fun n hn => (hbefore n hn).1) hm' he (Nat.le_of_eq heq)
      rw [heq, Nat.add_sub_cancel_left] at hstill
      exact (h.counted hk hfirst).still hstill
    · rintro rfl hi hstepping
      obtain ⟨s', htimes, -, hm'⟩ :=
        stepTimes_ahead hi hm hstepping fun n hn => (hbefore n hn).1
      exact ⟨s', _, htimes, hm', h.counted hk hfirst⟩
  · have hall : ∀ n, (m.ahead n).Solitary ∧ m.Within w (m.ahead n) :=
      fun n => h.ahead_within fun j _ => hnever j
    refine ⟨fun moves m' hm' he => ?_, ?_⟩
    · have hle : m'.steps ≤ m.steps + (m'.steps - m.steps) := by omega
      have hstill := still_ahead hs hm (fun n _ => (hall n).1) hm' he hle
      exact (hall _).2.still hstill
    · rintro rfl hi hstepping n
      obtain ⟨s', htimes, -, hm'⟩ := stepTimes_ahead hi hm hstepping fun n _ => (hall n).1
      exact ⟨s', _, htimes, hm', (hall n).2⟩

/-- Two rounds of a loop that adds three to the next cell. -/
theorem counting_loop_triples : ∃ b s s' m',
    Bench.make {} (.ofList ['+', '+', '[', '-', '>', '+', '+', '+', '<', ']'])
      {memorySize := .integer 2} = .ok b ∧
    s = ({bench := b} : Scheduler).play (Move.alone (.step 0) 2 ++ Move.alone (.step 0) 2) ∧
    StepTimes (1 + 2 * 7) s s' ∧ s'.bench.machine? 0 = some m' ∧ m'.counter = 10 ∧
    m'.tape.value 0 = 0 ∧ m'.tape.value 1 = 6 := by
  obtain ⟨b, hb⟩ : ∃ b, Bench.make {} (.ofList ['+', '+', '[', '-', '>', '+', '+', '+', '<', ']'])
      {memorySize := .integer 2} = .ok b := ⟨_, rfl⟩
  obtain ⟨s, hplay⟩ : ∃ s, s = ({bench := b} : Scheduler).play
      (Move.alone (.step 0) 2 ++ Move.alone (.step 0) 2) := ⟨_, rfl⟩
  have hs : s.Sound := hplay ▸ (play_sound (Starts.machine hb).sound _).1
  obtain ⟨m, hm, hi⟩ : ∃ m, s.bench.machine? 0 = some m ∧ s.Idle := by
    cases hb
    subst hplay
    exact ⟨_, rfl, rfl, rfl⟩
  have hloop := counting_loop (w := ['-', '>', '+', '+', '+', '<']) hs hm
  cases hb
  subst hplay
  cases hm
  obtain ⟨hleaves, -⟩ := hloop
    ⟨⟨rfl, rfl, rfl, rfl, rfl, rfl, rfl, rfl, trivial⟩, by simp [Straight], by decide⟩
  obtain ⟨s', m', htimes, hm', hcounter, -, -, -, hcells⟩ :=
    (hleaves 2 (by decide) (by decide)).2 rfl hi rfl
  refine ⟨_, _, s', m', rfl, rfl, htimes, hm', hcounter, ?_, ?_⟩
  · exact Int.natCast_inj.mp (hcells 0 (by decide))
  · exact Int.natCast_inj.mp (hcells 1 (by decide))

end Scheduler
end TapeMachine
