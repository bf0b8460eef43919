import Mathlib.Data.ENat.Lattice
import Mathlib.Order.CompletePartialOrder
import TapeMachine.Proofs.Run.Tended

/-! How long a program lasts.

A single step executes an instruction as long as the counter is inside the program, and past
its end it says that it has executed nothing. So of the single steps of a tended machine that
come one after the other, as many execute an instruction as the steps of the machine are
inside the program (`le_lifetime_iff_lasts`), and it may be that there is no end to them. -/
namespace TapeMachine

namespace Machine
variable {texts : Nat → Text} {m : Machine} {n : Nat}

theorem stepping_serial (texts : Nat → Text) (n : Nat) : (serial texts m n).1.stepping = m.stepping := by
  induction n with
  | zero => rfl
  | succ n ih => exact (stepping_onward texts _ _).trans ih

/-- The first so many steps are all inside the program. -/
def Lasts (texts : Nat → Text) (m : Machine) (n : Nat) : Prop :=
  ∀ k, k < n → (serial texts m k).1.counter < (serial texts m k).1.program.size

theorem Lasts.stepped (h : Lasts texts m n) (hs : m.stepping = false) :
    (serial texts m n).1.program = m.program ∧ (serial texts m n).1.steps = m.steps + n := by
  induction n with
  | zero => exact ⟨rfl, rfl⟩
  | succ n ih =>
    obtain ⟨hprogram, hsteps⟩ := ih fun k hk => h k (Nat.lt_succ_of_lt hk)
    have hstep := stepped_onward texts (serial texts m n).2 ((stepping_serial texts n).trans hs)
      (h n (Nat.lt_succ_self n))
    exact ⟨hstep.program.trans hprogram, by rw [serial, hstep.steps, hsteps, Nat.add_assoc]⟩

end Machine

namespace Scheduler
open Machine

variable {s s' : Scheduler} {m : Machine} {texts : Nat → Text} {out : Sink} {prior : Bench.Prior}
  {k n : Nat}

/-- How many single steps execute an instruction before one does not. -/
noncomputable def lifetime (s : Scheduler) : ℕ∞ := ⨆ n, ⨆ _ : ∃ s', StepTimes n s s', (n : ℕ∞)

theorem StepTimes.unique {s₁ s₂ : Scheduler} (h₁ : StepTimes n s s₁) (h₂ : StepTimes n s s₂) :
    s₁ = s₂ := by
  induction h₁ generalizing s₂ with
  | zero =>
    cases h₂
    rfl
  | succ _ hto ih =>
    cases h₂ with
    | succ htimes hto₂ =>
      obtain rfl := ih htimes
      exact (hto.unique hto₂).1

theorem StepTimes.exists_of_le (h : StepTimes n s s') (hk : k ≤ n) : ∃ s₁, StepTimes k s s₁ := by
  induction h with
  | zero =>
    obtain rfl := Nat.le_zero.mp hk
    exact ⟨_, .zero⟩
  | succ htimes hto ih =>
    rcases Nat.le_succ_iff.mp hk with hk | rfl
    · exact ih hk
    · exact ⟨_, .succ htimes hto⟩

theorem le_lifetime_iff : (n : ℕ∞) ≤ s.lifetime ↔ ∃ s', StepTimes n s s' := by
  refine ⟨fun hle => ?_, fun htimes => le_iSup₂_of_le n htimes le_rfl⟩
  by_contra hnone
  obtain ⟨n, rfl⟩ := Nat.exists_eq_succ_of_ne_zero (n := n) (by
    rintro rfl
    exact hnone ⟨s, .zero⟩)
  have hbound : s.lifetime ≤ n := iSup₂_le fun k ⟨s', htimes⟩ => by
    refine Nat.cast_le.mpr (Nat.le_of_lt_succ (Nat.lt_of_not_le fun hk => hnone ?_))
    exact htimes.exists_of_le hk
  have hcast : n.succ ≤ n := Nat.cast_le.mp (hle.trans hbound)
  omega

theorem stepsTo_of_advance {b b' : Bench} (hi : s.Idle) (hb : s.bench = b)
    (h : b.advance [] (.call (.step 0)) = (b', .value (.stepped true) [])) :
    ∃ s', StepsTo s s' .executed ∧ s'.Idle ∧ s'.bench = b' := by
  subst hb
  have hl : Leads s.bench (.call (.step 0)) [] b' (.returned (.ok (.stepped true))) [] :=
    .go h .refl
  exact stepsTo_of_leads hi hl

/-- A step of a tended machine, inside its program. -/
theorem executed_of_tended (hi : s.Idle) (h : Bench.Tended texts out prior s.bench m k)
    (hs : m.stepping = false) (hr : m.counter < m.program.size) :
    ∃ s', StepsTo s s' .executed ∧ s'.Idle ∧
      Bench.Tended texts out prior s'.bench (m.onward texts k).1 (m.onward texts k).2 := by
  obtain ⟨b', hl, h'⟩ := h.step hs hr []
  obtain ⟨s', hto, hi', rfl⟩ := stepsTo_of_leads hi hl
  exact ⟨s', hto, hi', h'⟩

/-- And at its end. -/
theorem ended_of_tended (hi : s.Idle) (h : Bench.Tended texts out prior s.bench m k)
    (hs : m.stepping = false) (he : m.program.size ≤ m.counter) :
    ∃ s', StepsTo s s' .ended ∧
      Bench.Tended texts out prior s'.bench {m with running := false} k := by
  obtain ⟨b', hstop, h'⟩ := h.stop hs he []
  obtain ⟨s', hto, -, rfl⟩ := stepsTo_of_leads hi (.go hstop .refl)
  exact ⟨s', hto, h'⟩

theorem stepTimes_of_lasts (hi : s.Idle) (h : Bench.Tended texts out prior s.bench m 0)
    (hs : m.stepping = false) (hlasts : Lasts texts m n) :
    ∃ s', StepTimes n s s' ∧ s'.Idle ∧
      Bench.Tended texts out prior s'.bench (serial texts m n).1 (serial texts m n).2 := by
  induction n with
  | zero => exact ⟨s, .zero, hi, h⟩
  | succ n ih =>
    obtain ⟨s₁, htimes, hi₁, h₁⟩ := ih fun k hk => hlasts k (Nat.lt_succ_of_lt hk)
    obtain ⟨s', hto, hi', h'⟩ := executed_of_tended hi₁ h₁ ((stepping_serial texts n).trans hs)
      (hlasts n (Nat.lt_succ_self n))
    exact ⟨s', .succ htimes hto, hi', h'⟩

theorem lasts_of_stepTimes (hi : s.Idle) (h : Bench.Tended texts out prior s.bench m 0)
    (hs : m.stepping = false) (htimes : StepTimes n s s') : Lasts texts m n := by
  induction htimes with
  | zero => exact fun k hk => absurd hk (Nat.not_lt_zero k)
  | @succ n s s₁ s' htimes hto ih =>
    have hlasts := ih hi h
    intro k hk
    rcases Nat.lt_succ_iff_lt_or_eq.mp hk with hk | rfl
    · exact hlasts k hk
    · -- past the end a step says that it has executed nothing
      by_contra hr
      obtain ⟨s₂, htimes₂, hi₂, h₂⟩ := stepTimes_of_lasts hi h hs hlasts
      obtain rfl := htimes.unique htimes₂
      obtain ⟨s₃, hto₃, -⟩ := ended_of_tended hi₂ h₂ ((stepping_serial texts _).trans hs)
        (Nat.le_of_not_lt hr)
      cases (hto.unique hto₃).2

theorem le_lifetime_iff_lasts (hi : s.Idle) (h : Bench.Tended texts out prior s.bench m 0)
    (hs : m.stepping = false) : (n : ℕ∞) ≤ s.lifetime ↔ Lasts texts m n := by
  rw [le_lifetime_iff]
  refine ⟨fun ⟨s', htimes⟩ => lasts_of_stepTimes hi h hs htimes, fun hlasts => ?_⟩
  obtain ⟨s', htimes, -⟩ := stepTimes_of_lasts hi h hs hlasts
  exact ⟨s', htimes⟩

/-- The greatest number up to a bound for which the program lasts. -/
theorem eq_min_lifetime (hi : s.Idle) (h : Bench.Tended texts out prior s.bench m 0)
    (hs : m.stepping = false) (hle : k ≤ n) (hlasts : Lasts texts m k)
    (hend : k < n → ¬ Lasts texts m (k + 1)) :
    (k : ℕ∞) = min (n : ℕ∞) s.lifetime ∧ (s.lifetime < n ↔ k < n) := by
  have hk : (k : ℕ∞) ≤ s.lifetime := (le_lifetime_iff_lasts hi h hs).mpr hlasts
  rcases Nat.lt_or_eq_of_le hle with hlt | rfl
  · have hnot : ¬ ((k + 1 : Nat) : ℕ∞) ≤ s.lifetime := fun hmore =>
      hend hlt ((le_lifetime_iff_lasts hi h hs).mp hmore)
    have heq : s.lifetime = k := le_antisymm (by
      rw [Nat.cast_add_one] at hnot
      exact ENat.lt_add_one_iff (ENat.natCast_ne_top k) |>.mp (lt_of_not_ge hnot)) hk
    rw [heq]
    exact ⟨(min_eq_right (Nat.cast_le.mpr hle)).symm, Nat.cast_lt⟩
  · exact ⟨(min_eq_left hk).symm, iff_of_false (not_lt_of_ge hk) (Nat.lt_irrefl k)⟩

end Scheduler
end TapeMachine
