import TapeMachine.Run

/-! A thread alone.

When nothing else is ready, a call goes on from small turn to small turn until it is
done, and where it sleeps it is the next one to be woken (`Leads`). How many small
turns this takes does not matter as long as there are enough (`StepsTo`); with fewer the
call has no outcome yet (`complete_of_leads`). -/
namespace TapeMachine

open Bench in
/-- What a thread comes to when it is left alone. -/
inductive Leads : Bench → Focus → List Frame → Bench → Focus → List Frame → Prop
  | refl {b : Bench} {f : Focus} {fs : List Frame} : Leads b f fs b f fs
  | go {b b₁ b' : Bench} {f f₁ f' : Focus} {fs fs₁ fs' : List Frame} :
      b.advance fs f = (b₁, .go f₁ fs₁) → Leads b₁ f₁ fs₁ b' f' fs' → Leads b f fs b' f' fs'
  | sleep {b b₁ b' : Bench} {f f' : Focus} {fs fs₁ fs' : List Frame} :
      b.advance fs f = (b₁, .sleep fs₁) → Leads b₁ .resumed fs₁ b' f' fs' → Leads b f fs b' f' fs'

theorem Leads.trans {b b₁ b' : Bench} {f f₁ f' : Focus} {fs fs₁ fs' : List Frame}
    (h : Leads b f fs b₁ f₁ fs₁) (h' : Leads b₁ f₁ fs₁ b' f' fs') : Leads b f fs b' f' fs' := by
  induction h with
  | refl => exact h'
  | go he _ ih => exact .go he (ih h')
  | sleep he _ ih => exact .sleep he (ih h')

namespace Scheduler

/-- Nothing is running and nothing is ready. -/
structure Idle (s : Scheduler) : Prop where
  running : s.roster.running = none
  ready : s.roster.ready = []

/-- Thread `t` is running, and nothing else is ready. -/
structure Lone (s : Scheduler) (t : Nat) (b : Bench) (f : Focus) (fs : List Frame) : Prop where
  bench : s.bench = b
  running : s.roster.running = some t
  ready : s.roster.ready = []
  thread : s.roster.threads[t]? = some (.active f fs)

variable {s : Scheduler} {t : Nat} {b b' : Bench} {f f' : Focus} {fs fs' : List Frame}

theorem idle_of_bench (b : Bench) : Idle {bench := b} := ⟨rfl, rfl⟩

theorem Idle.exhaust (h : s.Idle) (fuel : Nat) : exhaust fuel s = s := by
  cases fuel with
  | zero => rfl
  | succ fuel =>
    rw [Scheduler.exhaust, h.running, h.ready]
    rfl

theorem Lone.exhaust (h : Lone s t b f fs) (fuel : Nat) :
    exhaust (fuel + 1) s = exhaust fuel s.advance := by
  rw [Scheduler.exhaust, h.running]
  rfl

theorem Lone.advance_eq (h : Lone s t b f fs) :
    s.advance = ⟨(b.advance fs f).1, s.roster.settle t (b.advance fs f).2⟩ := by
  obtain ⟨bench, roster⟩ := s
  obtain ⟨rfl, hr, -, ht⟩ := h
  have hc : roster.current? = some (t, f, fs) := by
    rw [Roster.current?, show roster.running = some t from hr]
    simp only [show roster.threads[t]? = some (.active f fs) from ht]
  rw [advance, hc]

theorem getElem?_put (h : Lone s t b f fs) (x : Thread) :
    (s.roster.put t x).threads[t]? = some x := by
  have hlt := (Array.getElem?_eq_some_iff.mp h.thread).1
  rw [Roster.put, Array.getElem?_setIfInBounds_self_of_lt hlt]

theorem Lone.go (h : Lone s t b f fs) (he : b.advance fs f = (b', .go f' fs')) :
    Lone s.advance t b' f' fs' := by
  rw [h.advance_eq, he]
  exact ⟨rfl, h.running, h.ready, getElem?_put h _⟩

/-- A thread that is still at work has no outcome. -/
theorem Lone.unfinished (h : Lone s t b f fs) : s.outcome? t = none := by
  rw [Scheduler.outcome?, h.thread]
  rfl

/-- A thread that sleeps alone is woken at once. -/
theorem Lone.sleep (h : Lone s t b f fs) (he : b.advance fs f = (b', .sleep fs')) :
    ∃ s', Lone s' t b' .resumed fs' ∧ s.advance.outcome? t = none ∧
      ∀ fuel, Scheduler.exhaust (fuel + 2) s = Scheduler.exhaust fuel s' := by
  refine ⟨s.advance.dispatch, ?_, ?_, fun fuel => ?_⟩
  · rw [h.advance_eq, he]
    have hput := getElem?_put h (.active .resumed fs')
    refine ⟨rfl, ?_, ?_, ?_⟩
    · simp [dispatch, Roster.settle, Roster.dispatch, h.ready]
    · simp [dispatch, Roster.settle, Roster.dispatch, h.ready]
    · simpa [dispatch, Roster.settle, Roster.dispatch, h.ready] using hput
  · rw [h.advance_eq, he]
    have hput := getElem?_put h (.active .resumed fs')
    simp [Scheduler.outcome?, Roster.settle, hput, Thread.outcome?]
  · rw [h.exhaust, Scheduler.exhaust]
    rw [h.advance_eq, he]
    simp [Roster.settle, h.ready]

/-- On the way the thread has no outcome yet. -/
theorem Lone.leads (h : Lone s t b f fs) (hl : Leads b f fs b' f' fs') :
    ∃ n s', Lone s' t b' f' fs' ∧
      (∀ fuel, Scheduler.exhaust (fuel + n) s = Scheduler.exhaust fuel s') ∧
      ∀ fuel, fuel < n → (Scheduler.exhaust fuel s).outcome? t = none := by
  induction hl generalizing s with
  | refl => exact ⟨0, s, h, fun _ => rfl, fun fuel hlt => absurd hlt (Nat.not_lt_zero fuel)⟩
  | go he _ ih =>
    obtain ⟨n, s', hs', hf, hbefore⟩ := ih (h.go he)
    refine ⟨n + 1, s', hs', fun fuel => (h.exhaust (fuel + n)).trans (hf fuel), fun fuel hlt => ?_⟩
    cases fuel with
    | zero => exact h.unfinished
    | succ fuel =>
      rw [h.exhaust]
      exact hbefore fuel (Nat.lt_of_succ_lt_succ hlt)
  | sleep he _ ih =>
    obtain ⟨s₁, hs₁, hasleep, hf₁⟩ := h.sleep he
    obtain ⟨n, s', hs', hf, hbefore⟩ := ih hs₁
    refine ⟨n + 2, s', hs', fun fuel => (hf₁ (fuel + n)).trans (hf fuel), fun fuel hlt => ?_⟩
    match fuel with
    | 0 => exact h.unfinished
    | 1 =>
      rw [h.exhaust]
      exact hasleep
    | fuel + 2 =>
      rw [hf₁]
      exact hbefore fuel (by omega)

/-! ### Calls -/

theorem Idle.spawn (h : s.Idle) (c : Call) :
    Lone (s.spawn c).dispatch s.roster.threads.size s.bench (.call c) [] ∧
      ∀ fuel, Scheduler.exhaust (fuel + 1) (s.spawn c) =
        Scheduler.exhaust fuel (s.spawn c).dispatch := by
  have hrun : (s.spawn c).roster.running = none := h.running
  have hready : (s.spawn c).roster.ready = [s.roster.threads.size] := by
    simp [Scheduler.spawn, Roster.spawn, h.ready]
  have hroster : (s.spawn c).roster.dispatch =
      {(s.spawn c).roster with ready := [], running := some s.roster.threads.size} := by
    rw [Roster.dispatch.eq_def, hrun, hready]
  refine ⟨⟨rfl, ?_, ?_, ?_⟩, fun fuel => ?_⟩
  · rw [dispatch, hroster]
  · rw [dispatch, hroster]
  · rw [dispatch, hroster]
    simp [Scheduler.spawn, Roster.spawn]
  · rw [Scheduler.exhaust, hrun, hready]
    rfl

/-- A call that was only just made has no outcome. -/
theorem outcome?_spawn (s : Scheduler) (c : Call) :
    (s.spawn c).outcome? s.roster.threads.size = none := by
  simp [Scheduler.spawn, Roster.spawn, outcome?, Thread.outcome?]

/-- The thread of a call that has ended is done. -/
theorem Lone.done {o : Outcome} (h : Lone s t b (.returned o) []) :
    s.advance.Idle ∧ s.advance.bench = b ∧ s.advance.outcome? t = some o := by
  rw [h.advance_eq]
  refine ⟨⟨rfl, h.ready⟩, rfl, ?_⟩
  have hput := getElem?_put h (.finished o)
  simp [outcome?, Bench.advance, Bench.giveBack, Roster.settle, hput, Thread.outcome?]

/-- The thread of a call that waits for a text is not done. -/
theorem Lone.await (h : Lone s t b f fs) (he : b.advance fs f = (b', .await fs')) :
    s.advance.Idle ∧ s.advance.outcome? t = none := by
  rw [h.advance_eq, he]
  refine ⟨⟨rfl, h.ready⟩, ?_⟩
  have hput := getElem?_put h (.active .resumed fs')
  simp [outcome?, Roster.settle, hput, Thread.outcome?]

/-- A call that is made when nothing else is going on has an outcome as soon as it was
given enough small turns, and none before. -/
theorem complete_of_leads (h : s.Idle) {c : Call} {o : Outcome}
    (hl : Leads s.bench (.call c) [] b' (.returned o) []) :
    ∃ n s', s'.Idle ∧ s'.bench = b' ∧ (∀ fuel, n ≤ fuel → s.complete fuel c = (s', some o)) ∧
      ∀ fuel, fuel < n → (s.complete fuel c).2 = none := by
  obtain ⟨hlone, hspawn⟩ := h.spawn c
  obtain ⟨n, s₁, hs₁, hf, hbefore⟩ := hlone.leads hl
  obtain ⟨hidle, hbench, ho⟩ := hs₁.done
  refine ⟨n + 2, s₁.advance, hidle, hbench, fun fuel hle => ?_, fun fuel hlt => ?_⟩
  · obtain ⟨more, rfl⟩ := Nat.exists_eq_add_of_le hle
    have hex : Scheduler.exhaust (n + 2 + more) (s.spawn c) = s₁.advance := by
      rw [show n + 2 + more = (more + 1 + n) + 1 by omega, hspawn, hf, hs₁.exhaust, hidle.exhaust]
    rw [complete, hex, ho]
  · cases fuel with
    | zero => exact outcome?_spawn s c
    | succ fuel =>
      show (Scheduler.exhaust (fuel + 1) (s.spawn c)).outcome? _ = none
      rw [hspawn]
      rcases Nat.lt_or_ge fuel n with hlt | hle
      · exact hbefore fuel hlt
      · obtain rfl : fuel = 0 + n := by omega
        rw [hf]
        exact hs₁.unfinished

/-- A call that comes to wait for a text when nothing else is going on has no outcome. -/
theorem complete_of_awaits {b'' : Bench} {fs'' : List Frame} (h : s.Idle) {c : Call}
    (hl : Leads s.bench (.call c) [] b' f' fs') (he : b'.advance fs' f' = (b'', .await fs'')) :
    ∃ n s', ∀ fuel, n ≤ fuel → s.complete fuel c = (s', none) := by
  obtain ⟨hlone, hspawn⟩ := h.spawn c
  obtain ⟨n, s₁, hs₁, hf, -⟩ := hlone.leads hl
  obtain ⟨hidle, ho⟩ := hs₁.await he
  refine ⟨n + 2, s₁.advance, fun fuel hle => ?_⟩
  obtain ⟨more, rfl⟩ := Nat.exists_eq_add_of_le hle
  have hex : Scheduler.exhaust (n + 2 + more) (s.spawn c) = s₁.advance := by
    rw [show n + 2 + more = (more + 1 + n) + 1 by omega, hspawn, hf, hs₁.exhaust, hidle.exhaust]
  rw [complete, hex, ho]

/-- A single step of the first machine has this effect, given enough small turns. -/
def StepsTo (s s' : Scheduler) (r : Stepped) : Prop :=
  ∃ n, ∀ fuel, n ≤ fuel → s.stepOnce fuel = (s', r)

/-- So many single steps, one after the other, each of which executes an instruction. -/
inductive StepTimes : Nat → Scheduler → Scheduler → Prop
  | zero {s : Scheduler} : StepTimes 0 s s
  | succ {n : Nat} {s s₁ s' : Scheduler} :
      StepTimes n s s₁ → StepsTo s₁ s' .executed → StepTimes (n + 1) s s'

theorem StepsTo.unique {s₁ s₂ : Scheduler} {r₁ r₂ : Stepped} (h₁ : StepsTo s s₁ r₁)
    (h₂ : StepsTo s s₂ r₂) : s₁ = s₂ ∧ r₁ = r₂ := by
  obtain ⟨n₁, h₁⟩ := h₁
  obtain ⟨n₂, h₂⟩ := h₂
  have h := (h₁ (n₁ + n₂) (Nat.le_add_right _ _)).symm.trans (h₂ _ (Nat.le_add_left _ _))
  exact Prod.mk.inj h

theorem StepTimes.cons {n : Nat} {s₁ s' : Scheduler} (h : StepsTo s s₁ .executed)
    (h' : StepTimes n s₁ s') : StepTimes (n + 1) s s' := by
  induction h' with
  | zero => exact .succ .zero h
  | succ _ hto ih => exact .succ (ih h) hto

theorem stepsTo_of_leads (h : s.Idle) {executed : Bool}
    (hl : Leads s.bench (.call (.step 0)) [] b' (.returned (.ok (.stepped executed))) []) :
    ∃ s', StepsTo s s' (if executed then .executed else .ended) ∧ s'.Idle ∧ s'.bench = b' := by
  obtain ⟨n, s', hidle, hbench, hf, -⟩ := complete_of_leads h hl
  refine ⟨s', ⟨n, fun fuel hle => ?_⟩, hidle, hbench⟩
  rw [stepOnce, hf fuel hle]
  cases executed <;> rfl

end Scheduler
end TapeMachine
