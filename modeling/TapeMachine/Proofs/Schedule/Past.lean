import Mathlib.Data.List.Induction
import TapeMachine.Proofs.Machine.Later
import TapeMachine.Proofs.Schedule.Sound

/-! The past.

A machine that has completed steps since it was made or reset has completed one
last, and the state in which it began that step is the only one in the past of the
run with one step less (`LastStep`). -/
namespace TapeMachine.Scheduler
open Machine

variable {s : Scheduler} {moves : List Move} {i : Nat} {m m₁ m₂ : Machine}

/-- A scheduler before anything has happened: with one machine for its callers, or
with a session that has none yet. -/
inductive Starts : Scheduler → Prop
  | machine {source : Option Source} {sink : Option Sink} {p : Program} {o : Options} {b : Bench} :
      Bench.make {source := source, sink := sink} p o = .ok b → Starts {bench := b}
  | session {source : Option Source} {sink : Option Sink} {t : Session} : t.current = none →
      Starts {bench := {session := some t, source := source, sink := sink}}

/-- A machine made for its callers is the only one, and nothing but that was told. -/
theorem exists_of_make {source : Option Source} {sink : Option Sink} {p : Program} {o : Options}
    {b : Bench} (hb : Bench.make {source := source, sink := sink} p o = .ok b) :
    ∃ m : Machine, m.IsNew ∧ m.program = p ∧ b.bare = [m] ∧ b.signs = [] ∧ b.session = none := by
  obtain ⟨m, hnew, hp, hbare, hsigns, hsession, -⟩ := Bench.exists_of_make hb
  exact ⟨m, hnew, hp, hbare, hsigns, hsession⟩

/-- Every machine is new at first, and no step waits. -/
theorem Starts.isNew (h : s.Starts) : ∀ n ∈ s.bench.bare, n.IsNew := by
  cases h with
  | machine hb =>
    obtain ⟨m, hnew, -, hbare, -⟩ := exists_of_make hb
    intro n hn
    rw [hbare] at hn
    obtain rfl := List.mem_singleton.mp hn
    exact hnew
  | session h => exact fun n hn => absurd hn List.not_mem_nil

theorem Starts.sound (h : s.Starts) : s.Sound := by
  have hwaiting : ∀ j, ¬ Waiting s.bench.bare j := by
    rintro j ⟨n, hn, hstep⟩
    rw [(h.isNew n (List.mem_of_getElem? hn)).stepping] at hstep
    cases hstep
  have hroster : s.roster = {} := by cases h <;> rfl
  refine ⟨?_, ?_, ?_⟩
  · rw [hroster]
    intro t f fs ht
    cases ht
  · rw [hroster]
    exact ⟨List.nodup_nil, fun j => ⟨fun hj => absurd hj (hwaiting j), fun hj => (by cases hj)⟩,
      fun i epoch hm => (by cases hm)⟩
  · cases h with
    | machine hb =>
      obtain ⟨m, -, -, hbare, -, hsession⟩ := exists_of_make hb
      refine ⟨fun _ => ?_, fun t i ht => ?_⟩
      · show 0 < Array.size _
        rw [← Bench.length_bare, hbare]
        exact Nat.one_pos
      · rw [hsession] at ht
        cases ht
    | session hc =>
      refine ⟨fun hn => (by cases hn), fun t i ht hi => ?_⟩
      cases ht
      rw [hc] at hi
      cases hi

/-! ### Machines in a run -/

/-- What every machine has when it is made, and a turn leaves it, it has at any time. -/
theorem play_each {Q : Machine → Prop} (hs : s.Starts) (hnew : ∀ n : Machine, n.IsNew → Q n)
    (hshift : ∀ n n' : Machine, n.Shift n' → Q n → Q n')
    (hm : (s.play moves).bench.machine? i = some m) : Q m.bare := by
  have hall : ∀ n ∈ (s.play moves).bench.bare, Q n := by
    refine play_induction (P := fun ms _ => ∀ n ∈ ms, Q n) hs.sound
      (fun n hn => hnew n (hs.isNew n hn)) ?_ moves
    intro ms sg ms' sg' hms hstir n hn
    obtain ⟨j, hj⟩ := List.getElem?_of_mem hn
    by_cases hlt : j < ms.length
    · obtain ⟨n', hn', hsh⟩ := hstir.at_index (List.getElem?_eq_getElem hlt)
      obtain rfl := Option.some.inj (hn'.symm.trans hj)
      exact hshift _ _ hsh (hms _ (List.getElem_mem hlt))
    · exact hnew n (hstir.isNew_of_length_le (Nat.le_of_not_lt hlt) hj)
  exact hall _ (List.mem_of_getElem? (Bench.getElem?_bare_of hm))

/-- No machine goes away, and what every turn leaves a machine, a run leaves it. -/
theorem play_follow {Q : Machine → Prop} (h : s.Sound) (hm : s.bench.machine? i = some m)
    (hQ : Q m.bare) (hshift : ∀ n n' : Machine, n.Shift n' → Q n → Q n') (moves : List Move) :
    ∃ m', (s.play moves).bench.machine? i = some m' ∧ Q m'.bare := by
  have hfollow : ∃ n, (s.play moves).bench.bare[i]? = some n ∧ Q n := by
    refine play_induction (P := fun ms _ => ∃ n, ms[i]? = some n ∧ Q n) h
      ⟨m.bare, Bench.getElem?_bare_of hm, hQ⟩ ?_ moves
    rintro ms sg ms' sg' ⟨n, hn, hQn⟩ hstir
    obtain ⟨n', hn', hsh⟩ := hstir.at_index hn
    exact ⟨n', hn', hshift n n' hsh hQn⟩
  obtain ⟨n, hn, hQn⟩ := hfollow
  obtain ⟨m', hm', rfl⟩ := Bench.exists_of_getElem?_bare hn
  exact ⟨m', hm', hQn⟩

/-! ### The last step -/

/-- Machine `i` began in `m₁` the last step that it completed before `m`. -/
def LastStep (s : Scheduler) (moves : List Move) (i : Nat) (m m₁ : Machine) : Prop :=
  ∃ before after, moves = before ++ after ∧ (s.play before).bench.machine? i = some m₁ ∧
    m₁.epoch = m.epoch ∧ m₁.steps + 1 = m.steps

theorem play_later (h : s.Sound) (hm : s.bench.machine? i = some m) (moves : List Move) :
    ∃ m', (s.play moves).bench.machine? i = some m' ∧ Later m.bare m'.bare :=
  play_follow h hm (.still (.refl _)) (fun _ _ hsh hlater => hlater.trans hsh.later) moves

/-- Between two states with as many steps and no reset, a machine stood where it was. -/
theorem still_of_steps_eq (h : s.Sound) (hm : s.bench.machine? i = some m)
    (hm₁ : (s.play moves).bench.machine? i = some m₁) (he : m₁.epoch = m.epoch)
    (hs : m₁.steps = m.steps) : Still m m₁ := by
  obtain ⟨n, hn, hlater⟩ := play_later h hm moves
  obtain rfl := Option.some.inj (hn.symm.trans hm₁)
  exact (Still.bare m).trans ((hlater.still_of he hs).trans (Still.bare n).symm)

theorem LastStep.still (hs : s.Sound) (h₁ : LastStep s moves i m m₁)
    (h₂ : LastStep s moves i m m₂) : Still m₁ m₂ := by
  obtain ⟨before₁, after₁, rfl, hm₁, he₁, hs₁⟩ := h₁
  obtain ⟨before₂, after₂, heq, hm₂, he₂, hs₂⟩ := h₂
  rcases List.append_eq_append_iff.mp heq with ⟨mid, rfl, -⟩ | ⟨mid, rfl, -⟩
  · rw [play_append] at hm₂
    exact still_of_steps_eq (play_sound hs before₁).1 hm₁ hm₂ (he₂.trans he₁.symm) (by omega)
  · rw [play_append] at hm₁
    exact (still_of_steps_eq (play_sound hs before₂).1 hm₂ hm₁ (he₁.trans he₂.symm)
      (by omega)).symm

/-- A machine stands at the start or has its last step behind it. -/
theorem atStart_or_lastStep (hs : s.Starts) (hm : (s.play moves).bench.machine? i = some m) :
    m.AtStart ∨ ∃ m₁, LastStep s moves i m m₁ ∧ Stepped m₁ m := by
  induction moves using List.reverseRecOn generalizing m with
  | nil =>
    have hnew := hs.isNew _ (List.mem_of_getElem? (Bench.getElem?_bare_of hm))
    exact .inl (hnew.atStart.still (Still.bare m).symm)
  | append_singleton moves x ih =>
    rw [play_concat] at hm
    obtain ⟨sg, hstir, -⟩ := (move_moved (play_sound hs.sound moves).1 x).stir
    have hbare := Bench.getElem?_bare_of hm
    by_cases hi : i < (s.play moves).bench.bare.length
    · obtain ⟨n, hn, heq⟩ := Bench.exists_of_getElem?_bare (List.getElem?_eq_getElem hi)
      obtain ⟨m', hm', hshift⟩ := hstir.at_index (Bench.getElem?_bare_of hn)
      obtain rfl := Option.some.inj (hm'.symm.trans hbare)
      rcases hshift.progress with hstill | hstep | ⟨-, hstart⟩
      · have hstill' := (Still.bare n).trans (hstill.trans (Still.bare m).symm)
        rcases ih hn with hstart | ⟨m₁, ⟨before, after, heq, hm₁, he, hs⟩, hstep⟩
        · exact .inl (hstart.still hstill')
        · refine .inr ⟨m₁, ⟨before, after ++ [x], ?_, hm₁, ?_, ?_⟩, hstep.still hstill'⟩
          · rw [heq, List.append_assoc]
          · exact he.trans hstill'.epoch.symm
          · exact hs.trans hstill'.steps.symm
      · have hstep' := hstep.of_bare
        exact .inr ⟨n, ⟨moves, [x], rfl, hn, hstep'.epoch.symm, hstep'.steps.symm⟩, hstep'⟩
      · exact .inl (hstart.still (Still.bare m).symm)
    · have hnew := hstir.isNew_of_length_le (Nat.le_of_not_lt hi) hbare
      exact .inl (hnew.atStart.still (Still.bare m).symm)

end TapeMachine.Scheduler
