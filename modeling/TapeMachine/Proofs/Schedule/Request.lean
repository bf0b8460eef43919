import TapeMachine.Proofs.Schedule.Stop

/-! Requests to run.

A call that runs a machine while a run loop of it is active takes back a pause and ends at
once; the loop is to carry on. It does, to the end of the program, unless it is paused again,
reset, or fails. But a loop that was told to stop by a reset before the call stops all the
same, without a step more, and the request is lost (`Scheduler.play_requested`). -/
namespace TapeMachine

namespace Bench
variable {b : Bench} {f : Focus} {fs : List Frame} {i : Nat} {m : Machine}

theorem callRun_joins (hm : b.machine? i = some m) (hl : m.looping = true) (fs : List Frame) :
    ∃ s, b.callRun i fs = (b.update i Machine.unpause, .value (.state s) fs) := by
  have hlooping : (b.update i Machine.unpause).holds i (·.looping) = true := by
    rw [looping_unpause, holds_of hm]
    exact hl
  refine ⟨(b.update i Machine.unpause).snapshot? i, ?_⟩
  simp only [callRun]
  rw [if_pos hlooping]

/-- A call that runs a machine with an active run loop takes back a pause and ends at once. -/
theorem advance_joins (hf : b.Rouses i f) (hm : b.machine? i = some m) (hl : m.looping = true)
    (fs : List Frame) : ∃ s m', (b.advance fs f).2 = .value (.state s) fs ∧
      (b.advance fs f).1.machine? i = some m' ∧ m'.paused = false ∧ m'.epoch = m.epoch := by
  have hm' := machine?_update_self hm Machine.unpause
  have hrun : ∃ s m', (b.callRun i fs).2 = .value (.state s) fs ∧
      (b.callRun i fs).1.machine? i = some m' ∧ m'.paused = false ∧ m'.epoch = m.epoch := by
    obtain ⟨s, hs⟩ := callRun_joins hm hl fs
    rw [hs]
    exact ⟨s, _, rfl, hm', rfl, rfl⟩
  cases f with
  | call c =>
    cases c with
    | run j =>
      cases hf
      exact hrun
    | resume j =>
      cases hf
      show ∃ s m', (b.callResume i fs).2 = _ ∧ (b.callResume i fs).1.machine? i = _ ∧ _
      rw [callResume]
      split
      · exact hrun
      next hp =>
        rw [holds_of hm, Bool.not_eq_true] at hp
        exact ⟨none, m, rfl, hm, hp, rfl⟩
    | sessionStart =>
      obtain ⟨⟨p, o, phase, current, last⟩, hs, rfl, rfl⟩ := hf
      have hlooping : (b.putSession ⟨p, o, .running, some i, last⟩).holds i (·.looping) = true :=
        (holds_of (b := b.putSession _) hm _).trans hl
      refine ⟨none, m.unpause, ?_⟩
      show (b.callStart fs).2 = _ ∧ (b.callStart fs).1.machine? i = _ ∧ _
      simp only [callStart, hs]
      rw [if_pos hlooping]
      exact ⟨rfl, machine?_update_self (b := b.putSession _) hm _, rfl, rfl⟩
    | step | sessionStep => cases hf
  | returned | answered | resumed => cases hf

end Bench

namespace Scheduler
variable {s s₀ : Scheduler} {moves more before after : List Move} {t i : Nat} {rest : List Frame}
  {m m₀ : Machine}

/-- In a move machine `i` is neither paused nor reset. -/
def Spares (i : Nat) (s : Scheduler) (x : Move) : Prop :=
  (s.bench.holds i (·.paused) = false → (s.move x).bench.holds i (·.paused) = false) ∧
    (s.move x).bench.epoch? i = s.bench.epoch? i

instance (i : Nat) (s : Scheduler) : DecidablePred (Spares i s) := fun _ =>
  inferInstanceAs (Decidable (_ ∧ _))

theorem spared_play (h : s.Along (Spares i) more) (hp : s.bench.holds i (·.paused) = false) :
    (s.play more).bench.holds i (·.paused) = false ∧
      (s.play more).bench.epoch? i = s.bench.epoch? i := by
  induction more generalizing s with
  | nil => exact ⟨hp, rfl⟩
  | cons x more ih =>
    obtain ⟨hp', he⟩ := ih h.2 (h.1.1 hp)
    exact ⟨hp', he.trans h.1.2⟩

theorem Governed.epoch_le_play (h : s.Governed) (ha : s.Along Addresses more)
    (hm : s.bench.machine? i = some m) :
    ∃ m', (s.play more).bench.machine? i = some m' ∧ m.epoch ≤ m'.epoch := by
  induction more generalizing s m with
  | nil => exact ⟨m, hm, Nat.le_refl _⟩
  | cons x more ih =>
    obtain ⟨m₁, hm₁, -⟩ := h.machine_move x hm
    obtain ⟨m', hm', hle⟩ := ih (h.move ha.1) ha.2 hm₁
    exact ⟨m', hm', Nat.le_trans (h.epoch_le x hm hm₁) hle⟩

/-- A run loop was entered before the moves `more`. -/
theorem Entered.earlier (h : s₀.Entered (moves ++ more) t i rest before after m₀)
    (hbefore : before ++ [.turn] <+: moves) :
    ∃ after', s₀.Entered moves t i rest before after' m₀ := by
  obtain ⟨after', rfl⟩ := hbefore
  have hsplit := h.split
  rw [List.append_assoc, List.append_assoc] at hsplit
  obtain rfl := List.cons.inj (List.append_cancel_left hsplit) |>.2
  refine ⟨after', ?_, h.enters, h.machine, ((along_append _ _ after' more).mp h.stays).1⟩
  rw [List.append_assoc, List.singleton_append]

/-- A run loop that is not paused and whose machine was not reset ends with the program. -/
theorem Course.finishes {e₀ : Nat} {v : Value} (h : s.Governed) (hk : s.Course t i rest e₀)
    (hv : s.advance.roster.current? = some (t, .returned (.ok v), rest))
    (hle : ∀ m, s.bench.machine? i = some m → m.counter ≤ m.program.size)
    (hp : s.bench.holds i (·.paused) = false) (he : s.bench.epoch? i = some e₀) :
    ∃ m, s.advance.bench.machine? i = some m ∧ v = .state (some m.toSnapshot) ∧
      m.counter = m.program.size := by
  obtain ⟨n, hn, hn', hends⟩ := hk.concludes h hv hle
  refine ⟨_, hn', hends.value, ?_⟩
  rcases hends.reason with hpaused | hend | hlt
  · rw [Bench.holds_of hn] at hp
    exact absurd hpaused (Bool.eq_false_iff.mp hp)
  · exact hend
  · rw [Bench.epoch?, hn, Option.map_some] at he
    exact absurd hlt (Option.some.inj he ▸ Nat.lt_irrefl _)

/-- A run loop whose machine was reset begins no instruction. -/
theorem Course.starts_none {e₀ : Nat} (h : s.Governed) (hk : s.Course t i rest e₀)
    (hm : s.bench.machine? i = some m) (hlt : e₀ < m.epoch) :
    s.roster.current? ≠ some (t, .call (.step i), .looping i :: rest) := by
  intro hc
  have hgo := h.going t i rest (Roster.current?_eq_some_iff.mp hc).2
  rw [Bench.holds_of hm, Machine.goesOn, (hk.machine m hm).2.2 hlt] at hgo
  cases hgo

/-- A call runs machine `i` while a run loop of it is active. The call ends at once. If the
machine was not reset since the loop was entered, and is neither paused nor reset after the
call, the loop does not end without a failure before the program has ended. If it was reset
since the loop was entered, the loop begins no instruction more. -/
theorem play_requested (hs : s₀.Starts) (ha : s₀.Along Addresses (moves ++ .turn :: more))
    (hentered : s₀.Entered (moves ++ .turn :: more) t i rest before after m₀)
    (hbefore : before ++ [.turn] <+: moves) (hcall : (s₀.play moves).Rouses .turn i) :
    (∃ u f fs v, (s₀.play moves).roster.current? = some (u, f, fs) ∧
      (s₀.play moves).advance.roster.current? = some (u, .returned (.ok (.state v)), fs)) ∧
    ((s₀.play moves).bench.epoch? i = some m₀.epoch →
      (s₀.play moves).advance.Along (Spares i) more → ∀ v,
        (s₀.play (moves ++ .turn :: more)).advance.roster.current? =
          some (t, .returned (.ok v), rest) →
        ∃ m, (s₀.play (moves ++ .turn :: more)).advance.bench.machine? i = some m ∧
          v = .state (some m.toSnapshot) ∧ m.counter = m.program.size) ∧
    ((s₀.play moves).bench.epoch? i ≠ some m₀.epoch →
      (s₀.play (moves ++ .turn :: more)).roster.current? ≠
        some (t, .call (.step i), .looping i :: rest)) := by
  obtain ⟨hmoves, hturn, hmore⟩ := (along_append Addresses s₀ moves (.turn :: more)).mp ha
  have h := play_governed hs hmoves
  have hlast : (s₀.play (moves ++ .turn :: more)).Governed := play_governed hs ha
  have hcourse := hentered.course hs ha
  obtain ⟨after', hentered'⟩ := hentered.earlier hbefore
  have hcourse' := hentered'.course hs hmoves
  obtain ⟨m, hm⟩ := h.machine?_of_inLoop hcourse'.inLoop
  have hlooping := h.looping_of_inLoop hm hcourse'.inLoop
  obtain ⟨-, u, f, fs, hc, hrouses⟩ := hcall
  obtain ⟨w, m₁, hx, hm₁, hp₁, he₁⟩ := Bench.advance_joins hrouses hm hlooping fs
  have hsplit : s₀.play (moves ++ .turn :: more) = (s₀.play moves).advance.play more :=
    play_append s₀ moves (.turn :: more)
  have hm₁' : (s₀.play moves).advance.bench.machine? i = some m₁ := by
    rw [advance_of_some hc]
    exact hm₁
  refine ⟨⟨u, f, fs, w, hc, ?_⟩, fun he hspares v hv => ?_, fun he => ?_⟩
  · rw [advance_of_some hc, hx]
    exact Roster.current?_settle_go hc _ _
  · have hp : (s₀.play moves).advance.bench.holds i (·.paused) = false :=
      (Bench.holds_of hm₁' _).trans hp₁
    obtain ⟨hp', he'⟩ := spared_play hspares hp
    rw [← hsplit] at hp' he'
    refine hcourse.finishes hlast hv (fun n hn => (play_nested hs hn).counter_le) hp' ?_
    rw [he', Bench.epoch?, hm₁', Option.map_some, he₁, ← he, Bench.epoch?, hm]
    rfl
  · obtain ⟨n, hn, hle⟩ := (h.move hturn).epoch_le_play hmore hm₁'
    replace hn : (s₀.play (moves ++ .turn :: more)).bench.machine? i = some n := by rwa [hsplit]
    refine hcourse.starts_none hlast hn ?_
    have hne : m.epoch ≠ m₀.epoch := fun heq => he (by rw [Bench.epoch?, hm, ← heq]; rfl)
    have hle₀ := (hcourse'.machine m hm).1
    omega

/-- A session whose source pauses the run that asks it, and starts it again before it
answers. -/
def wavering : Scheduler := {bench := {
  session := some {program := ⟨#[',']⟩, options := ⟨.integer 1, false⟩},
  source := some (.scripted fun _ => .later [.signal .pause, .call .start] (.ok none))}}

/-- The start ends at once, and the run goes on to the end of the program. -/
theorem play_requested_wavering :
    (wavering.play (Move.alone .sessionStart 6)).bench.holds 0 (·.paused) = true ∧
      (wavering.play (Move.alone .sessionStart 6)).Rouses .turn 0 ∧
      ∃ after m₀ m v,
        wavering.Entered (Move.alone .sessionStart 6 ++ .turn :: List.replicate 6 .turn) 0 0
          [.starting 0] [.outside (.spawn .sessionStart), .dispatch, .turn] after m₀ ∧
        (wavering.play (Move.alone .sessionStart 13)).advance.roster.current? =
          some (0, .returned (.ok v), [.starting 0]) ∧
        (wavering.play (Move.alone .sessionStart 13)).advance.bench.machine? 0 = some m ∧
        v = .state (some m.toSnapshot) ∧ m.counter = m.program.size := by
  have hstays : (wavering.play [.outside (.spawn .sessionStart), .dispatch, .turn]).advance.Along
      (Stays 0 0 [.starting 0]) (List.replicate 11 .turn) :=
    ⟨⟨_, _, rfl, [], rfl⟩, ⟨_, _, rfl, [_, _], rfl⟩, ⟨_, _, rfl, [_, _], rfl⟩,
      ⟨_, _, rfl, [_, _, _], rfl⟩, ⟨_, _, rfl, [_, _, _], rfl⟩, ⟨_, _, rfl, [_, _], rfl⟩,
      ⟨_, _, rfl, [_], rfl⟩, ⟨_, _, rfl, [], rfl⟩, ⟨_, _, rfl, [], rfl⟩, ⟨_, _, rfl, [], rfl⟩,
      ⟨_, _, rfl, [], rfl⟩, trivial⟩
  have hentered : wavering.Entered
      (Move.alone .sessionStart 6 ++ .turn :: List.replicate 6 .turn) 0 0 [.starting 0]
      [.outside (.spawn .sessionStart), .dispatch, .turn] (List.replicate 11 .turn) _ :=
    ⟨rfl, ⟨⟨.run 0, .inl rfl, rfl⟩, rfl⟩, rfl, hstays⟩
  have hcall : (wavering.play (Move.alone .sessionStart 6)).Rouses .turn 0 :=
    ⟨rfl, _, _, _, rfl, _, rfl, rfl, rfl⟩
  have hspares : (wavering.play (Move.alone .sessionStart 6)).advance.Along (Spares 0)
      (List.replicate 6 .turn) := by decide
  have hlast : (wavering.play (Move.alone .sessionStart 6 ++ .turn ::
      List.replicate 6 .turn)).advance.roster.current? =
      some (0, .returned (.ok _), [.starting 0]) := rfl
  obtain ⟨-, hgoes, -⟩ := play_requested (.session rfl) (by decide) hentered
    ⟨List.replicate 4 .turn, rfl⟩ hcall
  obtain ⟨m, hm, hv, hend⟩ := hgoes rfl hspares _ hlast
  exact ⟨rfl, hcall, _, _, m, _, hentered, rfl, hm, hv, hend⟩

/-- A run loop waits for text when the machine is reset, and run again. It ends before the
program does. -/
theorem lost_run : ∃ b moves more after m₀ m v,
    Bench.make {source := some (.queue [])} ⟨#[',']⟩ {memorySize := .integer 1} = .ok b ∧
      moves = Move.alone (.run 0) 4 ++
        [.outside (.signal .reset), .outside (.spawn (.run 0)), .dispatch] ∧
      more = [.turn, .outside (.feed ['a']), .outside (.feed ['b']), .dispatch, .turn, .turn] ∧
      ({bench := b} : Scheduler).Entered (moves ++ .turn :: more) 0 0 []
        [.outside (.spawn (.run 0)), .dispatch] after m₀ ∧
      (({bench := b} : Scheduler).play moves).Rouses .turn 0 ∧
      (({bench := b} : Scheduler).play moves).advance.Along (Spares 0) more ∧
      (({bench := b} : Scheduler).play (moves ++ .turn :: more)).advance.roster.current? =
        some (0, .returned (.ok v), []) ∧
      (({bench := b} : Scheduler).play (moves ++ .turn :: more)).advance.bench.machine? 0 =
        some m ∧ m.counter < m.program.size :=
  ⟨_, _, _, _, _, _, _, rfl, rfl, rfl, ⟨rfl, ⟨⟨_, .inl rfl, rfl⟩, rfl⟩, rfl,
    ⟨_, _, rfl, [], rfl⟩, ⟨_, _, rfl, [_, _], rfl⟩, ⟨_, _, rfl, [_, _], rfl⟩,
    ⟨_, _, rfl, [_, _], rfl⟩, ⟨_, _, rfl, [_, _], rfl⟩, ⟨_, _, rfl, [_, _], rfl⟩,
    ⟨_, _, rfl, [_, _], rfl⟩, ⟨_, _, rfl, [_, _], rfl⟩, ⟨_, _, rfl, [_, _], rfl⟩,
    ⟨_, _, rfl, [_, _], rfl⟩, ⟨_, _, rfl, [_, _], rfl⟩, ⟨_, _, rfl, [_], rfl⟩,
    ⟨_, _, rfl, [], rfl⟩, trivial⟩,
    ⟨rfl, _, _, _, rfl, rfl⟩,
    by decide, rfl, rfl, by decide⟩

end Scheduler
end TapeMachine
