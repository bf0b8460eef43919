import TapeMachine.Proofs.Schedule.Heed
import TapeMachine.Proofs.Session.Serve

/-! What a session says of itself.

A session says that it is running or paused, or idle, and its machine has flags that say
as much (`Flags.phase`). The two are not set at one time. A start says that the session is
running before a run loop begins, a run loop ends before the start takes note, and a pause
marks both. So which of the two is ahead depends on what the running thread does next
(`Phased`); between two turns of different threads they agree (`Bench.Agrees`).

There is one exception. A start takes note of how its run ended only if the run did not
fail. If it did, the session goes on to say that it is running, though no run loop is
active (`Scheduler.Wrecks`). -/
namespace TapeMachine

/-- What a machine is up to, by its flags. -/
def Flags.phase (x : Flags) : Phase :=
  if x.paused then .paused else if x.looping then .running else .idle

variable {P : Failure → Prop} {W W' : Nat → Prop} {f : Focus} {fs : List Frame} {i j : Nat}
  {x : Flags}

theorem Flags.phase_eq_running : x.phase = .running ↔ x.looping = true ∧ x.paused = false := by
  rw [phase]
  cases x.paused <;> cases x.looping <;> simp

theorem Flags.phase_eq_paused : x.phase = .paused ↔ x.paused = true := by
  rw [phase]
  cases x.paused <;> cases x.looping <;> simp

theorem Flags.phase_eq_idle : x.phase = .idle ↔ x.looping = false ∧ x.paused = false := by
  rw [phase]
  cases x.paused <;> cases x.looping <;> simp

namespace Bench
variable {b b' : Bench} {o : Outcome}

/-- What the session says is what its machine is up to, but for wrecks, of which the session
may say that they are running. -/
def Agrees (W : Nat → Prop) (b : Bench) : Prop :=
  ∃ s, b.session = some s ∧ (s.current = none → s.phase = .idle) ∧
    ∀ i, s.current = some i → ∃ x, b.flags? i = some x ∧
      (s.phase = x.phase ∨ (s.phase = .running ∧ x.phase = .idle ∧ W i))

/-- The session is about to have a machine run, on which no run loop is active. -/
def Begins (b : Bench) (i : Nat) (x : Flags) : Prop :=
  ∃ s, b.session = some s ∧ s.current = some i ∧ s.phase = .running ∧
    b.flags? i = some x ∧ x.looping = false

/-- The run that a start waited for has ended, and the session has not yet taken note. -/
structure Ended (W : Nat → Prop) (b : Bench) (i : Nat) (o : Outcome) : Prop where
  agrees : b.Agrees fun j => W j ∨ j = i
  looping : ∀ m, b.machine? i = some m → m.looping = false
  state : ∀ m v, b.machine? i = some m → o = .ok v → v = .state (some m.toSnapshot)

end Bench

/-- Session and machine agree as far as they can at what a thread does next. -/
def Phased (W : Nat → Prop) (b : Bench) : Focus → List Frame → Prop
  | .call (.run i), _ => ∃ x, b.Begins i x
  | .call (.resume i), _ => ∃ x, b.Begins i x ∧ x.paused = true
  | .returned o, .starting i :: _ => b.Ended W i o
  | _, _ => b.Agrees W

/-- No run is about to begin here, and none has just ended. -/
def Focus.Plain : Focus → List Frame → Prop
  | .call (.run _), _ | .call (.resume _), _ | .returned _, .starting _ :: _ => False
  | _, _ => True

/-- Session and machine agree after a turn. -/
def Turn.Phased (W : Nat → Prop) (b : Bench) : Turn → Prop
  | .go f fs => TapeMachine.Phased W b f fs
  | _ => b.Agrees W

theorem Focus.Plain.phased_iff (h : f.Plain fs) (W : Nat → Prop) (b : Bench) :
    Phased W b f fs ↔ b.Agrees W := by
  rw [Focus.Plain.eq_def] at h
  rw [Phased.eq_def]
  split at h
  · exact absurd h id
  · exact absurd h id
  · exact absurd h id
  · exact Iff.rfl

theorem Served.plain {m : Option Nat} (h : Served P m fs) (o : Outcome) :
    Focus.Plain (.returned o) fs := by
  cases h <;> trivial

/-- A thread at rest is not about to run a machine. -/
theorem Roster.Rests.plain (h : Rests f fs) (hs : f.Serves P fs) : f.Plain fs := by
  rcases h with rfl | ⟨c, rfl, rfl⟩
  · cases hs <;> trivial
  · cases hs with
    | @call c _ hc _ =>
      cases c with
      | sessionStart | sessionStep => trivial
      | step | run | resume => exact absurd hc id
    | step i hs => cases hs

/-- After a turn that begins and ends no run. -/
theorem Turn.Leaves.phased {x : Turn} {b : Bench} (hx : x.Leaves Focus.Plain) (h : b.Agrees W) :
    x.Phased W b := by
  cases x with
  | go f fs => exact (Focus.Plain.phased_iff hx W b).mpr h
  | sleep | await | done => exact h

namespace Bench
variable {b b' : Bench} {o : Outcome}

/-! ### Agreement -/

theorem Agrees.mono (h : b.Agrees W) (hW : ∀ i, W i → W' i) : b.Agrees W' := by
  obtain ⟨s, hs, hnone, hsome⟩ := h
  refine ⟨s, hs, hnone, fun i hi => ?_⟩
  obtain ⟨x, hx, hphase⟩ := hsome i hi
  exact ⟨x, hx, hphase.imp_right fun ⟨hr, hidle, hw⟩ => ⟨hr, hidle, hW i hw⟩⟩

/-- Machines may change as long as they are up to the same. -/
theorem Agrees.of_phase (h : b.Agrees W) (hs : b'.session = b.session)
    (hp : ∀ i x, b.flags? i = some x → ∃ y, b'.flags? i = some y ∧ y.phase = x.phase) :
    b'.Agrees W := by
  obtain ⟨s, hsession, hnone, hsome⟩ := h
  refine ⟨s, hs.trans hsession, hnone, fun i hi => ?_⟩
  obtain ⟨x, hx, hphase⟩ := hsome i hi
  obtain ⟨y, hy, hyx⟩ := hp i x hx
  exact ⟨y, hy, by rwa [hyx]⟩

theorem Agrees.same (h : b.Agrees W) (hs : Same b b') : b'.Agrees W :=
  h.of_phase hs.session fun i x hx => ⟨x, (hs.flags i).trans hx, rfl⟩

theorem flags?_update_self {m : Machine} (h : b.machine? i = some m) (g : Machine → Machine) :
    (b.update i g).flags? i = some (g m).flags := by
  rw [flags?, machine?_update_self h]
  rfl

theorem Agrees.pause (h : b.Agrees W) : (b.signal .pause).Agrees W := by
  have ⟨s, hs, hnone, hsome⟩ := h
  simp only [signal, hs, signalSession]
  split
  next i hi hr =>
    -- both the session and its machine are paused now
    refine ⟨_, rfl, fun hn => ?_, fun j hj => ?_⟩
    · rw [show s.current = none from hn] at hi
      cases hi
    · obtain rfl : i = j := Option.some.inj (hi.symm.trans hj)
      obtain ⟨x, hx, -⟩ := hsome i hi
      obtain ⟨m, hm, -⟩ := Option.map_eq_some_iff.mp hx
      refine ⟨m.pause.flags, flags?_update_self hm _, .inl ?_⟩
      exact (Flags.phase_eq_paused.mpr rfl).symm
  next => exact h

theorem Agrees.reset (h : b.Agrees W) : (b.signal .reset).Agrees W := by
  obtain ⟨s, hs, -⟩ := h
  have hforget : ∀ b' : Bench, b'.session = some s.forget → b'.Agrees W := by
    intro b' hb'
    exact ⟨s.forget, hb', fun _ => rfl, fun i hi => by cases hi⟩
  simp only [signal, hs, signalSession]
  split
  · exact hforget _ rfl
  · exact hforget _ rfl

/-- What callbacks signal keeps the agreement. -/
theorem Agrees.heeds (h : b.Agrees W) (hb : Heeds b b') : b'.Agrees W := by
  induction hb with
  | same hs => exact h.same hs
  | signal b g =>
    cases g with
    | pause => exact h.pause
    | reset => exact h.reset
  | trans _ _ ih ih' => exact ih' (ih h)

theorem Agrees.halt (h : b.Agrees W) (i : Nat) :
    (b.update i fun m => {m with running := false}).Agrees W := by
  refine h.of_phase rfl fun j x hx => ?_
  obtain ⟨m, hm, rfl⟩ := Option.map_eq_some_iff.mp hx
  rw [flags?_update, hm]
  refine ⟨_, rfl, ?_⟩
  split
  · rfl
  · rfl

/-- What a step does keeps the agreement. -/
theorem Agrees.callStep (h : b.Agrees W) (i : Nat) (fs : List Frame) :
    (b.callStep i fs).1.Agrees W := by
  by_cases hhalts : b.Halts i
  · rw [callStep_of_halts hhalts]
    exact h.halt i
  · exact h.heeds (heeds_callStep hhalts fs)

/-! ### Steps -/

theorem plain_ask (b : Bench) (i epoch : Nat) (fs : List Frame) :
    (b.ask i (.reading i epoch :: fs)).2.Leaves Focus.Plain := by
  simp only [ask]
  split
  any_goals trivial
  next => split <;> trivial

theorem plain_callStep (hs : Served P (some i) fs) (b : Bench) :
    (b.callStep i fs).2.Leaves Focus.Plain := by
  have hreturned : ∀ o, Focus.Plain (.returned o) fs := hs.plain
  rw [callStep]
  split
  next => exact hreturned _
  next => exact hreturned _
  next => exact hreturned _
  next =>
    rw [putOut]
    split
    next => exact hreturned _
    next => exact hreturned _
    next =>
      split
      next => exact hreturned _
      next => split <;> exact hreturned _
  next =>
    rw [request]
    split
    next => exact hreturned _
    next => exact plain_ask _ _ _ _
  next => exact hreturned _

theorem plain_endReading (hs : Served P (some i) fs) (b : Bench) (epoch : Nat) (a : Answer) :
    (b.endReading i epoch a fs).2.Leaves Focus.Plain := by
  have hreturned : ∀ o, Focus.Plain (.returned o) fs := hs.plain
  rw [endReading.eq_def]
  simp only
  split
  next => exact hreturned _
  next => split <;> exact hreturned _

/-! ### Runs -/

theorem holds_looping (h : b.flags? i = some x) : b.holds i (·.looping) = x.looping := by
  obtain ⟨m, hm, rfl⟩ := Option.map_eq_some_iff.mp h
  rw [holds, hm]
  rfl

theorem holds_paused (h : b.flags? i = some x) : b.holds i (·.paused) = x.paused := by
  obtain ⟨m, hm, rfl⟩ := Option.map_eq_some_iff.mp h
  rw [holds, hm]
  rfl

/-- A run loop begins, as the session says. -/
theorem phased_callRun (h : b.Begins i x) (fs : List Frame) :
    (b.callRun i fs).2.Phased W (b.callRun i fs).1 := by
  obtain ⟨s, hs, hi, hr, hx, hfree⟩ := h
  obtain ⟨m, hm, rfl⟩ := Option.map_eq_some_iff.mp hx
  have hgoing := machine?_update_self hm Machine.unpause
  have hholds : (b.update i Machine.unpause).holds i (·.looping) = false :=
    (holds_looping (flags?_update_self hm Machine.unpause)).trans hfree
  simp only [callRun, hholds, Bool.false_eq_true, if_false]
  refine ⟨s, hs, fun hn => ?_, fun j hj => ?_⟩
  · rw [hn] at hi
    cases hi
  · obtain rfl : i = j := Option.some.inj (hi.symm.trans hj)
    refine ⟨_, flags?_update_self hgoing _, .inl (hr.trans ?_)⟩
    exact (Flags.phase_eq_running.mpr ⟨rfl, rfl⟩).symm

theorem phased_callResume (h : b.Begins i x) (hp : x.paused = true) (fs : List Frame) :
    (b.callResume i fs).2.Phased W (b.callResume i fs).1 := by
  have hx : b.flags? i = some x := by
    obtain ⟨s, -, -, -, hx, -⟩ := h
    exact hx
  rw [callResume, if_pos ((holds_paused hx).trans hp)]
  exact phased_callRun h fs

/-- When a run loop ends, only of its machine the session may say too much. -/
theorem Agrees.leaveLoop (h : b.Agrees W) (i : Nat) :
    (b.update i Machine.leaveLoop).Agrees fun j => W j ∨ j = i := by
  obtain ⟨s, hs, hnone, hsome⟩ := h
  refine ⟨s, hs, hnone, fun j hj => ?_⟩
  obtain ⟨x, hx, hphase⟩ := hsome j hj
  by_cases hij : i = j
  · subst hij
    obtain ⟨m, hm, rfl⟩ := Option.map_eq_some_iff.mp hx
    refine ⟨m.leaveLoop.flags, flags?_update_self hm _, ?_⟩
    cases hp : m.paused with
    | true =>
      have hpaused : m.leaveLoop.flags.phase = .paused := Flags.phase_eq_paused.mpr hp
      have hbefore : m.flags.phase = .paused := Flags.phase_eq_paused.mpr hp
      rw [hbefore] at hphase
      rw [hpaused]
      exact hphase.imp_right fun hrun => by cases hrun.2.1
    | false =>
      have hidle : m.leaveLoop.flags.phase = .idle := Flags.phase_eq_idle.mpr ⟨rfl, hp⟩
      rw [hidle]
      rcases hphase with heq | ⟨hr, -, -⟩
      · cases hl : m.looping with
        | true =>
          have hrunning : m.flags.phase = .running := Flags.phase_eq_running.mpr ⟨hl, hp⟩
          exact .inr ⟨heq.trans hrunning, rfl, .inr rfl⟩
        | false => exact .inl (heq.trans (Flags.phase_eq_idle.mpr ⟨hl, hp⟩))
      · exact .inr ⟨hr, rfl, .inr rfl⟩
  · refine ⟨x, ?_, hphase.imp_right fun ⟨hr, hidle, hw⟩ => ⟨hr, hidle, .inl hw⟩⟩
    rw [flags?, machine?_update, if_neg hij]
    exact hx

theorem Agrees.ended (h : b.Agrees W) (i : Nat)
    (ho : ∀ m v, (b.update i Machine.leaveLoop).machine? i = some m → o = .ok v →
      v = .state (some m.toSnapshot)) : (b.update i Machine.leaveLoop).Ended W i o := by
  refine ⟨h.leaveLoop i, fun m hm => ?_, ho⟩
  rw [machine?_update, if_pos rfl] at hm
  obtain ⟨n, -, rfl⟩ := Option.map_eq_some_iff.mp hm
  rfl

theorem phased_endRun (h : b.Agrees W) (i : Nat) (fs : List Frame) :
    (b.endRun i (.starting i :: fs)).2.Phased W (b.endRun i (.starting i :: fs)).1 := by
  simp only [endRun]
  split
  next hnone => exact h.ended i fun m _ hm => by rw [hnone] at hm; cases hm
  next m hm =>
    obtain ⟨hagrees, hlooping, hstate⟩ := h.ended (o := .ok (.state (some m.toSnapshot))) i
      fun n v hn hv => by
        obtain rfl := Option.some.inj (hm.symm.trans hn)
        exact (Except.ok.inj hv).symm
    exact ⟨hagrees.same (.log _ _), hlooping, hstate⟩

theorem phased_nextStep (h : b.Agrees W) (i : Nat) (fs : List Frame) :
    (b.nextStep i (.starting i :: fs)).2.Phased W (b.nextStep i (.starting i :: fs)).1 := by
  rw [nextStep]
  split
  · exact h
  · exact phased_endRun h i fs

theorem phased_afterStep (h : b.Agrees W) (i : Nat) (o : Outcome) (fs : List Frame) :
    (b.afterStep i o (.starting i :: fs)).2.Phased W (b.afterStep i o (.starting i :: fs)).1 := by
  rw [afterStep.eq_def]
  split
  next => exact h.ended i fun m v _ hv => by cases hv
  next =>
    split
    · exact h
    · exact h
  next => exact phased_endRun h i fs

/-! ### Calls on the session -/

/-- The session may work with a machine that was just made. -/
theorem flags?_of_make {made : Bench} {p : Program} {o : Options} (h : b.make p o = .ok made) :
    made.flags? b.machines.size = some ⟨false, false, false, 0⟩ := by
  obtain ⟨n, hn, -, rfl⟩ := eq_of_make h
  show (Array.push _ _)[b.machines.size]?.map _ = _
  rw [Array.getElem?_push_size]
  rfl

/-- A session that only says something else about a machine that it works with. -/
theorem agrees_of_some {s : Session} (hs : b.session = some s) (hi : s.current = some i)
    (hx : b.flags? i = some x) (hp : s.phase = x.phase) : b.Agrees W := by
  refine ⟨s, hs, fun hn => ?_, fun j hj => ?_⟩
  · rw [hn] at hi
    cases hi
  · obtain rfl : i = j := Option.some.inj (hi.symm.trans hj)
    exact ⟨x, hx, .inl hp⟩

theorem phased_callStart (h : b.Agrees W) (hs : Served P none fs) :
    (b.callStart fs).2.Phased W (b.callStart fs).1 := by
  have hreturned : ∀ (b' : Bench) (o : Outcome), b'.Agrees W →
      Turn.Phased W b' (.go (.returned o) fs) := fun b' o => ((hs.plain o).phased_iff W b').mpr
  have ⟨s, hsession, hnone, hsome⟩ := h
  rw [callStart]
  simp only [hsession]
  split
  next i hpaused hi =>
    obtain ⟨x, hx, hphase⟩ := hsome i hi
    have hx' : (b.putSession {s with phase := .running}).flags? i = some x := hx
    have hxp : x.paused = true := by
      rw [hpaused] at hphase
      exact Flags.phase_eq_paused.mp (hphase.resolve_right fun hrun => by cases hrun.1).symm
    rw [holds_looping hx']
    split
    next hl =>
      -- the run loop has not noticed the pause, which is only taken back
      obtain ⟨m, hm, rfl⟩ := Option.map_eq_some_iff.mp hx'
      refine hreturned _ _ (agrees_of_some rfl hi (flags?_update_self hm Machine.unpause) ?_)
      exact (Flags.phase_eq_running (x := m.unpause.flags).mpr ⟨hl, rfl⟩).symm
    next hl =>
      rw [Bool.not_eq_true] at hl
      exact ⟨x, ⟨_, rfl, hi, rfl, hx, hl⟩, hxp⟩
  next =>
    split
    next => exact hreturned _ _ h
    next made hmade =>
      have hnew := flags?_of_make hmade
      exact ⟨_, ⟨_, rfl, rfl, rfl, hnew, rfl⟩⟩
  next => exact hreturned _ _ h

theorem phased_callSessionStep (h : b.Agrees W) (hs : Served P none fs) :
    (b.callSessionStep fs).2.Phased W (b.callSessionStep fs).1 := by
  have hreturned : ∀ o : Outcome, Turn.Phased W b (.go (.returned o) fs) :=
    fun o => ((hs.plain o).phased_iff W b).mpr h
  have ⟨s, hsession, hnone, hsome⟩ := h
  rw [callSessionStep]
  simp only [hsession]
  split
  next => exact hreturned _
  next =>
    split
    · exact hreturned _
    · exact h
  next hcurrent _ =>
    split
    next => exact hreturned _
    next made hmade =>
      have hnew := flags?_of_make hmade
      exact agrees_of_some (b := made.putSession _) rfl rfl hnew (hnone hcurrent)

/-- The session takes note of how the run ended. -/
theorem phased_endStart {v : Value} (h : b.Ended W i (.ok v)) (hs : Served P none fs) :
    (b.endStart i v fs).2.Phased W (b.endStart i v fs).1 := by
  have hreturned : ∀ (b' : Bench) (o : Outcome), b'.Agrees W →
      Turn.Phased W b' (.go (.returned o) fs) := fun b' o => ((hs.plain o).phased_iff W b').mpr
  obtain ⟨⟨s, hsession, hnone, hsome⟩, hlooping, hstate⟩ := h
  by_cases hi : s.current = some i
  · obtain ⟨x, hx, -⟩ := hsome i hi
    obtain ⟨m, hm, rfl⟩ := Option.map_eq_some_iff.mp hx
    obtain rfl := hstate m v hm rfl
    have hl := hlooping m hm
    simp only [endStart, hsession]
    refine hreturned _ _ (agrees_of_some rfl (s := s.settle i (b.holds i (·.looping)) m.toSnapshot)
      ?_ hx ?_)
    · rw [Session.settle, if_pos hi]
      exact hi
    · rw [holds_looping hx]
      simp [Session.settle, hi, Flags.phase, Machine.flags, hl]
  · -- the session has turned away from the machine
    have hagrees : b.Agrees W := by
      refine ⟨s, hsession, hnone, fun j hj => ?_⟩
      obtain ⟨x, hx, hphase⟩ := hsome j hj
      refine ⟨x, hx, hphase.imp_right fun hrun => ⟨hrun.1, hrun.2.1, ?_⟩⟩
      exact hrun.2.2.resolve_right fun hji => hi (hji ▸ hj)
    rw [endStart.eq_def]
    simp only
    split
    next t _ ht _ =>
      obtain rfl := Option.some.inj (hsession.symm.trans ht)
      refine hreturned _ _ (hagrees.of_phase ?_ fun i x hx => ⟨x, hx, rfl⟩)
      show some (s.settle _ _ _) = _
      rw [Session.settle, if_neg hi, hsession]
    next => exact hreturned _ _ hagrees

theorem phased_endSessionStep (h : b.Agrees W) (hs : Served P none fs) (i : Nat) :
    (b.endSessionStep i fs).2.Phased W (b.endSessionStep i fs).1 := by
  have hreturned : ∀ (b' : Bench) (o : Outcome), b'.Agrees W →
      Turn.Phased W b' (.go (.returned o) fs) := fun b' o => ((hs.plain o).phased_iff W b').mpr
  have ⟨s, hsession, hnone, hsome⟩ := h
  rw [endSessionStep]
  split
  next t state ht _ =>
    obtain rfl := Option.some.inj (hsession.symm.trans ht)
    refine hreturned _ _ ⟨s.note i state, rfl, ?_⟩
    rw [Session.note]
    split
    · exact ⟨hnone, hsome⟩
    · exact ⟨hnone, hsome⟩
  next => exact hreturned _ _ h

/-! ### Turns -/

/-- A start fails with its run while the session takes the machine to be running. -/
def Wrecks (b : Bench) (f : Focus) (fs : List Frame) (i : Nat) : Prop :=
  (∃ e rest, f = .returned (.error e) ∧ fs = .starting i :: rest) ∧
    ∃ s, b.session = some s ∧ s.current = some i ∧ s.phase = .running

theorem phased_giveBack {m : Option Nat} (h : b.Agrees W) (hs : Served P m fs) (o : Outcome) :
    (b.giveBack o fs).2.Phased W (b.giveBack o fs).1 := by
  cases hs with
  | nil => exact h
  | looping i hs => exact phased_afterStep h i o _
  | stepping i hs =>
    cases o with
    | ok v => exact phased_endSessionStep h hs i
    | error e => exact ((hs.plain (.error e)).phased_iff W b).mpr h
  | calling v i epoch hreply hs => exact h.same (.record b _)

/-- A failed start leaves its machine as it is, and the session says what it said. -/
theorem Ended.agrees_of_error {e : Failure} (h : b.Ended W i (.error e)) (rest : List Frame) :
    b.Agrees fun j => W j ∨ b.Wrecks (.returned (.error e)) (.starting i :: rest) j := by
  obtain ⟨s, hs, hnone, hsome⟩ := h.agrees
  refine ⟨s, hs, hnone, fun j hj => ?_⟩
  obtain ⟨x, hx, hphase⟩ := hsome j hj
  refine ⟨x, hx, hphase.imp_right fun ⟨hr, hidle, hw⟩ => ⟨hr, hidle, hw.imp_right ?_⟩⟩
  rintro rfl
  exact ⟨⟨e, rest, rfl, rfl⟩, s, hs, hj, hr⟩

/-- A source at work may pause or reset, and calls nothing but the session. -/
theorem phased_replying {deeds : List Deed} {answer : Except Failure (Option Text)}
    (hreply : (Reply.later deeds answer).OfSession P) (h : b.Agrees W) (fs : List Frame) :
    (b.goOn (.replying deeds answer :: fs)).2.Phased W
      (b.goOn (.replying deeds answer :: fs)).1 := by
  rcases deeds with - | ⟨d, deeds⟩
  · exact h
  · cases d with
    | rest => exact h
    | signal g => exact h.heeds ((Heeds.refl b).obey true [g])
    | call v =>
      obtain ⟨hd, -⟩ := List.forall_mem_cons.mp hreply.1
      cases v with
      | step =>
        have ⟨s, hsession, _⟩ := h
        simp only [goOn, callOf, hsession, Option.isSome_some, if_true]
        exact h
      | start => exact h
      | run | resume => exact absurd hd id

theorem phased_advance (hs : f.Serves P fs) (h : Phased W b f fs) (hW : ∀ i, W i → W' i)
    (hwreck : ∀ i, b.Wrecks f fs i → W' i) :
    (b.advance fs f).2.Phased W' (b.advance fs f).1 := by
  cases hs with
  | @call c _ hc hs =>
    cases c with
    | sessionStart => exact phased_callStart (Agrees.mono h hW) hs
    | sessionStep => exact phased_callSessionStep (Agrees.mono h hW) hs
    | step | run | resume => exact absurd hc id
  | step i hs =>
    have hagrees : b.Agrees W' := Agrees.mono h hW
    exact (plain_callStep hs b).phased (hagrees.callStep i fs)
  | run i hs =>
    obtain ⟨x, hx⟩ := h
    exact phased_callRun hx _
  | resume i hs =>
    obtain ⟨x, hx, hp⟩ := h
    exact phased_callResume hx hp _
  | stepped i ho hs => exact phased_giveBack (((hs.plain _).phased_iff W b).mp h |>.mono hW) hs _
  | @started o rest i ho hs =>
    have hended : b.Ended W i o := h
    cases o with
    | ok v =>
      refine phased_endStart ⟨hended.agrees.mono fun j => ?_, hended.looping, hended.state⟩ hs
      exact .imp_left (hW j)
    | error e =>
      refine ((hs.plain (.error e)).phased_iff W' b).mpr ?_
      exact (hended.agrees_of_error rest).mono fun j hj => hj.elim (hW j) (hwreck j)
  | returned ho hs => exact phased_giveBack (((hs.plain _).phased_iff W b).mp h |>.mono hW) hs _
  | answered i epoch ha hs =>
    have hagrees : b.Agrees W' := Agrees.mono h hW
    exact (plain_endReading hs b epoch _).phased (hagrees.heeds (heeds_endReading b i epoch _ _))
  | looping i hs => exact phased_nextStep (Agrees.mono h hW) i _
  | getting i epoch hs =>
    have hagrees : b.Agrees W' := Agrees.mono h hW
    simp only [advance, goOn]
    split
    · exact hagrees.same (.of_machines rfl rfl)
    · exact hagrees
  | replying i epoch hreply hs => exact phased_replying hreply (Agrees.mono h hW) _

end Bench
end TapeMachine
