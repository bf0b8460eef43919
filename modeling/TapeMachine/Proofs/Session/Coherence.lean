import TapeMachine.Proofs.Session.Attend

/-! Coherence of sessions.

As long as no call on a session has failed, what the session says of itself can be read
off its machine (`play_coherent`). Where a call has failed this holds on, with one
exception: if a run fails while the session takes it to be going on, the start that began
or resumed it takes no note. The session is stuck then: it says that it is running, no
run loop is active, and all further calls are turned away (`play_stuck`). -/
namespace TapeMachine

/-- The frames around a call on the session: none, or those of a source that made it. -/
def Outermost (fs : List Frame) : Prop := fs = [] ∨ ∃ v rest, fs = .calling v :: rest

theorem Served.outermost {P : Failure → Prop} {fs : List Frame} (h : Served P none fs) :
    Outermost fs := by
  cases h with
  | nil => exact .inl rfl
  | calling v i epoch _ _ => exact .inr ⟨v, _, rfl⟩

namespace Bench
variable {b : Bench} {W : Nat → Prop} {t : Session}

/-- The machine of a session, as far as they agree. -/
theorem Agrees.sessionMachine? {i : Nat} (h : b.Agrees W) (ht : b.session = some t)
    (hi : t.current = some i) : ∃ m, b.sessionMachine? = some m ∧ b.machine? i = some m ∧
      (t.phase = m.flags.phase ∨ (t.phase = .running ∧ m.flags.phase = .idle ∧ W i)) := by
  obtain ⟨s, hs, -, hsome⟩ := h
  obtain rfl := Option.some.inj (hs.symm.trans ht)
  obtain ⟨x, hx, hphase⟩ := hsome i hi
  obtain ⟨m, hm, rfl⟩ := Option.map_eq_some_iff.mp hx
  refine ⟨m, ?_, hm, hphase⟩
  rw [Bench.sessionMachine?, ht, Option.bind_some, hi, Option.bind_some, hm]

theorem Agrees.idle_of_none (h : b.Agrees W) (ht : b.session = some t) (hi : t.current = none) :
    t.phase = .idle ∧ b.sessionMachine? = none := by
  obtain ⟨s, hs, hnone, -⟩ := h
  obtain rfl := Option.some.inj (hs.symm.trans ht)
  refine ⟨hnone hi, ?_⟩
  rw [Bench.sessionMachine?, ht, Option.bind_some, hi, Option.bind_none]

/-- What the session says follows from what its machine is up to. -/
theorem Agrees.coherent (h : b.Agrees W) (ht : b.session = some t)
    (hW : ∀ i, t.current = some i → ¬ W i) :
    (t.phase = .running ↔
      ∃ m, b.sessionMachine? = some m ∧ m.looping = true ∧ m.paused = false) ∧
    (t.phase = .paused ↔ ∃ m, b.sessionMachine? = some m ∧ m.paused = true) ∧
    (t.phase = .idle ↔ ∀ m, b.sessionMachine? = some m → m.looping = false ∧ m.paused = false) := by
  cases hi : t.current with
  | none =>
    obtain ⟨hphase, hnone⟩ := h.idle_of_none ht hi
    simp [hphase, hnone]
  | some i =>
    obtain ⟨m, hm, -, hphase⟩ := h.sessionMachine? ht hi
    have hagree : t.phase = m.flags.phase := hphase.resolve_right fun ⟨_, _, hw⟩ => hW i hi hw
    rw [hagree, hm, Flags.phase_eq_running, Flags.phase_eq_paused, Flags.phase_eq_idle]
    simp [Machine.flags]

end Bench

namespace Scheduler
variable {P : Failure → Prop} {W : Nat → Prop} {s : Scheduler} {i : Nat}

/-- At this moment a call on the session has come to its end. -/
def Ends (s : Scheduler) (out : Outcome) : Prop :=
  ∃ t fs, s.roster.current? = some (t, .returned out, fs) ∧ Outermost fs

/-- The failure of a run is the failure of the start that waits for it. -/
theorem Wrecks.ends (h : s.Attended P W) (hw : s.Wrecks i) : ∃ e, s.advance.Ends (.error e) := by
  obtain ⟨t, f, fs, hc, ⟨e, rest, rfl, rfl⟩, -⟩ := hw
  obtain ⟨-, ht⟩ := Roster.current?_eq_some_iff.mp hc
  have hs : Served P none rest := by
    cases h.serves t _ _ ht with
    | started _ _ hs => exact hs
    | stepped _ _ hs => cases hs
    | returned _ hs => cases hs
  refine ⟨e, t, rest, ?_, hs.outermost⟩
  rw [advance_of_some hc]
  exact Roster.current?_settle_go hc _ _

theorem attended_play (p : Program) (o : Options) (source : Option Source) (sink : Option Sink)
    (moves : List Move) (hsource : ∀ x, source = some x → x.OfSession fun _ => True)
    (hmoves : ∀ x ∈ moves, x.OfSession) :
    ((ofSession p o source sink).play moves).Attended (fun _ => True)
      ((ofSession p o source sink).Wrecked moves) := by
  have hsink : ∀ x, sink = some x → x.OfSession fun _ => True := by
    intro x _
    cases x with
    | scripted reaction => exact fun _ _ _ => trivial
    | silent | stream => trivial
  refine (play_attended (fun _ => trivial) (attended_ofSession p o hsource hsink) hmoves).mono ?_
  exact fun i hi => hi.resolve_left id

/-- As long as no call on a session has failed, between all turns what the session says of
itself is what its machine is up to. -/
theorem play_coherent (p : Program) (o : Options) (source : Option Source) (sink : Option Sink)
    (moves : List Move) (hsource : ∀ x, source = some x → x.OfSession fun _ => True)
    (hmoves : ∀ x ∈ moves, x.OfSession)
    (hok : ∀ before e, before <+: moves →
      ¬ ((ofSession p o source sink).play before).Ends (.error e))
    (hr : ((ofSession p o source sink).play moves).roster.running = none) :
    let b := ((ofSession p o source sink).play moves).bench
    ∃ t, b.session = some t ∧
      (t.phase = .running ↔
        ∃ m, b.sessionMachine? = some m ∧ m.looping = true ∧ m.paused = false) ∧
      (t.phase = .paused ↔ ∃ m, b.sessionMachine? = some m ∧ m.paused = true) ∧
      (t.phase = .idle ↔
        ∀ m, b.sessionMachine? = some m → m.looping = false ∧ m.paused = false) := by
  intro b
  have hagrees := (attended_play p o source sink moves hsource hmoves).agrees hr
  have ⟨t, ht, _⟩ := hagrees
  refine ⟨t, ht, hagrees.coherent ht fun i _ hw => ?_⟩
  -- a start that left a wreck behind has failed with its run
  obtain ⟨before, after, rfl, hwrecks⟩ := hw
  have hbefore := attended_play p o source sink before hsource
    fun x hx => hmoves x (List.mem_append_left _ hx)
  obtain ⟨e, he⟩ := hwrecks.ends hbefore
  refine hok (before ++ [.turn]) e ⟨after, by simp⟩ ?_
  rw [play_concat]
  exact he

/-- A failure is on its way to the caller. -/
def failing (s : Scheduler) : Bool :=
  match s.roster.current? with
  | some (_, .returned (.error _), _) => true
  | _ => false

theorem Ends.failing {e : Failure} (h : s.Ends (.error e)) : s.failing = true := by
  obtain ⟨t, fs, hc, -⟩ := h
  rw [Scheduler.failing, hc]

/-- A run loop that waits for text and has not noticed a pause. -/
theorem play_coherent_waiting :
    let s := (ofSession ⟨#[',']⟩ {memorySize := .integer 1} (some (.queue [])) none).play
      (Move.alone .sessionStart 5 ++ [.outside (.signal .pause)])
    ∃ t m, s.roster.running = none ∧ s.bench.session = some t ∧ t.phase = .paused ∧
      s.bench.sessionMachine? = some m ∧ m.paused = true ∧ m.looping = true := by
  intro s
  obtain ⟨t, ht, -, hpaused, -⟩ := play_coherent ⟨#[',']⟩ {memorySize := .integer 1}
    (some (.queue [])) none (Move.alone .sessionStart 5 ++ [.outside (.signal .pause)])
    (fun x hx => by cases hx; trivial)
    (by decide)
    (fun before e hb he => by
      have hnone : ∀ k < 9, ((ofSession ⟨#[',']⟩ {memorySize := .integer 1}
          (some (.queue [])) none).play ((Move.alone .sessionStart 5 ++
            [.outside (.signal .pause)] : List Move).take k)).failing = false := by decide
      have hfalse := hnone before.length (Nat.lt_succ_of_le hb.length_le)
      rw [← List.prefix_iff_eq_take.mp hb, he.failing] at hfalse
      cases hfalse)
    rfl
  obtain ⟨m, hm, hp⟩ := hpaused.mp (by cases ht; rfl)
  refine ⟨t, m, rfl, ht, by cases ht; rfl, hm, hp, by cases hm; rfl⟩

/-- A session that says that it is running turns all calls away. -/
theorem call_of_running {b : Bench} {t : Session} (ht : b.session = some t)
    (hr : t.phase = .running) {c : Call} (hc : c.OfSession) (fs : List Frame) :
    b.call fs c = (b, .value (.state none) fs) := by
  cases c with
  | sessionStart => simp only [Bench.call, Bench.callStart, ht, hr]
  | sessionStep => simp only [Bench.call, Bench.callSessionStep, ht, hr]
  | step | run | resume => exact absurd hc id

/-- A run that fails while the session takes it to be going on leaves the session stuck. -/
theorem Wrecks.stuck (h : s.Attended P W) (hw : s.Wrecks i) : ∃ t m,
    s.advance.bench.session = some t ∧ t.phase = .running ∧
      s.advance.bench.sessionMachine? = some m ∧ m.looping = false ∧
      ∀ c fs, c.OfSession →
        s.advance.bench.call fs c = (s.advance.bench, .value (.state none) fs) := by
  obtain ⟨u, f, fs, hc, ⟨e, rest, rfl, rfl⟩, t, ht, hi, hr⟩ := hw
  have hended : s.bench.Ended W i (.error e) := h.phased u _ _ hc
  obtain ⟨m, hm, hmi, -⟩ := hended.agrees.sessionMachine? ht hi
  have hb : s.advance.bench = s.bench := by
    rw [advance_of_some hc]
    rfl
  rw [hb]
  exact ⟨t, m, ht, hr, hm, hended.looping m hmi, fun c fs hc => call_of_running ht hr hc fs⟩

/-- Between all turns, and at the end of every call, a session that says that it is running
has an active run loop, unless it was left stuck by a start whose run failed; and every
start whose run fails while the session takes it to be going on leaves it stuck. -/
theorem play_stuck (p : Program) (o : Options) (source : Option Source) (sink : Option Sink)
    (moves : List Move) (hsource : ∀ x, source = some x → x.OfSession fun _ => True)
    (hmoves : ∀ x ∈ moves, x.OfSession) :
    let s := (ofSession p o source sink).play moves
    ((s.roster.running = none ∨ ∃ out, s.Ends out) → ∃ t, s.bench.session = some t ∧
      (t.phase = .running → (∃ m, s.bench.sessionMachine? = some m ∧ m.looping = true) ∨
        ∃ i, t.current = some i ∧ (ofSession p o source sink).Wrecked moves i)) ∧
    ∀ i, s.Wrecks i → (∃ e, s.advance.Ends (.error e)) ∧ ∃ t m,
      s.advance.bench.session = some t ∧ t.phase = .running ∧
      s.advance.bench.sessionMachine? = some m ∧ m.looping = false ∧
      ∀ c fs, c.OfSession →
        s.advance.bench.call fs c = (s.advance.bench, .value (.state none) fs) := by
  intro s
  have hs : s.Attended (fun _ => True) ((ofSession p o source sink).Wrecked moves) :=
    attended_play p o source sink moves hsource hmoves
  refine ⟨fun hpoint => ?_, fun i hw => ⟨hw.ends hs, hw.stuck hs⟩⟩
  have hagrees : s.bench.Agrees ((ofSession p o source sink).Wrecked moves) := by
    rcases hpoint with hr | ⟨out, u, fs, hc, hfs⟩
    · exact hs.agrees hr
    · have hplain : Focus.Plain (.returned out) fs := by
        rcases hfs with rfl | ⟨v, rest, rfl⟩ <;> trivial
      exact (hplain.phased_iff _ _).mp (hs.phased u _ _ hc)
  have ⟨t, ht, _⟩ := hagrees
  refine ⟨t, ht, fun hr => ?_⟩
  cases hi : t.current with
  | none =>
    rw [(hagrees.idle_of_none ht hi).1] at hr
    cases hr
  | some i =>
    obtain ⟨m, hm, -, hphase⟩ := hagrees.sessionMachine? ht hi
    rcases hphase with heq | ⟨-, -, hw⟩
    · exact .inl ⟨m, hm, (Flags.phase_eq_running.mp (heq.symm.trans hr)).1⟩
    · exact .inr ⟨i, rfl, hw⟩

/-- A start whose run has just failed, and all calls after it. -/
theorem play_stuck_failed :
    let s := (ofSession ⟨#['.']⟩ {memorySize := .integer 1} none
      (some (.scripted fun _ => {failure := some .interrupted}))).play (Move.alone .sessionStart 5)
    (∃ e, s.advance.Ends (.error e)) ∧ ∃ t m,
      s.advance.bench.session = some t ∧ t.phase = .running ∧
      s.advance.bench.sessionMachine? = some m ∧ m.looping = false ∧
      ∀ c fs, c.OfSession →
        s.advance.bench.call fs c = (s.advance.bench, .value (.state none) fs) := by
  have h := play_stuck ⟨#['.']⟩ {memorySize := .integer 1} none
    (some (.scripted fun _ => {failure := some .interrupted})) (Move.alone .sessionStart 5)
    nofun (by decide)
  exact h.2 0 ⟨0, _, _, rfl, ⟨_, _, rfl, rfl⟩, _, rfl, rfl, rfl⟩

/-- A sink that fails at the first character, and a start that fails with it. -/
theorem stuck_after_failed_start :
    let s := (ofSession ⟨#['.']⟩ {memorySize := .integer 1} none
      (some (.scripted fun _ => {failure := some (.callback "boom".toList)}))).play
      (Move.alone .sessionStart 7)
    ∃ t m, s.outcome? 0 = some (.error (.callback "boom".toList)) ∧ s.roster.running = none ∧
      s.bench.session = some t ∧ t.phase = .running ∧
      s.bench.sessionMachine? = some m ∧ m.looping = false :=
  ⟨_, _, rfl, rfl, rfl, rfl, rfl, rfl⟩

end Scheduler
end TapeMachine
