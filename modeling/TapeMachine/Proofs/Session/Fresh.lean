import TapeMachine.Proofs.Session.Gone

/-! What a session keeps of its machine.

A session keeps the state in which the last call that drove its machine has ended. While a
call drives the machine this state is out of date: the machine is busy then, or the running
thread is about to call it, or has called it and is about to tell the session
(`Focus.pending?`). At all other times what the session keeps is the state of its machine
(`Bench.Noted`). Only a call that fails tells the session nothing. -/
namespace TapeMachine

variable {P : Failure → Prop} {f : Focus} {fs : List Frame} {i : Nat} {x : Option Nat}

/-- The machine that the running thread is about to call on behalf of the session, or has
called and not yet told the session of. -/
def Focus.pending? : Focus → List Frame → Option Nat
  | .call (.run i), _ | .call (.resume i), _ => some i
  | .call (.step i), .stepping _ :: _ => some i
  | .returned _, .starting i :: _ | .returned _, .stepping i :: _ => some i
  | _, _ => none

theorem Served.pending?_returned (h : Served P none fs) (o : Outcome) :
    (Focus.returned o).pending? fs = none := by
  cases h <;> rfl

/-- A thread at rest has told the session all. -/
theorem Roster.Rests.pending? (h : Rests f fs) (hs : f.Serves P fs) : f.pending? fs = none := by
  rcases h with rfl | ⟨c, rfl, rfl⟩
  · rfl
  · cases hs with
    | @call c _ hc _ =>
      cases c with
      | sessionStart | sessionStep => rfl
      | step | run | resume => exact absurd hc id
    | step i hs => cases hs

namespace Bench
variable {b b' : Bench}

/-- A session without a machine keeps no state, and one with a machine keeps the state of
that machine, unless the machine is `x` or busy. -/
def Noted (x : Option Nat) (b : Bench) : Prop :=
  ∃ s, b.session = some s ∧ (s.current = none → s.last = none) ∧
    ∀ i, s.current = some i → ∃ m, b.machine? i = some m ∧
      (x = some i ∨ m.busy = true ∨ s.last = some m.toSnapshot)

namespace Noted

/-- A session that works with a machine of which no more is to be told than this. -/
theorem of_current {s : Session} {m : Machine} (hs : b.session = some s)
    (hi : s.current = some i) (hm : b.machine? i = some m)
    (hx : x = some i ∨ m.busy = true ∨ s.last = some m.toSnapshot) : b.Noted x := by
  refine ⟨s, hs, fun hn => ?_, fun j hj => ?_⟩
  · rw [hn] at hi
    cases hi
  · obtain rfl := Option.some.inj (hi.symm.trans hj)
    exact ⟨m, hm, hx⟩

/-- A machine that the session works with is there. -/
theorem exists_machine? (h : b.Noted x) (hcur : b.Current i) : ∃ s m, b.session = some s ∧
    s.current = some i ∧ b.machine? i = some m := by
  obtain ⟨s, hs, -, hsome⟩ := h
  obtain ⟨r, hr, hi⟩ := hcur
  obtain rfl := Option.some.inj (hs.symm.trans hr)
  obtain ⟨m, hm, -⟩ := hsome i hi
  exact ⟨s, m, hs, hi, hm⟩

theorem mono (h : b.Noted none) (x : Option Nat) : b.Noted x := by
  obtain ⟨s, hs, hnone, hsome⟩ := h
  refine ⟨s, hs, hnone, fun i hi => ?_⟩
  obtain ⟨m, hm, hnoted⟩ := hsome i hi
  exact ⟨m, hm, .inr (hnoted.resolve_left nofun)⟩

theorem same (h : b.Noted x) (hs : b'.session = b.session) (hm : b'.machines = b.machines) :
    b'.Noted x := by
  obtain ⟨s, hsession, hnone, hsome⟩ := h
  refine ⟨s, hs.trans hsession, hnone, fun i hi => ?_⟩
  obtain ⟨m, hmachine, hnoted⟩ := hsome i hi
  exact ⟨m, by rw [machine?, hm]; exact hmachine, hnoted⟩

/-- A change of a machine that does not show in its state. -/
theorem update_unseen (h : b.Noted x) (i : Nat) {g : Machine → Machine}
    (hg : ∀ m, (g m).toSnapshot = m.toSnapshot ∧ (g m).busy = m.busy) :
    (b.update i g).Noted x := by
  obtain ⟨s, hs, hnone, hsome⟩ := h
  refine ⟨s, hs, hnone, fun j hj => ?_⟩
  obtain ⟨m, hm, hnoted⟩ := hsome j hj
  rw [machine?_update]
  split
  · rw [hm]
    refine ⟨g m, rfl, ?_⟩
    rwa [(hg m).1, (hg m).2]
  · exact ⟨m, hm, hnoted⟩

/-- The machine of which the session is still to be told may change. -/
theorem update (h : b.Noted (some i)) (g : Machine → Machine) : (b.update i g).Noted (some i) := by
  obtain ⟨s, hs, hnone, hsome⟩ := h
  refine ⟨s, hs, hnone, fun j hj => ?_⟩
  obtain ⟨m, hm, hnoted⟩ := hsome j hj
  by_cases hij : i = j
  · subst hij
    exact ⟨g m, machine?_update_self hm g, .inl rfl⟩
  · exact ⟨m, by rw [machine?_update, if_neg hij, hm], hnoted⟩

/-- Of a busy machine the session need not be told. -/
theorem of_busy (h : b.Noted (some i)) (hi : ∀ m, b.machine? i = some m → m.busy = true) :
    b.Noted none := by
  obtain ⟨s, hs, hnone, hsome⟩ := h
  refine ⟨s, hs, hnone, fun j hj => ?_⟩
  obtain ⟨m, hm, heq | hnoted⟩ := hsome j hj
  · obtain rfl := Option.some.inj heq
    exact ⟨m, hm, .inr (.inl (hi m hm))⟩
  · exact ⟨m, hm, .inr hnoted⟩

theorem of_not_current (h : b.Noted (some i)) (hi : ¬ b.Current i) : b.Noted none := by
  obtain ⟨s, hs, hnone, hsome⟩ := h
  refine ⟨s, hs, hnone, fun j hj => ?_⟩
  obtain ⟨m, hm, heq | hnoted⟩ := hsome j hj
  · obtain rfl := Option.some.inj heq
    exact absurd ⟨s, hs, hj⟩ hi
  · exact ⟨m, hm, .inr hnoted⟩

/-- Only a run loop that is active is paused, and a reset makes the session forget. -/
theorem signal (h : b.Noted x) (ha : b.Agrees fun _ => False) (g : Signal) :
    (b.signal g).Noted x := by
  obtain ⟨s, hs, hnone, hsome⟩ := h
  have hforget : ∀ b' : Bench, b'.session = some s.forget → b'.Noted x := fun b' hb' =>
    ⟨s.forget, hb', fun _ => rfl, fun _ hj => by cases hj⟩
  rw [Bench.signal, hs]
  cases g with
  | reset =>
    simp only [signalSession]
    split
    · exact hforget _ rfl
    · exact hforget _ rfl
  | pause =>
    simp only [signalSession]
    split
    next i hi hr =>
      obtain ⟨m, -, hm, hphase⟩ := ha.sessionMachine? hs hi
      have hrunning : m.flags.phase = .running :=
        (hphase.resolve_right fun hwreck => hwreck.2.2).symm.trans hr
      have hlooping : m.looping = true := (Flags.phase_eq_running.mp hrunning).1
      refine of_current rfl hi (machine?_update_self hm _) (.inr (.inl ?_))
      rw [Machine.busy, show m.pause.looping = true from hlooping, Bool.true_or]
    next => exact ⟨s, hs, hnone, hsome⟩

/-- A step tells the session nothing. -/
theorem acts (h : b.Noted (some i)) (ha : b.Agrees fun _ => False) (hacts : Acts i b b') :
    b'.Noted (some i) := by
  suffices b'.Noted (some i) ∧ b'.Agrees fun _ => False from this.1
  induction hacts with
  | still hs hm => exact ⟨h.same hs hm, ha.same (.of_machines hs hm)⟩
  | update b hf => exact ⟨h.update _, ha.same (.update hf b i)⟩
  | signal b g => exact ⟨h.signal ha g, ha.heeds (.signal b g)⟩
  | trans _ _ ih ih' =>
    obtain ⟨h₁, ha₁⟩ := ih h ha
    exact ih' h₁ ha₁

theorem callStep (h : b.Noted (some i)) (ha : b.Agrees fun _ => False) (fs : List Frame) :
    (b.callStep i fs).1.Noted (some i) := by
  by_cases hhalts : b.Halts i
  · rw [callStep_of_halts hhalts]
    exact h.update _
  · exact h.acts ha (acts_callStep hhalts fs)

theorem endRun (h : b.Noted (some i)) (fs : List Frame) : (b.endRun i fs).1.Noted (some i) := by
  simp only [Bench.endRun]
  split
  · exact h.update _
  · exact (h.update Machine.leaveLoop).same rfl rfl

end Noted

end Bench

/-! ### Turns -/

/-- After a turn the session has been told of its machine, but for a call that goes on. -/
def Turn.Noted (b : Bench) : Turn → Prop
  | .go f fs => b.Noted (f.pending? fs)
  | _ => b.Noted none

/-- The machines that a turn leaves its thread with are busy. -/
def Turn.Occupies (b : Bench) (x : Turn) : Prop :=
  ∀ i m, b.machine? i = some m →
    i ∈ runs x.frames ∨ i ∈ (readings x.frames).map Prod.fst → m.busy = true

namespace Bench
variable {b : Bench}

theorem Noted.turn (h : b.Noted none) (x : Turn) : x.Noted b := by
  cases x with
  | go f fs => exact h.mono _
  | sleep | await | done => exact h

/-- A step ends at once, or waits for the source. -/
theorem returned_or_reading_callStep (b : Bench) (i : Nat) (fs : List Frame) :
    (∃ o, (b.callStep i fs).2 = .go (.returned o) fs) ∨
      i ∈ (readings (b.callStep i fs).2.frames).map Prod.fst := by
  have hyields := yields_callStep b i fs
  generalize (b.callStep i fs).1 = b' at hyields
  generalize (b.callStep i fs).2 = x at hyields ⊢
  cases hyields with
  | steps _ _ => exact .inl ⟨_, rfl⟩
  | asks i epoch a _ => exact .inr List.mem_cons_self
  | awaits i epoch x _ hx =>
    rcases hx with rfl | ⟨deeds, answer, rfl⟩
    · exact .inr List.mem_cons_self
    · exact .inr List.mem_cons_self
  | joins j s hc => exact .inl ⟨_, rfl⟩
  | enters j hc _ => rcases hc with hc | hc <;> cases hc
  | turns hc _ => exact .inl ⟨_, rfl⟩
  | stops j s hf => rcases hf with ⟨hf, -⟩ | ⟨v, hf, -⟩ <;> cases hf

theorem noted_callStart (h : b.Noted none) (fs : List Frame) :
    (b.callStart fs).2.Noted (b.callStart fs).1 := by
  have ⟨s, hsession, hnone, hsome⟩ := h
  rw [callStart]
  simp only [hsession]
  split
  next i hpaused hi =>
    obtain ⟨m, hm, -⟩ := hsome i hi
    have htaken : (b.putSession {s with phase := .running}).Noted (some i) :=
      .of_current rfl hi hm (.inl rfl)
    split
    next hlooping =>
      -- the run loop goes on, and the start that began it will tell
      refine Noted.turn ((htaken.update _).of_busy fun n hn => ?_) _
      obtain rfl := Option.some.inj ((machine?_update_self hm Machine.unpause).symm.trans hn)
      have hl : m.looping = true := (holds_of hm _).symm.trans hlooping
      rw [Machine.busy, show m.unpause.looping = true from hl, Bool.true_or]
    next => exact htaken
  next =>
    split
    next => exact h.turn _
    next made hmade =>
      obtain ⟨m, hm, -⟩ := Option.map_eq_some_iff.mp (flags?_of_make hmade)
      exact .of_current rfl rfl hm (.inl rfl)
  next => exact h.turn _

theorem noted_callSessionStep (h : b.Noted none) (fs : List Frame) :
    (b.callSessionStep fs).2.Noted (b.callSessionStep fs).1 := by
  have ⟨s, hsession, _⟩ := h
  rw [callSessionStep]
  simp only [hsession]
  split
  next => exact h.turn _
  next =>
    split
    · exact h.turn _
    · exact h.mono _
  next =>
    split
    next => exact h.turn _
    next made hmade =>
      obtain ⟨m, hm, -⟩ := Option.map_eq_some_iff.mp (flags?_of_make hmade)
      exact .of_current rfl rfl hm (.inl rfl)

theorem noted_endRun (h : b.Noted none) (i : Nat) (rest : List Frame) :
    (b.endRun i (.starting i :: rest)).2.Noted (b.endRun i (.starting i :: rest)).1 := by
  obtain ⟨v, hv⟩ := turn_endRun b i (.starting i :: rest)
  rw [hv]
  exact (h.mono (some i)).endRun _

theorem noted_afterStep (h : b.Noted none) (i : Nat) (o : Outcome) (rest : List Frame) :
    (b.afterStep i o (.starting i :: rest)).2.Noted (b.afterStep i o (.starting i :: rest)).1 := by
  rw [afterStep.eq_def]
  split
  next => exact (h.mono (some i)).update _
  next =>
    split
    · exact h
    · exact h.turn _
  next => exact noted_endRun h i rest

/-- A call that drove a machine has ended well, and tells the session. -/
theorem noted_endStart {v : Value} (h : b.Noted (some i))
    (hv : ∀ m, b.machine? i = some m → v = .state (some m.toSnapshot)) (rest : List Frame) :
    (b.giveBack (.ok v) (.starting i :: rest)).1.Noted none := by
  by_cases hcur : b.Current i
  · obtain ⟨s, m, hsession, hi, hm⟩ := h.exists_machine? hcur
    obtain rfl := hv m hm
    simp only [giveBack, endStart, hsession, Session.settle, if_pos hi]
    exact .of_current rfl hi hm (.inr (.inr rfl))
  · rw [giveBack_forlorn rfl hcur]
    exact h.of_not_current hcur

theorem noted_endSessionStep (h : b.Noted (some i)) (v : Value) (rest : List Frame) :
    (b.giveBack (.ok v) (.stepping i :: rest)).1.Noted none := by
  by_cases hcur : b.Current i
  · obtain ⟨s, m, hsession, hi, hm⟩ := h.exists_machine? hcur
    have hstate : b.snapshot? i = some m.toSnapshot := by rw [snapshot?, hm]; rfl
    simp only [giveBack, endSessionStep, hsession, hstate, Session.note, if_pos hi]
    exact .of_current rfl hi hm (.inr (.inr rfl))
  · rw [giveBack_forlorn rfl hcur]
    exact h.of_not_current hcur

/-- A run loop that has begun shows on its machine. -/
theorem noted_callRun (h : b.Noted (some i)) (rest : List Frame) :
    (b.callRun i (.starting i :: rest)).2.Noted (b.callRun i (.starting i :: rest)).1 := by
  simp only [callRun]
  split
  · exact h.update _
  · refine Noted.turn (((h.update _).update _).of_busy fun m hm => ?_) _
    rw [machine?_update, if_pos rfl] at hm
    obtain ⟨n, -, rfl⟩ := Option.map_eq_some_iff.mp hm
    rfl

/-- A run that is taken up again, unless no pause was asked for. -/
theorem noted_callResume (h : b.Noted (some i)) (rest : List Frame) :
    (b.callResume i (.starting i :: rest)).2.Noted (b.callResume i (.starting i :: rest)).1 := by
  rw [callResume]
  split
  · exact noted_callRun h rest
  · exact h

theorem noted_nextStep (h : b.Noted none) (i : Nat) (rest : List Frame) :
    (b.nextStep i (.starting i :: rest)).2.Noted (b.nextStep i (.starting i :: rest)).1 := by
  rw [nextStep]
  split
  · exact h
  · exact noted_endRun h i rest

/-- The step of a run loop leaves the machine busy; the one that the session asks for ends at
once or waits, and only while it waits is the machine busy. -/
theorem noted_callStep (hs : Served P (some i) fs) (hagrees : b.Agrees fun _ => False)
    (h : b.Noted ((Focus.call (.step i)).pending? fs))
    (hbusy : (b.callStep i fs).2.Occupies (b.callStep i fs).1) :
    (b.callStep i fs).2.Noted (b.callStep i fs).1 := by
  cases hs with
  | @looping rest i hs =>
    have h : b.Noted none := h
    refine Noted.turn (((h.mono (some i)).callStep hagrees _).of_busy fun m hm => ?_) _
    refine hbusy i m hm (.inl ?_)
    rw [runs_callStep]
    exact List.mem_cons_self
  | @stepping rest i hs =>
    have hafter := Noted.callStep h hagrees (.stepping i :: rest)
    rcases returned_or_reading_callStep b i (.stepping i :: rest) with ⟨o, ho⟩ | hreading
    · rw [ho]
      exact hafter
    · exact Noted.turn (hafter.of_busy fun m hm => hbusy i m hm (.inr hreading)) _

/-- A step has ended: the run loop goes on, or the session is told. -/
theorem noted_stepped {o : Outcome} (hs : Served P (some i) fs)
    (h : b.Noted ((Focus.returned o).pending? fs))
    (hok : ∀ e rest, (b.giveBack o fs).2 = .go (.returned (.error e)) rest → ¬ Outermost rest) :
    (b.giveBack o fs).2.Noted (b.giveBack o fs).1 := by
  cases hs with
  | @looping rest i hs => exact noted_afterStep h i o rest
  | @stepping rest i hs =>
    cases o with
    | ok v => exact Noted.turn (noted_endSessionStep h v rest) _
    | error e => exact absurd hs.outermost (hok e rest rfl)

/-- A run has ended, and the session is told. -/
theorem noted_started {o : Outcome} {rest : List Frame} (hs : Served P none rest)
    (hended : b.Ended (fun _ => False) i o) (h : b.Noted (some i))
    (hok : ∀ e rest', (b.giveBack o (.starting i :: rest)).2 = .go (.returned (.error e)) rest' →
      ¬ Outermost rest') :
    (b.giveBack o (.starting i :: rest)).2.Noted (b.giveBack o (.starting i :: rest)).1 := by
  cases o with
  | ok v => exact Noted.turn (noted_endStart h (fun m hm => hended.state m v hm rfl) rest) _
  | error e => exact absurd hs.outermost (hok e rest rfl)

/-- A call on the session has ended, and the session was told before. -/
theorem noted_returned (hs : Served P none fs) (h : b.Noted none) (o : Outcome) :
    (b.giveBack o fs).2.Noted (b.giveBack o fs).1 := by
  cases hs with
  | nil => exact h
  | calling v i epoch hreply hs => exact h.same rfl rfl

/-- A text has come: the step ends, and the machine of a run loop is busy still. -/
theorem noted_endReading {epoch : Nat} {a : Answer} {rest : List Frame}
    (hs : Served P (some i) rest) (hagrees : b.Agrees fun _ => False) (h : b.Noted none)
    (hbusy : (b.endReading i epoch a rest).2.Occupies (b.endReading i epoch a rest).1) :
    (b.endReading i epoch a rest).2.Noted (b.endReading i epoch a rest).1 := by
  have hafter := (h.mono (some i)).acts hagrees (acts_endReading b i epoch a rest)
  obtain ⟨o, ho, -⟩ := turn_endReading b i epoch a rest
  rw [ho] at hbusy ⊢
  cases hs with
  | looping i hs =>
    exact Noted.turn (hafter.of_busy fun m hm => hbusy i m hm (.inl List.mem_cons_self)) _
  | stepping i hs => exact hafter

theorem noted_getting (h : b.Noted none) (fs : List Frame) :
    (b.goOn (.getting :: fs)).2.Noted (b.goOn (.getting :: fs)).1 := by
  rw [goOn]
  split
  · exact h.same rfl rfl
  · exact h

/-- A source at work tells the session nothing, and what it asks for is still to come. -/
theorem noted_replying (h : b.Noted none) (hagrees : b.Agrees fun _ => False) (deeds : List Deed)
    (answer : Except Failure (Option Text)) (fs : List Frame) :
    (b.goOn (.replying deeds answer :: fs)).2.Noted (b.goOn (.replying deeds answer :: fs)).1 := by
  rcases deeds with - | ⟨d, deeds⟩
  · exact h
  · cases d with
    | rest => exact h
    | signal g => exact (h.signal hagrees g).same rfl rfl
    | call v => exact h.turn _

/-- A turn that does not end a call on the session with a failure. -/
theorem noted_advance (hs : f.Serves P fs) (hp : Phased (fun _ => False) b f fs)
    (h : b.Noted (f.pending? fs)) (hbusy : (b.advance fs f).2.Occupies (b.advance fs f).1)
    (hok : ∀ e rest, (b.advance fs f).2 = .go (.returned (.error e)) rest → ¬ Outermost rest) :
    (b.advance fs f).2.Noted (b.advance fs f).1 := by
  cases hs with
  | @call c _ hc hs =>
    cases c with
    | sessionStart => exact noted_callStart h fs
    | sessionStep => exact noted_callSessionStep h fs
    | step | run | resume => exact absurd hc id
  | step i hs => exact noted_callStep hs hp h hbusy
  | run i hs => exact noted_callRun h _
  | resume i hs => exact noted_callResume h _
  | stepped i ho hs => exact noted_stepped hs h hok
  | started i ho hs => exact noted_started hs hp h hok
  | returned ho hs =>
    rw [hs.pending?_returned] at h
    exact noted_returned hs h _
  | answered i epoch ha hs => exact noted_endReading hs hp h hbusy
  | looping i hs => exact noted_nextStep h i _
  | getting i epoch hs => exact noted_getting h _
  | replying i epoch hreply hs => exact noted_replying h hp _ _ _

end Bench

/-! ### Runs -/

namespace Scheduler
variable {s : Scheduler} {moves : List Move} {z : Move}

/-- No call on the session has failed, and the session has been told all. -/
structure Informed (s : Scheduler) : Prop where
  hosted : s.Hosted
  attended : s.Attended (fun _ => True) fun _ => False
  /-- Between two turns of different threads. -/
  idle : s.roster.running = none → s.bench.Noted none
  noted : ∀ t f fs, s.roster.current? = some (t, f, fs) → s.bench.Noted (f.pending? fs)

namespace Informed

/-- A machine with a run loop or a step that waits is busy. -/
theorem busy_of_frames (h : s.Hosted) {t : Nat} {f : Focus} {fs : List Frame} {m : Machine}
    (hc : s.roster.current? = some (t, f, fs)) (hm : s.advance.bench.machine? i = some m)
    (hi : i ∈ runs (s.bench.advance fs f).2.frames ∨
      i ∈ (readings (s.bench.advance fs f).2.frames).map Prod.fst) : m.busy = true := by
  have hgoverned : s.advance.Governed := (h.move (x := .turn) trivial).governed
  obtain ⟨-, ht⟩ := Roster.current?_eq_some_iff.mp hc
  have hthread : s.advance.roster.threads[t]? = some (s.bench.advance fs f).2.thread := by
    rw [advance_of_some hc]
    exact Roster.getElem?_settle_self ht _
  refine (hgoverned.exclusive hm).busy.mpr ?_
  rcases hi with hi | hi
  · refine .inl (Roster.mem_gather_iff.mpr ⟨t, _, hthread, ?_⟩)
    rwa [Turn.frames_thread]
  · obtain ⟨⟨j, epoch⟩, hmem, rfl⟩ := List.mem_map.mp hi
    have hheld : (j, epoch) ∈ s.advance.roster.readings := by
      refine Roster.mem_gather_iff.mpr ⟨t, _, hthread, ?_⟩
      rwa [Turn.readings_thread]
    exact .inr (Held.fst_mem hheld)

theorem advance (h : s.Informed) (hattended : s.advance.Attended (fun _ => True) fun _ => False)
    (hok : ∀ e, ¬ s.advance.Ends (.error e)) : s.advance.Informed := by
  have hhosted : s.advance.Hosted := h.hosted.move (x := .turn) trivial
  cases hc : s.roster.current? with
  | none =>
    rw [advance_of_none h.attended.orderly hc]
    exact h
  | some c =>
    obtain ⟨t, f, fs⟩ := c
    obtain ⟨-, ht⟩ := Roster.current?_eq_some_iff.mp hc
    have hbench : s.advance.bench = (s.bench.advance fs f).1 := by rw [advance_of_some hc]
    have hroster : s.advance.roster = s.roster.settle t (s.bench.advance fs f).2 := by
      rw [advance_of_some hc]
    have hturn := Bench.noted_advance (h.attended.serves t f fs ht) (h.attended.phased t f fs hc)
      (h.noted t f fs hc) (fun i m hm => busy_of_frames h.hosted hc (hbench ▸ hm))
      fun e rest hx hrest => hok e ⟨t, rest, by
        rw [hroster, hx]
        exact Roster.current?_settle_go hc _ _, hrest⟩
    refine ⟨hhosted, hattended, fun hr => ?_, fun u f' fs' hc' => ?_⟩
    · rw [hbench]
      rw [hroster] at hr
      cases hx : (s.bench.advance fs f).2 with
      | go f' fs' =>
        obtain ⟨hr', -⟩ := Roster.current?_eq_some_iff.mp (Roster.current?_settle_go hc f' fs')
        rw [hx, hr'] at hr
        cases hr
      | sleep | await | done =>
        rw [hx] at hturn
        exact hturn
    · rw [hroster] at hc'
      rw [hbench]
      rw [(Roster.eq_go_of_current?_settle hc hc').2] at hturn
      exact hturn

/-- A thread that starts to run was at rest. -/
theorem dispatch (h : s.Informed) (hhosted : s.dispatch.Hosted)
    (hattended : s.dispatch.Attended (fun _ => True) fun _ => False) : s.dispatch.Informed := by
  have hidle : s.dispatch.roster.running = none → s.roster.running = none := by
    intro hr
    rw [Scheduler.dispatch, Roster.dispatch.eq_def] at hr
    split at hr
    · cases hr
    · exact hr
  refine ⟨hhosted, hattended, fun hr => h.idle (hidle hr), fun t f fs hc => ?_⟩
  obtain ⟨hr, ht⟩ := Roster.current?_eq_some_iff.mp hc
  rw [show s.dispatch.roster.threads = _ from s.roster.threads_dispatch] at ht
  by_cases hsame : s.roster.running = some t
  · exact h.noted t f fs (Roster.current?_eq_some_iff.mpr ⟨hsame, ht⟩)
  · have hrests := h.attended.orderly.rested t f fs ht hsame
    rw [hrests.pending? (h.attended.serves t f fs ht)]
    refine h.idle ?_
    rw [Scheduler.dispatch, Roster.dispatch.eq_def] at hr
    split at hr
    next hnone _ => exact hnone
    next => exact absurd hr hsame

/-- What the surroundings do while no thread is running. -/
theorem noted_intervene {x : Intervention} (h : s.bench.Noted none)
    (ha : s.bench.Agrees fun _ => False) (hx : x.OfSession) :
    (s.intervene x).bench.Noted none := by
  cases x with
  | spawn c => exact h
  | signal g => exact h.signal ha g
  | signalMachine i g => exact absurd hx id
  | feed text => exact h.same rfl rfl
  | cooperate i on => exact h.update_unseen i fun m => ⟨rfl, rfl⟩
  | edit p o =>
    obtain ⟨t, ht, hnone, hsome⟩ := h
    refine ⟨{t with program := p, options := o}, ?_, hnone, hsome⟩
    show s.bench.session.map _ = _
    rw [ht]
    rfl

theorem move (h : s.Informed) (hz : z.OfSession) (hok : ∀ e, ¬ (s.move z).Ends (.error e)) :
    (s.move z).Informed := by
  have hhosted := h.hosted.move hz
  have hattended : (s.move z).Attended (fun _ => True) fun _ => False := by
    refine attended_move (fun _ _ => trivial) h.attended hz (fun _ _ _ _ _ _ => trivial)
      (fun _ => id) ?_
    -- a start that leaves a wreck behind fails with its run
    rintro i rfl hw
    obtain ⟨e, he⟩ := hw.ends h.attended
    exact hok e he
  cases z with
  | turn => exact h.advance hattended hok
  | dispatch => exact h.dispatch hhosted hattended
  | outside x =>
    rw [Scheduler.move] at hhosted hattended ⊢
    split
    next hr =>
      rw [if_pos hr] at hhosted hattended
      rw [Option.isNone_iff_eq_none] at hr
      have hnoted := noted_intervene (h.idle hr) (h.attended.agrees hr) hz
      refine ⟨hhosted, hattended, fun _ => hnoted, fun t f fs _ => hnoted.mono _⟩
    next => exact h

end Informed

theorem informed_ofSession (p : Program) (o : Options) {source : Option Source}
    (sink : Option Sink) (hsource : ∀ x, source = some x → x.OfSession fun _ => True) :
    (ofSession p o source sink).Informed := by
  refine ⟨hosted_ofSession p o sink hsource, ?_, fun _ => ⟨_, rfl, fun _ => rfl, nofun⟩, nofun⟩
  refine (attended_play p o source sink [] hsource nofun).mono fun i hw => ?_
  obtain ⟨before, after, hnil, -⟩ := hw
  cases before <;> cases hnil

theorem Informed.play (h : s.Informed) (hmoves : ∀ x ∈ moves, x.OfSession)
    (hok : ∀ before e, before <+: moves → ¬ (s.play before).Ends (.error e)) :
    (s.play moves).Informed := by
  induction moves generalizing s with
  | nil => exact h
  | cons x rest ih =>
    obtain ⟨hx, hrest⟩ := List.forall_mem_cons.mp hmoves
    refine ih (h.move hx fun e => hok [x] e ?_) hrest fun before e hb => ?_
    · exact List.cons_prefix_cons.mpr ⟨rfl, List.nil_prefix⟩
    · exact hok (x :: before) e (List.cons_prefix_cons.mpr ⟨rfl, hb⟩)

/-- As long as no call on a session has failed, between all turns and at the end of every
call the session keeps the present state of its machine, if that is not busy, and none if
it has no machine. -/
theorem play_fresh (p : Program) (o : Options) (source : Option Source) (sink : Option Sink)
    (moves : List Move) (hsource : ∀ x, source = some x → x.OfSession fun _ => True)
    (hmoves : ∀ x ∈ moves, x.OfSession)
    (hok : ∀ before e, before <+: moves →
      ¬ ((ofSession p o source sink).play before).Ends (.error e))
    (hpoint : ((ofSession p o source sink).play moves).roster.running = none ∨
      ∃ out, ((ofSession p o source sink).play moves).Ends out) :
    let b := ((ofSession p o source sink).play moves).bench
    ∃ t, b.session = some t ∧
      (∀ m, b.sessionMachine? = some m → m.busy = false → t.last = b.sessionState?) ∧
      (b.sessionMachine? = none → t.current = none ∧ t.last = none) := by
  intro b
  have h := (informed_ofSession p o sink hsource).play hmoves hok
  have hnoted : b.Noted none := by
    rcases hpoint with hr | ⟨out, u, fs, hc, hfs⟩
    · exact h.idle hr
    · have hpending : (Focus.returned out).pending? fs = none := by
        rcases hfs with rfl | ⟨v, rest, rfl⟩ <;> rfl
      exact hpending ▸ h.noted u _ _ hc
  obtain ⟨t, ht, hnone, hsome⟩ := hnoted
  refine ⟨t, ht, ?_⟩
  rw [Bench.sessionState?, Bench.sessionMachine?, ht, Option.bind_some]
  cases hi : t.current with
  | none => exact ⟨fun m hm => (by cases hm), fun _ => ⟨rfl, hnone hi⟩⟩
  | some i =>
    obtain ⟨m, hm, hx⟩ := hsome i hi
    rw [Option.bind_some, hm]
    refine ⟨fun n hn hbusy => ?_, fun hn => (by cases hn)⟩
    cases hn
    rcases hx with hx | hx | hx
    · cases hx
    · exact absurd hx (Bool.eq_false_iff.mp hbusy)
    · exact hx

/-- A start waits for text, is paused and taken up again by another start, and ends. -/
theorem play_fresh_unpaused :
    let s := (ofSession ⟨#[',']⟩ {memorySize := .integer 1} (some (.queue [])) none).play
      (Move.alone .sessionStart 5 ++ [.outside (.signal .pause)] ++ Move.alone .sessionStart 2 ++
        [.outside (.feed ['a']), .dispatch] ++ List.replicate 3 .turn ++ [.dispatch] ++
        List.replicate 5 .turn)
    ∃ t m, s.bench.session = some t ∧ s.bench.sessionMachine? = some m ∧ m.busy = false ∧
      m.steps = 1 ∧ s.outcome? 1 = some (.ok (.state none)) ∧ t.last = s.bench.sessionState? := by
  intro s
  obtain ⟨t, ht, hfresh, -⟩ := play_fresh ⟨#[',']⟩ {memorySize := .integer 1}
    (some (.queue [])) none
    (Move.alone .sessionStart 5 ++ [.outside (.signal .pause)] ++ Move.alone .sessionStart 2 ++
      [.outside (.feed ['a']), .dispatch] ++ List.replicate 3 .turn ++ [.dispatch] ++
      List.replicate 5 .turn)
    (fun x hx => by cases hx; trivial)
    (by decide)
    (fun before e hb he => by
      have hnone : ∀ k < 24, ((ofSession ⟨#[',']⟩ {memorySize := .integer 1}
          (some (.queue [])) none).play ((Move.alone .sessionStart 5 ++
            [.outside (.signal .pause)] ++ Move.alone .sessionStart 2 ++
            [.outside (.feed ['a']), .dispatch] ++ List.replicate 3 .turn ++ [.dispatch] ++
            List.replicate 5 .turn : List Move).take k)).failing = false := by decide
      have hfalse := hnone before.length (Nat.lt_succ_of_le hb.length_le)
      rw [← List.prefix_iff_eq_take.mp hb, he.failing] at hfalse
      cases hfalse)
    (.inl rfl)
  exact ⟨t, _, ht, rfl, rfl, rfl, rfl, hfresh _ rfl rfl⟩

end Scheduler
end TapeMachine
