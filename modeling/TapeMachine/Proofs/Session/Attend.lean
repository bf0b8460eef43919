import TapeMachine.Proofs.Session.Phase

/-! Sessions over whole runs.

A session and its callbacks alone on a bench (`Scheduler.ofSession`), where all calls are
calls on the session (`Move.OfSession`). The threads that serve the session and what it
says of its machine keep together over every run (`Scheduler.Attended`), up to the wrecks
that failed runs have left on the way (`Scheduler.Wrecked`). -/
namespace TapeMachine

variable {P : Failure → Prop} {W W' : Nat → Prop} {i : Nat}

theorem Phased.session {b : Bench} {f : Focus} {fs : List Frame} (h : Phased W b f fs) :
    b.session.isSome := by
  have hagrees : ∀ W, b.Agrees W → b.session.isSome := by
    rintro W ⟨s, hs, -⟩
    rw [hs]
    rfl
  have hbegins : ∀ i x, b.Begins i x → b.session.isSome := by
    rintro i x ⟨s, hs, -⟩
    rw [hs]
    rfl
  rw [Phased.eq_def] at h
  split at h
  · obtain ⟨x, hx⟩ := h
    exact hbegins _ x hx
  · obtain ⟨x, hx, -⟩ := h
    exact hbegins _ x hx
  · exact hagrees _ h.agrees
  · exact hagrees _ h

namespace Scheduler
variable {s s' : Scheduler} {moves : List Move}

/-- A session that has done nothing yet, and its callbacks. -/
def ofSession (p : Program) (o : Options) (source : Option Source) (sink : Option Sink) :
    Scheduler :=
  {bench := {session := some {program := p, options := o}, source := source, sink := sink}}

/-- The threads serve the session, and the session knows what its machine is up to, but for
wrecks. -/
structure Attended (P : Failure → Prop) (W : Nat → Prop) (s : Scheduler) : Prop where
  serves : s.roster.All (Focus.Serves P)
  orderly : s.roster.Orderly
  behaves : s.bench.Behaves P
  /-- Between two turns of different threads. -/
  agrees : s.roster.running = none → s.bench.Agrees W
  phased : ∀ t f fs, s.roster.current? = some (t, f, fs) → Phased W s.bench f fs

/-- The running thread is about to leave a wreck. -/
def Wrecks (s : Scheduler) (i : Nat) : Prop :=
  ∃ t f fs, s.roster.current? = some (t, f, fs) ∧ s.bench.Wrecks f fs i

/-- A run has left a machine as a wreck at some time. -/
def Wrecked (s : Scheduler) (moves : List Move) (i : Nat) : Prop :=
  ∃ before after, moves = before ++ .turn :: after ∧ (s.play before).Wrecks i

/-- A step that finds another one waiting may be called if the failure is of the kind
expected. -/
def Admits (P : Failure → Prop) (s : Scheduler) : Prop :=
  ∀ t i fs n, s.roster.current? = some (t, .call (.step i), fs) →
    (s.bench.machine? i).map Machine.stance = some (.occupied n) → P (.reentrantStep n)

theorem Attended.mono (h : s.Attended P W) (hW : ∀ i, W i → W' i) : s.Attended P W' := by
  refine ⟨h.serves, h.orderly, h.behaves, fun hr => (h.agrees hr).mono hW, fun t f fs hc => ?_⟩
  have hphased := h.phased t f fs hc
  rw [Phased.eq_def] at hphased ⊢
  split at hphased
  · exact hphased
  · exact hphased
  · exact ⟨hphased.agrees.mono fun j => .imp_left (hW j), hphased.looping, hphased.state⟩
  · exact hphased.mono hW

/-- While no thread is running, nothing but the agreement is to be kept. -/
theorem Attended.idle (h : s.Attended P W) (hr : s'.roster.running = none)
    (hserves : s'.roster.All (Focus.Serves P)) (horderly : s'.roster.Orderly)
    (hscripts : s'.bench.scripts = s.bench.scripts) (hagrees : s'.bench.Agrees W) :
    s'.Attended P W := by
  refine ⟨hserves, horderly, ?_, fun _ => hagrees, fun t f fs hc => ?_⟩
  · exact ⟨hscripts ▸ h.behaves.replies, hscripts ▸ h.behaves.reactions⟩
  · obtain ⟨hrunning, -⟩ := Roster.current?_eq_some_iff.mp hc
    rw [hr] at hrunning
    cases hrunning

/-! ### Moves -/

/-- The running thread has come to the end of a turn. -/
theorem Attended.settle {t : Nat} {f : Focus} {fs : List Frame} {b : Bench} {x : Turn}
    (h : s.Attended P W) (hc : s.roster.current? = some (t, f, fs)) (hb : b.Behaves P)
    (hserves : x.Leaves (Focus.Serves P)) (hphased : x.Phased W' b) :
    Attended P W' ⟨b, s.roster.settle t x⟩ := by
  refine ⟨h.serves.settle t hserves, h.orderly.settle hc x, hb, fun hr => ?_,
    fun u f' fs' hc' => ?_⟩
  · cases x with
    | go f' fs' =>
      obtain ⟨hr', -⟩ := Roster.current?_eq_some_iff.mp (Roster.current?_settle_go hc f' fs')
      rw [show (s.roster.settle t (.go f' fs')).running = none from hr] at hr'
      cases hr'
    | sleep | await | done => exact hphased
  · cases x with
    | go f'' fs'' =>
      have heq := (Roster.current?_settle_go hc f'' fs'').symm.trans hc'
      cases heq
      exact hphased
    | sleep | await | done => cases hc'

theorem attended_advance (hP : Covers P) (h : s.Attended P W) (hfree : s.Admits P)
    (hW : ∀ i, W i → W' i) (hwreck : ∀ i, s.Wrecks i → W' i) : s.advance.Attended P W' := by
  cases hc : s.roster.current? with
  | none =>
    rw [advance_of_none h.orderly hc]
    exact h.mono hW
  | some c =>
    obtain ⟨t, f, fs⟩ := c
    obtain ⟨-, ht⟩ := Roster.current?_eq_some_iff.mp hc
    have hserves := h.serves t f fs ht
    have hphased := h.phased t f fs hc
    have hscripts := s.bench.scripts_advance fs f
    rw [advance_of_some hc]
    refine h.settle hc ⟨?_, ?_⟩ ?_ ?_
    · exact hscripts ▸ h.behaves.replies
    · exact hscripts ▸ h.behaves.reactions
    · refine Bench.serves_advance hP h.behaves hphased.session hserves fun i n hf hn => ?_
      subst hf
      exact hfree t i fs n hc hn
    · exact Bench.phased_advance hserves hphased hW fun i hi => hwreck i ⟨t, f, fs, hc, hi⟩

theorem attended_dispatch (h : s.Attended P W) : s.dispatch.Attended P W := by
  obtain ⟨bench, roster⟩ := s
  have hthreads := roster.threads_dispatch
  refine ⟨h.serves.of_threads hthreads, h.orderly.dispatch, h.behaves, fun hr => ?_,
    fun t f fs hc => ?_⟩
  · rw [dispatch, Roster.dispatch.eq_def] at hr
    split at hr
    · cases hr
    · exact h.agrees hr
  · obtain ⟨hr, ht⟩ := Roster.current?_eq_some_iff.mp hc
    rw [show (dispatch ⟨bench, roster⟩).roster.threads = _ from hthreads] at ht
    by_cases hsame : roster.running = some t
    · exact h.phased t f fs (Roster.current?_eq_some_iff.mpr ⟨hsame, ht⟩)
    · -- the thread that starts was at rest
      have hplain := (h.orderly.rested t f fs ht hsame).plain (h.serves t f fs ht)
      refine (hplain.phased_iff W bench).mpr (h.agrees ?_)
      rw [dispatch, Roster.dispatch.eq_def] at hr
      split at hr
      next hnone _ => exact hnone
      next => exact absurd hr hsame

theorem attended_intervene {x : Intervention} (h : s.Attended P W) (hx : x.OfSession)
    (hr : s.roster.running = none) : (s.intervene x).Attended P W := by
  have hagrees := h.agrees hr
  have hscripts : (s.intervene x).bench.scripts = s.bench.scripts := by
    have hmove := s.scripts_move (.outside x)
    rwa [move, if_pos (by rw [hr]; rfl)] at hmove
  have horderly : (s.intervene x).roster.Orderly := by
    have hmove := orderly_move h.orderly (.outside x)
    rwa [move, if_pos (by rw [hr]; rfl)] at hmove
  cases x with
  | spawn c =>
    have hserves : (s.roster.spawn c).All (Focus.Serves P) := h.serves.spawn (.call hx .nil)
    exact h.idle hr hserves horderly hscripts hagrees
  | signal g => exact h.idle hr h.serves horderly hscripts (hagrees.heeds (.signal s.bench g))
  | signalMachine i g => exact absurd hx id
  | feed text =>
    have hthreads := s.roster.threads_wakeGetter
    refine h.idle ?_ (h.serves.of_threads hthreads) horderly hscripts
      (hagrees.same (.of_machines rfl rfl))
    show s.roster.wakeGetter.running = none
    rw [Roster.wakeGetter]
    split
    · exact hr
    · exact hr
  | cooperate i on =>
    refine h.idle hr h.serves horderly hscripts (hagrees.same (.update ?_ s.bench i))
    exact fun _ => rfl
  | edit p o =>
    refine h.idle hr h.serves horderly hscripts ?_
    obtain ⟨t, ht, hnone, hsome⟩ := hagrees
    refine ⟨{t with program := p, options := o}, ?_, hnone, hsome⟩
    show s.bench.session.map _ = _
    rw [ht]
    rfl

theorem attended_move {x : Move} (hP : Covers P) (h : s.Attended P W) (hx : x.OfSession)
    (hfree : s.Admits P) (hW : ∀ i, W i → W' i) (hwreck : ∀ i, x = .turn → s.Wrecks i → W' i) :
    (s.move x).Attended P W' := by
  cases x with
  | turn => exact attended_advance hP h hfree hW fun i => hwreck i rfl
  | dispatch => exact (attended_dispatch h).mono hW
  | outside x =>
    rw [move]
    split
    next hr => exact (attended_intervene h hx (Option.isNone_iff_eq_none.mp hr)).mono hW
    next => exact h.mono hW

/-! ### Runs -/

theorem attended_ofSession (p : Program) (o : Options) {source : Option Source}
    {sink : Option Sink} (hsource : ∀ x, source = some x → x.OfSession P)
    (hsink : ∀ x, sink = some x → x.OfSession P) :
    (ofSession p o source sink).Attended P fun _ => False := by
  refine ⟨fun t f fs ht => ?_, Roster.orderly_empty, ⟨fun reply n hr => ?_, fun r n e hr => ?_⟩,
    fun _ => ?_, fun t f fs hc => by cases hc⟩
  · simp [ofSession] at ht
  · obtain ⟨x, hx, hscript⟩ := Option.bind_eq_some_iff.mp hr
    have hkeeps := hsource x hx
    cases x with
    | scripted r =>
      cases hscript
      exact hkeeps n
    | fixed | queue | lines => cases hscript
  · obtain ⟨x, hx, hscript⟩ := Option.bind_eq_some_iff.mp hr
    have hkeeps := hsink x hx
    cases x with
    | scripted r' =>
      cases hscript
      exact hkeeps n e
    | silent | stream => cases hscript
  · exact ⟨_, rfl, fun _ => rfl, fun i hi => by cases hi⟩

/-- A run keeps session and machine together, but for the wrecks it leaves. -/
theorem play_attended (hP : ∀ e, P e) (h : s.Attended P W) (hmoves : ∀ x ∈ moves, x.OfSession) :
    (s.play moves).Attended P fun i => W i ∨ s.Wrecked moves i := by
  induction moves generalizing s W with
  | nil => exact h.mono fun i => .inl
  | cons x rest ih =>
    obtain ⟨hx, hrest⟩ := List.forall_mem_cons.mp hmoves
    have hmove : (s.move x).Attended P fun i => W i ∨ s.Wrecked (x :: rest) i := by
      refine attended_move (fun e _ => hP e) h hx (fun _ _ _ n _ _ => hP _) (fun i => .inl) ?_
      rintro i rfl hi
      exact .inr ⟨[], rest, rfl, hi⟩
    refine (ih hmove hrest).mono fun i hi => ?_
    rcases hi with hi | ⟨before, after, rfl, hi⟩
    · exact hi
    · exact .inr ⟨x :: before, after, rfl, hi⟩

end Scheduler
end TapeMachine
