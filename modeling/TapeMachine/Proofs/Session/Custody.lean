import TapeMachine.Proofs.Schedule.Conservation
import TapeMachine.Proofs.Session.Gone
import TapeMachine.Proofs.Session.Reentrance

/-! Custody of texts.

A text that is taken out of the queue belongs to the machine whose step has asked for it,
and that is the session's machine as long as no call drives another one
(`Scheduler.Devoted`). Without resets the session changes its machine only at a start, when it
is idle. If no step of its machine waits then, no call drives that machine any more, and what
the session takes up is a new machine that only the start drives.

The one gap is a start on an idle session whose machine has a single step waiting
(`Scheduler.Ousts`): the step waits on for a machine that the session has dropped. -/
namespace TapeMachine

variable {P : Failure → Prop} {W : Nat → Prop} {f : Focus} {fs : List Frame} {i j : Nat}

/-! ### Turns without a reset -/

theorem Resets.eq_of_not_mem {ms ms' : List Machine} {sg : List Sign} (h : Resets ms sg ms')
    (hr : .reset ∉ sg) : sg = [] ∧ ms' = ms := by
  cases h with
  | nil => exact ⟨rfl, rfl⟩
  | cons i _ _ => exact absurd (List.mem_cons_self ..) hr

/-- Machines of which no reset is told stay in their first epoch. -/
theorem Stir.epoch_eq_zero {frail : Prop} {ms ms' : List Machine} {sg : List Sign}
    (h : Stir frail ms sg ms') (hr : .reset ∉ sg) (hms : ∀ n ∈ ms, n.epoch = 0) :
    ∀ n ∈ ms', n.epoch = 0 := by
  cases h with
  | calm hres => rwa [(hres.eq_of_not_mem hr).2]
  | made hnew =>
    intro n hn
    rcases List.mem_append.mp hn with hn | hn
    · exact hms n hn
    · obtain ⟨p, k, hk, hears, speaks, rfl⟩ := hnew
      rw [List.mem_singleton.mp hn]
      rfl
  | act a hm hd _ hres =>
    obtain ⟨-, rfl⟩ := hres.eq_of_not_mem fun hmem => hr (List.mem_append_right _ hmem)
    intro n hn
    rcases List.mem_or_eq_of_mem_set hn with hn | rfl
    · exact hms n hn
    · rw [hd.kept.epoch]
      exact hms _ (List.mem_of_getElem? hm)

namespace Bench
variable {b b' : Bench} {x : Turn} {y y' : Flags}

/-- A session whose machine is not reset keeps it. -/
theorem Heeds.current (h : Heeds b b') (hi : b.Current i) (hy : b.flags? i = some y)
    (hy' : b'.flags? i = some y') (he : y'.epoch = y.epoch) : b'.Current i := by
  induction h generalizing y y' with
  | same h => rwa [Current, h.session]
  | signal b g =>
    cases g with
    | pause =>
      obtain ⟨s, hs, hcur⟩ := id hi
      rw [Bench.signal, hs]
      exact ((retains_pause hs).kept i hi).1
    | reset =>
      have hreset := epoch?_reset hi
      obtain ⟨m, hm, rfl⟩ := Option.map_eq_some_iff.mp hy
      obtain ⟨m', hm', rfl⟩ := Option.map_eq_some_iff.mp hy'
      rw [epoch?, epoch?, hm, hm'] at hreset
      have hsucc : m'.epoch = m.epoch + 1 := Option.some.inj hreset
      have hsame : m'.epoch = m.epoch := he
      omega
  | trans _ hlater ih ih' =>
    rename_i b b₁ b' hfirst
    obtain ⟨z, hz, hyz⟩ := hfirst.calms hy
    obtain ⟨z', hz', hzz⟩ := hlater.calms hz
    obtain rfl := Option.some.inj (hz'.symm.trans hy')
    have hle := hyz.epoch_le
    have hle' := hzz.epoch_le
    exact ih' (ih hi hy hz (by omega)) hz hy' (by omega)

theorem session_callRun (b : Bench) (i : Nat) (fs : List Frame) :
    (b.callRun i fs).1.session = b.session := by
  simp only [callRun]
  split
  · rfl
  · rfl

theorem session_endRun (b : Bench) (i : Nat) (fs : List Frame) :
    (b.endRun i fs).1.session = b.session := (same_endRun b i fs).session

theorem session_afterStep (b : Bench) (i : Nat) (o : Outcome) (fs : List Frame) :
    (b.afterStep i o fs).1.session = b.session := by
  rw [afterStep.eq_def]
  split
  · rfl
  · split
    · rfl
    · rfl
  · exact session_endRun b i fs

/-- The session is idle, and can make a machine in the place of the one it has. -/
def Replaces (b : Bench) : Prop :=
  ∃ s made, b.session = some s ∧ s.phase = .idle ∧ b.make s.program s.options = .ok made

theorem current_callStart (hi : b.Current i) (hfree : ¬ b.Replaces) (fs : List Frame) :
    (b.callStart fs).1.Current i := by
  obtain ⟨s, hs, hcur⟩ := id hi
  rw [callStart, hs]
  simp only
  split
  next =>
    split
    · exact ⟨_, rfl, hcur⟩
    · exact ⟨_, rfl, hcur⟩
  next hidle =>
    split
    next => exact hi
    next made hmade => exact absurd ⟨s, made, hs, hidle, hmade⟩ hfree
  next => exact hi

theorem current_callSessionStep (hi : b.Current i) (fs : List Frame) :
    (b.callSessionStep fs).1.Current i := by
  obtain ⟨s, hs, hcur⟩ := id hi
  rw [callSessionStep, hs]
  simp only [hcur]
  split
  · exact hi
  · split
    · exact hi
    · exact hi
  next heq _ => cases heq

theorem current_endStart (hi : b.Current i) (j : Nat) (v : Value) (fs : List Frame) :
    (b.endStart j v fs).1.Current i := by
  rw [endStart.eq_def]
  simp only
  split
  next s state hs _ =>
    obtain ⟨r, hr, hcur⟩ := hi
    obtain rfl := Option.some.inj (hs.symm.trans hr)
    refine ⟨_, rfl, Eq.trans ?_ hcur⟩
    rw [Session.settle]
    split
    · rfl
    · rfl
  next => exact hi

theorem current_endSessionStep (hi : b.Current i) (j : Nat) (fs : List Frame) :
    (b.endSessionStep j fs).1.Current i := by
  rw [endSessionStep]
  split
  next s state hs _ =>
    obtain ⟨r, hr, hcur⟩ := hi
    obtain rfl := Option.some.inj (hs.symm.trans hr)
    refine ⟨_, rfl, Eq.trans ?_ hcur⟩
    rw [Session.note]
    split
    · rfl
    · rfl
  next => exact hi

theorem current_giveBack (hi : b.Current i) (o : Outcome) (fs : List Frame) :
    (b.giveBack o fs).1.Current i := by
  rw [giveBack.eq_def]
  split
  · exact hi
  · rwa [Current, session_afterStep]
  · exact hi
  · split
    · exact current_endStart hi _ _ _
    · exact hi
  · split
    · exact current_endSessionStep hi _ _
    · exact hi
  · exact hi

/-- In a turn without a reset the session keeps its machine, unless a start replaces it. -/
theorem current_advance (hf : f.Fits fs) (hi : b.Current i) (hy : b.flags? i = some y)
    (hy' : (b.advance fs f).1.flags? i = some y') (he : y'.epoch = y.epoch)
    (hfree : f = .call .sessionStart → ¬ b.Replaces) : (b.advance fs f).1.Current i := by
  have hsession : ∀ {b' : Bench}, b'.session = b.session → b'.Current i := fun hs => by
    rwa [Current, hs]
  cases hf with
  | call c _ =>
    cases c with
    | step j =>
      by_cases hends : b.Halts j
      · show (b.callStep j fs).1.Current i
        rw [callStep_of_halts hends]
        exact hi
      · exact (heeds_callStep hends fs).current hi hy hy' he
    | run j => exact hsession (session_callRun b j fs)
    | resume j =>
      show (b.callResume j fs).1.Current i
      rw [callResume]
      split
      · exact hsession (session_callRun b j fs)
      · exact hi
    | sessionStart => exact current_callStart hi (hfree rfl) fs
    | sessionStep => exact current_callSessionStep hi fs
  | returned o _ => exact current_giveBack hi o fs
  | answered a j epoch _ => exact hsession (session_endReading b j epoch a _)
  | looping j _ =>
    show (b.nextStep j _).1.Current i
    rw [nextStep]
    split
    · exact hi
    · exact hsession (session_endRun b j _)
  | getting j epoch _ =>
    simp only [advance, goOn]
    split
    · exact hi
    · exact hi
  | replying deeds answer j epoch _ =>
    rcases deeds with - | ⟨- | g | v, deeds⟩
    · exact hi
    · exact hi
    · exact ((Heeds.refl b).obey true [g]).current hi hy hy' he
    · exact hi

/-- Only a call on the session begins to drive a machine. -/
theorem Yields.mem_drives (h : b.Yields f fs b' x) (hf : ∀ c, f = .call c → ¬ c.Serves)
    (hj : j ∈ drives x.frames) : j ∈ drives fs := by
  cases h with
  | starts => exact absurd (.inl rfl) (hf _ rfl)
  | begins => exact absurd (.inr rfl) (hf _ rfl)
  | done => cases hj
  | awaits i epoch y _ hy =>
    rcases hy with rfl | ⟨deeds, answer, rfl⟩
    · exact hj
    · exact hj
  | fails i e hy | settles i v s hy =>
    rcases hy with rfl | rfl
    · exact List.mem_cons_of_mem _ hj
    · exact List.mem_cons_of_mem _ hj
  | _ => exact hj

theorem drives_callStart (b : Bench) (fs : List Frame) : ∀ j ∈ drives (b.callStart fs).2.frames,
    j ∈ drives fs ∨ (b.callStart fs).1.Current j := by
  rw [callStart]
  split
  next => exact fun j => .inl
  next s hs =>
    split
    next i _ hi =>
      simp only
      split
      · exact fun j => .inl
      · exact List.forall_mem_cons.mpr ⟨.inr ⟨_, rfl, hi⟩, fun j => .inl⟩
    next =>
      split
      next => exact fun j => .inl
      next => exact List.forall_mem_cons.mpr ⟨.inr ⟨_, rfl, rfl⟩, fun j => .inl⟩
    next => exact fun j => .inl

theorem drives_callSessionStep (b : Bench) (fs : List Frame) :
    ∀ j ∈ drives (b.callSessionStep fs).2.frames,
      j ∈ drives fs ∨ (b.callSessionStep fs).1.Current j := by
  rw [callSessionStep]
  split
  next => exact fun j => .inl
  next s hs =>
    split
    next => exact fun j => .inl
    next i hi _ =>
      split
      · exact fun j => .inl
      · exact List.forall_mem_cons.mpr ⟨.inr ⟨s, hs, hi⟩, fun j => .inl⟩
    next =>
      split
      next => exact fun j => .inl
      next => exact List.forall_mem_cons.mpr ⟨.inr ⟨_, rfl, rfl⟩, fun j => .inl⟩

/-- The machines that calls drive after a turn were driven before, or the session works with
them. -/
theorem drives_advance (hf : f.Fits fs) (b : Bench)
    (hj : j ∈ drives (b.advance fs f).2.frames) :
    j ∈ drives fs ∨ (b.advance fs f).1.Current j := by
  by_cases hc : ∃ c, f = .call c ∧ c.Serves
  · obtain ⟨c, rfl, rfl | rfl⟩ := hc
    · exact drives_callStart b fs j hj
    · exact drives_callSessionStep b fs j hj
  · exact .inl ((advance_yields hf b).mem_drives (fun c hcall hs => hc ⟨c, hcall, hs⟩) hj)

end Bench

namespace Scheduler
variable {s : Scheduler} {x : Move} {moves : List Move} {t : Nat} {m : Machine}

/-- A start finds the session idle, and a step of its machine waiting. -/
def Ousts (s : Scheduler) : Prop :=
  ∃ t fs i m, s.roster.current? = some (t, .call .sessionStart, fs) ∧ s.bench.Replaces ∧
    s.bench.Current i ∧ s.bench.machine? i = some m ∧ m.stepping = true

/-- No machine was reset, and every call drives the session's machine. -/
structure Devoted (s : Scheduler) : Prop where
  hosted : s.Hosted
  epochs : ∀ n ∈ s.bench.bare, n.epoch = 0
  drives : ∀ i ∈ s.roster.drives, s.bench.Current i

/-! ### Moves -/

theorem epochs_move (h : s.Devoted) (hr : .reset ∉ (s.move x).bench.signs) :
    ∀ n ∈ (s.move x).bench.bare, n.epoch = 0 := by
  obtain ⟨sg, hstir, hsg⟩ := (move_moved h.hosted.governed.sound x).stir
  rw [hsg] at hr
  exact hstir.epoch_eq_zero (fun hmem => hr (List.mem_append_right _ hmem)) h.epochs

/-- Without a reset the session keeps its machine, unless a start replaces it. -/
theorem Devoted.current_move (h : s.Devoted) (hx : x.OfSession)
    (hr : .reset ∉ (s.move x).bench.signs) (hi : s.bench.Current i)
    (hfree : ∀ t fs, x = .turn → s.roster.current? = some (t, .call .sessionStart, fs) →
      ¬ s.bench.Replaces) : (s.move x).bench.Current i := by
  have hsound := h.hosted.governed.sound
  obtain ⟨m, hm⟩ := h.hosted.exists_of_current hi
  obtain ⟨sg, hstir, -⟩ := (move_moved hsound x).stir
  obtain ⟨n, hn, -⟩ := hstir.at_index (Bench.getElem?_bare_of hm)
  have hbefore := h.epochs _ (List.mem_of_getElem? (Bench.getElem?_bare_of hm))
  have hafter := epochs_move h hr _ (List.mem_of_getElem? hn)
  obtain ⟨m', hm', rfl⟩ := Bench.exists_of_getElem?_bare hn
  have hy : s.bench.flags? i = some m.flags := by rw [Bench.flags?, hm]; rfl
  have hy' : (s.move x).bench.flags? i = some m'.flags := by rw [Bench.flags?, hm']; rfl
  have he : m'.flags.epoch = m.flags.epoch := Eq.trans hafter (Eq.symm hbefore)
  cases x with
  | turn =>
    rw [move] at hy' ⊢
    cases hc : s.roster.current? with
    | none => rwa [advance_of_none h.hosted.orderly hc]
    | some c =>
      obtain ⟨t, f, fs⟩ := c
      have hfits := hsound.fits t f fs (Roster.current?_eq_some_iff.mp hc).2
      rw [advance_of_some hc] at hy' ⊢
      refine Bench.current_advance hfits hi hy hy' he ?_
      rintro rfl
      exact hfree t fs rfl hc
  | dispatch => exact hi
  | outside z =>
    rw [move] at hy' ⊢
    split
    next hnone =>
      rw [if_pos hnone] at hy'
      cases z with
      | signal g => exact (Bench.Heeds.signal s.bench g).current hi hy hy' he
      | signalMachine i g => exact absurd hx id
      | edit p o =>
        obtain ⟨r, hr, hcur⟩ := hi
        refine ⟨{r with program := p, options := o}, ?_, hcur⟩
        show s.bench.session.map _ = _
        rw [hr]
        rfl
      | spawn | feed | cooperate => exact hi
    next => exact hi

/-- An idle session is asked to start while no step of its machine waits: then no call drives
a machine. -/
theorem Devoted.not_drives (h : s.Devoted)
    (hc : s.roster.current? = some (t, .call .sessionStart, fs)) (hrep : s.bench.Replaces)
    (hfree : ¬ s.Ousts) : i ∉ s.roster.drives := by
  intro hi
  have hcur := h.drives i hi
  obtain ⟨W, hattended⟩ := h.hosted.attended
  obtain ⟨m, hm⟩ := h.hosted.exists_of_current hcur
  have hgoverned := h.hosted.governed
  rcases hattended.busy_of_drives hgoverned.sound hgoverned.looped hc trivial hi hm with
    hlooping | hstepping
  · -- the session would not be idle
    obtain ⟨r, -, hr, hidle, -⟩ := hrep
    obtain ⟨r', hr', hi'⟩ := hcur
    obtain rfl := Option.some.inj (hr.symm.trans hr')
    have hagrees : s.bench.Agrees W := hattended.phased t _ _ hc
    obtain ⟨n, -, hn, hphase⟩ := hagrees.sessionMachine? hr hi'
    obtain rfl := Option.some.inj (hm.symm.trans hn)
    have hflags : m.flags.phase = .idle := by
      rcases hphase with hphase | ⟨hrunning, -⟩
      · exact hphase.symm.trans hidle
      · cases hidle.symm.trans hrunning
    exact Bool.false_ne_true ((Flags.phase_eq_idle.mp hflags).1.symm.trans hlooping)
  · exact hfree ⟨t, fs, i, m, hc, hrep, hcur, hm, hstepping⟩

theorem Devoted.advance (h : s.Devoted) (hr : .reset ∉ s.advance.bench.signs)
    (hfree : ¬ s.Ousts) : ∀ i ∈ s.advance.roster.drives, s.advance.bench.Current i := by
  intro i hi
  cases hc : s.roster.current? with
  | none =>
    rw [advance_of_none h.hosted.orderly hc] at hi ⊢
    exact h.drives i hi
  | some c =>
    obtain ⟨t, f, fs⟩ := c
    obtain ⟨-, ht⟩ := Roster.current?_eq_some_iff.mp hc
    have hfits := h.hosted.governed.sound.fits t f fs ht
    have hold := Roster.gather_perm (g := fun x => TapeMachine.drives x.frames) ht
    have hnew : s.advance.roster.drives.Perm (TapeMachine.drives (s.bench.advance fs f).2.frames ++
        s.roster.gatherOthers (fun x => TapeMachine.drives x.frames) t) := by
      rw [advance_of_some hc, Roster.drives_of_threads (s.roster.threads_settle t _),
        ← Turn.frames_thread]
      exact Roster.gather_put_perm ht _
    have hbefore : i ∈ s.roster.drives → s.advance.bench.Current i := fun hmem => by
      refine h.current_move (x := .turn) trivial hr (h.drives i hmem) fun t' fs' _ hc' hrep => ?_
      exact h.not_drives hc' hrep hfree hmem
    rcases List.mem_append.mp (hnew.mem_iff.mp hi) with hmem | hmem
    · rcases Bench.drives_advance hfits s.bench hmem with hmem | hcur
      · exact hbefore (hold.mem_iff.mpr (List.mem_append_left _ hmem))
      · rwa [advance_of_some hc]
    · exact hbefore (hold.mem_iff.mpr (List.mem_append_right _ hmem))

theorem Devoted.move (h : s.Devoted) (hx : x.OfSession) (hr : .reset ∉ (s.move x).bench.signs)
    (hfree : ¬ s.Ousts) : (s.move x).Devoted := by
  refine ⟨h.hosted.move hx, epochs_move h hr, fun i hi => ?_⟩
  by_cases hturn : x = .turn
  · subst hturn
    exact h.advance hr hfree i hi
  · rw [drives_move hturn] at hi
    exact h.current_move hx hr (h.drives i hi) fun _ _ ht => absurd ht hturn

/-- While a thread is running, nothing happens but its turns. -/
theorem move_of_running {y : Move} (hr : s.roster.running = some t) (hy : y ≠ .turn) :
    s.move y = s := by
  cases y with
  | turn => exact absurd rfl hy
  | dispatch =>
    rw [Scheduler.move, dispatch, Roster.dispatch.eq_def, hr]
  | outside z => exact if_neg (by rw [hr]; exact Bool.false_ne_true)

/-- A start that ousts a machine leaves a step of it waiting. -/
theorem Ousts.drops (h : s.Ousts) : ∃ i m, s.bench.Current i ∧ ¬ s.advance.bench.Current i ∧
    s.advance.bench.machine? i = some m ∧ m.stepping = true := by
  obtain ⟨t, fs, i, m, hc, ⟨r, made, hr, hidle, hmade⟩, hi, hm, hstepping⟩ := h
  have hcall : s.bench.callStart fs = ((made.putSession {r with
      phase := .running, current := some s.bench.machines.size}).log .started,
        .go (.call (.run s.bench.machines.size)) (.starting s.bench.machines.size :: fs)) := by
    obtain ⟨program, options, phase, current, last⟩ := r
    obtain rfl : phase = .idle := hidle
    simp only [Bench.callStart, hr, hmade]
  have hlt := Bench.lt_size_of_machine? hm
  obtain ⟨n, hn, -, rfl⟩ := Bench.eq_of_make hmade
  have hadvance := advance_of_some hc
  rw [show s.bench.advance fs (.call .sessionStart) = s.bench.callStart fs from rfl, hcall]
    at hadvance
  refine ⟨i, m, hi, ?_, ?_, hstepping⟩
  · rw [hadvance]
    rintro ⟨r', hr', hcur⟩
    cases hr'
    exact absurd (Option.some.inj hcur) (Nat.ne_of_gt hlt)
  · rw [hadvance]
    show (s.bench.machines.push _)[i]? = some m
    rw [Array.getElem?_push, if_neg (Nat.ne_of_lt hlt)]
    exact hm

/-! ### Runs -/

theorem devoted_ofSession (p : Program) (o : Options) (texts : List Text) (sink : Option Sink) :
    (ofSession p o (some (.queue texts)) sink).Devoted := by
  refine ⟨hosted_ofSession p o sink fun x hx => ?_, fun n hn => ?_, fun i hi => ?_⟩
  · cases hx
    trivial
  · cases hn
  · cases hi

theorem supplied_ofSession (p : Program) (o : Options) (texts : List Text) (sink : Option Sink) :
    (ofSession p o (some (.queue texts)) sink).Supplied texts :=
  ⟨fun t f fs ht => by simp [ofSession] at ht, ⟨texts, rfl, rfl⟩, rfl⟩

/-- Without resets, and as long as no start ousts a machine, every call drives the session's
machine. -/
theorem Devoted.play (h : s.Devoted) (hmoves : ∀ y ∈ moves, y.OfSession)
    (hr : .reset ∉ (s.play moves).bench.signs)
    (hfree : ∀ before, before <+: moves → ¬ (s.play before).Ousts) : (s.play moves).Devoted := by
  induction moves generalizing s with
  | nil => exact h
  | cons x rest ih =>
    obtain ⟨hx, hrest⟩ := List.forall_mem_cons.mp hmoves
    have hsound := (move_moved h.hosted.governed.sound x).sound
    have hreset : .reset ∉ (s.move x).bench.signs := fun hmem =>
      hr ((signs_prefix_play hsound rest).subset hmem)
    refine ih (h.move hx hreset (hfree [] List.nil_prefix)) hrest hr fun before hb => ?_
    exact hfree (x :: before) (List.cons_prefix_cons.mpr ⟨rfl, hb⟩)

/-- In front of a queue, and without resets, every text that is taken out of the queue goes to
the session's machine of that moment: the very next thing that happens is that it joins the
input of that machine, which the session keeps. This holds unless a start was called on the
idle session while a step of its machine waited; such a start drops the machine, and the
step waits on. -/
theorem play_custody (p : Program) (o : Options) (queued : List Text) (sink : Option Sink)
    (moves : List Move) (hmoves : ∀ x ∈ moves, x.OfSession)
    (hreset : .reset ∉ ((ofSession p o (some (.queue queued)) sink).play moves).bench.signs) :
    let s := (ofSession p o (some (.queue queued)) sink).play moves
    ((∀ before, before <+: moves →
        ¬ ((ofSession p o (some (.queue queued)) sink).play before).Ousts) →
      ∀ x text texts, s.bench.source = some (.queue (text :: texts)) →
        (s.move x).bench.source = some (.queue texts) →
        ∃ i m m', s.bench.Current i ∧ s.bench.machine? i = some m ∧
          (∀ y, y ≠ .turn → (s.move x).move y = s.move x) ∧
          (s.move x).advance.bench.Current i ∧
          (s.move x).advance.bench.machine? i = some m' ∧
          m'.input.toList = m.input.toList ++ text) ∧
    (s.Ousts → ∃ i m, s.bench.Current i ∧ ¬ s.advance.bench.Current i ∧
      s.advance.bench.machine? i = some m ∧ m.stepping = true) := by
  intro s
  refine ⟨fun hfree x text texts hq hq' => ?_, Ousts.drops⟩
  have hdevoted : s.Devoted := (devoted_ofSession p o queued sink).play hmoves hreset hfree
  have hsound := hdevoted.hosted.governed.sound
  have hstart := devoted_ofSession p o queued sink
  have hsupplied : s.Supplied _ := (supplied_ofSession p o queued sink).play
    hstart.hosted.governed.sound hstart.hosted.orderly moves
  obtain ⟨hbench, t, i, epoch, fs, ht, hc⟩ := hsupplied.takes hsound hq hq'
  obtain ⟨hr, -⟩ := Roster.current?_eq_some_iff.mp hc
  have hread : i ∈ (readings (.getting :: .reading i epoch :: fs)).map Prod.fst :=
    List.mem_cons_self ..
  have hdrives : i ∈ s.roster.drives := Roster.mem_gather_iff.mpr
    ⟨t, _, ht, (hdevoted.hosted.serves t _ _ ht).mem_drives_of_reading hread⟩
  have hcur := hdevoted.drives i hdrives
  obtain ⟨m, hm⟩ := hdevoted.hosted.exists_of_current hcur
  have hepoch : m.epoch = epoch := by
    have hzero : m.bare.epoch = 0 :=
      hdevoted.epochs _ (List.mem_of_getElem? (Bench.getElem?_bare_of hm))
    have hle : epoch ≤ m.bare.epoch := (hdevoted.hosted.governed.reading hm ht
      (List.mem_cons_self (a := (i, epoch)) (l := readings fs))).2
    exact hzero.trans (by omega)
  have hm' : (s.move x).bench.machine? i = some m := by
    rw [hbench]
    exact hm
  obtain ⟨m', o', hears, hheard, -⟩ := Bench.endReading_of hm' epoch (.ok text) fs
  refine ⟨i, m, m', hcur, hm, fun y hy => move_of_running hr hy, ?_, ?_, ?_⟩
  · rw [advance_of_some hc]
    show ((s.move x).bench.endReading i epoch (.ok text) fs).1.Current i
    rwa [Bench.Current, Bench.session_endReading, hbench]
  · rw [advance_of_some hc]
    exact hheard
  · cases hears with
    | text text _ =>
      show (Machine.consume _).input.toList = _
      rw [(Machine.input_consume _).1, Machine.toList_receive]
    | late text hne => exact absurd hepoch hne

theorem Ousts.starts (h : s.Ousts) : s.starts = true ∧ 0 < s.bench.machines.size := by
  obtain ⟨t, fs, i, m, hc, -, -, hm, -⟩ := h
  refine ⟨?_, Nat.lt_of_le_of_lt (Nat.zero_le i) (Bench.lt_size_of_machine? hm)⟩
  rw [Scheduler.starts, hc]

/-- A run waits for text, is paused, and a single step is refused before the text comes. -/
theorem play_custody_paused :
    let s := (ofSession ⟨#[',']⟩ {memorySize := .integer 1} (some (.queue [])) none).play
      (Move.alone .sessionStart 5 ++ .outside (.signal .pause) :: Move.alone .sessionStep 2 ++
        [.outside (.feed ['a']), .dispatch])
    ∃ i m, s.bench.Current i ∧ s.advance.advance.bench.Current i ∧
      s.advance.advance.bench.machine? i = some m ∧ m.input.toList = ['a'] := by
  intro s
  let first := ofSession ⟨#[',']⟩ {memorySize := .integer 1} (some (.queue [])) none
  let moves := Move.alone .sessionStart 5 ++ .outside (.signal .pause) ::
    Move.alone .sessionStep 2 ++ [.outside (.feed ['a']), .dispatch]
  have hfree : ∀ before, before <+: moves → ¬ (first.play before).Ousts := by
    intro before hb housts
    have hnone : ∀ k < 15, (first.play (moves.take k)).starts = false ∨
        (first.play (moves.take k)).bench.machines.size = 0 := by decide
    obtain ⟨hstarts, hsize⟩ := housts.starts
    rw [List.prefix_iff_eq_take.mp hb] at hstarts hsize
    rcases hnone before.length (Nat.lt_succ_of_le hb.length_le) with hk | hk
    · rw [hstarts] at hk
      cases hk
    · exact absurd hsize (hk ▸ Nat.lt_irrefl 0)
  obtain ⟨i, m, m', hcur, hm, -, hcur', hm', hinput⟩ :=
    (play_custody ⟨#[',']⟩ {memorySize := .integer 1} [] none moves (by decide) (by decide)).1
      hfree .turn ['a'] [] rfl rfl
  have hzero : i = 0 := by
    obtain ⟨r, hr, hi⟩ := hcur
    cases hr
    exact (Option.some.inj hi).symm
  subst hzero
  cases hm
  exact ⟨0, m', hcur, hcur', hm', hinput⟩

/-- A single step waits for text on an idle session, a start takes up another machine, and
the text that is fed then goes to the machine that the session has dropped. -/
theorem text_for_dropped_machine :
    let s := (ofSession ⟨#[',']⟩ {memorySize := .integer 1} (some (.queue [])) none).play
      (Move.alone .sessionStep 3 ++ Move.alone .sessionStart 5 ++
        [.outside (.feed ['a']), .dispatch])
    s.bench.source = some (.queue [['a']]) ∧ s.advance.bench.source = some (.queue []) ∧
      s.bench.session.bind (·.current) = some 1 ∧
      (s.advance.advance.bench.machine? 0).map (·.input) = some #['a'] ∧
      (s.advance.advance.bench.machine? 1).map (·.input) = some #[] :=
  ⟨rfl, rfl, rfl, rfl, rfl⟩

end Scheduler
end TapeMachine
