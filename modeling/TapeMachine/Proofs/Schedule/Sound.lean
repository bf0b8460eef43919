import TapeMachine.Proofs.Schedule.Advance
import TapeMachine.Proofs.Schedule.Roster

/-! Sound schedulers.

At any time the steps that wait, read off the frames of all threads, are those
that the machines know of, one for each machine at most (`Held`). Every move keeps
this, so in every run each move stirs the machines and does nothing else to them.
What every stir keeps, every run keeps (`play_induction`). -/
namespace TapeMachine

/-! ### The steps that wait -/

/-- The steps that wait are known to their machines. -/
structure Held (ms : List Machine) (rs : List (Nat × Nat)) : Prop where
  nodup : (rs.map Prod.fst).Nodup
  waiting : ∀ j, Waiting ms j ↔ j ∈ rs.map Prod.fst
  awaits : ∀ i epoch, (i, epoch) ∈ rs → Awaits ms i epoch

/-- A step that waits on finds nothing but resets. -/
theorem Awaits.of_stir {frail : Prop} {ms ms' : List Machine} {sg : List Sign} {i epoch : Nat}
    (h : Stir frail ms sg ms') (ha : Awaits ms i epoch) (hw : Waiting ms i)
    (hw' : Waiting ms' i) : Awaits ms' i epoch := by
  obtain ⟨m, hm, hle, hasks⟩ := ha
  obtain ⟨m', hm', hshift⟩ := h.at_index hm
  obtain ⟨k, rfl⟩ :=
    hshift.of_waiting ((Waiting.iff_of hm).mp hw) ((Waiting.iff_of hm').mp hw')
  refine ⟨_, hm', ?_, fun he => ?_⟩
  · rw [Machine.epoch_wiped]
    omega
  · rw [Machine.epoch_wiped] at he
    obtain rfl : k = 0 := by omega
    exact hasks he

namespace Held
variable {frail : Prop} {ms ms' : List Machine} {sg : List Sign} {rs rs' rest : List (Nat × Nat)}

theorem perm (h : Held ms rs) (hp : rs.Perm rs') : Held ms rs' where
  nodup := (hp.map Prod.fst).nodup_iff.mp h.nodup
  waiting j := (h.waiting j).trans (hp.map Prod.fst).mem_iff
  awaits i epoch hm := h.awaits i epoch (hp.mem_iff.mpr hm)

theorem fst_mem {i epoch : Nat} (h : (i, epoch) ∈ rs) : i ∈ rs.map Prod.fst :=
  List.mem_map_of_mem (f := Prod.fst) h

theorem step (h : Held ms (rs ++ rest)) (hs : Stir frail ms sg ms') (hw : Rewaits ms ms' rs rs') :
    Held ms' (rs' ++ rest) := by
  obtain ⟨hnodup, hwaiting, hawaits⟩ := h
  cases hw with
  | same hsame =>
    refine ⟨hnodup, fun j => (hsame j).trans (hwaiting j), fun i epoch hm => ?_⟩
    have hwait := (hwaiting i).mpr (fst_mem hm)
    exact (hawaits i epoch hm).of_stir hs hwait ((hsame i).mpr hwait)
  | began i epoch hn hw' hothers ha =>
    have hnew : i ∉ (rs ++ rest).map Prod.fst := fun hm => hn ((hwaiting i).mpr hm)
    refine ⟨List.nodup_cons.mpr ⟨hnew, hnodup⟩, fun j => ?_, fun j e hm => ?_⟩
    · rw [List.cons_append, List.map_cons, List.mem_cons]
      by_cases hj : j = i
      · subst hj
        exact ⟨fun _ => .inl rfl, fun _ => hw'⟩
      · rw [hothers j hj, hwaiting j]
        exact ⟨.inr, fun h => h.resolve_left hj⟩
    · rcases List.mem_cons.mp hm with heq | hm
      · cases heq
        exact ha
      · have hj : j ≠ i := fun h => hnew (h ▸ fst_mem hm)
        have hwait := (hwaiting j).mpr (fst_mem hm)
        exact (hawaits j e hm).of_stir hs hwait ((hothers j hj).mpr hwait)
  | ended i epoch hn hothers =>
    rw [List.cons_append, List.map_cons, List.nodup_cons] at hnodup
    refine ⟨hnodup.2, fun j => ?_, fun j e hm => ?_⟩
    · by_cases hj : j = i
      · subst hj
        exact ⟨fun h => absurd h hn, fun h => absurd h hnodup.1⟩
      · rw [hothers j hj, hwaiting j, List.cons_append, List.map_cons, List.mem_cons]
        exact ⟨fun h => h.resolve_left hj, .inr⟩
    · have hj : j ≠ i := fun h => hnodup.1 (h ▸ fst_mem hm)
      have hwait := (hwaiting j).mpr (List.mem_cons_of_mem _ (fst_mem hm))
      exact (hawaits j e (List.mem_cons_of_mem _ hm)).of_stir hs hwait ((hothers j hj).mpr hwait)

end Held

/-! ### The threads -/

theorem Turn.leaves_fits {x : Turn} (h : x.Fits) : x.Leaves Focus.Fits := by
  cases x <;> exact h

theorem Turn.readings_thread (x : Turn) : x.thread.readings = TapeMachine.readings x.frames := by
  cases x <;> rfl

namespace Roster
variable {r : Roster}

/-- The steps in which the threads wait. -/
def readings (r : Roster) : List (Nat × Nat) := r.threads.toList.flatMap Thread.readings

/-- What every thread does next is the business of its innermost frames. -/
def Fits (r : Roster) : Prop :=
  ∀ (t : Nat) (f : Focus) (fs : List Frame),
    r.threads[t]? = some (.active f fs) → f.Fits fs

/-- The steps in which all threads but one wait. -/
def otherReadings (r : Roster) (t : Nat) : List (Nat × Nat) :=
  (r.threads.toList.eraseIdx t).flatMap Thread.readings

theorem readings_perm {t : Nat} {x : Thread} (h : r.threads[t]? = some x) :
    r.readings.Perm (x.readings ++ r.otherReadings t) := gather_perm h

theorem readings_put_perm {t : Nat} {x : Thread} (h : r.threads[t]? = some x) (y : Thread) :
    (r.put t y).readings.Perm (y.readings ++ r.otherReadings t) := gather_put_perm h y

theorem Fits.put (h : r.Fits) (t : Nat) {y : Thread} (hy : ∀ f fs, y = .active f fs → f.Fits fs) :
    (r.put t y).Fits := by
  intro u f fs hu
  rw [Roster.put, Array.getElem?_setIfInBounds] at hu
  split at hu
  · split at hu
    · exact hy f fs (Option.some.inj hu)
    · cases hu
  · exact h u f fs hu

theorem Fits.of_threads {r' : Roster} (h : r.Fits) (ht : r'.threads = r.threads) : r'.Fits :=
  fun t f fs hu => h t f fs (ht ▸ hu)

theorem readings_of_threads {r' : Roster} (ht : r'.threads = r.threads) :
    r'.readings = r.readings := by
  rw [readings, readings, ht]

/-- A call waits for nothing when it begins. -/
theorem readings_spawn (r : Roster) (c : Call) : (r.spawn c).readings = r.readings := by
  simp [spawn, readings, Thread.readings]

end Roster

/-! ### Moves -/

namespace Scheduler
variable {s s' : Scheduler}

/-- Nothing is out of place. -/
structure Sound (s : Scheduler) : Prop where
  fits : s.roster.Fits
  held : Held s.bench.bare s.roster.readings
  manned : s.bench.Manned

/-- What a move does, and what it keeps. -/
structure Moved (s s' : Scheduler) : Prop where
  sound : s'.Sound
  keeps : s.bench.Keeps s'.bench
  stir : ∃ sg, Stir s.bench.Frail s.bench.bare sg s'.bench.bare ∧
    s'.bench.signs = s.bench.signs ++ sg

/-- A move that begins and ends no wait: nothing but pauses and resets. -/
theorem Moved.of_rewinds (h : s.Sound) (hb : s.bench.Rewinds s'.bench) (hf : s'.roster.Fits)
    (hr : s'.roster.readings = s.roster.readings) : Moved s s' := by
  obtain ⟨sg, hres, hsg⟩ := hb.resets
  refine ⟨⟨hf, ?_, hb.keeps.manned h.manned⟩, hb.keeps, sg, .calm hres, hsg⟩
  have hheld : Held s.bench.bare ([] ++ s.roster.readings) := h.held
  rw [hr]
  exact hheld.step (.calm hres : Stir s.bench.Frail _ _ _) (.same (Waiting.of_resets hres))

theorem advance_moved (h : s.Sound) : Moved s s.advance := by
  obtain ⟨bench, roster⟩ := s
  rw [advance]
  cases hc : roster.current? with
  | none => exact .of_rewinds h (.refl bench) (h.fits.of_threads rfl) rfl
  | some c =>
    obtain ⟨t, f, fs⟩ := c
    obtain ⟨-, hthread⟩ := Roster.current?_eq_some_iff.mp hc
    have hperm := Roster.readings_perm hthread
    have hheld := h.held.perm hperm
    have hturn : Bench.Turned bench fs (bench.advance fs f) := by
      refine Bench.advance_turned h.manned (h.fits t f fs hthread) fun i epoch hm => ?_
      have hm' := List.mem_append_left (roster.otherReadings t) hm
      exact ⟨(hheld.waiting i).mpr (Held.fst_mem hm'), hheld.awaits i epoch hm'⟩
    have hput := roster.threads_settle t (bench.advance fs f).2
    obtain ⟨sg, hstir, hsg⟩ := hturn.stir
    refine ⟨⟨?_, ?_, hturn.keeps.manned h.manned⟩, hturn.keeps, sg, hstir, hsg⟩
    · refine (h.fits.put t fun f' fs' heq => ?_).of_threads hput
      exact (Turn.leaves_fits hturn.fits).thread heq
    · show Held (bench.advance fs f).1.bare (roster.settle t (bench.advance fs f).2).readings
      rw [Roster.readings_of_threads hput]
      refine Held.perm ?_ (Roster.readings_put_perm hthread _).symm
      rw [Turn.readings_thread]
      exact hheld.step hstir hturn.rewaits

theorem intervene_moved (h : s.Sound) (x : Intervention) : Moved s (s.intervene x) := by
  cases x with
  | spawn c =>
    refine .of_rewinds h (.refl s.bench) (fun t f fs ht => ?_) ?_
    · simp only [intervene, spawn, Roster.spawn, Array.getElem?_push] at ht
      split at ht
      · cases ht
        exact .call c .nil
      · exact h.fits t f fs ht
    · exact s.roster.readings_spawn c
  | signal g => exact .of_rewinds h (Bench.rewinds_signal h.manned g) (h.fits.of_threads rfl) rfl
  | signalMachine i g =>
    rw [intervene]
    split
    next hi => exact .of_rewinds h (Bench.rewinds_signalMachine hi g) (h.fits.of_threads rfl) rfl
    next => exact .of_rewinds h (.refl s.bench) h.fits rfl
  | feed text =>
    have hthreads := s.roster.threads_wakeGetter
    refine .of_rewinds h (.of_eq rfl rfl (.of_eq rfl rfl rfl)) (h.fits.of_threads hthreads) ?_
    exact Roster.readings_of_threads hthreads
  | cooperate i on =>
    have hflag : ∀ m : Machine, ({m with cooperative := on} : Machine).bare = m.bare := fun _ => rfl
    refine .of_rewinds h ?_ (h.fits.of_threads rfl) rfl
    exact .of_eq (Bench.bare_update_flags hflag s.bench i) rfl (.update s.bench i _)
  | edit p o =>
    refine .of_rewinds h (.of_eq rfl rfl ?_) (h.fits.of_threads rfl) rfl
    cases hs : s.bench.session with
    | none => exact .of_eq (by simp [intervene, onBench, hs]) rfl rfl
    | some t =>
      have hs' : (s.intervene (.edit p o)).bench.session =
          some {t with program := p, options := o} := by simp [intervene, onBench, hs]
      exact .of_session hs hs' (fun _ => id) rfl rfl

/-- Every move keeps a scheduler sound, and all it does to machines is to stir them. -/
theorem move_moved (h : s.Sound) (x : Move) : Moved s (s.move x) := by
  cases x with
  | turn => exact advance_moved h
  | dispatch =>
    have hthreads := s.roster.threads_dispatch
    exact .of_rewinds h (.refl s.bench) (h.fits.of_threads hthreads)
      (Roster.readings_of_threads hthreads)
  | outside x =>
    rw [move]
    split
    · exact intervene_moved h x
    · exact .of_rewinds h (.refl s.bench) h.fits rfl

/-- No machine goes away. -/
theorem size_le_move (h : s.Sound) (x : Move) :
    s.bench.machines.size ≤ (s.move x).bench.machines.size := by
  obtain ⟨sg, hstir, -⟩ := (move_moved h x).stir
  by_contra hlt
  have hlast : (s.move x).bench.bare.length < s.bench.bare.length := by
    rw [Bench.length_bare, Bench.length_bare]
    omega
  obtain ⟨m, hm, -⟩ := hstir.at_index (List.getElem?_eq_getElem hlast)
  exact Nat.lt_irrefl _ (List.getElem?_eq_some_iff.mp hm).1

/-! ### Runs -/

theorem play_sound (h : s.Sound) (moves : List Move) :
    (s.play moves).Sound ∧ s.bench.Keeps (s.play moves).bench := by
  induction moves generalizing s with
  | nil => exact ⟨h, .refl s.bench⟩
  | cons x rest ih =>
    have hx := move_moved h x
    obtain ⟨hsound, hkeeps⟩ := ih hx.sound
    exact ⟨hsound, hx.keeps.trans hkeeps⟩

/-- What every stir of machines keeps, every run keeps. -/
theorem play_induction {P : List Machine → List Sign → Prop} (h : s.Sound)
    (hP : P s.bench.bare s.bench.signs)
    (hstep : ∀ ms sg ms' sg', P ms sg → Stir s.bench.Frail ms sg' ms' → P ms' (sg ++ sg'))
    (moves : List Move) : P (s.play moves).bench.bare (s.play moves).bench.signs := by
  induction moves generalizing s with
  | nil => exact hP
  | cons x rest ih =>
    have hx := move_moved h x
    obtain ⟨sg, hstir, hsg⟩ := hx.stir
    refine ih hx.sound ?_ fun ms sg ms' sg' hp hs => hstep ms sg ms' sg' hp (hs.mono hx.keeps.frail)
    rw [hsg]
    exact hstep _ _ _ _ hP hstir

/-- What was told stays told. -/
theorem signs_prefix_play (h : s.Sound) (moves : List Move) :
    s.bench.signs <+: (s.play moves).bench.signs := by
  refine play_induction (P := fun _ sg => s.bench.signs <+: sg) h (List.prefix_refl _) ?_ moves
  intro ms sg ms' sg' hp _
  exact hp.trans (List.prefix_append _ _)

/-- A machine without a session stays the only one. -/
theorem play_single_induction {P : Machine → List Sign → Prop} {m : Machine} (h : s.Sound)
    (hs : s.bench.session = none) (hm : s.bench.bare = [m]) (hP : P m s.bench.signs)
    (hstep : ∀ n sg n' sg', P n sg → Stir s.bench.Frail [n] sg' [n'] → P n' (sg ++ sg'))
    (moves : List Move) :
    ∃ n, (s.play moves).bench.bare = [n] ∧ P n (s.play moves).bench.signs := by
  induction moves generalizing s m with
  | nil => exact ⟨m, hm, hP⟩
  | cons x rest ih =>
    have hx := move_moved h x
    obtain ⟨sg, hstir, hsg⟩ := hx.stir
    obtain ⟨hs', hsize⟩ := hx.keeps.alone hs
    obtain ⟨n, hn⟩ : ∃ n, (s.move x).bench.bare = [n] := by
      rw [← List.length_eq_one_iff, Bench.length_bare, hsize, ← Bench.length_bare, hm]
      rfl
    refine ih hx.sound hs' hn ?_ fun n sg n' sg' hp hst =>
      hstep n sg n' sg' hp (hst.mono hx.keeps.frail)
    rw [hsg]
    rw [hm, hn] at hstir
    exact hstep _ _ _ _ hP hstir

end Scheduler
end TapeMachine
