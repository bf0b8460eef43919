import TapeMachine.Proofs.Schedule.Heed
import TapeMachine.Proofs.Schedule.Roster
import TapeMachine.Proofs.Schedule.Sound

/-! Run loops.

A machine knows whether a run loop is active on it, and which run loops are active
can be read off the frames of all threads. The two agree at any time (`Looped`), so a
machine has one run loop at most. A turn begins one run loop, ends one, or leaves them
as they are (`Flips`); in each case it is plain what becomes of the flags of every
machine (`Flags.Flips`). In particular nothing but a run loop that begins sets a
machine running, and it begins only where none is active. Without a reset, an active run
loop stops running only at the end of the program, and only a call that runs or resumes the
machine takes a pause back (`Flags.Lasts`). -/
namespace TapeMachine

/-- The machine of a run loop. -/
def Frame.looping? : Frame → Option Nat
  | .looping i => some i
  | _ => none

/-- The machines of the run loops among some frames. -/
def runs (fs : List Frame) : List Nat := fs.filterMap Frame.looping?

@[simp] theorem runs_nil : runs [] = [] := rfl

theorem mem_runs_iff (fs : List Frame) {i : Nat} : i ∈ runs fs ↔ .looping i ∈ fs := by
  rw [runs, List.mem_filterMap]
  constructor
  · rintro ⟨x, hx, h⟩
    cases x with
    | looping j =>
      cases h
      exact hx
    | _ => cases h
  · exact fun h => ⟨_, h, rfl⟩

/-- Something told of frames that has nothing to do with steps that wait. -/
structure Unread {α : Type} (g : Frame → Option α) : Prop where
  reading : ∀ i epoch, g (.reading i epoch) = none
  getting : g .getting = none
  replying : ∀ deeds answer, g (.replying deeds answer) = none

theorem unread_looping? : Unread Frame.looping? := ⟨fun _ _ => rfl, rfl, fun _ _ => rfl⟩

/-- What one turn does to the flags of a machine. -/
structure Flags.Flips (x y : Flags) : Prop where
  epoch_le : x.epoch ≤ y.epoch
  /-- What is running after a turn was running before, or a run loop has begun. -/
  running : y.running = true → y.epoch = x.epoch ∧
    ((x.running = true ∧ y.looping = x.looping) ∨ (x.looping = false ∧ y.looping = true))

theorem Flags.Calms.flips {x y : Flags} (h : x.Calms y) : x.Flips y :=
  ⟨h.epoch_le, fun hr => ⟨(h.running hr).2, .inl ⟨(h.running hr).1, h.looping⟩⟩⟩

theorem Flags.Flips.refl (x : Flags) : x.Flips x := (Calms.refl x).flips

/-- What lasts over a turn without a reset, on a machine that may halt or be roused in it. -/
structure Flags.Lasts (halts roused : Prop) (x y : Flags) : Prop where
  running : y.epoch = x.epoch → x.running = true → y.looping = true → y.running = true ∨ halts
  paused : y.epoch = x.epoch → x.paused = true → y.paused = true ∨ roused

theorem Flags.Calms.persists {x y : Flags} (h : x.Calms y) (halts roused : Prop) :
    x.Lasts halts roused y :=
  ⟨fun he hr _ => .inl ((h.lasts he).1 hr), fun he hp => .inl ((h.lasts he).2 hp)⟩

theorem Flags.Lasts.refl (x : Flags) (halts roused : Prop) : x.Lasts halts roused x :=
  (Calms.refl x).persists halts roused

namespace Bench
variable {b b' : Bench} {f : Focus} {ls ls' : List Nat} {fs : List Frame} {i j : Nat} {x : Flags}

/-- A call that runs or resumes machine `i`, on the machine itself or on a session that takes
it to be paused. -/
def Rouses (b : Bench) (i : Nat) : Focus → Prop
  | .call (.run j) | .call (.resume j) => j = i
  | .call .sessionStart => ∃ s, b.session = some s ∧ s.phase = .paused ∧ s.current = some i
  | _ => False

/-- What a turn does to the flags of all machines and to the run loops of its thread. -/
inductive Flips (b : Bench) (f : Focus) : List Nat → Bench → List Nat → Prop
  | heeds {b' : Bench} {ls : List Nat} : Heeds b b' → Flips b f ls b' ls
  /-- A step finds the end of the program. -/
  | halts {ls : List Nat} (i : Nat) : b.Halts i →
      Flips b f ls (b.update i fun m => {m with running := false}) ls
  /-- A pause is taken back. -/
  | joins {b' : Bench} {ls : List Nat} (i : Nat) : b.Rouses i f →
      (∀ j, b'.flags? j = (b.update i Machine.unpause).flags? j) → Flips b f ls b' ls
  | enters {ls : List Nat} (i : Nat) : b.Rouses i f → b.holds i (·.looping) = false →
      Flips b f ls ((b.update i Machine.unpause).update i Machine.enterLoop) (i :: ls)
  | leaves {b' : Bench} {ls : List Nat} (i : Nat) : Same (b.update i Machine.leaveLoop) b' →
      Flips b f (i :: ls) b' ls
  /-- A session makes a note. -/
  | notes {b' : Bench} {ls : List Nat} : (∀ j, b'.flags? j = b.flags? j) → Flips b f ls b' ls
  /-- A session makes a machine. -/
  | makes {b' : Bench} {ls : List Nat} : b.session ≠ none →
      (∀ j, b'.flags? j = if j = b.machines.size then some ⟨false, false, false, 0⟩
        else b.flags? j) → Flips b f ls b' ls

namespace Flips

theorem refl (b : Bench) (f : Focus) (ls : List Nat) : Flips b f ls b ls := .heeds (.refl b)

/-- The flags of the machine whose run loop begins, and those of another one. -/
theorem flags_enters {i : Nat} (hf : b.Rouses i f) (hfree : b.holds i (·.looping) = false)
    (hj : b.flags? j = some x) :
    ∃ y, ((b.update i Machine.unpause).update i Machine.enterLoop).flags? j = some y ∧
      x.Flips y ∧ x.Lasts (b.Halts j) (b.Rouses j f) y ∧
      y.looping.toNat + ls.count j = x.looping.toNat + (i :: ls).count j := by
  obtain ⟨m, hm, rfl⟩ := Option.map_eq_some_iff.mp hj
  by_cases hij : i = j
  · subst hij
    have hlooping : m.looping = false := by simpa [holds, hm] using hfree
    refine ⟨m.unpause.enterLoop.flags, ?_, ?_, ?_, ?_⟩
    · rw [flags?, machine?_update_self (machine?_update_self hm _)]
      rfl
    · exact ⟨Nat.le_refl _, fun _ => ⟨rfl, .inr ⟨hlooping, rfl⟩⟩⟩
    · exact ⟨fun _ _ _ => .inl rfl, fun _ _ => .inr hf⟩
    · show true.toNat + ls.count i = m.looping.toNat + (i :: ls).count i
      rw [hlooping, List.count_cons_self, Nat.add_comm]
      exact (Nat.zero_add _).symm
  · refine ⟨m.flags, ?_, .refl _, .refl _ _ _, ?_⟩
    · rw [flags?, machine?_update, if_neg hij, machine?_update, if_neg hij, hm]
      rfl
    · rw [List.count_cons_of_ne hij]

/-- The flags of the machine whose run loop ends, and those of another one. -/
theorem flags_leaves {i : Nat} (h : Same (b.update i Machine.leaveLoop) b')
    (hj : b.flags? j = some x) (hle : (i :: ls).count j ≤ x.looping.toNat) :
    ∃ y, b'.flags? j = some y ∧ x.Flips y ∧ x.Lasts (b.Halts j) (b.Rouses j f) y ∧
      y.looping.toNat + (i :: ls).count j = x.looping.toNat + ls.count j := by
  obtain ⟨m, hm, rfl⟩ := Option.map_eq_some_iff.mp hj
  by_cases hij : i = j
  · subst hij
    refine ⟨m.leaveLoop.flags, ?_, ?_, ?_, ?_⟩
    · rw [h.flags, flags?, machine?_update_self hm]
      rfl
    · exact ⟨Nat.le_refl _, fun hr => by cases hr⟩
    · exact ⟨fun _ _ hl => (by cases hl), fun _ hp => .inl hp⟩
    · rw [List.count_cons_self] at hle ⊢
      have hlooping : m.flags.looping.toNat ≤ 1 := Bool.toNat_le _
      show 0 + _ = _
      omega
  · refine ⟨m.flags, ?_, .refl _, .refl _ _ _, ?_⟩
    · rw [h.flags, flags?, machine?_update, if_neg hij, hm]
      rfl
    · rw [List.count_cons_of_ne hij]

/-- The flags of one machine, and how often it stands among the run loops of the
thread. A machine that the thread says to be looping is so. -/
theorem flags (h : Flips b f ls b' ls') (hj : b.flags? j = some x)
    (hle : ls.count j ≤ x.looping.toNat) : ∃ y, b'.flags? j = some y ∧ x.Flips y ∧
      x.Lasts (b.Halts j) (b.Rouses j f) y ∧
      y.looping.toNat + ls.count j = x.looping.toNat + ls'.count j := by
  cases h with
  | heeds h =>
    obtain ⟨y, hy, hxy⟩ := h.calms hj
    exact ⟨y, hy, hxy.flips, hxy.persists _ _, by rw [hxy.looping]⟩
  | halts i hhalts =>
    obtain ⟨m, hm, rfl⟩ := Option.map_eq_some_iff.mp hj
    refine ⟨_, flags?_update_of hm i _, ?_⟩
    by_cases hij : i = j
    · subst hij
      rw [if_pos rfl]
      refine ⟨?_, ⟨fun _ _ _ => .inr hhalts, fun _ hp => .inl hp⟩, rfl⟩
      exact ⟨Nat.le_refl _, fun hr => by cases hr⟩
    · rw [if_neg hij]
      exact ⟨.refl _, .refl _ _ _, rfl⟩
  | joins i hf h =>
    obtain ⟨m, hm, rfl⟩ := Option.map_eq_some_iff.mp hj
    refine ⟨_, (h j).trans (flags?_update_of hm i _), ?_⟩
    by_cases hij : i = j
    · subst hij
      rw [if_pos rfl]
      refine ⟨?_, ⟨fun _ hr _ => .inl hr, fun _ _ => .inr hf⟩, rfl⟩
      exact ⟨Nat.le_refl _, fun hr => ⟨rfl, .inl ⟨hr, rfl⟩⟩⟩
    · rw [if_neg hij]
      exact ⟨.refl _, .refl _ _ _, rfl⟩
  | enters i hf hfree => exact flags_enters hf hfree hj
  | leaves i h => exact flags_leaves h hj hle
  | notes h => exact ⟨x, (h j).trans hj, .refl x, .refl _ _ _, rfl⟩
  | makes _ h =>
    have hlt : j ≠ b.machines.size := by
      obtain ⟨m, hm, -⟩ := Option.map_eq_some_iff.mp hj
      exact Nat.ne_of_lt (lt_size_of_machine? hm)
    exact ⟨x, by rw [h j, if_neg hlt, hj], .refl x, .refl _ _ _, rfl⟩

/-- A machine that was not there before has been made by a session. -/
theorem of_new (h : Flips b f ls b' ls') {y : Flags} (hj : b.flags? j = none)
    (hy : b'.flags? j = some y) :
    b.session ≠ none ∧ j = b.machines.size ∧ y = ⟨false, false, false, 0⟩ ∧ ls' = ls := by
  have hnone : ∀ (f : Machine → Machine) (i : Nat), (b.update i f).flags? j = none := by
    intro f i
    rw [flags?_update, Option.map_eq_none_iff.mp hj]
    rfl
  cases h with
  | heeds h =>
    have hlt := lt_size_of_machine? (Option.map_eq_some_iff.mp hy).choose_spec.1
    rw [h.size] at hlt
    rw [flags?, machine?, Array.getElem?_eq_getElem hlt] at hj
    cases hj
  | halts i _ =>
    rw [hnone] at hy
    cases hy
  | joins i _ h =>
    rw [h j, hnone] at hy
    cases hy
  | enters i _ _ =>
    rw [flags?_update, Option.map_eq_none_iff.mp (hnone Machine.unpause i)] at hy
    cases hy
  | leaves i h =>
    rw [h.flags, hnone] at hy
    cases hy
  | notes h =>
    rw [h j, hj] at hy
    cases hy
  | makes hs h =>
    rw [h j] at hy
    split at hy
    next heq =>
      cases hy
      exact ⟨hs, heq, rfl, rfl⟩
    next =>
      rw [hj] at hy
      cases hy

end Flips

/-! ### Turns -/

theorem flips_callRun (hf : b.Rouses i f) (fs : List Frame) :
    Flips b f (runs fs) (b.callRun i fs).1 (runs (b.callRun i fs).2.frames) := by
  simp only [callRun]
  split
  next => exact .joins i hf fun _ => rfl
  next h =>
    rw [looping_unpause, Bool.not_eq_true] at h
    exact .enters i hf h

theorem flips_callResume (hf : b.Rouses i f) (fs : List Frame) :
    Flips b f (runs fs) (b.callResume i fs).1 (runs (b.callResume i fs).2.frames) := by
  rw [callResume]
  split
  · exact flips_callRun hf fs
  · exact .refl b f _

theorem same_endRun (b : Bench) (i : Nat) (fs : List Frame) :
    Same (b.update i Machine.leaveLoop) (b.endRun i fs).1 := by
  simp only [endRun]
  split
  · exact .refl _
  · exact .log _ _

theorem flips_endRun (b : Bench) (f : Focus) (i : Nat) (fs : List Frame) :
    Flips b f (runs (.looping i :: fs)) (b.endRun i fs).1 (runs (b.endRun i fs).2.frames) := by
  have hframes : (b.endRun i fs).2.frames = fs := by
    simp only [endRun]
    split <;> rfl
  rw [hframes]
  exact .leaves i (same_endRun b i fs)

theorem flips_nextStep (b : Bench) (f : Focus) (i : Nat) (fs : List Frame) :
    Flips b f (runs (.looping i :: fs)) (b.nextStep i fs).1 (runs (b.nextStep i fs).2.frames) := by
  rw [nextStep]
  split
  · exact .refl b f _
  · exact flips_endRun b f i fs

theorem flips_afterStep (b : Bench) (f : Focus) (i : Nat) (o : Outcome) (fs : List Frame) :
    Flips b f (runs (.looping i :: fs)) (b.afterStep i o fs).1
      (runs (b.afterStep i o fs).2.frames) := by
  rw [afterStep.eq_def]
  split
  · exact .leaves i (.refl _)
  · split
    · exact .refl b f _
    · exact .refl b f _
  · exact flips_endRun b f i fs

section Unread
variable {α : Type} {g : Frame → Option α}

theorem filterMap_ask (hget : g .getting = none) (hreply : ∀ ds a, g (.replying ds a) = none)
    (b : Bench) (i : Nat) (fs : List Frame) :
    (b.ask i fs).2.frames.filterMap g = fs.filterMap g := by
  simp only [ask]
  split
  any_goals rfl
  next => exact List.filterMap_cons_none hget
  next =>
    split
    · rfl
    · exact List.filterMap_cons_none (hreply _ _)

/-- A step adds no frames but those of a wait. -/
theorem filterMap_callStep (hg : Unread g) (b : Bench) (i : Nat) (fs : List Frame) :
    (b.callStep i fs).2.frames.filterMap g = fs.filterMap g := by
  rw [callStep]
  split
  any_goals rfl
  next =>
    rw [putOut]
    split
    any_goals rfl
    next =>
      split
      next => rfl
      next => split <;> rfl
  next =>
    rw [request]
    split
    · rfl
    · exact (filterMap_ask hg.getting hg.replying _ i _).trans
        (List.filterMap_cons_none (hg.reading i _))

theorem frames_endReading (b : Bench) (i epoch : Nat) (a : Answer) (fs : List Frame) :
    (b.endReading i epoch a fs).2.frames = fs := by
  rw [endReading.eq_def]
  simp only
  split
  · rfl
  · split <;> rfl

end Unread

theorem runs_callStep (b : Bench) (i : Nat) (fs : List Frame) :
    runs (b.callStep i fs).2.frames = runs fs := filterMap_callStep unread_looping? b i fs

/-- A machine more, whatever the session notes about it. -/
theorem Flips.of_make {made : Bench} {p : Program} {o : Options} (hmade : b.make p o = .ok made)
    (hs : b.session ≠ none) (hm : b'.machines = made.machines) (ls : List Nat) :
    Flips b f ls b' ls := by
  obtain ⟨n, hn, -, rfl⟩ := eq_of_make hmade
  refine .makes hs fun j => ?_
  rw [flags?, machine?, hm]
  show (Array.push _ _)[j]?.map _ = _
  rw [Array.getElem?_push]
  split
  · rfl
  · rfl

theorem flips_callStart (b : Bench) (fs : List Frame) :
    Flips b (.call .sessionStart) (runs fs) (b.callStart fs).1
      (runs (b.callStart fs).2.frames) := by
  rw [callStart]
  cases hs : b.session with
  | none => exact .refl b _ _
  | some s =>
    have hne : b.session ≠ none := by simp [hs]
    simp only
    split
    next i hphase hi =>
      split
      · exact .joins i ⟨s, hs, hphase, hi⟩ fun _ => rfl
      · exact .notes fun _ => rfl
    next =>
      split
      next => exact .refl b _ _
      next made hmade => exact Flips.of_make hmade hne (by rfl) _
    next => exact .refl b _ _

theorem flips_callSessionStep (b : Bench) (f : Focus) (fs : List Frame) :
    Flips b f (runs fs) (b.callSessionStep fs).1 (runs (b.callSessionStep fs).2.frames) := by
  rw [callSessionStep]
  cases hs : b.session with
  | none => exact .refl b f _
  | some s =>
    have hne : b.session ≠ none := by simp [hs]
    simp only
    split
    next => exact .refl b f _
    next =>
      split
      · exact .refl b f _
      · exact .refl b f _
    next =>
      split
      next => exact .refl b f _
      next made hmade => exact Flips.of_make hmade hne (by rfl) _

theorem flips_endStart (b : Bench) (f : Focus) (i : Nat) (v : Value) (fs : List Frame) :
    Flips b f (runs (.starting i :: fs)) (b.endStart i v fs).1
      (runs (b.endStart i v fs).2.frames) := by
  rw [endStart.eq_def]
  simp only
  split
  · exact .notes fun _ => rfl
  · exact .refl b f _

theorem flips_endSessionStep (b : Bench) (f : Focus) (i : Nat) (fs : List Frame) :
    Flips b f (runs (.stepping i :: fs)) (b.endSessionStep i fs).1
      (runs (b.endSessionStep i fs).2.frames) := by
  rw [endSessionStep]
  split
  · exact .notes fun _ => rfl
  · exact .refl b f _

/-- What a small turn does to the run loops, whatever the thread is about to do. -/
theorem advance_flips (hf : f.Fits fs) :
    Flips b f (runs fs) (b.advance fs f).1 (runs (b.advance fs f).2.frames) := by
  cases hf with
  | call c hs =>
    cases c with
    | step i =>
      show Flips b _ _ (b.callStep i fs).1 (runs (b.callStep i fs).2.frames)
      by_cases hhalts : b.Halts i
      · rw [callStep_of_halts hhalts]
        exact .halts i hhalts
      · rw [runs_callStep]
        exact .heeds (heeds_callStep hhalts fs)
    | run i => exact flips_callRun (f := .call (.run i)) rfl fs
    | resume i => exact flips_callResume (f := .call (.resume i)) rfl fs
    | sessionStart => exact flips_callStart b fs
    | sessionStep => exact flips_callSessionStep b _ fs
  | returned o hs =>
    cases hs with
    | nil => exact .refl b _ _
    | looping i hs => exact flips_afterStep b _ i o _
    | starting i hs =>
      cases o with
      | ok v => exact flips_endStart b _ i v _
      | error e => exact .refl b _ _
    | stepping i hs =>
      cases o with
      | ok v => exact flips_endSessionStep b _ i _
      | error e => exact .refl b _ _
    | calling v deeds answer i epoch hs => exact .heeds ((Heeds.refl b).record _)
  | @answered fs a i epoch hs =>
    show Flips b _ _ (b.endReading i epoch a fs).1 (runs (b.endReading i epoch a fs).2.frames)
    rw [frames_endReading]
    exact .heeds (heeds_endReading b i epoch a fs)
  | looping i hs => exact flips_nextStep b _ i _
  | getting i epoch hs =>
    simp only [advance, goOn]
    split
    · exact .heeds (.same (.of_machines rfl rfl))
    · exact .refl b _ _
  | replying deeds answer i epoch hs =>
    rcases deeds with - | ⟨- | g | v, deeds⟩
    · exact .refl b _ _
    · exact .refl b _ _
    · exact .heeds ((Heeds.refl b).obey true [g])
    · exact .refl b _ _

end Bench

namespace Roster

/-- The machines of the run loops that are active, thread by thread. -/
def runs (r : Roster) : List Nat := r.gather fun x => TapeMachine.runs x.frames

theorem runs_of_threads {r r' : Roster} (h : r'.threads = r.threads) : r'.runs = r.runs := by
  rw [runs, runs, gather, gather, h]

theorem mem_runs {r : Roster} {t i : Nat} {f : Focus} {fs : List Frame}
    (h : r.threads[t]? = some (.active f fs)) (hi : .looping i ∈ fs) : i ∈ r.runs := by
  rw [runs, (gather_perm h).mem_iff, List.mem_append]
  exact .inl ((mem_runs_iff fs).mpr hi)

end Roster

namespace Scheduler
variable {s : Scheduler} {i j t : Nat} {x : Flags} {f : Focus} {fs : List Frame}

/-- A machine looks upon itself as looping if a run loop is active on it, and there is
no more than one. -/
def Looped (s : Scheduler) : Prop :=
  ∀ (j : Nat) (x : Flags), s.bench.flags? j = some x → s.roster.runs.count j = x.looping.toNat

/-- A machine whose run loop is in progress looks upon itself as looping. -/
theorem Looped.looping (h : s.Looped) (ht : s.roster.threads[t]? = some (.active f fs))
    (hi : .looping i ∈ fs) (hx : s.bench.flags? i = some x) : x.looping = true := by
  have hpos := List.count_pos_iff.mpr (Roster.mem_runs ht hi)
  rw [h i x hx] at hpos
  cases hx : x.looping with
  | true => rfl
  | false =>
    rw [hx] at hpos
    cases hpos

/-- In a move a call runs or resumes machine `j`. -/
def Rouses (s : Scheduler) (x : Move) (j : Nat) : Prop :=
  x = .turn ∧ ∃ t f fs, s.roster.current? = some (t, f, fs) ∧ s.bench.Rouses j f

/-- What a move does to the flags of the machines that are there. -/
structure Flipped (s : Scheduler) (x : Move) (s' : Scheduler) : Prop where
  looped : s'.Looped
  flips : ∀ (j : Nat) (y : Flags), s.bench.flags? j = some y → ∃ y', s'.bench.flags? j = some y' ∧
    y.Flips y' ∧ y.Lasts (s.bench.Halts j) (s.Rouses x j) y'
  fresh : ∀ (j : Nat) (y : Flags), s.bench.flags? j = none → s'.bench.flags? j = some y →
    y = ⟨false, false, false, 0⟩

/-- A move that begins and ends no run loop. -/
theorem Flipped.of_calms {z : Move} {s' : Scheduler} (h : s.Looped)
    (hc : ∀ (j : Nat) (x : Flags), s.bench.flags? j = some x →
      ∃ y, s'.bench.flags? j = some y ∧ x.Calms y)
    (hz : s'.bench.machines.size = s.bench.machines.size)
    (hr : s'.roster.runs = s.roster.runs) : Flipped s z s' := by
  have hold : ∀ (j : Nat) (y : Flags), s'.bench.flags? j = some y →
      ∃ x, s.bench.flags? j = some x := by
    intro j y hy
    have hlt := Bench.lt_size_of_machine? (Option.map_eq_some_iff.mp hy).choose_spec.1
    rw [hz] at hlt
    refine ⟨(s.bench.machines[j]).flags, ?_⟩
    rw [Bench.flags?, Bench.machine?, Array.getElem?_eq_getElem hlt]
    rfl
  refine ⟨fun j y hy => ?_, fun j x hx => ?_, fun j y hnone hy => ?_⟩
  · obtain ⟨x, hx⟩ := hold j y hy
    obtain ⟨y', hy', hxy⟩ := hc j x hx
    obtain rfl := Option.some.inj (hy'.symm.trans hy)
    rw [hr, hxy.looping]
    exact h j x hx
  · obtain ⟨y, hy, hxy⟩ := hc j x hx
    exact ⟨y, hy, hxy.flips, hxy.persists _ _⟩
  · obtain ⟨x, hx⟩ := hold j y hy
    rw [hnone] at hx
    cases hx

theorem Flipped.of_same {z : Move} {s' : Scheduler} (h : s.Looped)
    (hc : ∀ j, s'.bench.flags? j = s.bench.flags? j)
    (hz : s'.bench.machines.size = s.bench.machines.size)
    (hr : s'.roster.runs = s.roster.runs) : Flipped s z s' :=
  .of_calms h (fun j x hx => ⟨x, (hc j).trans hx, .refl x⟩) hz hr

theorem advance_flipped (hs : s.Sound) (h : s.Looped)
    (hnew : s.bench.session ≠ none → s.bench.machines.size ∉ s.roster.runs) :
    Flipped s .turn s.advance := by
  obtain ⟨bench, roster⟩ := s
  rw [advance]
  cases hc : roster.current? with
  | none => exact .of_same h (fun _ => rfl) rfl rfl
  | some c =>
    obtain ⟨t, f, fs⟩ := c
    obtain ⟨-, ht⟩ := Roster.current?_eq_some_iff.mp hc
    have hflips := bench.advance_flips (hs.fits t f fs ht)
    have hold : roster.runs.Perm (runs fs ++ roster.gatherOthers (fun x => runs x.frames) t) :=
      Roster.gather_perm ht
    have hruns : (roster.settle t (bench.advance fs f).2).runs.Perm
        (runs (bench.advance fs f).2.frames ++
          roster.gatherOthers (fun x => runs x.frames) t) := by
      rw [Roster.runs_of_threads (roster.threads_settle t _), ← Turn.frames_thread]
      exact Roster.gather_put_perm ht _
    have hflag : ∀ (j : Nat) (x : Flags), bench.flags? j = some x →
        ∃ y, (bench.advance fs f).1.flags? j = some y ∧ x.Flips y ∧
          x.Lasts (bench.Halts j) (bench.Rouses j f) y ∧ y.looping.toNat +
          (runs fs).count j = x.looping.toNat + (runs (bench.advance fs f).2.frames).count j := by
      intro j x hx
      refine hflips.flags hx ?_
      have hcount := h j x hx
      rw [hold.count_eq, List.count_append] at hcount
      exact Nat.le.intro hcount
    refine ⟨fun j y hy => ?_, fun j x hx => ?_, fun j y hnone hy => (hflips.of_new hnone hy).2.2.1⟩
    · show (roster.settle t (bench.advance fs f).2).runs.count j = _
      rw [hruns.count_eq, List.count_append]
      cases hx : bench.flags? j with
      | some x =>
        obtain ⟨y', hy', -, -, hsum⟩ := hflag j x hx
        obtain rfl := Option.some.inj (hy'.symm.trans hy)
        have hcount := h j x hx
        rw [hold.count_eq, List.count_append] at hcount
        omega
      | none =>
        -- a machine that is new stands among no frames yet
        obtain ⟨hsession, rfl, rfl, heq⟩ := hflips.of_new hx hy
        have hcount := List.count_eq_zero.mpr (hnew hsession)
        rw [show roster.runs.count _ = _ from hold.count_eq _, List.count_append] at hcount
        rw [heq]
        exact hcount
    · obtain ⟨y, hy, hxy, hlasts, -⟩ := hflag j x hx
      refine ⟨y, hy, hxy, hlasts.running, fun he hp => ?_⟩
      exact (hlasts.paused he hp).imp_right fun hf => ⟨rfl, t, f, fs, hc, hf⟩

theorem intervene_flipped (h : s.Looped) (x : Intervention) :
    Flipped s (.outside x) (s.intervene x) := by
  cases x with
  | spawn c =>
    refine .of_same h (fun _ => rfl) rfl ?_
    simp [intervene, spawn, Roster.spawn, Roster.runs, Roster.gather, Thread.frames]
  | signal g =>
    exact .of_calms h (fun j x hx => Bench.calms_signal _ g hx) (Bench.size_signal _ g) rfl
  | signalMachine i g =>
    rw [intervene]
    split
    · refine .of_calms h (fun j x hx => Bench.calms_signalMachine _ i g hx) ?_ rfl
      cases g <;> exact Bench.size_update _ i _
    · exact .of_same h (fun _ => rfl) rfl rfl
  | feed text =>
    exact .of_same h (fun _ => rfl) rfl (Roster.runs_of_threads (Roster.threads_wakeGetter _))
  | cooperate i on =>
    have hsame : s.bench.Same (s.bench.update i fun m => {m with cooperative := on}) := by
      refine .update ?_ s.bench i
      exact fun _ => rfl
    exact .of_same h hsame.flags hsame.size rfl
  | edit p o => exact .of_same h (fun _ => rfl) rfl rfl

theorem move_flipped (hs : s.Sound) (h : s.Looped)
    (hnew : s.bench.session ≠ none → s.bench.machines.size ∉ s.roster.runs) (x : Move) :
    Flipped s x (s.move x) := by
  cases x with
  | turn => exact advance_flipped hs h hnew
  | dispatch =>
    exact .of_same h (fun _ => rfl) rfl (Roster.runs_of_threads (Roster.threads_dispatch _))
  | outside x =>
    rw [move]
    split
    · exact intervene_flipped h x
    · exact .of_same h (fun _ => rfl) rfl rfl

end Scheduler
end TapeMachine
