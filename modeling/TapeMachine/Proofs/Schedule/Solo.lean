import TapeMachine.Proofs.Schedule.Lapse

/-! A machine and its callers.

A machine that is alone on its bench, without a session, is the same machine at any time
(`Scheduler.Solo`): its callers change it, and resets give it back the core it was made
with. A move that resets it leaves every call that is under way with nothing to do
(`Solo.spent_of_rise`), and no move changes that (`Solo.lapsed_move`). -/
namespace TapeMachine

/-- The call of a thread has not begun. -/
def Unbegun (f : Focus) (fs : List Frame) : Prop := ∃ c, f = .call c ∧ fs = []

namespace Machine

/-- A machine that was just made, whatever its options. -/
structure Made (m : Machine) : Prop where
  new : m.bare.IsNew
  flags : m.flags = ⟨false, false, false, 0⟩

/-- A machine looks as it was made. -/
structure Renewed (m₀ m : Machine) : Prop where
  state : m.toSnapshot = m₀.toSnapshot
  steps : m.steps = 0
  depth : m.depth = 0

variable {m₀ m : Machine}

theorem Made.core_reset (h₀ : m₀.Made) (h : Kin m₀ m) : m.reset.core = m₀.core :=
  h.core_reset.trans h₀.new.core_reset

theorem Made.renewed (h₀ : m₀.Made) (h : m.core = m₀.core) (hr : m.running = false)
    (hp : m.paused = false) : m₀.Renewed m := by
  have hrunning : m₀.running = false := congrArg Flags.running h₀.flags
  have hpaused : m₀.paused = false := congrArg Flags.paused h₀.flags
  have hstart : m₀.bare.AtStart := h₀.new.atStart
  refine ⟨?_, ?_, ?_⟩
  · rw [snapshot_of_core h (hr.trans hrunning.symm), hp.trans hpaused.symm]
  · exact (steps_of_core h).trans hstart.steps
  · rw [depth, loops_of_core h]
    exact congrArg List.length hstart.loops

/-- A reset gives a machine back what it was made with. -/
theorem Made.renewed_reset (h₀ : m₀.Made) (h : Kin m₀ m) : m₀.Renewed m.reset :=
  h₀.renewed (h₀.core_reset h) rfl rfl

end Machine

namespace Scheduler
open Machine

variable {s : Scheduler} {x : Move} {t i epoch : Nat} {f : Focus} {fs : List Frame}
  {m₀ m m' : Machine}

/-- The call of a thread has begun and has not ended. -/
def Underway (s : Scheduler) (t : Nat) : Prop :=
  ∃ f fs, s.roster.threads[t]? = some (.active f fs) ∧ ¬ Unbegun f fs

/-! ### When all calls have ended -/

theorem frames_of_ended (hended : ∀ t, ¬ s.Underway t) {y : Thread}
    (hy : y ∈ s.roster.threads.toList) : y.frames = [] := by
  obtain ⟨t, ht⟩ := List.mem_iff_getElem?.mp hy
  rw [Array.getElem?_toList] at ht
  cases y with
  | finished o => rfl
  | active f fs =>
    by_contra hfs
    refine hended t ⟨f, fs, ht, ?_⟩
    rintro ⟨c, -, hnil⟩
    exact hfs hnil

theorem readings_of_ended (hended : ∀ t, ¬ s.Underway t) : s.roster.readings = [] := by
  rw [Roster.readings, List.flatMap_eq_nil_iff]
  intro y hy
  have hnil := frames_of_ended hended hy
  cases y with
  | finished o => rfl
  | active f fs => exact congrArg readings hnil

theorem runs_of_ended (hended : ∀ t, ¬ s.Underway t) : s.roster.runs = [] := by
  rw [Roster.runs, Roster.gather, List.flatMap_eq_nil_iff]
  intro y hy
  rw [frames_of_ended hended hy]
  rfl

/-! ### Where threads come from -/

/-- What a thread was before a move. -/
inductive Comes (s : Scheduler) (x : Move) (t : Nat) (y : Thread) : Prop
  /-- It was the same. While it is running, no other thread and no caller touches the bench. -/
  | stays : s.roster.threads[t]? = some y →
      (s.roster.running = some t → (s.move x).bench = s.bench) → Comes s x t y
  | spawned (c : Call) : s.roster.threads[t]? = none → y = .active (.call c) [] → Comes s x t y
  | turns (f : Focus) (fs : List Frame) : x = .turn → s.roster.current? = some (t, f, fs) →
      s.move x = ⟨(s.bench.advance fs f).1, s.roster.settle t (s.bench.advance fs f).2⟩ →
      y = (s.bench.advance fs f).2.thread → Comes s x t y

theorem comes_of_intervene (z : Intervention) {y : Thread}
    (h : (s.intervene z).roster.threads[t]? = some y) :
    s.roster.threads[t]? = some y ∨
      ∃ c, s.roster.threads[t]? = none ∧ y = .active (.call c) [] := by
  cases z with
  | spawn c =>
    simp only [intervene, spawn, Roster.spawn, Array.getElem?_push] at h
    split at h
    next heq =>
      subst heq
      exact .inr ⟨c, Array.getElem?_eq_none (Nat.le_refl _), (Option.some.inj h).symm⟩
    next => exact .inl h
  | signal g => exact .inl h
  | signalMachine i g =>
    rw [intervene] at h
    split at h
    · exact .inl h
    · exact .inl h
  | feed text => exact .inl (by rwa [← Roster.threads_wakeGetter])
  | cooperate i on => exact .inl h
  | edit p o => exact .inl h

theorem comes_of_move (ho : s.roster.Orderly) {y : Thread}
    (h : (s.move x).roster.threads[t]? = some y) : Comes s x t y := by
  cases x with
  | turn =>
    rw [move] at h
    cases hc : s.roster.current? with
    | none =>
      have hstill := advance_of_none ho hc
      rw [hstill] at h
      exact .stays h fun _ => congrArg bench hstill
    | some c =>
      obtain ⟨u, f, fs⟩ := c
      obtain ⟨hrunning, hthread⟩ := Roster.current?_eq_some_iff.mp hc
      rw [advance_of_some hc] at h
      by_cases hut : t = u
      · subst hut
        rw [Roster.getElem?_settle_self hthread] at h
        exact .turns f fs rfl hc (advance_of_some hc) (Option.some.inj h).symm
      · rw [Roster.getElem?_settle_ne _ hut] at h
        refine .stays h fun hr => absurd ?_ hut
        exact Option.some.inj (hr.symm.trans hrunning)
  | dispatch =>
    refine .stays ?_ fun _ => rfl
    rwa [← Roster.threads_dispatch]
  | outside z =>
    rw [move] at h
    cases hr : s.roster.running with
    | some u =>
      have hstill : s.move (.outside z) = s := by
        rw [move, hr]
        rfl
      rw [hr] at h
      exact .stays h fun _ => congrArg bench hstill
    | none =>
      rw [hr] at h
      rcases comes_of_intervene z h with h | ⟨c, h, hy⟩
      · exact .stays h fun hr' => by rw [hr] at hr'; cases hr'
      · exact .spawned c h hy

theorem threads_size_le_move (ho : s.roster.Orderly) (x : Move) :
    s.roster.threads.size ≤ (s.move x).roster.threads.size := by
  cases x with
  | turn =>
    rw [move]
    cases hc : s.roster.current? with
    | none => exact Nat.le_of_eq (by rw [advance_of_none ho hc])
    | some c =>
      apply Nat.le_of_eq
      rw [advance_of_some hc, Roster.threads_settle, Roster.put, Array.size_setIfInBounds]
  | dispatch => exact Nat.le_of_eq (congrArg Array.size s.roster.threads_dispatch.symm)
  | outside z =>
    rw [move]
    split
    · cases z with
      | spawn c =>
        simp only [intervene, spawn, Roster.spawn, Array.size_push]
        exact Nat.le_succ _
      | _ =>
        exact Nat.le_of_eq (congrArg Array.size (Eq.symm (threads_intervene fun _ h => by cases h)))
    · exact Nat.le_refl _

/-! ### The only machine -/

/-- A bench with one machine, made like another one, and no session. -/
structure Solo (m₀ : Machine) (s : Scheduler) : Prop where
  sound : s.Sound
  orderly : s.roster.Orderly
  looped : s.Looped
  session : s.bench.session = none
  machine : ∃ m, s.bench.machines = #[m] ∧ Kin m₀ m

theorem Solo.of_make {source : Option Source} {sink : Option Sink} {p : Program} {o : Options}
    {b : Bench} (hb : Bench.make {source := source, sink := sink} p o = .ok b) :
    ∃ m₀, b.machines = #[m₀] ∧ m₀.Made ∧ Solo m₀ {bench := b} := by
  have hsound : Sound {bench := b} := (Starts.machine hb).sound
  obtain ⟨n, hn, -, rfl⟩ := Bench.eq_of_make hb
  refine ⟨_, rfl, ⟨⟨p, n, hn, source.isSome, sink.isSome, rfl⟩, rfl⟩, hsound,
    Roster.orderly_empty, ?_, rfl, _, rfl, .refl _⟩
  intro j y hy
  show 0 = y.looping.toNat
  cases j with
  | zero =>
    cases hy
    rfl
  | succ j => cases hy

namespace Solo
variable (h : Solo m₀ s)
include h

theorem machine? : ∃ m, s.bench.machine? 0 = some m ∧ Kin m₀ m := by
  obtain ⟨m, hm, hkin⟩ := h.machine
  refine ⟨m, ?_, hkin⟩
  rw [Bench.machine?, hm]
  rfl

theorem single (hi : i ≠ 0) : s.bench.machine? i = none := by
  obtain ⟨m, hm, -⟩ := h.machine
  rw [Bench.machine?, hm, Array.getElem?_eq_none]
  exact Nat.pos_of_ne_zero hi

theorem flips (x : Move) (hm : s.bench.machine? 0 = some m)
    (hm' : (s.move x).bench.machine? 0 = some m') : m.flags.Flips m'.flags := by
  have hflipped := move_flipped h.sound h.looped (fun hs => absurd h.session hs) x
  obtain ⟨y, hy, hflips, -⟩ := hflipped.flips 0 m.flags (by rw [Bench.flags?, hm]; rfl)
  rw [Bench.flags?, hm'] at hy
  cases hy
  exact hflips

theorem shift (x : Move) (hm : s.bench.machine? 0 = some m)
    (hm' : (s.move x).bench.machine? 0 = some m') : m.bare.Shift m'.bare := by
  obtain ⟨sg, hstir, -⟩ := (move_moved h.sound x).stir
  obtain ⟨n, hn, hshift⟩ := hstir.at_index (Bench.getElem?_bare_of hm)
  obtain rfl := Option.some.inj (hn.symm.trans (Bench.getElem?_bare_of hm'))
  exact hshift

theorem move (x : Move) : Solo m₀ (s.move x) := by
  have hmoved := move_moved h.sound x
  have hflipped := move_flipped h.sound h.looped (fun hs => absurd h.session hs) x
  obtain ⟨hsession, hsize⟩ := hmoved.keeps.alone h.session
  obtain ⟨m, hmachines, hkin⟩ := h.machine
  refine ⟨hmoved.sound, orderly_move h.orderly x, hflipped.looped, hsession, ?_⟩
  obtain ⟨m', hm'⟩ : ∃ m', (s.move x).bench.machines = #[m'] :=
    Array.size_eq_one_iff.mp (by rw [hsize, hmachines]; rfl)
  have hshift : m.bare.Shift m'.bare := by
    apply h.shift x
    · rw [Bench.machine?, hmachines]
      rfl
    · rw [Bench.machine?, hm']
      rfl
  have hkin' := hshift.kin
  exact ⟨m', hm', hkin.trans ⟨hkin'.program, hkin'.size, hkin'.hears, hkin'.speaks⟩⟩

theorem play (moves : List Move) : Solo m₀ (s.play moves) :=
  play_keeps (A := fun _ => True) (fun _ x _ h => h.move x) h fun _ _ => trivial

/-- A move leaves the machine in its epoch, or as it was made. -/
theorem core (h₀ : m₀.Made) (x : Move) (hm : s.bench.machine? 0 = some m)
    (hm' : (s.move x).bench.machine? 0 = some m') :
    m'.epoch = m.epoch ∨ (m.epoch < m'.epoch ∧ m'.core = m₀.core) := by
  obtain ⟨n, hn, hkin⟩ := h.machine?
  obtain rfl := Option.some.inj (hn.symm.trans hm)
  rcases (h.shift x hm hm').core with he | ⟨hlt, hcore⟩
  · exact .inl he
  · have hreset : n.reset.core = m₀.core := h₀.core_reset hkin
    exact .inr ⟨hlt, hcore.trans hreset⟩

/-- A step that waits is one of the machine, which knows of it. -/
theorem reading (hm : s.bench.machine? 0 = some m)
    (ht : s.roster.threads[t]? = some (.active f fs)) (hr : (i, epoch) ∈ readings fs) :
    i = 0 ∧ m.stepping = true ∧ epoch ≤ m.epoch := by
  have hmem : (i, epoch) ∈ s.roster.readings := by
    rw [Roster.readings, List.mem_flatMap]
    refine ⟨.active f fs, List.mem_iff_getElem?.mpr ⟨t, ?_⟩, hr⟩
    rwa [Array.getElem?_toList]
  obtain ⟨n, hn, hle, -⟩ := h.sound.held.awaits i epoch hmem
  obtain ⟨n', hn', hstepping⟩ := (h.sound.held.waiting i).mpr (Held.fst_mem hmem)
  obtain rfl := Option.some.inj (hn.symm.trans hn')
  obtain rfl : i = 0 := by
    by_contra hi
    rw [Bench.getElem?_bare, h.single hi] at hn
    cases hn
  obtain rfl := Option.some.inj (hn.symm.trans (Bench.getElem?_bare_of hm))
  exact ⟨rfl, hstepping, hle⟩

theorem deserted (hm : s.bench.machine? 0 = some m)
    (ht : s.roster.threads[t]? = some (.active f fs)) : s.bench.Deserted m.flags fs := by
  refine ⟨h.session, fun i => h.single, by rw [Bench.flags?, hm]; rfl, fun i epoch hr => ?_⟩
  obtain ⟨rfl, hstepping, -⟩ := h.reading hm ht hr
  refine ⟨rfl, ?_⟩
  rwa [Bench.holds, hm]

/-- Nothing runs on after a reset. -/
theorem running_of_rise (hm : s.bench.machine? 0 = some m)
    (hm' : (s.move x).bench.machine? 0 = some m') (hlt : m.epoch < m'.epoch) :
    m'.running = false := by
  rw [Bool.eq_false_iff]
  intro hr
  exact absurd ((h.flips x hm hm').running hr).1 (Nat.ne_of_gt hlt)

/-! ### Spent calls -/

/-- A reset leaves every call that is under way with nothing to do. -/
theorem spent_of_rise (hm : s.bench.machine? 0 = some m)
    (hm' : (s.move x).bench.machine? 0 = some m') (hlt : m.epoch < m'.epoch)
    (ht : (s.move x).roster.threads[t]? = some (.active f fs)) (hbegun : ¬ Unbegun f fs) :
    Spent m'.flags f fs := by
  have hstill : m'.running = false := h.running_of_rise hm hm' hlt
  cases comes_of_move h.orderly ht with
  | stays ht₀ hrun =>
    -- the machine was not reset by this thread, so the thread rests
    have hne : s.roster.running ≠ some t := by
      intro hr
      rw [hrun hr, hm] at hm'
      cases hm'
      exact Nat.lt_irrefl _ hlt
    obtain rfl : f = .resumed := (h.orderly.rested t f fs ht₀ hne).resolve_right hbegun
    refine ⟨fun i epoch hr => ?_, fun _ => .inl rfl, fun _ _ _ _ => hstill⟩
    exact Nat.lt_of_le_of_lt (h.reading hm ht₀ hr).2.2 hlt
  | spawned c _ heq =>
    cases heq
    exact absurd ⟨c, rfl, rfl⟩ hbegun
  | turns f₀ fs₀ _ hc hmove heq =>
    obtain ⟨-, ht₀⟩ := Roster.current?_eq_some_iff.mp hc
    have hlapses := Bench.advance_lapses h.session (fun i => h.single) (h.sound.fits t f₀ fs₀ ht₀)
    have hframes := Turn.frames_of_thread heq.symm
    refine ⟨fun i epoch hr => Nat.lt_of_le_of_lt ?_ hlt, fun hnil => ?_, fun _ _ _ _ => hstill⟩
    · rw [← hframes] at hr
      rcases hlapses.began i epoch hr with hr | he
      · exact (h.reading hm ht₀ hr).2.2
      · obtain ⟨n, hn, rfl⟩ := Option.map_eq_some_iff.mp he
        obtain rfl : i = 0 := by
          by_contra hi
          rw [h.single hi] at hn
          cases hn
        obtain rfl := Option.some.inj (hn.symm.trans hm)
        exact Nat.le_refl _
    · rw [hmove] at hm'
      rcases hlapses.ends with he | ⟨hbreaks, -⟩
      · rw [Bench.epoch?, Bench.epoch?, hm, hm'] at he
        exact absurd (Option.some.inj he) (Nat.ne_of_gt hlt)
      · exact hbreaks.leaves.thread heq.symm hnil

end Solo

/-- The call of a thread has nothing more to do, or has ended without a step completed. -/
def Lapsed (s : Scheduler) (t : Nat) : Prop :=
  t < s.roster.threads.size ∧ ∀ m, s.bench.machine? 0 = some m →
    (∀ f fs, s.roster.threads[t]? = some (.active f fs) → Spent m.flags f fs) ∧
      s.roster.threads[t]? ≠ some (.finished (.ok (.stepped true)))

namespace Solo
variable (h : Solo m₀ s)
include h

theorem lapsed_of_rise (hm : s.bench.machine? 0 = some m)
    (hm' : (s.move x).bench.machine? 0 = some m') (hlt : m.epoch < m'.epoch)
    (ht : (s.move x).Underway t) : (s.move x).Lapsed t := by
  obtain ⟨f, fs, hthread, hbegun⟩ := ht
  refine ⟨(Array.getElem?_eq_some_iff.mp hthread).1, fun n hn => ⟨fun f' fs' ht' => ?_, ?_⟩⟩
  · obtain rfl := Option.some.inj (hn.symm.trans hm')
    cases hthread.symm.trans ht'
    exact h.spent_of_rise hm hm' hlt hthread hbegun
  · rw [hthread]
    nofun

theorem lapsed_move (x : Move) (ht : s.Lapsed t) : (s.move x).Lapsed t := by
  obtain ⟨hlt, hspent⟩ := ht
  obtain ⟨m, hm, -⟩ := h.machine?
  obtain ⟨hspent, hended⟩ := hspent m hm
  refine ⟨Nat.lt_of_lt_of_le hlt (threads_size_le_move h.orderly x), fun m' hm' => ?_⟩
  refine ⟨?_, fun hy => ?_⟩
  · intro f fs hthread
    have hflips := h.flips x hm hm'
    have hlooping : ∀ f fs, s.roster.threads[t]? = some (.active f fs) →
        .looping 0 ∈ fs → m.flags.looping = true := fun f fs ht hl =>
      h.looped.looping ht hl (by rw [Bench.flags?, hm]; rfl)
    cases comes_of_move h.orderly hthread with
    | stays ht₀ _ => exact (hspent f fs ht₀).flips hflips (hlooping f fs ht₀)
    | spawned c hnone _ =>
      exact absurd hlt (Nat.not_lt_of_le (Array.getElem?_eq_none_iff.mp hnone))
    | turns f₀ fs₀ _ hc _ heq =>
      obtain ⟨-, ht₀⟩ := Roster.current?_eq_some_iff.mp hc
      have hfades := Bench.advance_fades (h.deserted hm ht₀) (h.sound.fits t f₀ fs₀ ht₀)
        (hspent f₀ fs₀ ht₀)
      -- the flags turn first, since the turn may begin a run loop
      have hturned := (hspent f₀ fs₀ ht₀).flips hflips (hlooping f₀ fs₀ ht₀)
      exact (hturned.leaves hfades.turn).thread heq.symm
  · cases comes_of_move h.orderly hy with
    | stays ht₀ _ => exact hended ht₀
    | spawned c _ heq => cases heq
    | turns f₀ fs₀ _ hc _ heq =>
      obtain ⟨-, ht₀⟩ := Roster.current?_eq_some_iff.mp hc
      have hfades := Bench.advance_fades (h.deserted hm ht₀) (h.sound.fits t f₀ fs₀ ht₀)
        (hspent f₀ fs₀ ht₀)
      have hturn := hfades.turn
      cases hx : (s.bench.advance fs₀ f₀).2 with
      | done o =>
        rw [hx] at hturn heq
        cases heq
        exact hturn rfl
      | go | sleep | await =>
        rw [hx] at heq
        cases heq

theorem lapsed_play (moves : List Move) (ht : s.Lapsed t) : (s.play moves).Lapsed t := by
  have hboth : Solo m₀ (s.play moves) ∧ (s.play moves).Lapsed t := by
    refine play_keeps (A := fun _ => True) (I := fun s => Solo m₀ s ∧ s.Lapsed t) ?_ ⟨h, ht⟩
      fun _ _ => trivial
    rintro s x - ⟨hs, hlapsed⟩
    exact ⟨hs.move x, hs.lapsed_move x hlapsed⟩
  exact hboth.2

end Solo
end Scheduler
end TapeMachine
