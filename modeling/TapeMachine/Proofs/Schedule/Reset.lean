import TapeMachine.Proofs.Schedule.Aged
import TapeMachine.Proofs.Schedule.Solo

/-! Resets.

A reset is complete and final, at whatever moment it comes. At once the machine looks as it
was made. Whatever calls are under way then execute nothing more, and end without a step
completed (`Barren`). When they have ended, the machine cannot be told from a new one: both
make the same of all moves to come (`Matches`). -/
namespace TapeMachine.Scheduler
open Machine

variable {s : Scheduler} {x : Move} {t : Nat} {m₀ m : Machine} {T : Nat → Prop}

/-- In a move the machine is reset, so that it begins another epoch. -/
def Renews (s : Scheduler) (x : Move) : Prop :=
  ∃ m m', s.bench.machine? 0 = some m ∧ (s.move x).bench.machine? 0 = some m' ∧
    m.epoch < m'.epoch

/-- In a move a call begins. -/
def Begins (s : Scheduler) (x : Move) : Prop :=
  x = .turn ∧ ∃ t f fs, s.roster.current? = some (t, f, fs) ∧ Unbegun f fs

/-- In a run no call begins. -/
def NoneBegins : Scheduler → List Move → Prop
  | _, [] => True
  | s, x :: rest => ¬ s.Begins x ∧ (s.move x).NoneBegins rest

/-- What a call is good for that was under way when a machine like `m₀` was reset. -/
structure Barren (m₀ : Machine) (s : Scheduler) (t : Nat) : Prop where
  /-- It does not end with a step completed. -/
  outcome : s.outcome? t ≠ some (.ok (.stepped true))
  /-- A turn of it executes nothing: the machine keeps its core, or is reset once more.
  Nothing at all is to be seen of the turn, unless in it a source does something of its own
  before it answers. -/
  turn : ∀ f fs, s.roster.current? = some (t, f, fs) → ∃ m m', s.bench.machine? 0 = some m ∧
    s.advance.bench.machine? 0 = some m' ∧
    (m'.core = m.core ∨ (m.epoch < m'.epoch ∧ m'.core = m₀.core)) ∧
    (readings fs = [] ∨ (∃ a, f = .answered a) →
      m'.toSnapshot = m.toSnapshot ∧ m'.steps = m.steps ∧ m'.loops = m.loops)
  /-- A step that was waiting ends as one that executed nothing, whatever text it is given,
  or with the failure of its source. -/
  answered : ∀ a i epoch fs, s.roster.current? = some (t, .answered a, .reading i epoch :: fs) →
    s.advance.roster.current? = some (t, .returned (a.map fun _ => .stepped false), fs)

/-- A bench that was just made, given the callbacks of another one in the state they have come
to, its threads, its way to cooperate and a pause that it was asked for. -/
def renewed (b : Bench) (s : Scheduler) : Scheduler :=
  ⟨{b.update 0 fun m => {m with
      paused := s.bench.holds 0 (·.paused), cooperative := s.bench.holds 0 (·.cooperative)} with
      source := s.bench.source, sink := s.bench.sink, requests := s.bench.requests,
      deliveries := s.bench.deliveries}, s.roster⟩

/-- Two schedulers make the same of some moves. -/
structure Matches (s r : Scheduler) (moves : List Move) : Prop where
  outcome : ∀ t, (s.play moves).outcome? t = (r.play moves).outcome? t
  queues : (s.play moves).roster.running = (r.play moves).roster.running ∧
    (s.play moves).roster.ready = (r.play moves).roster.ready ∧
    (s.play moves).roster.getters = (r.play moves).roster.getters
  /-- The machines differ in nothing but the number of resets. -/
  machine : ∃ k, (s.play moves).bench.machine? 0 =
    ((r.play moves).bench.machine? 0).map (Machine.aged k)
  /-- The same is recorded, warnings and all. -/
  events : ∃ news, (s.play moves).bench.events = s.bench.events ++ news ∧
    (r.play moves).bench.events = r.bench.events ++ news
  callbacks : (s.play moves).bench.source = (r.play moves).bench.source ∧
    (s.play moves).bench.sink = (r.play moves).bench.sink

/-! ### Calls under way -/

namespace Solo
variable (h : Solo m₀ s)
include h

theorem barren_of_lapsed (h₀ : m₀.Made) (ht : s.Lapsed t) : s.Barren m₀ t := by
  obtain ⟨-, hspent⟩ := ht
  obtain ⟨m, hm, -⟩ := h.machine?
  obtain ⟨hspent, hended⟩ := hspent m hm
  refine ⟨fun ho => hended ?_, fun f fs hc => ?_, fun a i epoch fs hc => ?_⟩
  · obtain ⟨y, hy, hyo⟩ := Option.bind_eq_some_iff.mp ho
    rw [hy]
    cases y with
    | active f fs => cases hyo
    | finished o =>
      cases hyo
      rfl
  · obtain ⟨-, hthread⟩ := Roster.current?_eq_some_iff.mp hc
    have hdeserted := h.deserted hm hthread
    have hfits := h.sound.fits t f fs hthread
    have hfades := Bench.advance_fades hdeserted hfits (hspent f fs hthread)
    obtain ⟨m', hm', -⟩ := (h.move .turn).machine?
    have hbench : s.advance.bench = (s.bench.advance fs f).1 := by rw [advance_of_some hc]
    have hcore : m'.epoch = m.epoch → m'.core = m.core :=
      hfades.stays m m' hm (by rwa [← hbench])
    refine ⟨m, m', hm, hm', ?_, fun hown => ?_⟩
    · exact (h.core h₀ .turn hm hm').imp_left hcore
    · obtain ⟨n, hn, hsnapshot, hepoch⟩ :=
        Bench.advance_looks hdeserted hfits (hspent f fs hthread) hown m hm
      rw [← hbench] at hn
      obtain rfl := Option.some.inj (hn.symm.trans hm')
      exact ⟨hsnapshot, steps_of_core (hcore hepoch), loops_of_core (hcore hepoch)⟩
  · obtain ⟨-, hthread⟩ := Roster.current?_eq_some_iff.mp hc
    obtain ⟨rfl, hstale⟩ :=
      (h.deserted hm hthread).epoch?_ne (hspent _ _ hthread) List.mem_cons_self
    have hturn := (Bench.endReading_stale hstale a fs).2
    rw [advance_of_some hc, show (s.bench.advance (.reading 0 epoch :: fs) (.answered a)).2 = _
      from hturn]
    exact Roster.current?_settle_go hc _ _

end Solo

/-! ### Different pasts -/

/-- The scheduler without a past: nothing is recorded, and no machine was ever reset. -/
def reborn (s : Scheduler) : Scheduler :=
  ⟨{s.bench with machines := s.bench.machines.map fun m => {m with epoch := 0}, events := #[]},
    s.roster⟩

theorem Sound.reborn (h : s.Sound) (hr : s.roster.readings = []) : s.reborn.Sound := by
  refine ⟨h.fits, ?_, fun hs => ?_, fun t i ht hi => ?_⟩
  · show Held s.reborn.bench.bare s.roster.readings
    rw [hr]
    refine ⟨List.nodup_nil, fun j => ⟨?_, fun hj => (by cases hj)⟩, fun i e he => (by cases he)⟩
    rintro ⟨n, hn, hstepping⟩
    obtain ⟨n', hn', rfl⟩ := Bench.exists_of_getElem?_bare hn
    obtain ⟨m, hm, rfl⟩ := Option.map_eq_some_iff.mp (Array.getElem?_map.symm.trans hn')
    rw [← hr]
    exact (h.held.waiting j).mp ⟨m.bare, Bench.getElem?_bare_of hm, hstepping⟩
  · show 0 < (Array.map _ _).size
    rw [Array.size_map]
    exact h.manned.first hs
  · show i < (Array.map _ _).size
    rw [Array.size_map]
    exact h.manned.current t i ht hi

theorem aged_reborn (hm : s.bench.machines = #[m]) (hr : s.roster.readings = []) :
    s.reborn.aged m.epoch s.bench.events = s := by
  obtain ⟨⟨machines, session, source, sink, requests, deliveries, events⟩, roster⟩ := s
  obtain rfl : machines = #[m] := hm
  have hmachine : ({m with epoch := 0} : Machine).aged m.epoch = m := by
    rw [Machine.aged, Nat.zero_add]
  have hroster : roster.aged m.epoch = roster := roster.aged_of_readings m.epoch hr
  simp only [reborn, aged, Bench.aged, List.map_toArray, List.map_cons, List.map_nil, hmachine,
    hroster, Array.append_empty]

theorem renewed_eq (hm : s.bench.machines = #[m]) (hr : s.roster.readings = [])
    (heq : m = {m₀ with paused := m.paused, cooperative := m.cooperative, epoch := m.epoch})
    (h₀ : m₀.Made) {b : Bench} (hb : b.machines = #[m₀]) (hs : b.session = s.bench.session) :
    renewed b s = s.reborn.aged 0 b.events := by
  obtain ⟨⟨machines, session, source, sink, requests, deliveries, events⟩, roster⟩ := s
  obtain ⟨machines', session', source', sink', requests', deliveries', events'⟩ := b
  obtain rfl : machines = #[m] := hm
  obtain rfl : machines' = #[m₀] := hb
  obtain rfl : session' = session := hs
  have hepoch : m₀.epoch = 0 := congrArg Flags.epoch h₀.flags
  have hroster : roster.aged 0 = roster := roster.aged_of_readings 0 hr
  have hmachine : ({m with epoch := 0} : Machine).aged 0 =
      {m₀ with paused := m.paused, cooperative := m.cooperative} := by
    have hzero : ({m₀ with epoch := 0} : Machine) = m₀ := by rw [← hepoch]
    rw [heq]
    exact congrArg (fun n => {n with paused := m.paused, cooperative := m.cooperative}) hzero
  simp only [reborn, aged, Bench.aged, List.map_toArray, List.map_cons, List.map_nil, hmachine,
    hroster, Array.append_empty]
  rfl

/-! ### Until they have ended -/

/-- Since a machine was reset, none but the calls that were under way then have taken
turns. -/
structure Fallow (m₀ : Machine) (T : Nat → Prop) (s : Scheduler) : Prop where
  solo : Solo m₀ s
  lapsed : ∀ t, T t → s.Lapsed t
  others : ∀ t, s.Underway t → T t
  core : ∀ m, s.bench.machine? 0 = some m → m.core = m₀.core
  looping : ∀ m, s.bench.machine? 0 = some m → m.running = true → m.looping = true

/-- Those around a machine leave its core alone, but for resets. -/
theorem stays_intervene (hs : s.bench.session = none) (z : Intervention)
    (hsingle : s.bench.machines.size = 1) : s.bench.Stays (s.intervene z).bench := by
  cases z with
  | spawn c => exact .refl _
  | signal g => exact .signal hs g
  | signalMachine i g =>
    rw [intervene]
    split
    next hi =>
      obtain rfl : i = 0 := by omega
      have hsignal : s.bench.signalMachine 0 g = s.bench.signal g := by
        simp only [Bench.signal, hs]
      rw [onBench, hsignal]
      exact .signal hs g
    next => exact .refl _
  | feed text =>
    intro m m' hm hm' _
    rw [Option.some.inj (hm.symm.trans hm')]
  | cooperate i on =>
    refine .update ?_ s.bench i
    intro m
    rfl
  | edit p o =>
    intro m m' hm hm' _
    rw [Option.some.inj (hm.symm.trans hm')]

namespace Fallow
variable (h : Fallow m₀ T s)
include h

theorem stays (hx : ¬ s.Begins x) : s.bench.Stays (s.move x).bench := by
  obtain ⟨m, hm, -⟩ := h.solo.machine?
  cases x with
  | turn =>
    rw [move]
    cases hc : s.roster.current? with
    | none =>
      rw [advance_of_none h.solo.orderly hc]
      exact .refl _
    | some c =>
      obtain ⟨t, f, fs⟩ := c
      obtain ⟨-, hthread⟩ := Roster.current?_eq_some_iff.mp hc
      have hunder : s.Underway t := ⟨f, fs, hthread, fun hu => hx ⟨rfl, t, f, fs, hc, hu⟩⟩
      have hspent := ((h.lapsed t (h.others t hunder)).2 m hm).1 f fs hthread
      rw [advance_of_some hc]
      exact (Bench.advance_fades (h.solo.deserted hm hthread)
        (h.solo.sound.fits t f fs hthread) hspent).stays
  | dispatch => exact .refl _
  | outside z =>
    rw [move]
    split
    · obtain ⟨n, hn, -⟩ := h.solo.machine
      exact stays_intervene h.solo.session z (by rw [hn]; rfl)
    · exact .refl _

theorem move (h₀ : m₀.Made) (hx : ¬ s.Begins x) : Fallow m₀ T (s.move x) := by
  obtain ⟨m, hm, -⟩ := h.solo.machine?
  refine ⟨h.solo.move x, fun t ht => h.solo.lapsed_move x (h.lapsed t ht), ?_, ?_, ?_⟩
  · rintro t ⟨f, fs, hthread, hbegun⟩
    cases comes_of_move h.solo.orderly hthread with
    | stays ht₀ _ => exact h.others t ⟨f, fs, ht₀, hbegun⟩
    | spawned c _ heq =>
      cases heq
      exact absurd ⟨c, rfl, rfl⟩ hbegun
    | turns f₀ fs₀ hturn hc _ _ =>
      obtain ⟨-, ht₀⟩ := Roster.current?_eq_some_iff.mp hc
      exact h.others t ⟨f₀, fs₀, ht₀, fun hu => hx ⟨hturn, t, f₀, fs₀, hc, hu⟩⟩
  · intro m' hm'
    rcases h.solo.core h₀ x hm hm' with he | ⟨-, hcore⟩
    · exact (h.stays hx m m' hm hm' he).trans (h.core m hm)
    · exact hcore
  · intro m' hm' hr
    rcases ((h.solo.flips x hm hm').running hr).2 with ⟨hr₀, hl⟩ | ⟨-, hl⟩
    · exact hl.trans (h.looping m hm hr₀)
    · exact hl

theorem play (h₀ : m₀.Made) {rest : List Move} (hrest : s.NoneBegins rest) :
    Fallow m₀ T (s.play rest) := by
  induction rest generalizing s with
  | nil => exact h
  | cons x rest ih => exact ih (h.move h₀ hrest.1) hrest.2

/-- When no call is under way any more, no caller has left a mark that lasts. -/
theorem machine_eq (h₀ : m₀.Made) (hended : ∀ t, ¬ s.Underway t) : ∃ m, s.bench.machines = #[m] ∧
    m = {m₀ with paused := m.paused, cooperative := m.cooperative, epoch := m.epoch} := by
  obtain ⟨m, hmachines, -⟩ := h.solo.machine
  have hm : s.bench.machine? 0 = some m := by
    rw [Bench.machine?, hmachines]
    rfl
  have hlooping : m.looping = false := by
    rw [Bool.eq_false_iff]
    intro hl
    have hcount := h.solo.looped 0 m.flags (by rw [Bench.flags?, hm]; rfl)
    rw [runs_of_ended hended, List.count_nil, show m.flags.looping = true from hl] at hcount
    cases hcount
  have hrunning : m.running = false := by
    rw [Bool.eq_false_iff]
    intro hr
    rw [h.looping m hm hr] at hlooping
    cases hlooping
  have hstepping : m.stepping = false := by
    rw [Bool.eq_false_iff]
    intro hs
    have hwaiting : Waiting s.bench.bare 0 := ⟨m.bare, Bench.getElem?_bare_of hm, hs⟩
    rw [h.solo.sound.held.waiting, readings_of_ended hended] at hwaiting
    cases hwaiting
  refine ⟨m, hmachines, eq_of_core (h.core m hm) ?_ ?_ ?_⟩
  · exact hrunning.trans (congrArg Flags.running h₀.flags).symm
  · exact hstepping.trans h₀.new.stepping.symm
  · exact hlooping.trans (congrArg Flags.looping h₀.flags).symm

/-- Once they have ended, the machine is as good as new. -/
theorem matches_renewed (h₀ : m₀.Made) {b : Bench} (hb : b.machines = #[m₀])
    (hs : b.session = none) (hended : ∀ t, ¬ s.Underway t) (later : List Move) :
    Matches s (renewed b s) later := by
  obtain ⟨m, hm, heq⟩ := h.machine_eq h₀ hended
  have hr := readings_of_ended hended
  have hsession : s.reborn.bench.session = none := h.solo.session
  have hplay : ∀ k past, (s.reborn.aged k past).play later = (s.reborn.play later).aged k past :=
    fun k past => play_aged k past (h.solo.sound.reborn hr) hsession later
  have hold := hplay m.epoch s.bench.events
  have hnew := hplay 0 b.events
  rw [aged_reborn hm hr] at hold
  rw [← renewed_eq hm hr heq h₀ hb (hs.trans h.solo.session.symm)] at hnew
  refine ⟨fun t => ?_, ?_, ⟨m.epoch, ?_⟩, ⟨(s.reborn.play later).bench.events, ?_, ?_⟩, ?_⟩
  · rw [hold, hnew, outcome?_aged, outcome?_aged]
  · rw [hold, hnew]
    exact ⟨rfl, rfl, rfl⟩
  · rw [hold, hnew]
    show (Bench.aged _ _ _).machine? 0 = ((Bench.aged _ _ _).machine? 0).map _
    rw [Bench.machine?_aged, Bench.machine?_aged, Option.map_map]
    rfl
  · rw [hold]
    rfl
  · rw [hnew]
    rfl
  · rw [hold, hnew]
    exact ⟨rfl, rfl⟩

end Fallow

/-! ### All together -/

/-- The running thread is about to take a turn in which a callback resets the machine. The
step of that callback comes to wait, or ends without being completed; and in the midst of the
turn, when the callback has just reset it, the machine looks as `m₀` was made. -/
def ResetsAmid (m₀ : Machine) (s : Scheduler) : Prop :=
  ∃ t f fs, s.roster.current? = some (t, f, fs) ∧ s.bench.Breaks (s.bench.advance fs f).2 ∧
    ∃ (b₁ : Bench) (waits : Bool) (gs : List Signal),
      (s.move .turn).bench = b₁.obey waits gs ∧ .reset ∈ gs ∧
        ∀ before after, gs = before ++ .reset :: after →
          ∃ m, (b₁.obey waits (before ++ [.reset])).machine? 0 = some m ∧ m₀.Renewed m

/-- What a reset in a move comes to for a machine made like `m₀` on the bench `b`. -/
structure Final (b : Bench) (m₀ : Machine) (s : Scheduler) (x : Move) : Prop where
  /-- After the move the machine looks as it was made, but for a pause that was asked for
  after the reset. -/
  complete : ∃ m, (s.move x).bench.machine? 0 = some m ∧ m₀.Renewed m.unpause
  amid : x = .turn → s.ResetsAmid m₀
  /-- Whatever else happens, the calls under way execute nothing more. -/
  barren : ∀ t, (s.move x).Underway t → ∀ more, ((s.move x).play more).Barren m₀ t
  /-- When they have ended, and no other call has begun, the machine is as good as new. -/
  fresh : ∀ rest, (s.move x).NoneBegins rest →
    (∀ t, (s.move x).Underway t → (((s.move x).play rest).outcome? t).isSome) →
    ∀ later, Matches ((s.move x).play rest) (renewed b ((s.move x).play rest)) later

theorem Solo.resetsAmid (h : Solo m₀ s) (h₀ : m₀.Made) (hx : s.Renews .turn) :
    s.ResetsAmid m₀ := by
  obtain ⟨m, m', hm, hm', hlt⟩ := hx
  obtain ⟨n, hn, hkin⟩ := h.machine?
  obtain rfl := Option.some.inj (hn.symm.trans hm)
  cases hc : s.roster.current? with
  | none =>
    rw [Scheduler.move, advance_of_none h.orderly hc, hm] at hm'
    cases hm'
    exact absurd hlt (Nat.lt_irrefl _)
  | some c =>
    obtain ⟨t, f, fs⟩ := c
    obtain ⟨-, hthread⟩ := Roster.current?_eq_some_iff.mp hc
    have hlapses := Bench.advance_lapses h.session (fun i => h.single)
      (h.sound.fits t f fs hthread)
    have hbench : (s.move .turn).bench = (s.bench.advance fs f).1 := by
      rw [Scheduler.move, advance_of_some hc]
    have hrise : (s.bench.advance fs f).1.epoch? 0 ≠ s.bench.epoch? 0 := by
      rw [← hbench, Bench.epoch?, Bench.epoch?, hm, hm']
      exact fun he => Nat.ne_of_gt hlt (Option.some.inj he)
    obtain ⟨hbreaks, b₁, waits, gs, hobey, hs₁, hm₁⟩ := hlapses.ends.resolve_left hrise
    obtain ⟨m₁, hm₁, hkin₁, he₁⟩ := hm₁ n hm
    rw [← hbench] at hobey
    refine ⟨t, f, fs, hc, hbreaks, b₁, waits, gs, hobey, ?_, fun before after _ => ?_⟩
    · by_contra hno
      obtain ⟨-, n', hn', -, he⟩ := Bench.machine?_obey hs₁ hm₁ waits gs
      rw [← hobey, hm'] at hn'
      cases hn'
      exact Nat.ne_of_gt hlt ((he hno).trans he₁)
    · obtain ⟨hs₂, m₂, hm₂, hkin₂, -⟩ := Bench.machine?_obey hs₁ hm₁ waits before
      refine ⟨m₂.reset, ?_, h₀.renewed_reset ((hkin.trans hkin₁).trans hkin₂)⟩
      rw [Bench.obey, List.foldl_append]
      show ((b₁.obey waits before).signal .reset).machine? 0 = _
      rw [Bench.signal, hs₂]
      exact Bench.machine?_update_self hm₂ Machine.reset

theorem Solo.final (h : Solo m₀ s) (h₀ : m₀.Made) {b : Bench} (hb : b.machines = #[m₀])
    (hs : b.session = none) (hx : s.Renews x) : Final b m₀ s x := by
  have hamid : x = .turn → s.ResetsAmid m₀ := fun heq => h.resetsAmid h₀ (heq ▸ hx)
  obtain ⟨m, m', hm, hm', hlt⟩ := hx
  have hcore : m'.core = m₀.core :=
    ((h.core h₀ x hm hm').resolve_left (Nat.ne_of_gt hlt)).2
  have hstill : m'.running = false := h.running_of_rise hm hm' hlt
  refine ⟨⟨m', hm', h₀.renewed hcore hstill rfl⟩, hamid, fun t ht more => ?_, ?_⟩
  · have hlapsed : ((s.move x).play more).Lapsed t :=
      (h.move x).lapsed_play more (h.lapsed_of_rise hm hm' hlt ht)
    exact ((h.move x).play more).barren_of_lapsed h₀ hlapsed
  · intro rest hrest hended later
    have hfallow : Fallow m₀ (s.move x).Underway (s.move x) := by
      refine ⟨h.move x, fun t => h.lapsed_of_rise hm hm' hlt, fun t => id, fun n hn => ?_,
        fun n hn hr => ?_⟩
      · rwa [Option.some.inj (hn.symm.trans hm')]
      · rw [Option.some.inj (hn.symm.trans hm'), hstill] at hr
        cases hr
    have hlast : Fallow m₀ (s.move x).Underway ((s.move x).play rest) := hfallow.play h₀ hrest
    refine hlast.matches_renewed h₀ hb hs (fun t ht => ?_) later
    have hsome := hended t (hlast.others t ht)
    obtain ⟨f, fs, hthread, -⟩ := ht
    rw [outcome?, hthread] at hsome
    cases hsome

/-- At whatever moment a machine is reset, at once it looks as it was made; the calls that
are under way execute nothing more; and when they have ended it is as good as new. -/
theorem play_reset {source : Option Source} {sink : Option Sink} {p : Program} {o : Options}
    {b : Bench} (hb : Bench.make {source := source, sink := sink} p o = .ok b)
    (moves : List Move) : ∃ m₀, b.machine? 0 = some m₀ ∧
      (∃ m, ((({bench := b} : Scheduler).play moves).bench.signal .reset).machine? 0 = some m ∧
        m₀.Renewed m) ∧
      ∀ x, (({bench := b} : Scheduler).play moves).Renews x →
        Final b m₀ (({bench := b} : Scheduler).play moves) x := by
  obtain ⟨m₀, hmachines, h₀, hsolo⟩ := Solo.of_make hb
  have h := hsolo.play moves
  refine ⟨m₀, by rw [Bench.machine?, hmachines]; rfl, ?_, fun x hx => ?_⟩
  · obtain ⟨m, hm, hkin⟩ := h.machine?
    refine ⟨m.reset, ?_, h₀.renewed_reset hkin⟩
    rw [Bench.signal, h.session]
    exact Bench.machine?_update_self hm Machine.reset
  · exact h.final h₀ hmachines hsolo.session hx

/-- A step waits for a text when the machine is reset. The text comes to nothing, and the
next step asks for one as the first one did. -/
theorem play_reset_waiting : ∃ b s s₁ s₂,
    Bench.make {source := some (.queue [])} ⟨#[',']⟩ {memorySize := .integer 2} = .ok b ∧
      s = ({bench := b} : Scheduler).play (Move.alone (.step 0) 2) ∧
      s.bench.holds 0 (·.stepping) = true ∧ s₁ = s.move (.outside (.signal .reset)) ∧
      s₁.Underway 0 ∧
      s₂ = s₁.play [.outside (.feed ['a']), .dispatch, .turn, .turn, .turn] ∧
      s₂.outcome? 0 = some (.ok (.stepped false)) ∧ s₂.bench.snapshot? 0 = b.snapshot? 0 ∧
      Matches s₂ (renewed b s₂) (Move.alone (.step 0) 2) := by
  have hb : Bench.make {source := some (.queue [])} ⟨#[',']⟩ {memorySize := .integer 2} =
      .ok _ := rfl
  obtain ⟨m₀, -, -, hfinal⟩ := play_reset hb (Move.alone (.step 0) 2)
  have hreset := hfinal (.outside (.signal .reset)) ⟨_, _, rfl, rfl, Nat.one_pos⟩
  refine ⟨_, _, _, _, hb, rfl, rfl, rfl, ⟨_, _, rfl, ?_⟩, rfl, rfl, rfl, hreset.fresh _ ?_ ?_ _⟩
  · rintro ⟨c, hc, -⟩
    cases hc
  · refine ⟨fun h => (by cases h.1), fun h => (by cases h.1), ?_, ?_, ?_, trivial⟩
    all_goals
      rintro ⟨-, t, f, fs, hc, c, rfl, rfl⟩
      cases hc
  · rintro t ⟨f, fs, ht, -⟩
    cases t with
    | zero => rfl
    | succ t => cases ht

end TapeMachine.Scheduler
