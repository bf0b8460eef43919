import TapeMachine.Proofs.Machine.Core
import TapeMachine.Proofs.Schedule.RunLoop

/-! Spent calls.

A reset does not end the steps and the run loops that are under way, but it leaves them
nothing to do (`Spent`). A step that waits is stale: it began in an earlier epoch, and
when its text comes it ends without effect. A run loop is halted: it was active before
the reset, so nothing sets its machine running again, and it ends when it looks. What a
source does for a step that waits is done in vain as long as the step waits, since the
machine refuses all other steps. So a turn of a spent call executes nothing
(`advance_fades`), and the call is spent after it. -/
namespace TapeMachine

/-- What is left to do for a call of which nothing waits: to end, and not as a step that
was executed. -/
def Focus.Over (f : Focus) : Prop :=
  f = .resumed ∨ ∃ o, f = .returned o ∧ o ≠ .ok (.stepped true)

theorem Focus.over_returned {o : Outcome} (ho : o ≠ .ok (.stepped true)) :
    Focus.Over (.returned o) :=
  .inr ⟨o, rfl, ho⟩

theorem Focus.over_error (e : Failure) : Focus.Over (.returned (.error e)) :=
  over_returned nofun

theorem Focus.over_state (s : Option Snapshot) : Focus.Over (.returned (.ok (.state s))) :=
  over_returned nofun

/-- A call on machine 0 that has nothing more to do there, where the flags are these. -/
structure Spent (x : Flags) (f : Focus) (fs : List Frame) : Prop where
  /-- The steps that wait began in earlier epochs. -/
  stale : ∀ i epoch, (i, epoch) ∈ readings fs → epoch < x.epoch
  /-- Without a step that waits, the call comes to its end. -/
  ends : readings fs = [] → f.Over
  /-- A run loop that no step has to wait for does not go on. -/
  halted : ∀ rest, rest <:+ fs → readings rest = [] → .looping 0 ∈ rest → x.running = false

/-- Frames that are left when steps that wait and run loops only go away. -/
structure Recedes (fs fs' : List Frame) : Prop where
  subset : ∀ r ∈ readings fs', r ∈ readings fs
  suffix : ∀ rest, rest <:+ fs' → readings rest = [] → rest <:+ fs

/-- A turn after which a call is still spent. -/
def Turn.Fades (fs : List Frame) : Turn → Prop
  | .go f fs' => Recedes fs fs' ∧ (readings fs' = [] → f.Over)
  | .sleep fs' => Recedes fs fs'
  | .await fs' => Recedes fs fs'
  | .done o => o ≠ .ok (.stepped true)

variable {x y : Flags} {f : Focus} {fs fs' : List Frame} {i epoch : Nat}

/-! ### Frames -/

theorem readings_of_suffix (h : fs' <:+ fs) : ∀ r ∈ readings fs', r ∈ readings fs :=
  fun _ hr => (h.filterMap Frame.reading?).subset hr

namespace Recedes

theorem refl (fs : List Frame) : Recedes fs fs := ⟨fun _ => id, fun _ h _ => h⟩

theorem of_suffix (h : fs' <:+ fs) : Recedes fs fs' :=
  ⟨readings_of_suffix h, fun _ hrest _ => hrest.trans h⟩

theorem tail (x : Frame) (fs : List Frame) : Recedes (x :: fs) fs :=
  of_suffix (List.suffix_cons x fs)

/-- What stands on a step that waits is of no account. -/
theorem above (xs ys : List Frame) (hy : readings ys = []) (i epoch : Nat) (fs : List Frame) :
    Recedes (xs ++ .reading i epoch :: fs) (ys ++ .reading i epoch :: fs) := by
  refine ⟨fun r hr => ?_, fun rest hrest hfree => ?_⟩
  · rw [readings, List.filterMap_append, ← readings, hy, List.nil_append] at hr
    exact readings_of_suffix (List.suffix_append _ _) r hr
  · have hno : ∀ l, .reading i epoch :: fs <:+ l → readings l ≠ [] := fun l hl hnil => by
      have hmem := readings_of_suffix hl (i, epoch) List.mem_cons_self
      rw [hnil] at hmem
      cases hmem
    rcases List.suffix_or_suffix_of_suffix hrest (List.suffix_append ys _) with h | h
    · rcases List.suffix_cons_iff.mp h with rfl | h
      · exact absurd hfree (hno _ (List.suffix_refl _))
      · exact (h.trans (List.suffix_cons _ _)).trans (List.suffix_append _ _)
    · exact absurd hfree (hno _ h)

/-- A frame that does not wait, on frames of which a step does. -/
theorem cons {a : Frame} (ha : a.reading? = none) (h : readings fs ≠ []) :
    Recedes fs (a :: fs) := by
  refine ⟨fun r hr => ?_, fun rest hrest hfree => ?_⟩
  · rwa [readings, List.filterMap_cons_none ha] at hr
  · rcases List.suffix_cons_iff.mp hrest with rfl | hrest
    · rw [readings, List.filterMap_cons_none ha] at hfree
      exact absurd hfree h
    · exact hrest

end Recedes

namespace Spent

/-- Whatever a turn does to the flags, a call on a machine stays spent. -/
theorem flips (h : Spent x f fs) (hxy : x.Flips y) (hl : .looping 0 ∈ fs → x.looping = true) :
    Spent y f fs := by
  refine ⟨fun i e hr => Nat.lt_of_lt_of_le (h.stale i e hr) hxy.epoch_le, h.ends,
    fun rest hrest hfree hmem => ?_⟩
  rw [Bool.eq_false_iff]
  intro hy
  rcases (hxy.running hy).2 with ⟨hx, -⟩ | ⟨hx, -⟩
  · rw [h.halted rest hrest hfree hmem] at hx
    cases hx
  · rw [hl (hrest.subset hmem)] at hx
    cases hx

theorem recedes {f' : Focus} (h : Spent x f fs) (hr : Recedes fs fs')
    (hover : readings fs' = [] → f'.Over) : Spent x f' fs' :=
  ⟨fun i e hmem => h.stale i e (hr.subset _ hmem), hover,
    fun rest hrest hfree => h.halted rest (hr.suffix rest hrest hfree) hfree⟩

/-- If no step waits, the run loop of machine 0 is halted. -/
theorem halts (h : Spent x f fs) (hnil : readings fs = []) (hmem : .looping i ∈ fs) (hi : i = 0) :
    x.running = false := by
  subst hi
  exact h.halted fs (List.suffix_refl _) hnil hmem

/-- A thread is spent after a turn that fades. -/
theorem leaves {t : Turn} (h : Spent x f fs) (ht : t.Fades fs) : t.Leaves (Spent x) := by
  cases t with
  | go f' fs' => exact h.recedes ht.1 ht.2
  | sleep fs' => exact h.recedes ht fun _ => .inl rfl
  | await fs' => exact h.recedes ht fun _ => .inl rfl
  | done o => trivial

end Spent

namespace Bench
open Machine
variable {b b' : Bench} {m : Machine}

/-- Machine 0 is left with the core that it had, unless it was reset. -/
def Stays (b b' : Bench) : Prop :=
  ∀ m m', b.machine? 0 = some m → b'.machine? 0 = some m' → m'.epoch = m.epoch → m'.core = m.core

theorem Stays.refl (b : Bench) : Stays b b := fun m m' hm hm' _ => by
  rw [Option.some.inj (hm.symm.trans hm')]

theorem Stays.update {f : Machine → Machine} (h : ∀ m, (f m).core = m.core) (b : Bench) (i : Nat) :
    Stays b (b.update i f) := by
  intro m m' hm hm' _
  rw [machine?_update, hm] at hm'
  split at hm'
  · cases hm'
    exact h m
  · cases hm'
    rfl

theorem Stays.signal (hs : b.session = none) (g : Signal) : Stays b (b.signal g) := by
  have hsignal : b.signal g = b.signalMachine 0 g := by
    simp only [Bench.signal, hs]
  rw [hsignal]
  cases g with
  | pause => exact .update core_pause b 0
  | reset =>
    intro m m' hm hm' he
    have hreset : (b.signalMachine 0 .reset).machine? 0 = some m.reset :=
      machine?_update_self hm Machine.reset
    rw [hreset] at hm'
    cases hm'
    exact absurd he (Nat.succ_ne_self _)

/-- What a turn of a spent call comes to. -/
structure Fades (b : Bench) (fs : List Frame) (r : Bench × Turn) : Prop where
  turn : r.2.Fades fs
  stays : Stays b r.1

/-! ### Calls that a source makes in vain -/

theorem fades_callStep (hm : ∀ m, b.machine? i = some m → m.stepping = true)
    (hr : readings fs ≠ []) : Fades b fs (b.callStep i fs) := by
  cases hi : b.machine? i with
  | none =>
    have hcall : b.callStep i fs = (b, .value (.stepped false) fs) := by
      simp only [callStep, hi, Option.map_none]
    rw [hcall]
    exact ⟨⟨.refl fs, fun h => absurd h hr⟩, .refl b⟩
  | some m =>
    rw [show b.callStep i fs = _ from advance_of_stepping hi (hm m hi) fs]
    exact ⟨⟨.refl fs, fun h => absurd h hr⟩, .refl b⟩

theorem fades_callRun (b : Bench) (i : Nat) (hr : readings fs ≠ []) :
    Fades b fs (b.callRun i fs) := by
  simp only [callRun]
  split
  · exact ⟨⟨.refl fs, fun h => absurd h hr⟩, .update core_unpause b i⟩
  · refine ⟨⟨.cons rfl hr, fun _ => .inl rfl⟩, ?_⟩
    intro m m' hm hm' he
    have hgoing : (b.update i Machine.unpause).machine? 0 =
        some (if i = 0 then m.unpause else m) := by
      rw [machine?_update, hm]
      split <;> rfl
    have hstays := Stays.update core_enterLoop (b.update i Machine.unpause) i
    refine (hstays _ m' hgoing hm' (he.trans ?_)).trans ?_
    · split <;> rfl
    · split <;> rfl

theorem fades_callResume (b : Bench) (i : Nat) (hr : readings fs ≠ []) :
    Fades b fs (b.callResume i fs) := by
  rw [callResume]
  split
  · exact fades_callRun b i hr
  · exact ⟨⟨.refl fs, fun h => absurd h hr⟩, .refl b⟩

/-! ### Calls that come to their end -/

theorem Stays.leaveLoop (b : Bench) (i : Nat) : Stays b (b.update i Machine.leaveLoop) :=
  .update core_leaveLoop b i

/-- A run loop ends, whatever it was. -/
theorem fades_endRun (b : Bench) (i : Nat) (fs : List Frame) :
    Fades b (.looping i :: fs) (b.endRun i fs) := by
  simp only [endRun]
  split
  · exact ⟨⟨.tail _ fs, fun _ => Focus.over_state _⟩, .leaveLoop b i⟩
  · exact ⟨⟨.tail _ fs, fun _ => Focus.over_state _⟩, .leaveLoop b i⟩

theorem fades_afterStep (b : Bench) (i : Nat) {o : Outcome}
    (ho : readings fs = [] → o ≠ .ok (.stepped true)) :
    Fades b (.looping i :: fs) (b.afterStep i o fs) := by
  rw [afterStep.eq_def]
  split
  next e => exact ⟨⟨.tail _ fs, fun _ => Focus.over_error e⟩, .leaveLoop b i⟩
  next =>
    split
    · exact ⟨.refl _, .refl b⟩
    · exact ⟨⟨.refl _, fun _ => .inl rfl⟩, .refl b⟩
  next => exact fades_endRun b i fs

theorem fades_nextStep (b : Bench) (i : Nat)
    (hstop : readings fs = [] → b.holds i Machine.goesOn = false) :
    Fades b (.looping i :: fs) (b.nextStep i fs) := by
  rw [nextStep]
  split
  next hgoes =>
    refine ⟨⟨.refl _, fun hnil => ?_⟩, .refl b⟩
    rw [hstop hnil] at hgoes
    cases hgoes
  next => exact fades_endRun b i fs

theorem fades_giveBack (hs : b.session = none) (hf : Suspended fs) {o : Outcome}
    (ho : readings fs = [] → o ≠ .ok (.stepped true)) : Fades b fs (b.giveBack o fs) := by
  have hfail : ∀ {a : Frame} {rest : List Frame} (e : Failure),
      Turn.Fades (a :: rest) (.fail e rest) := fun e => ⟨.tail _ _, fun _ => Focus.over_error e⟩
  have hvalue : ∀ {a : Frame} {rest : List Frame},
      Turn.Fades (a :: rest) (.value (.state none) rest) :=
    ⟨.tail _ _, fun _ => Focus.over_state none⟩
  cases hf with
  | nil => exact ⟨ho rfl, .refl b⟩
  | looping i hf => exact fades_afterStep b i ho
  | @starting rest i hf =>
    cases o with
    | error e => exact ⟨hfail e, .refl b⟩
    | ok v =>
      have hend : b.endStart i v rest = (b, .value (.state none) rest) := by
        simp only [endStart, hs]
      show Fades b _ (b.endStart i v rest)
      rw [hend]
      exact ⟨hvalue, .refl b⟩
  | @stepping rest i hf =>
    cases o with
    | error e => exact ⟨hfail e, .refl b⟩
    | ok v =>
      have hend : b.endSessionStep i rest = (b, .value (.state none) rest) := by
        simp only [endSessionStep, hs]
      show Fades b _ (b.endSessionStep i rest)
      rw [hend]
      exact ⟨hvalue, .refl b⟩
  | calling v deeds answer i epoch hf =>
    exact ⟨⟨.tail _ _, fun _ => .inl rfl⟩, .refl b⟩

/-- A stale step ends without effect. -/
theorem endReading_stale (he : b.epoch? i ≠ some epoch) (a : Answer) (fs : List Frame) :
    (b.endReading i epoch a fs).1.machines =
        (b.update i fun m => {m with stepping := false}).machines ∧
      (b.endReading i epoch a fs).2 =
        .go (.returned (a.map fun _ => .stepped false)) fs := by
  have hfreed : (b.update i fun m => {m with stepping := false}).epoch? i = b.epoch? i := by
    simp only [epoch?, machine?_update, if_pos, Option.map_map]
    rfl
  cases a with
  | error e => exact ⟨rfl, rfl⟩
  | ok text =>
    have hstale : ((b.update i fun m => {m with stepping := false}).record
        (.answered i text)).epoch? i ≠ some epoch := hfreed ▸ he
    simp only [endReading, if_neg hstale]
    exact ⟨rfl, rfl⟩

/-- What a spent call finds on a bench with one machine and no session. -/
structure Deserted (b : Bench) (x : Flags) (fs : List Frame) : Prop where
  session : b.session = none
  single : ∀ i, i ≠ 0 → b.machine? i = none
  flags : b.flags? 0 = some x
  /-- While a step waits, its machine refuses all others. -/
  waits : ∀ i epoch, (i, epoch) ∈ readings fs → i = 0 ∧ b.holds 0 (·.stepping) = true

/-- A step that waits for a spent call finds machine 0 in a later epoch. -/
theorem Deserted.epoch?_ne (hb : Deserted b x fs) (h : Spent x f fs)
    (hmem : (i, epoch) ∈ readings fs) : i = 0 ∧ b.epoch? 0 ≠ some epoch := by
  obtain ⟨m, hm, rfl⟩ := Option.map_eq_some_iff.mp hb.flags
  have hlt := h.stale i epoch hmem
  refine ⟨(hb.waits i epoch hmem).1, ?_⟩
  rw [epoch?, hm, Option.map_some]
  intro heq
  cases heq
  exact Nat.lt_irrefl _ hlt

/-- A call that a source makes while its step waits is made in vain. -/
theorem fades_call (hb : Deserted b x fs) (hr : readings fs ≠ []) (c : Call) :
    Fades b fs (b.call fs c) := by
  obtain ⟨⟨i, epoch⟩, hmem⟩ := List.exists_mem_of_ne_nil _ hr
  obtain ⟨-, hstepping⟩ := hb.waits i epoch hmem
  have hvain : Fades b fs (b, .value (.state none) fs) :=
    ⟨⟨.refl fs, fun h => absurd h hr⟩, .refl b⟩
  cases c with
  | step j =>
    refine fades_callStep (fun m hm => ?_) hr
    by_cases hj : j = 0
    · subst hj
      rwa [holds, hm] at hstepping
    · rw [hb.single j hj] at hm
      cases hm
  | run j => exact fades_callRun b j hr
  | resume j => exact fades_callResume b j hr
  | sessionStart =>
    have hcall : b.callStart fs = (b, .value (.state none) fs) := by
      simp only [callStart, hb.session]
    rw [show b.call fs .sessionStart = _ from hcall]
    exact hvain
  | sessionStep =>
    have hcall : b.callSessionStep fs = (b, .value (.state none) fs) := by
      simp only [callSessionStep, hb.session]
    rw [show b.call fs .sessionStep = _ from hcall]
    exact hvain

/-- A run loop that no step has to wait for is halted. -/
theorem holds_goesOn (hb : Deserted b x fs) (i : Nat)
    (hx : i = 0 → x.running = false) : b.holds i Machine.goesOn = false := by
  by_cases hi : i = 0
  · subst hi
    obtain ⟨m, hm, rfl⟩ := Option.map_eq_some_iff.mp hb.flags
    have hr : m.running = false := hx rfl
    rw [holds, hm, Option.any_some, Machine.goesOn, hr, Bool.false_and]
  · rw [holds, hb.single i hi]
    rfl

/-- The text for a stale step comes too late. -/
theorem fades_endReading {a : Answer} (hb : Deserted b x (.reading i epoch :: fs))
    (h : Spent x (.answered a) (.reading i epoch :: fs)) :
    Fades b (.reading i epoch :: fs) (b.endReading i epoch a fs) := by
  obtain ⟨rfl, hstale⟩ := hb.epoch?_ne h List.mem_cons_self
  obtain ⟨hmachines, hturn⟩ := endReading_stale hstale a fs
  have hmachine : (b.endReading 0 epoch a fs).1.machine? 0 =
      (b.update 0 Machine.settled).machine? 0 := by
    rw [machine?, hmachines]
    rfl
  have hstays := Stays.update core_settled b 0
  refine ⟨?_, fun n n' hn hn' => hstays n n' hn (hmachine.symm.trans hn')⟩
  rw [hturn]
  refine ⟨.tail _ fs, fun _ => Focus.over_returned fun heq => ?_⟩
  cases a with
  | error e => cases heq
  | ok text => cases heq

theorem fades_getting (b : Bench) (i epoch : Nat) (fs : List Frame) :
    Fades b (.getting :: .reading i epoch :: fs) (b.goOn (.getting :: .reading i epoch :: fs)) := by
  rw [goOn]
  split
  · exact ⟨⟨.tail _ _, fun hnil => by cases hnil⟩, fun m m' hm hm' _ => by
      rw [Option.some.inj (hm.symm.trans hm')]⟩
  · exact ⟨.refl _, .refl b⟩

/-- Whatever a source does, the step that waits for it is below. -/
theorem fades_replying (hs : b.session = none) (deeds : List Deed)
    (answer : Except Failure (Option Text)) (i epoch : Nat) (fs : List Frame) :
    Fades b (.replying deeds answer :: .reading i epoch :: fs)
      (b.goOn (.replying deeds answer :: .reading i epoch :: fs)) := by
  have habove : ∀ ds, Recedes (.replying deeds answer :: .reading i epoch :: fs)
      (.replying ds answer :: .reading i epoch :: fs) := fun ds =>
    .above [.replying deeds answer] [.replying ds answer] rfl i epoch fs
  rcases deeds with - | ⟨- | g | v, deeds⟩
  · exact ⟨⟨.tail _ _, fun hnil => by cases hnil⟩, .refl b⟩
  · exact ⟨habove _, .refl b⟩
  · refine ⟨⟨habove _, fun hnil => by cases hnil⟩, ?_⟩
    exact Stays.signal hs g
  · refine ⟨⟨?_, fun hnil => by cases hnil⟩, .refl b⟩
    exact .above [_] [.calling v, .replying deeds answer] rfl i epoch fs

/-- A turn of a spent call executes nothing, and the call stays spent. -/
theorem advance_fades (hb : Deserted b x fs) (hf : f.Fits fs) (h : Spent x f fs) :
    Fades b fs (b.advance fs f) := by
  cases hf with
  | call c hs =>
    refine fades_call hb (fun hnil => ?_) c
    rcases h.ends hnil with heq | ⟨o, heq, -⟩
    · cases heq
    · cases heq
  | returned o hs =>
    refine fades_giveBack hb.session hs fun hnil => ?_
    rcases h.ends hnil with heq | ⟨o', heq, ho⟩
    · cases heq
    · cases heq
      exact ho
  | answered a i epoch hs => exact fades_endReading hb h
  | @looping fs i hs =>
    exact fades_nextStep b i fun hnil => holds_goesOn hb i (h.halts hnil List.mem_cons_self)
  | getting i epoch hs => exact fades_getting b i epoch _
  | replying deeds answer i epoch hs => exact fades_replying hb.session deeds answer i epoch _

/-! ### What is to be seen -/

/-- Machine 0 looks as it did, and was not reset. -/
def Looks (b b' : Bench) : Prop :=
  ∀ m, b.machine? 0 = some m → ∃ m', b'.machine? 0 = some m' ∧ m'.toSnapshot = m.toSnapshot ∧
    m'.epoch = m.epoch

theorem Looks.of_machine?_eq (h : b'.machine? 0 = b.machine? 0) : Looks b b' :=
  fun m hm => ⟨m, h.trans hm, rfl, rfl⟩

/-- Nothing is to be seen of a run loop that ends after it was halted. -/
theorem looks_leaveLoop (hx : b.flags? 0 = some x) (hr : i = 0 → x.running = false) :
    Looks b (b.update i Machine.leaveLoop) := by
  intro m hm
  rw [machine?_update, hm]
  split
  next hi =>
    refine ⟨m.leaveLoop, rfl, ?_, rfl⟩
    have hrunning : m.running = false := by
      obtain rfl : m.flags = x := Option.some.inj (by rw [← hx, flags?, hm]; rfl)
      exact hr hi
    rw [show m.leaveLoop.toSnapshot = {m.toSnapshot with running := false} from rfl, ← hrunning]
  next => exact ⟨m, rfl, rfl, rfl⟩

theorem looks_endRun (hx : b.flags? 0 = some x) (hr : i = 0 → x.running = false)
    (fs : List Frame) : Looks b (b.endRun i fs).1 := by
  simp only [endRun]
  split
  · exact looks_leaveLoop hx hr
  · exact looks_leaveLoop hx hr

/-- A run loop that has got the outcome of its last step is halted, and all other calls end. -/
theorem looks_giveBack {o : Outcome} (hb : Deserted b x fs) (hs : Suspended fs)
    (h : Spent x (.returned o) fs) (hnil : readings fs = []) : Looks b (b.giveBack o fs).1 := by
  cases hs with
  | nil => exact .of_machine?_eq rfl
  | @looping fs i hs =>
    have hr := h.halts hnil (i := i) List.mem_cons_self
    show Looks b (b.afterStep i o fs).1
    rw [afterStep.eq_def]
    split
    · exact looks_leaveLoop hb.flags hr
    · split
      · exact .of_machine?_eq rfl
      · exact .of_machine?_eq rfl
    · exact looks_endRun hb.flags hr fs
  | @starting fs i hs =>
    cases o with
    | error e => exact .of_machine?_eq rfl
    | ok v =>
      show Looks b (b.endStart i v fs).1
      simp only [endStart, hb.session]
      exact .of_machine?_eq rfl
  | @stepping fs i hs =>
    cases o with
    | error e => exact .of_machine?_eq rfl
    | ok v =>
      show Looks b (b.endSessionStep i fs).1
      simp only [endSessionStep, hb.session]
      exact .of_machine?_eq rfl
  | calling v deeds answer i epoch hs => cases hnil

theorem looks_endReading {a : Answer} (hb : Deserted b x (.reading i epoch :: fs))
    (h : Spent x (.answered a) (.reading i epoch :: fs)) :
    Looks b (b.endReading i epoch a fs).1 := by
  obtain ⟨rfl, hstale⟩ := hb.epoch?_ne h List.mem_cons_self
  intro m hm
  refine ⟨m.settled, ?_, rfl, rfl⟩
  rw [machine?, (endReading_stale hstale a fs).1]
  exact machine?_update_self hm Machine.settled

/-- Of the end of a spent call itself, apart from what its source does, nothing is to be
seen. -/
theorem advance_looks (hb : Deserted b x fs) (hf : f.Fits fs) (h : Spent x f fs)
    (hown : readings fs = [] ∨ ∃ a, f = .answered a) : Looks b (b.advance fs f).1 := by
  have hfree : (∀ a, f ≠ .answered a) → readings fs = [] := fun hne =>
    hown.resolve_right fun ⟨a, heq⟩ => hne a heq
  cases hf with
  | call c hs =>
    rcases h.ends (hfree fun _ heq => by cases heq) with heq | ⟨o, heq, -⟩
    · cases heq
    · cases heq
  | returned o hs => exact looks_giveBack hb hs h (hfree fun _ heq => by cases heq)
  | answered a i epoch hs => exact looks_endReading hb h
  | @looping fs i hs =>
    have hr := h.halts (hfree fun _ heq => by cases heq) (i := i) List.mem_cons_self
    show Looks b (b.nextStep i fs).1
    rw [nextStep, holds_goesOn hb i hr]
    exact looks_endRun hb.flags hr fs
  | getting i epoch hs => cases hfree fun _ heq => by cases heq
  | replying deeds answer i epoch hs => cases hfree fun _ heq => by cases heq

end Bench
end TapeMachine
