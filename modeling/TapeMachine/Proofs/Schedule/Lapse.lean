import TapeMachine.Proofs.Schedule.Past
import TapeMachine.Proofs.Schedule.Spent

/-! Calls that a reset finds under way.

Wherever a reset comes from, all calls that are under way are spent from then on. Of the
other threads this is plain, as they are at rest: their steps wait, and their run loops
sleep. The thread whose callback resets does so in the midst of a step; either this step
comes to wait for text, and began before the reset, or it puts out a character, and ends
without being completed (`advance_lapses`). -/
namespace TapeMachine

variable {x : Flags} {f : Focus} {fs : List Frame} {i epoch : Nat}

/-- A call has a step that waits, or nothing left but to end. -/
def Focus.Waits (f : Focus) (fs : List Frame) : Prop := readings fs = [] → f.Over

namespace Bench
variable {b b' : Bench}

/-- How a step ends whose sink resets the machine: it was not completed, or the sink
failed. -/
def Cut (b : Bench) (o : Outcome) : Prop :=
  o = .ok (.stepped false) ∨ ∃ (reaction : Nat → Reaction) (e : Failure),
    b.sink = some (.scripted reaction) ∧ (reaction (b.deliveries + 1)).failure = some e ∧
      o = .error e

/-- After a turn a step waits, or one has ended in which its sink reset the machine. -/
def Breaks (b : Bench) (t : Turn) : Prop :=
  readings t.frames ≠ [] ∨ ∃ o fs, t = .go (.returned o) fs ∧ b.Cut o

/-- The last thing in a turn are the signals of a callback, which finds machine 0 in the epoch
in which the turn began. -/
def Obeys (b b' : Bench) : Prop :=
  ∃ (b₁ : Bench) (waits : Bool) (gs : List Signal), b' = b₁.obey waits gs ∧
    b₁.session = none ∧ ∀ m, b.machine? 0 = some m →
      ∃ m₁, b₁.machine? 0 = some m₁ ∧ m.Kin m₁ ∧ m₁.epoch = m.epoch

/-- What a turn does in which machine 0 may be reset. -/
structure Lapses (b : Bench) (fs : List Frame) (r : Bench × Turn) : Prop where
  /-- The steps that wait began before the turn, or in it and before any reset. -/
  began : ∀ i epoch, (i, epoch) ∈ readings r.2.frames →
    (i, epoch) ∈ readings fs ∨ b.epoch? i = some epoch
  ends : r.1.epoch? 0 = b.epoch? 0 ∨ (b.Breaks r.2 ∧ b.Obeys r.1)

theorem Breaks.leaves {t : Turn} (h : b.Breaks t) : t.Leaves Focus.Waits := by
  rcases h with hr | ⟨o, fs, rfl, ho⟩
  · cases t with
    | done o => trivial
    | go | sleep | await => exact fun hnil => absurd hnil hr
  · rcases ho with rfl | ⟨reaction, e, -, -, rfl⟩
    · exact fun _ => Focus.over_returned fun heq => by cases heq
    · exact fun _ => Focus.over_error e

/-- Signals leave machine 0 what it was made, and without a reset in its epoch. -/
theorem machine?_obey (hs : b.session = none) {m : Machine} (hm : b.machine? 0 = some m)
    (waits : Bool) (gs : List Signal) : (b.obey waits gs).session = none ∧
      ∃ m', (b.obey waits gs).machine? 0 = some m' ∧ m.Kin m' ∧
        (.reset ∉ gs → m'.epoch = m.epoch) := by
  induction gs generalizing b m with
  | nil => exact ⟨hs, m, hm, .refl m, fun _ => rfl⟩
  | cons g rest ih =>
    have hobey : b.obey waits (g :: rest) =
        ((b.signalMachine 0 g).record (.signalled g waits)).obey waits rest := by
      have hsignal : b.signal g = b.signalMachine 0 g := by simp only [signal, hs]
      rw [← hsignal]
      rfl
    rw [hobey]
    cases g with
    | pause =>
      have hpaused : (b.signalMachine 0 .pause).machine? 0 = some m.pause :=
        machine?_update_self hm Machine.pause
      obtain ⟨hs', m', hm', hkin, he⟩ := ih (b := (b.signalMachine 0 .pause).record _) hs hpaused
      refine ⟨hs', m', hm', ⟨hkin.program, hkin.size, hkin.hears, hkin.speaks⟩, fun hno => ?_⟩
      exact he fun h => hno (List.mem_cons_of_mem _ h)
    | reset =>
      have hreset : (b.signalMachine 0 .reset).machine? 0 = some m.reset :=
        machine?_update_self hm Machine.reset
      obtain ⟨hs', m', hm', hkin, -⟩ := ih (b := (b.signalMachine 0 .reset).record _) hs hreset
      refine ⟨hs', m', hm', (Machine.Kin.reset m).trans hkin, fun hno => ?_⟩
      exact absurd List.mem_cons_self hno

theorem epoch?_update (f : Machine → Machine) (h : ∀ m, (f m).epoch = m.epoch) (b : Bench)
    (i j : Nat) : (b.update i f).epoch? j = b.epoch? j := by
  rw [epoch?, epoch?, machine?_update]
  split
  · rw [Option.map_map]
    congr 1
    exact funext h
  · rfl

theorem epoch?_complain (b : Bench) (i j : Nat) : (b.complain i).epoch? j = b.epoch? j := by
  rw [complain]
  split
  next => rfl
  next c _ => exact epoch?_update (·.report c) (fun _ => rfl) b i j

namespace Lapses
variable {r : Bench × Turn}

/-- A turn in which nothing is reset and no step begins to wait. -/
theorem of_epoch_eq (hr : ∀ a ∈ readings r.2.frames, a ∈ readings fs)
    (he : r.1.epoch? 0 = b.epoch? 0) : Lapses b fs r :=
  ⟨fun i epoch hm => .inl (hr (i, epoch) hm), .inl he⟩

theorem of_suffix (hr : r.2.frames <:+ fs) (he : r.1.epoch? 0 = b.epoch? 0) : Lapses b fs r :=
  .of_epoch_eq (readings_of_suffix hr) he

end Lapses

/-! ### Steps -/

/-- A source that answers at once may give signals first. All others leave the machines
alone. -/
theorem ask_cases (b : Bench) (i : Nat) (fs : List Frame) :
    (b.ask i fs).1.machines = b.machines ∨ ∃ (b₁ : Bench) (gs : List Signal),
      (b.ask i fs).1 = b₁.obey false gs ∧ b₁.session = b.session ∧ b₁.machines = b.machines := by
  simp only [ask]
  split
  · exact .inl rfl
  · exact .inl rfl
  · exact .inl rfl
  · exact .inl rfl
  · exact .inl rfl
  · split
    next signals answer _ => exact .inr ⟨_, signals, rfl, rfl, rfl⟩
    next => exact .inl rfl

theorem lapses_request (hs : b.session = none) (hsingle : ∀ i, i ≠ 0 → b.machine? i = none)
    (i : Nat) (fs : List Frame) : Lapses b fs (b.request i fs) := by
  cases hi : b.machine? i with
  | none =>
    rw [request, hi]
    exact .of_suffix (List.suffix_refl fs) rfl
  | some m =>
    obtain rfl : i = 0 := by
      by_contra hne
      rw [hsingle i hne] at hi
      cases hi
    have hreadings : readings (b.request 0 fs).2.frames = (0, m.epoch) :: readings fs := by
      rw [request, hi]
      exact filterMap_ask rfl (fun _ _ => rfl) _ 0 _
    refine ⟨fun j e hm => ?_, ?_⟩
    · rw [hreadings] at hm
      rcases List.mem_cons.mp hm with heq | hm
      · cases heq
        exact .inr (by rw [epoch?, hi]; rfl)
      · exact .inl hm
    · have hbreaks : b.Breaks (b.request 0 fs).2 := by
        refine .inl ?_
        rw [hreadings]
        exact List.cons_ne_nil _ _
      have hwaiting : (b.update 0 fun m => {m with stepping := true}).machine? 0 =
          some {m with stepping := true} := machine?_update_self hi _
      rw [request, hi] at hbreaks ⊢
      rcases ask_cases ((b.update 0 fun m => {m with stepping := true}).log
        (.requested m.counter)) 0 (.reading 0 m.epoch :: fs) with hsame | ⟨b₁, gs, h, hs₁, hm₁⟩
      · left
        rw [show b.epoch? 0 = some m.epoch by rw [epoch?, hi]; rfl, epoch?, machine?, hsame]
        exact congrArg (Option.map _) hwaiting
      · refine .inr ⟨hbreaks, b₁, false, gs, h, hs₁.trans hs, fun n hn => ?_⟩
        obtain rfl := Option.some.inj (hi.symm.trans hn)
        refine ⟨{m with stepping := true}, ?_, ⟨rfl, rfl, rfl, rfl⟩, rfl⟩
        rw [machine?, hm₁]
        exact hwaiting

/-- Only a sink that follows a script may do more than take the character. -/
theorem deliver_cases (b : Bench) (i : Nat) (c : Char) :
    (b.deliver i c).1.machines = b.machines ∨ ∃ (b₁ : Bench) (reaction : Nat → Reaction),
      b.sink = some (.scripted reaction) ∧
      b.deliver i c = (b₁.obey false (reaction (b.deliveries + 1)).signals,
        (reaction (b.deliveries + 1)).failure) ∧
      b₁.session = b.session ∧ b₁.machines = b.machines := by
  simp only [deliver]
  split
  · exact .inl rfl
  · exact .inl rfl
  · split
    · exact .inl rfl
    · exact .inl rfl
  next reaction heq => exact .inr ⟨_, reaction, heq, rfl, rfl, rfl⟩

/-- A sink that resets the machine whose character it gets has a script. -/
theorem obeys_deliver {m : Machine} {b' : Bench} {e : Option Failure} (hs : b.session = none)
    (hm : b.machine? 0 = some m)
    (h : (b.update 0 Machine.emit).deliver 0 m.cellChar = (b', e)) :
    b'.epoch? 0 = b.epoch? 0 ∨ (b.Obeys b' ∧ ∃ reaction : Nat → Reaction,
      b.sink = some (.scripted reaction) ∧ (reaction (b.deliveries + 1)).failure = e) := by
  have hemitted : (b.update 0 Machine.emit).machine? 0 = some m.emit :=
    machine?_update_self hm Machine.emit
  rcases deliver_cases (b.update 0 Machine.emit) 0 m.cellChar with
    hsame | ⟨b₁, reaction, hsink, heq, hs₁, hm₁⟩
  · rw [h] at hsame
    refine .inl ?_
    have hmachine : b'.machine? 0 = some m.emit := by
      rw [machine?, hsame]
      exact hemitted
    rw [epoch?, epoch?, hmachine, hm]
    rfl
  · rw [h] at heq
    cases heq
    refine .inr ⟨⟨b₁, false, _, rfl, hs₁.trans hs, fun n hn => ?_⟩, reaction, hsink, rfl⟩
    obtain rfl := Option.some.inj (hm.symm.trans hn)
    refine ⟨m.emit, ?_, ⟨rfl, rfl, rfl, rfl⟩, rfl⟩
    rw [machine?, hm₁]
    exact hemitted

/-- A step whose sink resets is not completed. -/
theorem lapses_putOut (hs : b.session = none) (hsingle : ∀ i, i ≠ 0 → b.machine? i = none)
    (i : Nat) (fs : List Frame) : Lapses b fs (b.putOut i fs) := by
  cases hi : b.machine? i with
  | none =>
    rw [putOut, hi]
    exact .of_suffix (List.suffix_refl fs) rfl
  | some m =>
    obtain rfl : i = 0 := by
      by_contra hne
      rw [hsingle i hne] at hi
      cases hi
    have hepoch : b.epoch? 0 = some m.epoch := by
      rw [epoch?, hi]
      rfl
    rw [putOut, hi]
    cases hspeaks : m.speaks with
    | false =>
      simp only [Option.map_some, hspeaks]
      have hspilt : (b.update 0 fun m => m.emit.advance).epoch? 0 = b.epoch? 0 :=
        epoch?_update (fun m => m.emit.advance) (fun _ => rfl) b 0 0
      exact .of_suffix (List.suffix_refl fs) hspilt
    | true =>
      simp only [Option.map_some, hspeaks]
      split
      next delivered e heq =>
        refine ⟨fun j e hm => .inl hm, (obeys_deliver hs hi heq).imp_right ?_⟩
        rintro ⟨hobey, reaction, hsink, hfail⟩
        exact ⟨.inr ⟨_, fs, rfl, .inr ⟨reaction, e, hsink, hfail, rfl⟩⟩, hobey⟩
      next delivered heq =>
        split
        next he =>
          refine .of_suffix (List.suffix_refl fs) ?_
          have hadvance := epoch?_update Machine.advance (fun _ => rfl) delivered 0 0
          exact hadvance.trans (he.trans hepoch.symm)
        next =>
          refine ⟨fun j e hm => .inl hm, (obeys_deliver hs hi heq).imp_right ?_⟩
          rintro ⟨hobey, -⟩
          exact ⟨.inr ⟨_, fs, rfl, .inl rfl⟩, hobey⟩

theorem lapses_callStep (hs : b.session = none) (hsingle : ∀ i, i ≠ 0 → b.machine? i = none)
    (i : Nat) (fs : List Frame) : Lapses b fs (b.callStep i fs) := by
  rw [callStep]
  split
  next => exact .of_suffix (List.suffix_refl fs) rfl
  next => exact .of_suffix (List.suffix_refl fs) rfl
  next =>
    refine .of_suffix (List.suffix_refl fs) ?_
    exact epoch?_update (fun m => {m with running := false}) (fun _ => rfl) b i 0
  next => exact lapses_putOut hs hsingle i fs
  next => exact lapses_request hs hsingle i fs
  next =>
    refine .of_suffix (List.suffix_refl fs) ?_
    have hexecute : ∀ m : Machine, m.execute.advance.epoch = m.epoch := fun m =>
      (Machine.inner_execute m).epoch
    exact (epoch?_update _ hexecute _ i 0).trans (epoch?_complain b i 0)

theorem epoch?_endReading (b : Bench) (i epoch : Nat) (a : Answer) (fs : List Frame) (j : Nat) :
    (b.endReading i epoch a fs).1.epoch? j = b.epoch? j := by
  have hfreed : (b.update i fun m => {m with stepping := false}).epoch? j = b.epoch? j :=
    epoch?_update (fun m => {m with stepping := false}) (fun _ => rfl) b i j
  rw [endReading.eq_def]
  simp only
  split
  · exact hfreed
  · split
    · refine (epoch?_update _ (fun m => ?_) _ i j).trans hfreed
      exact (Machine.inner_consume (m.receive _)).epoch
    · exact hfreed

/-! ### Other turns -/

theorem lapses_callRun (b : Bench) (i : Nat) (fs : List Frame) : Lapses b fs (b.callRun i fs) := by
  have hgoing : (b.update i Machine.unpause).epoch? 0 = b.epoch? 0 :=
    epoch?_update Machine.unpause (fun _ => rfl) b i 0
  simp only [callRun]
  split
  · exact .of_suffix (List.suffix_refl fs) hgoing
  · have hentered := epoch?_update Machine.enterLoop (fun _ => rfl) (b.update i Machine.unpause) i 0
    exact .of_epoch_eq (fun a => id) (hentered.trans hgoing)

theorem lapses_endRun (b : Bench) (i : Nat) (fs : List Frame) :
    Lapses b (.looping i :: fs) (b.endRun i fs) := by
  have hleft : (b.update i Machine.leaveLoop).epoch? 0 = b.epoch? 0 :=
    epoch?_update Machine.leaveLoop (fun _ => rfl) b i 0
  simp only [endRun]
  split
  · exact .of_suffix (List.suffix_cons _ fs) hleft
  · exact .of_suffix (List.suffix_cons _ fs) hleft

theorem lapses_giveBack (hs : b.session = none) (hf : Suspended fs) (o : Outcome) :
    Lapses b fs (b.giveBack o fs) := by
  cases hf with
  | nil => exact .of_suffix (List.suffix_refl _) rfl
  | @looping fs i hf =>
    show Lapses b _ (b.afterStep i o fs)
    rw [afterStep.eq_def]
    split
    · refine .of_suffix (List.suffix_cons _ fs) ?_
      exact epoch?_update Machine.leaveLoop (fun _ => rfl) b i 0
    · split
      · exact .of_suffix (List.suffix_refl _) rfl
      · exact .of_suffix (List.suffix_refl _) rfl
    · exact lapses_endRun b i fs
  | @starting fs i hf =>
    cases o with
    | error e => exact .of_suffix (List.suffix_cons _ fs) rfl
    | ok v =>
      show Lapses b _ (b.endStart i v fs)
      simp only [endStart, hs]
      exact .of_suffix (List.suffix_cons _ fs) rfl
  | @stepping fs i hf =>
    cases o with
    | error e => exact .of_suffix (List.suffix_cons _ fs) rfl
    | ok v =>
      show Lapses b _ (b.endSessionStep i fs)
      simp only [endSessionStep, hs]
      exact .of_suffix (List.suffix_cons _ fs) rfl
  | calling v deeds answer i epoch hf => exact .of_suffix (List.suffix_cons _ _) rfl

/-- A turn in which machine 0 is reset leaves a call whose step waits, or that ends without
a step completed. -/
theorem advance_lapses (hs : b.session = none) (hsingle : ∀ i, i ≠ 0 → b.machine? i = none)
    (hf : f.Fits fs) : Lapses b fs (b.advance fs f) := by
  cases hf with
  | call c hf =>
    cases c with
    | step i => exact lapses_callStep hs hsingle i fs
    | run i => exact lapses_callRun b i fs
    | resume i =>
      show Lapses b fs (b.callResume i fs)
      rw [callResume]
      split
      · exact lapses_callRun b i fs
      · exact .of_suffix (List.suffix_refl fs) rfl
    | sessionStart =>
      show Lapses b fs (b.callStart fs)
      simp only [callStart, hs]
      exact .of_suffix (List.suffix_refl fs) rfl
    | sessionStep =>
      show Lapses b fs (b.callSessionStep fs)
      simp only [callSessionStep, hs]
      exact .of_suffix (List.suffix_refl fs) rfl
  | returned o hf => exact lapses_giveBack hs hf o
  | @answered fs a i epoch hf =>
    refine .of_suffix ?_ (epoch?_endReading b i epoch a fs 0)
    show (b.endReading i epoch a fs).2.frames <:+ _
    rw [frames_endReading]
    exact List.suffix_cons _ fs
  | @looping fs i hf =>
    show Lapses b _ (b.nextStep i fs)
    rw [nextStep]
    split
    · exact .of_suffix (List.suffix_refl _) rfl
    · exact lapses_endRun b i fs
  | getting i epoch hf =>
    simp only [advance, goOn]
    split
    · exact .of_suffix (List.suffix_cons _ _) rfl
    · exact .of_suffix (List.suffix_refl _) rfl
  | replying deeds answer i epoch hf =>
    rcases deeds with - | ⟨- | g | v, deeds⟩
    · exact .of_suffix (List.suffix_cons _ _) rfl
    · exact .of_epoch_eq (fun a => id) rfl
    · refine ⟨fun j e => .inl, .inr ⟨.inl (List.cons_ne_nil _ _), b, true, [g], rfl, hs, ?_⟩⟩
      exact fun m hm => ⟨m, hm, .refl m, rfl⟩
    · exact .of_epoch_eq (fun a => id) rfl

end Bench
end TapeMachine
