import TapeMachine.Thread.Advance
import TapeMachine.Proofs.Schedule.Frame
import TapeMachine.Proofs.Schedule.Stage

/-! Where a thread goes.

The calls, waits and ends that one turn of a thread can come to, with the frames before
and after it (`Bench.Yields`). What the turn does to the machines is left out, but for the
little that decides where the thread goes. Whatever is true of frames is true because every
line of this table keeps it. -/
namespace TapeMachine

/-- How a step can end. -/
def OfStep : Outcome → Prop
  | .error _ | .ok (.stepped _) => True
  | .ok (.state _) => False

/-- How a run can end, and a call on a session. -/
def OfRun : Outcome → Prop
  | .error _ | .ok (.state _) => True
  | .ok (.stepped _) => False

/-- A call that may begin a run loop of machine `i`. -/
def Call.Runs (i : Nat) (c : Call) : Prop := c = .run i ∨ c = .resume i

/-- A call on a session. -/
def Call.Serves (c : Call) : Prop := c = .sessionStart ∨ c = .sessionStep

namespace Bench
variable {b : Bench} {i : Nat} {fs : List Frame}

/-- The session works with machine `i`. -/
def Current (b : Bench) (i : Nat) : Prop := ∃ s, b.session = some s ∧ s.current = some i

/-- Machine `i` is the session's, or one more than there were. -/
def Engaged (b b' : Bench) (i : Nat) : Prop :=
  b.Current i ∧ b'.machines = b.machines ∨
    i = b.machines.size ∧ b'.machines.size = b.machines.size + 1

/-- What a turn of a thread comes to. -/
inductive Yields (b : Bench) : Focus → List Frame → Bench → Turn → Prop
  /-- A step ends at once. -/
  | steps {fs : List Frame} {b' : Bench} (i : Nat) {o : Outcome} : OfStep o →
      Yields b (.call (.step i)) fs b' (.go (.returned o) fs)
  /-- A step asks, and is answered at once. -/
  | asks {fs : List Frame} {b' : Bench} (i epoch : Nat) (a : Answer) : b.epoch? i = some epoch →
      Yields b (.call (.step i)) fs b' (.go (.answered a) (.reading i epoch :: fs))
  | awaits {fs : List Frame} {b' : Bench} (i epoch : Nat) (x : Frame) :
      b.epoch? i = some epoch → (x = .getting ∨ ∃ deeds answer, x = .replying deeds answer) →
      Yields b (.call (.step i)) fs b' (.go .resumed (x :: .reading i epoch :: fs))
  /-- A run loop is active already, or there is nothing to resume. -/
  | joins {fs : List Frame} {b' : Bench} (i : Nat) {c : Call} (s : Option Snapshot) : c.Runs i →
      Yields b (.call c) fs b' (.go (.returned (.ok (.state s))) fs)
  | enters {fs : List Frame} (i : Nat) {c : Call} : c.Runs i → b.holds i (·.looping) = false →
      Yields b (.call c) fs ((b.update i Machine.unpause).update i Machine.enterLoop)
        (.go .resumed (.looping i :: fs))
  /-- A call on the session is turned away, or fails. -/
  | turns {fs : List Frame} {b' : Bench} {c : Call} {o : Outcome} : c.Serves → OfRun o →
      Yields b (.call c) fs b' (.go (.returned o) fs)
  | starts {fs : List Frame} {b' : Bench} (i : Nat) {c : Call} : c.Runs i → b.Engaged b' i →
      Yields b (.call .sessionStart) fs b' (.go (.call c) (.starting i :: fs))
  | begins {fs : List Frame} {b' : Bench} (i : Nat) : b.Engaged b' i →
      Yields b (.call .sessionStep) fs b' (.go (.call (.step i)) (.stepping i :: fs))
  | done (o : Outcome) : Yields b (.returned o) [] b (.done o)
  /-- A run loop goes on with a step. -/
  | next {fs : List Frame} (i : Nat) : b.holds i Machine.goesOn = true →
      Yields b .resumed (.looping i :: fs) b (.go (.call (.step i)) (.looping i :: fs))
  /-- A run loop ends without a failure. -/
  | stops {fs : List Frame} {f : Focus} (i : Nat) (s : Option Snapshot) :
      (f = .resumed ∧ b.holds i Machine.goesOn = false ∨
        ∃ v, f = .returned (.ok v) ∧ v ≠ .stepped true) →
      Yields b f (.looping i :: fs) (b.endRun i fs).1 (.go (.returned (.ok (.state s))) fs)
  /-- A run loop is back at its head. -/
  | again {fs : List Frame} (i : Nat) : Yields b (.returned (.ok (.stepped true)))
      (.looping i :: fs) b (.go .resumed (.looping i :: fs))
  | sleeps {fs : List Frame} (i : Nat) : Yields b (.returned (.ok (.stepped true)))
      (.looping i :: fs) b (.sleep (.looping i :: fs))
  | breaks {fs : List Frame} (i : Nat) (e : Failure) : Yields b (.returned (.error e))
      (.looping i :: fs) (b.update i Machine.leaveLoop) (.go (.returned (.error e)) fs)
  /-- A call on the session fails with the call that it made. -/
  | fails {fs : List Frame} {x : Frame} (i : Nat) (e : Failure) :
      (x = .starting i ∨ x = .stepping i) →
      Yields b (.returned (.error e)) (x :: fs) b (.go (.returned (.error e)) fs)
  | settles {fs : List Frame} {b' : Bench} {x : Frame} (i : Nat) (v : Value)
      (s : Option Snapshot) : (x = .starting i ∨ x = .stepping i) →
      Yields b (.returned (.ok v)) (x :: fs) b' (.go (.returned (.ok (.state s))) fs)
  /-- A source takes note of how its call ended. -/
  | notes {fs : List Frame} (v : Verb) (o : Outcome) :
      Yields b (.returned o) (.calling v :: fs) (b.record (.called v o)) (.go .resumed fs)
  /-- A step that waited ends. -/
  | hears {fs : List Frame} {b' : Bench} (i epoch : Nat) (a : Answer) {o : Outcome} : OfStep o →
      Yields b (.answered a) (.reading i epoch :: fs) b' (.go (.returned o) fs)
  | takes {fs : List Frame} {b' : Bench} (text : Text) : b'.machines = b.machines →
      Yields b .resumed (.getting :: fs) b' (.go (.answered (.ok text)) fs)
  | waits {fs : List Frame} : Yields b .resumed (.getting :: fs) b (.await (.getting :: fs))
  | answers {fs : List Frame} (answer : Except Failure (Option Text)) :
      Yields b .resumed (.replying [] answer :: fs) b (.go (.answered (.ofReply answer)) fs)
  | rests {fs : List Frame} (deeds : List Deed) (answer : Except Failure (Option Text)) :
      Yields b .resumed (.replying (.rest :: deeds) answer :: fs) b
        (.sleep (.replying deeds answer :: fs))
  | signals {fs : List Frame} (g : Signal) (deeds : List Deed)
      (answer : Except Failure (Option Text)) :
      Yields b .resumed (.replying (.signal g :: deeds) answer :: fs) (b.obey true [g])
        (.go .resumed (.replying deeds answer :: fs))
  | calls {fs : List Frame} (v : Verb) (deeds : List Deed)
      (answer : Except Failure (Option Text)) :
      Yields b .resumed (.replying (.call v :: deeds) answer :: fs) b
        (.go (.call (b.callOf v)) (.calling v :: .replying deeds answer :: fs))

/-! ### Steps -/

/-- A source that is asked answers, or works towards its answer. -/
theorem turn_ask (b : Bench) (i : Nat) (fs : List Frame) :
    (∃ a, (b.ask i fs).2 = .go (.answered a) fs) ∨ ∃ x, (b.ask i fs).2 = .go .resumed (x :: fs) ∧
      (x = .getting ∨ ∃ deeds answer, x = .replying deeds answer) := by
  simp only [ask]
  split
  next => exact .inl ⟨_, rfl⟩
  next => exact .inl ⟨_, rfl⟩
  next => exact .inr ⟨_, rfl, .inl rfl⟩
  next => exact .inl ⟨_, rfl⟩
  next => exact .inl ⟨_, rfl⟩
  next =>
    split
    next => exact .inl ⟨_, rfl⟩
    next => exact .inr ⟨_, rfl, .inr ⟨_, _, rfl⟩⟩

theorem turn_putOut (b : Bench) (i : Nat) (fs : List Frame) :
    ∃ o, (b.putOut i fs).2 = .go (.returned o) fs ∧ OfStep o := by
  rw [putOut]
  split
  next => exact ⟨_, rfl, trivial⟩
  next => exact ⟨_, rfl, trivial⟩
  next =>
    split
    next => exact ⟨_, rfl, trivial⟩
    next => split <;> exact ⟨_, rfl, trivial⟩

theorem turn_endReading (b : Bench) (i epoch : Nat) (a : Answer) (fs : List Frame) :
    ∃ o, (b.endReading i epoch a fs).2 = .go (.returned o) fs ∧ OfStep o := by
  rw [endReading.eq_def]
  simp only
  split
  next => exact ⟨_, rfl, trivial⟩
  next => split <;> exact ⟨_, rfl, trivial⟩

theorem yields_request (b : Bench) (i : Nat) (fs : List Frame) :
    Yields b (.call (.step i)) fs (b.request i fs).1 (b.request i fs).2 := by
  rw [request]
  cases hm : b.machine? i with
  | none => exact .steps i (by trivial)
  | some m =>
    have hepoch : b.epoch? i = some m.epoch := by rw [epoch?, hm]; rfl
    rcases turn_ask ((b.update i fun m => {m with stepping := true}).log (.requested m.counter)) i
      (.reading i m.epoch :: fs) with ⟨a, h⟩ | ⟨x, h, hx⟩
    · rw [h]
      exact .asks i _ a hepoch
    · rw [h]
      exact .awaits i _ x hepoch hx

theorem yields_callStep (b : Bench) (i : Nat) (fs : List Frame) :
    Yields b (.call (.step i)) fs (b.callStep i fs).1 (b.callStep i fs).2 := by
  rw [callStep]
  split
  next => exact .steps i (by trivial)
  next => exact .steps i (by trivial)
  next => exact .steps i (by trivial)
  next =>
    obtain ⟨o, h, ho⟩ := turn_putOut b i fs
    rw [h]
    exact .steps i ho
  next => exact yields_request b i fs
  next => exact .steps i (by trivial)

/-! ### Runs -/

theorem yields_callRun {c : Call} (hc : c.Runs i) (b : Bench) (fs : List Frame) :
    Yields b (.call c) fs (b.callRun i fs).1 (b.callRun i fs).2 := by
  simp only [callRun]
  split
  next => exact .joins i _ hc
  next h =>
    rw [looping_unpause, Bool.not_eq_true] at h
    exact .enters i hc h

theorem yields_callResume (b : Bench) (i : Nat) (fs : List Frame) :
    Yields b (.call (.resume i)) fs (b.callResume i fs).1 (b.callResume i fs).2 := by
  rw [callResume]
  split
  · exact yields_callRun (.inr rfl) b fs
  · exact .joins i _ (.inr rfl)

theorem turn_endRun (b : Bench) (i : Nat) (fs : List Frame) :
    ∃ s, (b.endRun i fs).2 = .go (.returned (.ok (.state s))) fs := by
  simp only [endRun]
  split
  · exact ⟨_, rfl⟩
  · exact ⟨_, rfl⟩

theorem yields_nextStep (b : Bench) (i : Nat) (fs : List Frame) :
    Yields b .resumed (.looping i :: fs) (b.nextStep i fs).1 (b.nextStep i fs).2 := by
  rw [nextStep]
  split
  next h => exact .next i h
  next h =>
    obtain ⟨s, hs⟩ := turn_endRun b i fs
    rw [hs]
    exact .stops i s (.inl ⟨rfl, Bool.eq_false_iff.mpr h⟩)

theorem yields_afterStep (b : Bench) (i : Nat) (o : Outcome) (fs : List Frame) :
    Yields b (.returned o) (.looping i :: fs) (b.afterStep i o fs).1 (b.afterStep i o fs).2 := by
  rw [afterStep.eq_def]
  split
  next e => exact .breaks i e
  next =>
    split
    · exact .sleeps i
    · exact .again i
  next v hv =>
    obtain ⟨s, hs⟩ := turn_endRun b i fs
    rw [hs]
    exact .stops i s (.inr ⟨v, rfl, fun h => hv (by rw [h])⟩)

/-! ### Calls on a session -/

theorem engaged_of_make {made b' : Bench} {p : Program} {o : Options} (h : b.make p o = .ok made)
    (hb : b'.machines = made.machines) : b.Engaged b' b.machines.size := by
  obtain ⟨n, hn, -, rfl⟩ := eq_of_make h
  refine .inr ⟨rfl, ?_⟩
  rw [hb]
  exact Array.size_push ..

theorem yields_callStart (b : Bench) (fs : List Frame) :
    Yields b (.call .sessionStart) fs (b.callStart fs).1 (b.callStart fs).2 := by
  rw [callStart]
  split
  next => exact .turns (.inl rfl) trivial
  next s hs =>
    split
    next i _ hi =>
      simp only
      split
      · exact .turns (.inl rfl) trivial
      · exact .starts i (.inr rfl) (.inl ⟨⟨s, hs, hi⟩, rfl⟩)
    next =>
      split
      next => exact .turns (.inl rfl) trivial
      next made hmade => exact .starts _ (.inl rfl) (engaged_of_make hmade rfl)
    next => exact .turns (.inl rfl) trivial

theorem yields_callSessionStep (b : Bench) (fs : List Frame) :
    Yields b (.call .sessionStep) fs (b.callSessionStep fs).1 (b.callSessionStep fs).2 := by
  rw [callSessionStep]
  split
  next => exact .turns (.inr rfl) trivial
  next s hs =>
    split
    next => exact .turns (.inr rfl) trivial
    next i hi _ =>
      split
      · exact .turns (.inr rfl) trivial
      · exact .begins i (.inl ⟨⟨s, hs, hi⟩, rfl⟩)
    next =>
      split
      next => exact .turns (.inr rfl) trivial
      next made hmade => exact .begins _ (engaged_of_make hmade rfl)

theorem yields_endStart (b : Bench) (i : Nat) (v : Value) (fs : List Frame) :
    Yields b (.returned (.ok v)) (.starting i :: fs) (b.endStart i v fs).1
      (b.endStart i v fs).2 := by
  rw [endStart.eq_def]
  simp only
  split
  · exact .settles i v _ (.inl rfl)
  · exact .settles i v _ (.inl rfl)

theorem yields_endSessionStep (b : Bench) (i : Nat) (v : Value) (fs : List Frame) :
    Yields b (.returned (.ok v)) (.stepping i :: fs) (b.endSessionStep i fs).1
      (b.endSessionStep i fs).2 := by
  rw [endSessionStep]
  split
  · exact .settles i v _ (.inr rfl)
  · exact .settles i v _ (.inr rfl)

/-! ### All turns -/

theorem yields_giveBack (b : Bench) (o : Outcome) (hs : Suspended fs) :
    Yields b (.returned o) fs (b.giveBack o fs).1 (b.giveBack o fs).2 := by
  cases hs with
  | nil => exact .done o
  | looping i hs => exact yields_afterStep b i o _
  | starting i hs =>
    cases o with
    | ok v => exact yields_endStart b i v _
    | error e => exact .fails i e (.inl rfl)
  | stepping i hs =>
    cases o with
    | ok v => exact yields_endSessionStep b i v _
    | error e => exact .fails i e (.inr rfl)
  | calling v deeds answer i epoch hs => exact .notes v o

/-- Every turn of a thread whose frames are in order stands in the table. -/
theorem advance_yields {f : Focus} (hf : f.Fits fs) (b : Bench) :
    Yields b f fs (b.advance fs f).1 (b.advance fs f).2 := by
  cases hf with
  | call c hs =>
    cases c with
    | step i => exact yields_callStep b i fs
    | run i => exact yields_callRun (.inl rfl) b fs
    | resume i => exact yields_callResume b i fs
    | sessionStart => exact yields_callStart b fs
    | sessionStep => exact yields_callSessionStep b fs
  | returned o hs => exact yields_giveBack b o hs
  | answered a i epoch hs =>
    obtain ⟨o, h, ho⟩ := turn_endReading b i epoch a _
    show Yields b _ _ (b.endReading i epoch a _).1 (b.endReading i epoch a _).2
    rw [h]
    exact .hears i epoch a ho
  | looping i hs => exact yields_nextStep b i _
  | getting i epoch hs =>
    simp only [advance, goOn]
    split
    · exact .takes _ rfl
    · exact .waits
  | replying deeds answer i epoch hs =>
    rcases deeds with - | ⟨- | g | v, deeds⟩
    · exact .answers answer
    · exact .rests deeds answer
    · exact .signals g deeds answer
    · exact .calls v deeds answer

end Bench
end TapeMachine
