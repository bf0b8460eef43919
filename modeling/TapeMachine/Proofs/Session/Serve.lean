import TapeMachine.Proofs.Schedule.Script

/-! Machines behind a session.

Where all calls are calls on a session, only the session calls its machines: a start
runs or resumes one, and a single step lets one take a step. So frames stand on each
other in a stricter order than elsewhere. A step of a machine is part of a run loop that
a start waits for, or of a single step, and a source that makes calls of its own makes
them on the session (`Served`). What a thread does next goes with its innermost frames
(`Focus.Serves`), and every turn keeps it so.

Beside that the order tells which failures are on their way: whatever can be said of all
failures of the callbacks, and of all that are not about a step that waits, can be said
of them. -/
namespace TapeMachine

def Failure.Reentrant : Failure → Prop
  | .reentrantStep _ => True
  | _ => False

/-- A failure, if it is one, is of some kind. -/
def Fails {α : Type} (P : Failure → Prop) (x : Except Failure α) : Prop := ∀ e, x = .error e → P e

/-- The calls that a session offers. -/
def Call.OfSession : Call → Prop
  | .sessionStart | .sessionStep => True
  | _ => False

/-- A source calls nothing but the session. -/
def Deed.OfSession : Deed → Prop
  | .call .run | .call .resume => False
  | _ => True

/-- A reply that calls nothing but the session, and fails with failures of some kind. -/
def Reply.OfSession (P : Failure → Prop) : Reply → Prop
  | .now _ answer => Fails P answer
  | .later deeds answer => (∀ d ∈ deeds, d.OfSession) ∧ Fails P answer

def Source.OfSession (P : Failure → Prop) : Source → Prop
  | .scripted reply => ∀ n, (reply n).OfSession P
  | _ => True

/-- A sink fails with failures of some kind. -/
def Sink.OfSession (P : Failure → Prop) : Sink → Prop
  | .scripted reaction => ∀ n e, (reaction n).failure = some e → P e
  | _ => True

/-- The surroundings call nothing but the session. -/
def Intervention.OfSession : Intervention → Prop
  | .spawn c => c.OfSession
  | .signalMachine _ _ => False
  | _ => True

def Move.OfSession : Move → Prop
  | .outside x => x.OfSession
  | _ => True

instance : DecidablePred Call.OfSession
  | .sessionStart | .sessionStep => .isTrue trivial
  | .step _ | .run _ | .resume _ => .isFalse id

instance : DecidablePred Intervention.OfSession
  | .spawn c => inferInstanceAs (Decidable c.OfSession)
  | .signalMachine _ _ => .isFalse id
  | .signal _ | .feed _ | .cooperate _ _ | .edit _ _ => .isTrue trivial

instance : DecidablePred Move.OfSession
  | .outside x => inferInstanceAs (Decidable x.OfSession)
  | .turn | .dispatch => .isTrue trivial

variable {P : Failure → Prop} {fs : List Frame} {i epoch : Nat}

/-- Frames that wait for a call on the session to end, or for one on a machine. -/
inductive Served (P : Failure → Prop) : Option Nat → List Frame → Prop
  | nil : Served P none []
  | looping {fs : List Frame} (i : Nat) : Served P none fs →
      Served P (some i) (.looping i :: .starting i :: fs)
  | stepping {fs : List Frame} (i : Nat) : Served P none fs → Served P (some i) (.stepping i :: fs)
  | calling {fs : List Frame} (v : Verb) {deeds : List Deed}
      {answer : Except Failure (Option Text)} (i epoch : Nat) :
      (Reply.later deeds answer).OfSession P → Served P (some i) fs →
      Served P none (.calling v :: .replying deeds answer :: .reading i epoch :: fs)

/-- What a thread does next is the business of its innermost frames, all of which serve the
session. -/
inductive Focus.Serves (P : Failure → Prop) : Focus → List Frame → Prop
  | call {c : Call} {fs : List Frame} : c.OfSession → Served P none fs → Serves P (.call c) fs
  | step {fs : List Frame} (i : Nat) : Served P (some i) fs → Serves P (.call (.step i)) fs
  | run {fs : List Frame} (i : Nat) : Served P none fs →
      Serves P (.call (.run i)) (.starting i :: fs)
  | resume {fs : List Frame} (i : Nat) : Served P none fs →
      Serves P (.call (.resume i)) (.starting i :: fs)
  | stepped {o : Outcome} {fs : List Frame} (i : Nat) : Fails P o → Served P (some i) fs →
      Serves P (.returned o) fs
  | started {o : Outcome} {fs : List Frame} (i : Nat) : Fails P o → Served P none fs →
      Serves P (.returned o) (.starting i :: fs)
  | returned {o : Outcome} {fs : List Frame} : Fails P o → Served P none fs →
      Serves P (.returned o) fs
  | answered {a : Answer} {fs : List Frame} (i epoch : Nat) : Fails P a → Served P (some i) fs →
      Serves P (.answered a) (.reading i epoch :: fs)
  | looping {fs : List Frame} (i : Nat) : Served P none fs →
      Serves P .resumed (.looping i :: .starting i :: fs)
  | getting {fs : List Frame} (i epoch : Nat) : Served P (some i) fs →
      Serves P .resumed (.getting :: .reading i epoch :: fs)
  | replying {deeds : List Deed} {answer : Except Failure (Option Text)} {fs : List Frame}
      (i epoch : Nat) : (Reply.later deeds answer).OfSession P → Served P (some i) fs →
      Serves P .resumed (.replying deeds answer :: .reading i epoch :: fs)

theorem Fails.ok {α : Type} (x : α) : Fails P (.ok x : Except Failure α) := fun _ h => by cases h

theorem Fails.error {α : Type} {e : Failure} (h : P e) : Fails P (.error e : Except Failure α) :=
  fun _ heq => by cases heq; exact h

theorem Fails.ofReply {answer : Except Failure (Option Text)} (h : Fails P answer) :
    Fails P (Answer.ofReply answer) := by
  cases answer with
  | ok t => exact .ok _
  | error e => exact .error (h e rfl)

/-- Failures of some kind, and all but those about a step that waits are of that kind. -/
def Covers (P : Failure → Prop) : Prop := ∀ e : Failure, ¬ e.Reentrant → P e

namespace Bench
variable {b : Bench} {m : Option Nat}

/-- The callbacks keep to the session, and fail with failures of some kind only. -/
structure Behaves (P : Failure → Prop) (b : Bench) : Prop where
  replies : ∀ reply n, b.scripts.1 = some reply → (reply n).OfSession P
  reactions : ∀ reaction n e, b.scripts.2 = some reaction → (reaction n).failure = some e → P e

/-! ### Steps -/

theorem serves_ask (hb : b.Behaves P) (hs : Served P (some i) fs) :
    (b.ask i (.reading i epoch :: fs)).2.Leaves (Focus.Serves P) := by
  simp only [ask]
  split
  next => exact .answered i epoch (.ok _) hs
  next => exact .answered i epoch (.ok _) hs
  next => exact .getting i epoch hs
  next => exact .answered i epoch (.ok _) hs
  next => exact .answered i epoch (.ok _) hs
  next reply hsource =>
    have hreply : (reply (b.requests + 1)).OfSession P := by
      refine hb.replies reply _ ?_
      rw [scripts, show b.source = some (.scripted reply) from hsource]
      rfl
    split
    next heq =>
      have h : Reply.OfSession P (.now _ _) := heq ▸ hreply
      exact .answered i epoch (Fails.ofReply h) hs
    next heq =>
      have h : Reply.OfSession P (.later _ _) := heq ▸ hreply
      exact .replying i epoch h hs

theorem serves_request (hb : b.Behaves P) (hs : Served P (some i) fs) :
    (b.request i fs).2.Leaves (Focus.Serves P) := by
  rw [request]
  split
  next => exact .stepped i (.ok _) hs
  next => exact serves_ask ⟨hb.replies, hb.reactions⟩ hs

/-- A sink breaks in, or fails as its script says. -/
theorem fails_deliver (hP : Covers P) (hb : b.Behaves P) (i : Nat) (c : Char) {e : Failure}
    (h : (b.deliver i c).2 = some e) : P e := by
  simp only [deliver] at h
  split at h
  next => cases h
  next => cases h
  next =>
    split at h
    next =>
      cases h
      exact hP _ id
    next => cases h
  next reaction hsink =>
    refine hb.reactions reaction _ e ?_ h
    rw [scripts, show b.sink = some (.scripted reaction) from hsink]
    rfl

theorem serves_putOut (hP : Covers P) (hb : b.Behaves P) (hs : Served P (some i) fs) :
    (b.putOut i fs).2.Leaves (Focus.Serves P) := by
  rw [putOut]
  split
  next => exact .stepped i (.ok _) hs
  next => exact .stepped i (.ok _) hs
  next c epoch _ =>
    have hfails := fun e => fails_deliver (b := b.update i Machine.emit) (e := e) hP
      ⟨hb.replies, hb.reactions⟩ i c
    split
    next e heq =>
      rw [heq] at hfails
      exact .stepped i (.error (hfails e rfl)) hs
    next =>
      split
      · exact .stepped i (.ok _) hs
      · exact .stepped i (.ok _) hs

theorem serves_callStep (hP : Covers P) (hb : b.Behaves P) (hs : Served P (some i) fs)
    (hfree : ∀ n, (b.machine? i).map Machine.stance = some (.occupied n) → P (.reentrantStep n)) :
    (b.callStep i fs).2.Leaves (Focus.Serves P) := by
  rw [callStep]
  split
  next => exact .stepped i (.ok _) hs
  next n hn => exact .stepped i (.error (hfree n hn)) hs
  next => exact .stepped i (.ok _) hs
  next => exact serves_putOut hP hb hs
  next => exact serves_request hb hs
  next => exact .stepped i (.ok _) hs

theorem serves_endReading (b : Bench) (hs : Served P (some i) fs) {a : Answer} (ha : Fails P a) :
    (b.endReading i epoch a fs).2.Leaves (Focus.Serves P) := by
  rw [endReading.eq_def]
  simp only
  split
  next e => exact .stepped i (.error (ha e rfl)) hs
  next =>
    split
    · exact .stepped i (.ok _) hs
    · exact .stepped i (.ok _) hs

/-! ### Runs -/

theorem serves_callRun (b : Bench) (hs : Served P none fs) (i : Nat) :
    (b.callRun i (.starting i :: fs)).2.Leaves (Focus.Serves P) := by
  simp only [callRun]
  split
  · exact .started i (.ok _) hs
  · exact .looping i hs

theorem serves_callResume (b : Bench) (hs : Served P none fs) (i : Nat) :
    (b.callResume i (.starting i :: fs)).2.Leaves (Focus.Serves P) := by
  rw [callResume]
  split
  · exact serves_callRun b hs i
  · exact .started i (.ok _) hs

theorem serves_endRun (b : Bench) (hs : Served P none fs) (i : Nat) :
    (b.endRun i (.starting i :: fs)).2.Leaves (Focus.Serves P) := by
  simp only [endRun]
  split
  · exact .started i (.ok _) hs
  · exact .started i (.ok _) hs

theorem serves_nextStep (b : Bench) (hs : Served P none fs) (i : Nat) :
    (b.nextStep i (.starting i :: fs)).2.Leaves (Focus.Serves P) := by
  rw [nextStep]
  split
  · exact .step i (.looping i hs)
  · exact serves_endRun b hs i

theorem serves_afterStep (b : Bench) (hs : Served P none fs) (i : Nat) {o : Outcome}
    (ho : Fails P o) : (b.afterStep i o (.starting i :: fs)).2.Leaves (Focus.Serves P) := by
  rw [afterStep.eq_def]
  split
  next e => exact .started i (.error (ho e rfl)) hs
  next =>
    split
    · exact .looping i hs
    · exact .looping i hs
  next => exact serves_endRun b hs i

/-! ### Calls on the session -/

theorem fails_make {p : Program} {o : Options} {e : Failure} (hP : Covers P)
    (h : b.make p o = .error e) : P e := by
  rw [make] at h
  split at h
  · cases h
    exact hP _ id
  · cases h

theorem serves_callStart (hP : Covers P) (b : Bench) (hs : Served P none fs) :
    (b.callStart fs).2.Leaves (Focus.Serves P) := by
  rw [callStart]
  split
  next => exact .returned (.ok _) hs
  next =>
    split
    next =>
      simp only
      split
      · exact .returned (.ok _) hs
      · exact .resume _ hs
    next =>
      split
      next he => exact .returned (.error (fails_make hP he)) hs
      next => exact .run _ hs
    next => exact .returned (.ok _) hs

theorem serves_callSessionStep (hP : Covers P) (b : Bench) (hs : Served P none fs) :
    (b.callSessionStep fs).2.Leaves (Focus.Serves P) := by
  rw [callSessionStep]
  split
  next => exact .returned (.ok _) hs
  next =>
    split
    next => exact .returned (.ok _) hs
    next =>
      split
      · exact .returned (.ok _) hs
      · exact .step _ (.stepping _ hs)
    next =>
      split
      next he => exact .returned (.error (fails_make hP he)) hs
      next => exact .step _ (.stepping _ hs)

theorem serves_endStart (b : Bench) (hs : Served P none fs) (i : Nat) (v : Value) :
    (b.endStart i v fs).2.Leaves (Focus.Serves P) := by
  rw [endStart.eq_def]
  simp only
  split
  · exact .returned (.ok _) hs
  · exact .returned (.ok _) hs

theorem serves_endSessionStep (b : Bench) (hs : Served P none fs) (i : Nat) :
    (b.endSessionStep i fs).2.Leaves (Focus.Serves P) := by
  rw [endSessionStep]
  split
  · exact .returned (.ok _) hs
  · exact .returned (.ok _) hs

/-! ### Turns -/

/-- An ending call gives its outcome to the frame around it. -/
theorem serves_giveBack {o : Outcome} (ho : Fails P o) (b : Bench) (hs : Served P m fs) :
    (b.giveBack o fs).2.Leaves (Focus.Serves P) := by
  cases hs with
  | nil => trivial
  | looping i hs => exact serves_afterStep b hs i ho
  | stepping i hs =>
    cases o with
    | ok v => exact serves_endSessionStep b hs i
    | error e => exact .returned (.error (ho e rfl)) hs
  | calling v i epoch hreply hs => exact .replying i epoch hreply hs

theorem serves_advance (hP : Covers P) (hb : b.Behaves P) (hsession : b.session.isSome)
    {f : Focus} (hs : f.Serves P fs)
    (hfree : ∀ i n, f = .call (.step i) →
      (b.machine? i).map Machine.stance = some (.occupied n) → P (.reentrantStep n)) :
    (b.advance fs f).2.Leaves (Focus.Serves P) := by
  cases hs with
  | @call c _ hc hs =>
    cases c with
    | sessionStart => exact serves_callStart hP b hs
    | sessionStep => exact serves_callSessionStep hP b hs
    | step | run | resume => exact absurd hc id
  | step i hs => exact serves_callStep hP hb hs fun n => hfree i n rfl
  | run i hs => exact serves_callRun b hs i
  | resume i hs => exact serves_callResume b hs i
  | stepped i ho hs => exact serves_giveBack ho b hs
  | @started o _ i ho hs =>
    cases o with
    | ok v => exact serves_endStart b hs i v
    | error e => exact .returned (.error (ho e rfl)) hs
  | returned ho hs => exact serves_giveBack ho b hs
  | answered i epoch ha hs => exact serves_endReading b hs ha
  | looping i hs => exact serves_nextStep b hs i
  | getting i epoch hs =>
    simp only [advance, goOn]
    split
    · exact .answered i epoch (.ok _) hs
    · exact .getting i epoch hs
  | @replying deeds answer _ i epoch hreply hs =>
    obtain ⟨hdeeds, hanswer⟩ := hreply
    rcases deeds with - | ⟨d, deeds⟩
    · exact .answered i epoch (.ofReply hanswer) hs
    · obtain ⟨hd, hrest⟩ := List.forall_mem_cons.mp hdeeds
      cases d with
      | rest => exact .replying i epoch ⟨hrest, hanswer⟩ hs
      | signal g => exact .replying i epoch ⟨hrest, hanswer⟩ hs
      | call v =>
        refine .call ?_ (.calling v i epoch ⟨hrest, hanswer⟩ hs)
        cases v with
        | step =>
          rw [callOf, if_pos hsession]
          trivial
        | start => trivial
        | run | resume => exact absurd hd id

end Bench
end TapeMachine
