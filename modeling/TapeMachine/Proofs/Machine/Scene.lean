import TapeMachine.Proofs.Machine.Stir
import TapeMachine.Callback

/-! Scenes.

A machine that is alone with its source and its sink (`Scene`): nobody else calls it, and
what its callbacks call is refused or comes to nothing as long as a step waits. So all
that a callback can do is to reset the machine and to end in some way, and what one step
comes to is decided by the scene (`Scene.step`). -/
namespace TapeMachine

/-! ### Callbacks -/

/-- What a request comes to: so many resets, then an answer, and the source that the next
request goes to. -/
structure Hearing where
  resets : Nat
  answer : Answer
  source : Option Source

/-- The request with a number, counted from one. To an empty queue it comes to nothing. -/
def Source.hearing? (n : Nat) : Option Source → Option Hearing
  | none => some ⟨0, .ok [], none⟩
  | some (.fixed text) => some ⟨0, .ok (if n = 1 then text else []), some (.fixed text)⟩
  | some (.queue []) => none
  | some (.queue (text :: texts)) => some ⟨0, .ok text, some (.queue texts)⟩
  | some (.lines rest keepEnd) =>
    let line := (splitLine rest).1
    some ⟨0, .ok (if keepEnd then line else withoutEnd line),
      some (.lines (splitLine rest).2 keepEnd)⟩
  | some (.scripted reply) =>
    some <| match reply n with
      | .now signals answer => ⟨signals.count .reset, .ofReply answer, some (.scripted reply)⟩
      | .later deeds answer =>
        ⟨deeds.count (.signal .reset), .ofReply answer, some (.scripted reply)⟩

theorem Source.eq_of_hearing?_eq_none {n : Nat} {source : Option Source}
    (h : hearing? n source = none) : source = some (.queue []) := by
  match source, h with
  | some (.queue []), _ => rfl

/-- What the hand-over of a character comes to: so many resets, a failure or none, and the
sink that the next character goes to. -/
structure Taking where
  resets : Nat := 0
  failure : Option Failure := none
  sink : Option Sink

/-- The hand-over with a number, counted from one. -/
def Sink.taking (n : Nat) : Option Sink → Taking
  | some (.stream (some 0)) => {failure := some .interrupted, sink := some (.stream (some 0))}
  | some (.stream (some (room + 1))) => {sink := some (.stream (some room))}
  | some (.scripted reaction) =>
    ⟨(reaction n).signals.count .reset, (reaction n).failure, some (.scripted reaction)⟩
  | sink => {sink}

/-! ### Steps -/

/-- A machine with its callbacks, how often these were called, and what could be told. -/
structure Scene where
  machine : Machine
  source : Option Source
  sink : Option Sink
  requests : Nat
  deliveries : Nat
  signs : List Sign

namespace Scene

def withMachine (x : Scene) (m : Machine) : Scene := {x with machine := m}

def tell (x : Scene) (signs : List Sign) : Scene := {x with signs := x.signs ++ signs}

/-- The machine starts over so many times. -/
def resets (x : Scene) (k : Nat) : Scene :=
  (x.withMachine (x.machine.wiped k)).tell (List.replicate k .reset)

/-- The source was called. -/
def asked (x : Scene) (r : Hearing) : Scene :=
  {x.tell [.asked 0] with source := r.source, requests := x.requests + 1}.resets r.resets

/-- The sink was called. -/
def handed (x : Scene) (c : Char) (r : Taking) : Scene :=
  {x.tell [.emitted 0 c] with sink := r.sink, deliveries := x.deliveries + 1}.resets r.resets

/-- A step that needs nothing from outside. -/
def work (x : Scene) : Scene :=
  (x.tell (x.machine.complaint?.map Sign.complained).toList).withMachine
    x.machine.noted.execute.advance

/-- A step that puts out a character. If the sink fails or resets, the step is not
completed. -/
def put (x : Scene) : Scene × Except Failure Bool :=
  let emitted := x.withMachine x.machine.emit
  if x.machine.speaks then
    let r := Sink.taking (x.deliveries + 1) x.sink
    let y := emitted.handed x.machine.cellChar r
    match r.failure with
    | some e => (y, .error e)
    | none => if r.resets = 0 then (y.withMachine y.machine.advance, .ok true) else (y, .ok false)
  else (emitted.withMachine emitted.machine.advance, .ok true)

/-- A step that asks for text. If the source fails or resets, the step has no effect. -/
def read (x : Scene) (r : Hearing) : Scene × Except Failure Bool :=
  let y := x.asked r
  match r.answer with
  | .error e => (y, .error e)
  | .ok text =>
    let heard := y.tell [.answered 0 text]
    if r.resets = 0 then
      (heard.withMachine (heard.machine.receive text).consume.advance, .ok true)
    else (heard, .ok false)

/-- One step, and whether an instruction was executed or why not. There is no outcome if
the step waits for ever. -/
def step (x : Scene) : Option (Scene × Except Failure Bool) :=
  match x.machine.stance with
  | .occupied counter => some (x, .error (.reentrantStep counter))
  | .ended => some (x, .ok false)
  | .inward => some (x.work, .ok true)
  | .output => some x.put
  | .request => (Source.hearing? (x.requests + 1) x.source).map x.read

/-! ### Small lemmas -/

variable {x : Scene}

@[simp] theorem resets_zero (x : Scene) : x.resets 0 = x := by
  simp [resets, withMachine, tell, Machine.wiped]

theorem resets_resets (x : Scene) (j k : Nat) : (x.resets j).resets k = x.resets (j + k) := by
  induction j generalizing x with
  | zero => rw [resets_zero, Nat.zero_add]
  | succ j ih =>
    have hone : ∀ k, x.resets (k + 1) = (x.resets 1).resets k := fun k => by
      simp [resets, withMachine, tell, Machine.wiped, List.replicate_succ]
    rw [hone j, ih, Nat.succ_add, hone (j + k)]

theorem step_of_ended (h : x.machine.stance = .ended) : x.step = some (x, .ok false) := by
  rw [step, h]

theorem step_of_inward (h : x.machine.stance = .inward) : x.step = some (x.work, .ok true) := by
  rw [step, h]

theorem step_of_output (h : x.machine.stance = .output) : x.step = some x.put := by
  rw [step, h]

theorem step_of_request (h : x.machine.stance = .request) :
    x.step = (Source.hearing? (x.requests + 1) x.source).map x.read := by
  rw [step, h]

/-- Only a step that asks an empty queue has no outcome. -/
theorem request_of_step_eq_none (h : x.step = none) :
    x.machine.stance = .request ∧ x.source = some (.queue []) := by
  rw [step] at h
  cases hst : x.machine.stance with
  | request =>
    rw [hst] at h
    exact ⟨rfl, Source.eq_of_hearing?_eq_none (Option.map_eq_none_iff.mp h)⟩
  | occupied | ended | inward | output =>
    rw [hst] at h
    cases h

end Scene
end TapeMachine
