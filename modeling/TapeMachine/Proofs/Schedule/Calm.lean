import TapeMachine.Proofs.Machine.Onward
import TapeMachine.Proofs.Schedule.Single

/-! Calm callbacks.

A source that gives its texts, and a sink that takes every character, may pause what
they serve, and the source may rest and make calls of its own; as long as nothing is
reset and nothing fails, a single step of a machine that is alone has the effect of
its instruction and no other (`step_of_calm`). -/
namespace TapeMachine

/-! ### Sources and sinks -/

/-- A reply without resets that ends with a text. -/
def Reply.Gives (text : Text) : Reply → Prop
  | .now signals answer => .reset ∉ signals ∧ ∃ x, answer = .ok x ∧ x.getD [] = text
  | .later deeds answer => .signal .reset ∉ deeds ∧ ∃ x, answer = .ok x ∧ x.getD [] = text

/-- What a stream gives for each request from now on, counted from zero. -/
def Source.line (keepEnd : Bool) : Text → Nat → Text
  | rest, 0 => if keepEnd then (splitLine rest).1 else withoutEnd (splitLine rest).1
  | rest, n + 1 => line keepEnd (splitLine rest).2 n

/-- The source, if there is one, was asked so many times and goes on with these texts,
counted from one. A queue is left out, since others have to feed it. -/
def Source.Gives (texts : Nat → Text) (k : Nat) : Option Source → Prop
  | none => True
  | some (.fixed text) => ∀ n, k < n → texts n = if n = 1 then text else []
  | some (.queue _) => False
  | some (.lines rest keepEnd) => ∀ n, texts (k + 1 + n) = line keepEnd rest n
  | some (.scripted reply) => ∀ n, k < n → (reply n).Gives (texts n)

/-- The sink, if there is one, resets nothing and takes every character. -/
def Sink.Takes : Option Sink → Prop
  | none | some .silent | some (.stream none) => True
  | some (.stream (some _)) => False
  | some (.scripted reaction) => ∀ n, .reset ∉ (reaction n).signals ∧ (reaction n).failure = none

theorem Sink.Takes.taking {sink : Option Sink} (h : Sink.Takes sink) (n : Nat) :
    taking n sink = {sink} := by
  match sink, h with
  | none, _ | some .silent, _ | some (.stream none), _ => rfl
  | some (.scripted reaction), h =>
    obtain ⟨hreset, hfailure⟩ := h n
    rw [Sink.taking, List.count_eq_zero.mpr hreset, hfailure]

/-- A sink that takes every character lets the step come to its end. -/
theorem Scene.put_of_takes {x : Scene} (h : Sink.Takes x.sink) : ∃ y, x.put = (y, .ok true) ∧
    y.machine = x.machine.emit.advance ∧ y.source = x.source ∧ y.sink = x.sink ∧
    y.requests = x.requests := by
  rw [put, h.taking]
  cases x.machine.speaks with
  | false => exact ⟨_, rfl, rfl, rfl, rfl, rfl⟩
  | true => exact ⟨_, rfl, rfl, rfl, rfl, rfl⟩

/-- A request is answered with the next text, and nothing else happens. -/
theorem Source.Gives.hearing? {texts : Nat → Text} {k : Nat} {source : Option Source}
    (h : Source.Gives texts k source) (hs : source.isSome = true) :
    ∃ source', Source.hearing? (k + 1) source = some ⟨0, .ok (texts (k + 1)), source'⟩ ∧
      Source.Gives texts (k + 1) source' ∧ source'.isSome = true := by
  match source, h with
  | some (.fixed text), h =>
    have htext := h (k + 1) (Nat.lt_succ_self k)
    refine ⟨some (.fixed text), ?_, fun n hn => h n (Nat.lt_of_succ_lt hn), rfl⟩
    rw [Source.hearing?, htext]
  | some (.lines rest keepEnd), h =>
    have hline : texts (k + 1) = line keepEnd rest 0 := h 0
    refine ⟨some (.lines (splitLine rest).2 keepEnd), ?_, fun n => ?_, rfl⟩
    · rw [Source.hearing?, hline]
      rfl
    · rw [Nat.add_right_comm]
      exact h (n + 1)
  | some (.scripted reply), h =>
    refine ⟨some (.scripted reply), ?_, fun n hn => h n (Nat.lt_of_succ_lt hn), rfl⟩
    have hreply := h (k + 1) (Nat.lt_succ_self k)
    rw [Source.hearing?]
    cases hr : reply (k + 1) with
    | now signals answer =>
      rw [hr] at hreply
      obtain ⟨hreset, x, rfl, hx⟩ := hreply
      simp only [List.count_eq_zero.mpr hreset, ← hx]
      rfl
    | later deeds answer =>
      rw [hr] at hreply
      obtain ⟨hreset, x, rfl, hx⟩ := hreply
      simp only [List.count_eq_zero.mpr hreset, ← hx]
      rfl

namespace Bench

variable {b b' : Bench} {m : Machine} {texts : Nat → Text} {k : Nat}

theorem exists_machine? (h : b.bare = [m]) : ∃ n, b.machine? 0 = some n ∧ n.bare = m :=
  exists_of_getElem?_bare (by rw [h]; rfl)

/-! ### Single steps -/

/-- Machine 0 is the only one, works for no session, and its callbacks are calm: the
source has been called so many times and goes on to give these texts. -/
structure Calm (texts : Nat → Text) (b : Bench) (m : Machine) (k : Nat) : Prop where
  session : b.session = none
  machine : b.bare = [m]
  requests : b.requests = k
  source : Source.Gives texts k b.source
  hears : m.hears = b.source.isSome
  sink : Sink.Takes b.sink

theorem Calm.shows (h : Calm texts b m k) :
    b.Shows ⟨m, b.source, b.sink, k, b.deliveries, b.signs⟩ :=
  ⟨h.session, h.machine, rfl, rfl, h.requests, rfl, rfl⟩

/-- A bench that shows a scene with calm callbacks. -/
theorem Shows.calm {x : Scene} (h : b.Shows x) (hsource : Source.Gives texts x.requests x.source)
    (hears : x.machine.hears = x.source.isSome) (hsink : Sink.Takes x.sink) :
    Calm texts b x.machine x.requests where
  session := h.session
  machine := h.machine
  requests := h.requests
  source := h.source ▸ hsource
  hears := h.source ▸ hears
  sink := h.sink ▸ hsink

/-- A single step of a machine that is alone with calm callbacks. -/
theorem step_of_calm (h : Calm texts b m k) (hs : m.stepping = false)
    (hr : m.counter < m.program.size) :
    ∃ b', Leads b (.call (.step 0)) [] b' (.returned (.ok (.stepped true))) [] ∧
      Calm texts b' (m.onward texts k).1 (m.onward texts k).2 := by
  rw [Machine.onward]
  rcases Machine.stance_inside hs hr with hst | hst | hst
  · obtain ⟨hfree, -, hears, -⟩ := Machine.stance_eq_request_iff.mp hst
    obtain ⟨source', hhear, hgives, hsome⟩ := h.source.hearing? (h.hears.symm.trans hears)
    have hstep := Scene.step_of_request
      (x := ⟨m, b.source, b.sink, k, b.deliveries, b.signs⟩) hst
    rw [hhear] at hstep
    obtain ⟨b', h', hl⟩ := leads_step h.shows hstep
    have hears' := (Machine.inner_consume (m.receive (texts (k + 1)))).hears.trans hears
    rw [if_pos hst]
    exact ⟨b', hl, h'.calm hgives (hears'.trans hsome.symm) h.sink⟩
  · obtain ⟨y, hput, hmachine, hsource, hsink, hrequests⟩ :=
      Scene.put_of_takes (x := ⟨m, b.source, b.sink, k, b.deliveries, b.signs⟩) h.sink
    have hstep := Scene.step_of_output
      (x := ⟨m, b.source, b.sink, k, b.deliveries, b.signs⟩) hst
    rw [hput] at hstep
    obtain ⟨b', h', hl⟩ := leads_step h.shows hstep
    have hgives : Source.Gives texts y.requests y.source := by
      rw [hrequests, hsource]
      exact h.source
    have hcalm := h'.calm hgives (by rw [hmachine, hsource]; exact h.hears)
      (by rw [hsink]; exact h.sink)
    rw [hmachine, hrequests] at hcalm
    rw [if_neg (by simp [hst]), Machine.noted_execute_of_output hst]
    exact ⟨b', hl, hcalm⟩
  · obtain ⟨b', h', hl⟩ := leads_step h.shows (Scene.step_of_inward hst)
    have hears : m.noted.execute.hears = m.hears :=
      (Machine.inner_execute _).hears.trans (Machine.inner_noted _).hears
    rw [if_neg (by simp [hst])]
    exact ⟨b', hl, h'.calm h.source (hears.trans h.hears) h.sink⟩

/-- At the end of the program a step finds nothing to do. -/
theorem end_of_calm (h : Calm texts b m k) (hs : m.stepping = false)
    (he : m.program.size ≤ m.counter) :
    ∃ b', Leads b (.call (.step 0)) [] b' (.returned (.ok (.stepped false))) [] ∧
      Calm texts b' m k := by
  have hended : m.stance = .ended :=
    Machine.stance_eq_ended_iff.mpr ⟨hs, decide_eq_true he⟩
  obtain ⟨b', h', hl⟩ := leads_step h.shows (Scene.step_of_ended hended)
  exact ⟨b', hl, h'.calm h.source h.hears h.sink⟩

end Bench

/-! ### Rows of steps -/

namespace Scheduler
open Machine

variable {s s' : Scheduler} {texts : Nat → Text} {n : Nat} {x y : Machine × Nat}

/-- Single steps, one after the other, take a machine that is alone with calm callbacks
as far as its instructions take it. -/
theorem steps_of_walk (hwalk : Walk texts n x y) (hi : s.Idle)
    (hc : Bench.Calm texts s.bench x.1 x.2) (hs : x.1.stepping = false) :
    ∃ s', StepTimes n s s' ∧ s'.Idle ∧ Bench.Calm texts s'.bench y.1 y.2 := by
  induction hwalk generalizing s with
  | nil => exact ⟨s, .zero, hi, hc⟩
  | @cons n x y hr _ ih =>
    obtain ⟨b, hl, hc₁⟩ := Bench.step_of_calm hc hs hr
    obtain ⟨s₁, hto, hi₁, rfl⟩ := stepsTo_of_leads hi hl
    obtain ⟨s', htimes, hi', hc'⟩ := ih hi₁ hc₁ ((stepping_onward texts x.1 x.2).trans hs)
    exact ⟨s', .cons hto htimes, hi', hc'⟩

/-- They take it nowhere else. -/
theorem walk_of_steps (htimes : StepTimes n s s') (hi : s.Idle)
    (hc : Bench.Calm texts s.bench x.1 x.2) (hs : x.1.stepping = false) :
    ∃ y, Walk texts n x y ∧ y.1.stepping = false ∧ s'.Idle ∧
      Bench.Calm texts s'.bench y.1 y.2 := by
  induction htimes with
  | zero => exact ⟨x, .nil, hs, hi, hc⟩
  | @succ n s s₁ s' _ hto ih =>
    obtain ⟨y, hwalk, hs₁, hi₁, hc₁⟩ := ih hi hc
    by_cases hr : y.1.counter < y.1.program.size
    · obtain ⟨b, hl, hc'⟩ := Bench.step_of_calm hc₁ hs₁ hr
      obtain ⟨s₂, hto', hi', rfl⟩ := stepsTo_of_leads hi₁ hl
      obtain ⟨rfl, -⟩ := hto.unique hto'
      exact ⟨_, hwalk.snoc hr, (stepping_onward texts y.1 y.2).trans hs₁, hi', hc'⟩
    · -- past the end a step says that it has executed nothing
      obtain ⟨b, hl, -⟩ := Bench.end_of_calm hc₁ hs₁ (Nat.le_of_not_lt hr)
      obtain ⟨s₂, hto', -, -⟩ := stepsTo_of_leads hi₁ hl
      cases (hto.unique hto').2

end Scheduler
end TapeMachine
