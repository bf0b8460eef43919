import TapeMachine.Proofs.Schedule.Control
import TapeMachine.Proofs.Schedule.Roster

/-! Layers of frames.

A run loop makes no calls but steps of its own machine. So nothing stands on the frame of a
run loop but a step of that machine that waits (`Layered`), and what a run loop is given back
is how a step ended (`Focus.Layers`). -/
namespace TapeMachine

variable {fs : List Frame} {i epoch : Nat} {k : Option Nat}

/-- Frames that wait for a call to end: for a step of a machine if its run loop is innermost,
or else for any call. -/
inductive Layered : Option Nat → List Frame → Prop
  | nil : Layered none []
  | looping {fs : List Frame} (i : Nat) : Layered none fs → Layered (some i) (.looping i :: fs)
  | starting {fs : List Frame} (i : Nat) : Layered none fs → Layered none (.starting i :: fs)
  | stepping {fs : List Frame} (i : Nat) : Layered none fs → Layered none (.stepping i :: fs)
  | calling {fs : List Frame} {k : Option Nat} (v : Verb) (deeds : List Deed)
      (answer : Except Failure (Option Text)) (i epoch : Nat) : (∀ j ∈ k, j = i) → Layered k fs →
      Layered none (.calling v :: .replying deeds answer :: .reading i epoch :: fs)

/-- What a thread does next goes with its innermost frames, whatever run loops are among
them. -/
inductive Focus.Layers : Focus → List Frame → Prop
  | call {fs : List Frame} {k : Option Nat} {c : Call} : (∀ j ∈ k, c = .step j) → Layered k fs →
      Layers (.call c) fs
  | returned {fs : List Frame} {k : Option Nat} {o : Outcome} : (k ≠ none → OfStep o) →
      Layered k fs → Layers (.returned o) fs
  | answered {fs : List Frame} {k : Option Nat} (a : Answer) (i epoch : Nat) : (∀ j ∈ k, j = i) →
      Layered k fs → Layers (.answered a) (.reading i epoch :: fs)
  | looping {fs : List Frame} (i : Nat) : Layered none fs → Layers .resumed (.looping i :: fs)
  | getting {fs : List Frame} {k : Option Nat} (i epoch : Nat) : (∀ j ∈ k, j = i) →
      Layered k fs → Layers .resumed (.getting :: .reading i epoch :: fs)
  | replying {fs : List Frame} {k : Option Nat} (deeds : List Deed)
      (answer : Except Failure (Option Text)) (i epoch : Nat) : (∀ j ∈ k, j = i) →
      Layered k fs → Layers .resumed (.replying deeds answer :: .reading i epoch :: fs)

/-! ### What stands on a run loop -/

theorem Layered.of_looping (h : Layered k (.looping i :: fs)) : k = some i ∧ Layered none fs := by
  cases h with
  | looping _ h => exact ⟨rfl, h⟩

theorem Layered.of_driving {x : Frame} (hx : x = .starting i ∨ x = .stepping i)
    (h : Layered k (x :: fs)) : Layered none fs := by
  rcases hx with rfl | rfl
  · cases h with
    | starting _ h => exact h
  · cases h with
    | stepping _ h => exact h

/-- A call that is not a step is made where no run loop waits. -/
theorem Focus.Layers.free {c : Call} (h : Focus.Layers (.call c) fs) (hc : ∀ j, c ≠ .step j) :
    Layered none fs := by
  cases h with
  | @call _ k _ hk hl =>
    cases k with
    | none => exact hl
    | some j => exact absurd (hk j rfl) (hc j)

theorem Focus.Layers.of_looping {f : Focus} (h : f.Layers (.looping i :: fs)) :
    Layered none fs ∧
      (f = .call (.step i) ∨ f = .resumed ∨ ∃ o, f = .returned o ∧ OfStep o) := by
  cases h with
  | @call _ k c hk hl =>
    obtain ⟨rfl, hfree⟩ := hl.of_looping
    exact ⟨hfree, .inl (congrArg Focus.call (hk i rfl))⟩
  | @returned _ k o hk hl =>
    obtain ⟨rfl, hfree⟩ := hl.of_looping
    exact ⟨hfree, .inr (.inr ⟨o, rfl, hk nofun⟩)⟩
  | looping _ hl => exact ⟨hl, .inr (.inl rfl)⟩

/-! ### Turns -/

theorem Call.Runs.ne_step {c : Call} (h : c.Runs i) (j : Nat) : c ≠ .step j := by
  rcases h with rfl | rfl <;> nofun

theorem Call.Serves.ne_step {c : Call} (h : c.Serves) (j : Nat) : c ≠ .step j := by
  rcases h with rfl | rfl <;> nofun

theorem Layered.returned {o : Outcome} (h : Layered none fs) : Focus.Layers (.returned o) fs :=
  .returned (fun hk => absurd rfl hk) h

theorem Layered.call {c : Call} (h : Layered none fs) : Focus.Layers (.call c) fs :=
  .call (fun _ hj => by cases hj) h

/-- Every turn keeps the layers. -/
theorem Bench.Yields.layers {b b' : Bench} {f : Focus} {x : Turn} (h : b.Yields f fs b' x)
    (hf : f.Layers fs) : x.Leaves Focus.Layers := by
  have hstep : ∀ {i : Nat} {fs : List Frame}, Focus.Layers (.call (.step i)) fs →
      ∃ k, (∀ j ∈ k, j = i) ∧ Layered k fs := by
    intro i fs hf
    cases hf with
    | @call _ k _ hk hl => exact ⟨k, fun j hj => by cases hk j hj; rfl, hl⟩
  cases h with
  | steps i ho =>
    obtain ⟨k, -, hl⟩ := hstep hf
    exact .returned (fun _ => ho) hl
  | asks i epoch a he =>
    obtain ⟨k, hk, hl⟩ := hstep hf
    exact .answered a i epoch hk hl
  | awaits i epoch x he hx =>
    obtain ⟨k, hk, hl⟩ := hstep hf
    rcases hx with rfl | ⟨deeds, answer, rfl⟩
    · exact .getting i epoch hk hl
    · exact .replying deeds answer i epoch hk hl
  | joins i s hc => exact (hf.free hc.ne_step).returned
  | enters i hc _ => exact .looping i (hf.free hc.ne_step)
  | turns hc ho => exact (hf.free hc.ne_step).returned
  | starts i hc he => exact (Layered.starting i (hf.free nofun)).call
  | begins i he => exact (Layered.stepping i (hf.free nofun)).call
  | done o => trivial
  | next i hg => exact .call (fun j hj => by cases hj; rfl) (.looping i hf.of_looping.1)
  | stops i s hs => exact hf.of_looping.1.returned
  | again i => exact .looping i hf.of_looping.1
  | sleeps i => exact .looping i hf.of_looping.1
  | breaks i e => exact hf.of_looping.1.returned
  | fails i e hx =>
    cases hf with
    | returned _ hl => exact (hl.of_driving hx).returned
  | settles i v s hx =>
    cases hf with
    | returned _ hl => exact (hl.of_driving hx).returned
  | notes v o =>
    cases hf with
    | returned _ hl =>
      cases hl with
      | calling _ deeds answer i epoch hk hl => exact .replying deeds answer i epoch hk hl
  | hears i epoch a ho =>
    cases hf with
    | answered _ _ _ hk hl => exact .returned (fun _ => ho) hl
  | takes text hm =>
    cases hf with
    | getting i epoch hk hl => exact .answered _ i epoch hk hl
  | waits =>
    cases hf with
    | getting i epoch hk hl => exact .getting i epoch hk hl
  | answers answer =>
    cases hf with
    | replying _ _ i epoch hk hl => exact .answered _ i epoch hk hl
  | rests deeds answer =>
    cases hf with
    | replying _ _ i epoch hk hl => exact .replying deeds answer i epoch hk hl
  | signals g deeds answer =>
    cases hf with
    | replying _ _ i epoch hk hl => exact .replying deeds answer i epoch hk hl
  | calls v deeds answer =>
    cases hf with
    | replying _ _ i epoch hk hl => exact (Layered.calling v deeds answer i epoch hk hl).call

end TapeMachine
