import TapeMachine.Thread.Machine
import TapeMachine.Proofs.Schedule.Stage

/-! What callbacks and steps do to the flags.

A pause, a reset and a run loop leave their marks on a machine (`Flags`), and the
session notes some of them. A step leaves them alone, but for one: at the end of the
program it says that nothing is running. All else comes from what the callbacks of the
step signal: a step is some acts, one after the other (`Acts`), and `Heeds` is what these
come to. So a step never starts or ends a run loop, whatever is running after a reset was
started after it, and without a reset nothing stops running and no pause is taken back. -/
namespace TapeMachine

/-- The marks of pauses, resets and run loops. -/
structure Flags where
  running : Bool
  paused : Bool
  looping : Bool
  epoch : Nat

/-- No run loop begins or ends, nothing begins to run, and nothing runs on after a
reset. -/
structure Flags.Calms (x y : Flags) : Prop where
  looping : y.looping = x.looping
  epoch_le : x.epoch ≤ y.epoch
  running : y.running = true → x.running = true ∧ y.epoch = x.epoch
  /-- Without a reset all goes on, and a pause stays. -/
  lasts : y.epoch = x.epoch →
    (x.running = true → y.running = true) ∧ (x.paused = true → y.paused = true)

theorem Flags.Calms.refl (x : Flags) : Calms x x :=
  ⟨rfl, Nat.le_refl _, fun h => ⟨h, rfl⟩, fun _ => ⟨id, id⟩⟩

theorem Flags.Calms.trans {x y z : Flags} (h : Calms x y) (h' : Calms y z) : Calms x z := by
  refine ⟨h'.looping.trans h.looping, Nat.le_trans h.epoch_le h'.epoch_le, fun hr => ?_,
    fun he => ?_⟩
  · obtain ⟨hy, hez⟩ := h'.running hr
    obtain ⟨hx, hey⟩ := h.running hy
    exact ⟨hx, hez.trans hey⟩
  · -- no reset on the whole way is none on either part of it
    have hey : y.epoch = x.epoch := Nat.le_antisymm (he ▸ h'.epoch_le) h.epoch_le
    obtain ⟨hr, hp⟩ := h.lasts hey
    obtain ⟨hr', hp'⟩ := h'.lasts (he.trans hey.symm)
    exact ⟨hr' ∘ hr, hp' ∘ hp⟩

namespace Machine

def flags (m : Machine) : Flags := ⟨m.running, m.paused, m.looping, m.epoch⟩

variable (m : Machine)

@[simp] theorem flags_emit : m.emit.flags = m.flags := rfl
@[simp] theorem flags_advance : m.advance.flags = m.flags := rfl
@[simp] theorem flags_report (c : Complaint) : (m.report c).flags = m.flags := rfl
@[simp] theorem flags_receive (t : Text) : (m.receive t).flags = m.flags := rfl

@[simp] theorem flags_consume : m.consume.flags = m.flags := by
  rw [consume]
  split
  · rfl
  · rfl

@[simp] theorem flags_openLoop : m.openLoop.flags = m.flags := by
  rw [openLoop]
  split
  · rfl
  · rfl

@[simp] theorem flags_closeLoop : m.closeLoop.flags = m.flags := by
  rw [closeLoop]
  split
  · rfl
  · split
    · rfl
    · rfl

/-- No instruction looks at the flags or changes them. -/
@[simp] theorem flags_execute : m.execute.flags = m.flags := by
  rw [execute]
  cases m.program.command? m.counter with
  | none => rfl
  | some c =>
    cases c
    case input => exact flags_consume m
    case opening => exact flags_openLoop m
    case closing => exact flags_closeLoop m
    all_goals rfl

end Machine

namespace Bench
variable {b b₁ b' : Bench} {i j : Nat} {m : Machine}

/-- The flags of machine `j`. -/
def flags? (b : Bench) (j : Nat) : Option Flags := (b.machine? j).map Machine.flags

theorem flags?_update (b : Bench) (i j : Nat) (f : Machine → Machine) :
    (b.update i f).flags? j = (b.machine? j).map fun m => (if i = j then f m else m).flags := by
  rw [flags?, machine?_update]
  split
  · rw [Option.map_map]
    rfl
  · rfl

theorem flags?_update_of (hm : b.machine? j = some m) (i : Nat) (f : Machine → Machine) :
    (b.update i f).flags? j = some (if i = j then f m else m).flags := by
  rw [flags?_update, hm]
  rfl

/-- Session and flags are the same. -/
structure Same (b b' : Bench) : Prop where
  session : b'.session = b.session
  size : b'.machines.size = b.machines.size
  flags : ∀ j, b'.flags? j = b.flags? j

namespace Same

theorem refl (b : Bench) : Same b b := ⟨rfl, rfl, fun _ => rfl⟩

theorem of_machines (hs : b'.session = b.session) (hm : b'.machines = b.machines) : Same b b' :=
  ⟨hs, by rw [hm], fun j => by rw [flags?, machine?, hm]; rfl⟩

theorem record (b : Bench) (e : Event) : Same b (b.record e) := of_machines rfl rfl

theorem log (b : Bench) (n : Notice) : Same b (b.log n) := record b _

/-- A change of a machine that is none of its flags. -/
theorem update {f : Machine → Machine} (h : ∀ m, (f m).flags = m.flags) (b : Bench) (i : Nat) :
    Same b (b.update i f) := by
  refine ⟨rfl, size_update b i f, fun j => ?_⟩
  rw [flags?_update, flags?]
  congr 1
  funext m
  split
  · exact h m
  · rfl

end Same

/-- What comes of the session and the flags while callbacks give signals and steps are
taken that do not find the end of the program. -/
inductive Heeds : Bench → Bench → Prop
  | same {b b' : Bench} : Same b b' → Heeds b b'
  | signal (b : Bench) (g : Signal) : Heeds b (b.signal g)
  | trans {b b₁ b' : Bench} : Heeds b b₁ → Heeds b₁ b' → Heeds b b'

namespace Heeds

theorem refl (b : Bench) : Heeds b b := .same (.refl b)

theorem record (h : Heeds b b') (e : Event) : Heeds b (b'.record e) :=
  h.trans (.same (.record b' e))

theorem obey (h : Heeds b b') (waits : Bool) (gs : List Signal) :
    Heeds b (b'.obey waits gs) := by
  induction gs generalizing b' with
  | nil => exact h
  | cons g rest ih => exact ih ((h.trans (.signal b' g)).record _)

end Heeds

/-! ### One machine -/

/-- A change of a machine that calms its flags. -/
theorem calms_update {f : Machine → Machine} (h : ∀ m : Machine, m.flags.Calms (f m).flags)
    (b : Bench) (i : Nat) {x : Flags} (hj : b.flags? j = some x) :
    ∃ y, (b.update i f).flags? j = some y ∧ x.Calms y := by
  obtain ⟨m, hm, rfl⟩ := Option.map_eq_some_iff.mp hj
  rw [flags?_update, hm]
  refine ⟨_, rfl, ?_⟩
  split
  · exact h m
  · exact .refl _

theorem calms_signalMachine (b : Bench) (i : Nat) (g : Signal) {x : Flags}
    (hj : b.flags? j = some x) : ∃ y, (b.signalMachine i g).flags? j = some y ∧ x.Calms y := by
  cases g with
  | pause =>
    refine calms_update (fun m => ?_) b i hj
    exact ⟨rfl, Nat.le_refl _, fun h => ⟨h, rfl⟩, fun _ => ⟨id, fun _ => rfl⟩⟩
  | reset =>
    refine calms_update (f := Machine.reset) (fun m => ?_) b i hj
    exact ⟨rfl, Nat.le_succ _, nofun, fun he => absurd he (Nat.succ_ne_self _)⟩

theorem calms_signal (b : Bench) (g : Signal) {x : Flags} (hj : b.flags? j = some x) :
    ∃ y, (b.signal g).flags? j = some y ∧ x.Calms y := by
  rw [signal]
  cases hs : b.session with
  | none => exact calms_signalMachine b 0 g hj
  | some s =>
    cases g with
    | pause =>
      simp only [signalSession]
      split
      · exact calms_signalMachine b _ .pause hj
      · exact ⟨x, hj, .refl x⟩
    | reset =>
      simp only [signalSession]
      split
      · exact calms_signalMachine b _ .reset hj
      · exact ⟨x, hj, .refl x⟩

theorem Heeds.calms (h : Heeds b b') {x : Flags} (hj : b.flags? j = some x) :
    ∃ y, b'.flags? j = some y ∧ x.Calms y := by
  induction h generalizing x with
  | same h => exact ⟨x, (h.flags j).trans hj, .refl x⟩
  | signal b g => exact calms_signal b g hj
  | trans _ _ ih ih' =>
    obtain ⟨y, hy, hxy⟩ := ih hj
    obtain ⟨z, hz, hyz⟩ := ih' hy
    exact ⟨z, hz, hxy.trans hyz⟩

theorem size_signal (b : Bench) (g : Signal) : (b.signal g).machines.size = b.machines.size := by
  rw [signal]
  cases b.session with
  | none => cases g <;> exact size_update b 0 _
  | some s =>
    cases g <;> simp only [signalSession] <;> split
    · exact size_update b _ _
    · rfl
    · exact size_update b _ _
    · rfl

theorem Heeds.size (h : Heeds b b') : b'.machines.size = b.machines.size := by
  induction h with
  | same h => exact h.size
  | signal b g => exact size_signal b g
  | trans _ _ ih ih' => exact ih'.trans ih

/-! ### Steps

What a step does, machine by machine: it changes the machine that takes it, and its
callbacks give signals. -/

/-- What comes of the bench while machine `i` takes a step that does not find the end of
the program. -/
inductive Acts (i : Nat) : Bench → Bench → Prop
  | still {b b' : Bench} : b'.session = b.session → b'.machines = b.machines → Acts i b b'
  | update (b : Bench) {f : Machine → Machine} : (∀ m, (f m).flags = m.flags) →
      Acts i b (b.update i f)
  | signal (b : Bench) (g : Signal) : Acts i b (b.signal g)
  | trans {b b₁ b' : Bench} : Acts i b b₁ → Acts i b₁ b' → Acts i b b'

namespace Acts

theorem refl (b : Bench) : Acts i b b := .still rfl rfl

theorem record (h : Acts i b b') (e : Event) : Acts i b (b'.record e) := h.trans (.still rfl rfl)

theorem log (h : Acts i b b') (n : Notice) : Acts i b (b'.log n) := h.record _

theorem change (h : Acts i b b') {f : Machine → Machine} (hf : ∀ m, (f m).flags = m.flags) :
    Acts i b (b'.update i f) := h.trans (.update b' hf)

theorem obey (h : Acts i b b') (waits : Bool) (gs : List Signal) :
    Acts i b (b'.obey waits gs) := by
  induction gs generalizing b' with
  | nil => exact h
  | cons g rest ih => exact ih ((h.trans (.signal b' g)).record _)

theorem heeds (h : Acts i b b') : Heeds b b' := by
  induction h with
  | still hs hm => exact .same (.of_machines hs hm)
  | update b hf => exact .same (.update hf b i)
  | signal b g => exact .signal b g
  | trans _ _ ih ih' => exact ih.trans ih'

end Acts

theorem acts_ask (b : Bench) (i : Nat) (fs : List Frame) : Acts i b (b.ask i fs).1 := by
  have hasked : Acts i b ({b with requests := b.requests + 1}.record (.asked i)) := .still rfl rfl
  simp only [ask]
  split
  next => exact hasked
  next => exact hasked
  next => exact hasked
  next => exact hasked.log _
  next => exact hasked.trans (.still rfl rfl)
  next =>
    split
    next => exact hasked.obey false _
    next => exact hasked

theorem acts_deliver (b : Bench) (i : Nat) (c : Char) : Acts i b (b.deliver i c).1 := by
  have hcalled : Acts i b
      ({b with deliveries := b.deliveries + 1}.record (.emitted i c b.outputSize?)) :=
    .still rfl rfl
  simp only [deliver]
  split
  next => exact hcalled
  next => exact hcalled
  next =>
    split
    next => exact hcalled
    next => exact hcalled.trans (.still rfl rfl)
  next => exact hcalled.obey false _

theorem acts_request (b : Bench) (i : Nat) (fs : List Frame) : Acts i b (b.request i fs).1 := by
  rw [request]
  split
  next => exact .refl b
  next =>
    have hwait : Acts i b (b.update i fun m => {m with stepping := true}) := .update b fun _ => rfl
    exact (hwait.log _).trans (acts_ask _ _ _)

theorem acts_putOut (b : Bench) (i : Nat) (fs : List Frame) : Acts i b (b.putOut i fs).1 := by
  rw [putOut]
  split
  next => exact .refl b
  next => exact .update b fun _ => rfl
  next c epoch _ =>
    have hemit := Acts.update (i := i) b Machine.flags_emit
    have hdelivered := hemit.trans (acts_deliver (b.update i Machine.emit) i c)
    split
    next heq =>
      rw [heq] at hdelivered
      exact hdelivered
    next heq =>
      rw [heq] at hdelivered
      split
      · exact hdelivered.change Machine.flags_advance
      · exact hdelivered

theorem acts_complain (b : Bench) (i : Nat) : Acts i b (b.complain i) := by
  rw [complain]
  split
  next => exact .refl b
  next => exact (Acts.update b fun m => m.flags_report _).log _

/-- A machine at the end of its program. -/
def Halts (b : Bench) (i : Nat) : Prop := (b.machine? i).map Machine.stance = some .ended

theorem callStep_of_halts (h : b.Halts i) (fs : List Frame) : b.callStep i fs =
    (b.update i fun m => {m with running := false}, .value (.stepped false) fs) := by
  rw [callStep, h]

theorem acts_callStep (h : ¬ b.Halts i) (fs : List Frame) : Acts i b (b.callStep i fs).1 := by
  rw [callStep]
  split
  next => exact .refl b
  next => exact .refl b
  next hended => exact absurd hended h
  next => exact acts_putOut b i fs
  next => exact acts_request b i fs
  next => exact (acts_complain b i).change fun m => by simp

theorem acts_endReading (b : Bench) (i epoch : Nat) (a : Answer) (fs : List Frame) :
    Acts i b (b.endReading i epoch a fs).1 := by
  have hfreed : Acts i b (b.update i fun m => {m with stepping := false}) :=
    .update b fun _ => rfl
  rw [endReading.eq_def]
  simp only
  split
  next => exact hfreed
  next =>
    split
    · exact (hfreed.record _).change fun m => by simp
    · exact (hfreed.record _).log _

theorem heeds_callStep (h : ¬ b.Halts i) (fs : List Frame) : Heeds b (b.callStep i fs).1 :=
  (acts_callStep h fs).heeds

theorem heeds_endReading (b : Bench) (i epoch : Nat) (a : Answer) (fs : List Frame) :
    Heeds b (b.endReading i epoch a fs).1 := (acts_endReading b i epoch a fs).heeds

end Bench
end TapeMachine
