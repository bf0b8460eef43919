import TapeMachine.Proofs.Schedule.Control
import TapeMachine.Proofs.Schedule.Roster

/-! Contacts.

A callback is called for one machine, and only a step of that machine calls it. The machine
that a session works with is one that it has made itself: whatever a turn does, the session
is left with the machine that it had, with none, or with a new one. Both are said at once of
every function that a turn goes through (`Bench.Reaches`). -/
namespace TapeMachine

/-- The machine for which a callback was called. -/
def Sign.contact? : Sign → Option Nat
  | .asked i | .emitted i _ => some i
  | .answered _ _ | .complained _ | .reset => none

namespace Bench
variable {b b₁ b' : Bench} {i : Nat} {k : Nat → Prop}

/-- Callbacks are called for machines of some kind only, and the session takes up no machine
but a new one. -/
structure Reaches (k : Nat → Prop) (b b' : Bench) : Prop where
  signs : ∃ sg, b'.signs = b.signs ++ sg ∧ ∀ g ∈ sg, ∀ j, g.contact? = some j → k j
  size : b.machines.size ≤ b'.machines.size
  current : ∀ j, b'.Current j → b.Current j ∨ b.machines.size ≤ j

namespace Reaches

/-- The session may forget its machine, but not take up another one. -/
theorem of_current (hg : b'.signs = b.signs) (hz : b'.machines.size = b.machines.size)
    (hs : ∀ j, b'.Current j → b.Current j) : Reaches k b b' :=
  ⟨⟨[], by rw [hg, List.append_nil], fun g hm => by cases hm⟩, Nat.le_of_eq hz.symm,
    fun j hj => .inl (hs j hj)⟩

theorem of_eq (hg : b'.signs = b.signs) (hz : b'.machines.size = b.machines.size)
    (hs : b'.session = b.session) : Reaches k b b' := by
  refine of_current hg hz fun j hj => ?_
  rwa [Current, hs] at hj

theorem refl (b : Bench) : Reaches k b b := of_eq rfl rfl rfl

theorem mono {k' : Nat → Prop} (h : Reaches k b b') (hk : ∀ j, k j → k' j) : Reaches k' b b' := by
  obtain ⟨sg, hsg, hall⟩ := h.signs
  exact ⟨⟨sg, hsg, fun g hg j hj => hk j (hall g hg j hj)⟩, h.size, h.current⟩

theorem trans (h : Reaches k b b₁) (h' : Reaches k b₁ b') : Reaches k b b' := by
  obtain ⟨sg, hsg, hk⟩ := h.signs
  obtain ⟨sg', hsg', hk'⟩ := h'.signs
  refine ⟨⟨sg ++ sg', by rw [hsg', hsg, List.append_assoc], fun g hm => ?_⟩,
    Nat.le_trans h.size h'.size, fun j hj => ?_⟩
  · exact (List.mem_append.mp hm).elim (hk g) (hk' g)
  · exact (h'.current j hj).elim (h.current j) fun hle => .inr (Nat.le_trans h.size hle)

theorem update (b : Bench) (i : Nat) (f : Machine → Machine) : Reaches k b (b.update i f) :=
  of_eq rfl (size_update b i f) rfl

theorem record (b : Bench) {e : Event} (he : ∀ g ∈ e.sign?, ∀ j, g.contact? = some j → k j) :
    Reaches k b (b.record e) := by
  refine ⟨⟨e.sign?.toList, signs_record b e, fun g hg => he g (Option.mem_toList.mp hg)⟩,
    Nat.le_refl _, fun j hj => .inl hj⟩

/-- No notice is of a call of a callback. -/
theorem log (b : Bench) (n : Notice) : Reaches k b (b.log n) := by
  refine record b fun g hg j hj => ?_
  cases n <;> cases hg <;> cases hj

/-- The session notes something, but works with the same machine. -/
theorem putSession {s s' : Session} (hs : b.session = some s) (hc : s'.current = s.current) :
    Reaches k b (b.putSession s') := by
  refine of_current rfl rfl fun j hj => ?_
  obtain ⟨r, hr, hj⟩ := hj
  cases hr
  exact ⟨s, hs, hc.symm.trans hj⟩

theorem make {made : Bench} {p : Program} {o : Options} (h : b.make p o = .ok made) :
    Reaches k b made := by
  obtain ⟨n, hn, -, rfl⟩ := eq_of_make h
  refine ⟨⟨[], ?_, fun g hm => by cases hm⟩, ?_, fun j hj => .inl hj⟩
  · exact signs_log _ _
  · show b.machines.size ≤ (b.machines.push _).size
    rw [Array.size_push]
    exact Nat.le_succ _

/-- A session takes up a machine that was not there before. -/
theorem takesUp {s : Session} (h : Reaches k b b') (hs : s.current = some b.machines.size) :
    Reaches k b (b'.putSession s) := by
  refine ⟨h.signs, h.size, fun j hj => .inr ?_⟩
  obtain ⟨r, hr, hj⟩ := hj
  cases hr
  exact Nat.le_of_eq (Option.some.inj (hs.symm.trans hj))

end Reaches

/-! ### Callbacks -/

theorem reaches_signalMachine (b : Bench) (i : Nat) (g : Signal) :
    Reaches k b (b.signalMachine i g) := by
  cases g with
  | pause => exact .update b i _
  | reset => exact (Reaches.update b i _).trans (.log _ _)

theorem reaches_signal (b : Bench) (g : Signal) : Reaches k b (b.signal g) := by
  rw [signal]
  cases hs : b.session with
  | none => exact reaches_signalMachine b 0 g
  | some s =>
    have hforget : ∀ b₁ : Bench, Reaches k b₁ {b₁ with session := some s.forget} := fun b₁ =>
      .of_current rfl rfl fun j ⟨r, hr, hj⟩ => by cases hr; cases hj
    cases g with
    | pause =>
      simp only [signalSession]
      split
      next i hi hp =>
        have hpaused : Reaches k (b.update i Machine.pause)
            ((b.update i Machine.pause).putSession {s with phase := .paused}) :=
          .putSession hs rfl
        exact (Reaches.update b i Machine.pause).trans hpaused
      next => exact .refl b
    | reset =>
      simp only [signalSession]
      split
      next i hi => exact (reaches_signalMachine b i .reset).trans (hforget _)
      next => exact hforget b

theorem reaches_obey (b : Bench) (waits : Bool) (gs : List Signal) :
    Reaches k b (b.obey waits gs) := by
  induction gs generalizing b with
  | nil => exact .refl b
  | cons g rest ih =>
    refine (reaches_signal b g).trans (.trans (.record _ ?_) (ih _))
    exact fun _ hg => by cases hg

theorem reaches_deliver (b : Bench) (i : Nat) (c : Char) :
    Reaches (· = i) b (b.deliver i c).1 := by
  have hcalled : Reaches (· = i) b
      ({b with deliveries := b.deliveries + 1}.record (.emitted i c b.outputSize?)) := by
    refine ⟨⟨_, signs_record _ _, fun g hg j hj => ?_⟩, Nat.le_refl _, fun j hj => .inl hj⟩
    obtain rfl := List.mem_singleton.mp hg
    exact (Option.some.inj hj).symm
  simp only [deliver]
  split
  next => exact hcalled
  next => exact hcalled
  next =>
    split
    next => exact hcalled
    next =>
      refine hcalled.trans (.of_eq ?_ rfl rfl)
      simp [write, signs, record, Event.sign?]
  next => exact hcalled.trans (reaches_obey _ _ _)

theorem reaches_ask (b : Bench) (i : Nat) (fs : List Frame) :
    Reaches (· = i) b (b.ask i fs).1 := by
  have hasked : Reaches (· = i) b
      ({b with requests := b.requests + 1}.record (.asked i)) := by
    refine ⟨⟨_, signs_record _ _, fun g hg j hj => ?_⟩, Nat.le_refl _, fun j hj => .inl hj⟩
    obtain rfl := List.mem_singleton.mp hg
    exact (Option.some.inj hj).symm
  simp only [ask]
  split
  next => exact hasked
  next => exact hasked
  next => exact hasked
  next => exact hasked.trans (.log _ _)
  next => exact hasked.trans (.of_eq rfl rfl rfl)
  next =>
    split
    next => exact hasked.trans (reaches_obey _ _ _)
    next => exact hasked

/-! ### Steps -/

theorem reaches_request (b : Bench) (i : Nat) (fs : List Frame) :
    Reaches (· = i) b (b.request i fs).1 := by
  rw [request]
  split
  next => exact .refl b
  next => exact (Reaches.update b i _).trans ((Reaches.log _ _).trans (reaches_ask _ _ _))

theorem reaches_putOut (b : Bench) (i : Nat) (fs : List Frame) :
    Reaches (· = i) b (b.putOut i fs).1 := by
  rw [putOut]
  split
  next => exact .refl b
  next => exact .update b i _
  next c epoch _ =>
    have hdelivered := (Reaches.update b i Machine.emit).trans (reaches_deliver _ i c)
    split
    next heq =>
      rw [heq] at hdelivered
      exact hdelivered
    next heq =>
      rw [heq] at hdelivered
      split
      · exact hdelivered.trans (.update _ i _)
      · exact hdelivered

theorem reaches_complain (b : Bench) (i : Nat) : Reaches k b (b.complain i) := by
  rw [complain]
  split
  next => exact .refl b
  next => exact (Reaches.update b i _).trans (.log _ _)

theorem reaches_callStep (b : Bench) (i : Nat) (fs : List Frame) :
    Reaches (· = i) b (b.callStep i fs).1 := by
  rw [callStep]
  split
  next => exact .refl b
  next => exact .refl b
  next => exact .update b i _
  next => exact reaches_putOut b i fs
  next => exact reaches_request b i fs
  next => exact (reaches_complain b i).trans (.update _ i _)

theorem reaches_endReading (b : Bench) (i epoch : Nat) (a : Answer) (fs : List Frame) :
    Reaches k b (b.endReading i epoch a fs).1 := by
  have hanswered : ∀ (b : Bench) (text : Text), Reaches k b (b.record (.answered i text)) :=
    fun b text => .record b fun g hg j hj => by cases hg; cases hj
  rw [endReading.eq_def]
  simp only
  split
  next => exact .update b i _
  next =>
    split
    · exact (Reaches.update b i _).trans ((hanswered _ _).trans (.update _ i _))
    · exact (Reaches.update b i _).trans ((hanswered _ _).trans (.log _ _))

/-! ### Runs -/

theorem reaches_callRun (b : Bench) (i : Nat) (fs : List Frame) :
    Reaches k b (b.callRun i fs).1 := by
  simp only [callRun]
  split
  · exact .update b i _
  · exact (Reaches.update b i _).trans (.update _ i _)

theorem reaches_endRun (b : Bench) (i : Nat) (fs : List Frame) :
    Reaches k b (b.endRun i fs).1 := by
  simp only [endRun]
  split
  · exact .update b i _
  · exact (Reaches.update b i _).trans (.log _ _)

theorem reaches_afterStep (b : Bench) (i : Nat) (o : Outcome) (fs : List Frame) :
    Reaches k b (b.afterStep i o fs).1 := by
  rw [afterStep.eq_def]
  split
  · exact .update b i _
  · split
    · exact .refl b
    · exact .refl b
  · exact reaches_endRun b i fs

/-! ### Calls on the session -/

theorem reaches_callStart (b : Bench) (fs : List Frame) : Reaches k b (b.callStart fs).1 := by
  rw [callStart]
  split
  next => exact .refl b
  next s hs =>
    split
    next i _ hi =>
      have hgoing : Reaches k b (b.putSession {s with phase := .running}) := .putSession hs rfl
      simp only
      split
      · exact hgoing.trans (.update _ i _)
      · exact hgoing
    next =>
      split
      next => exact .refl b
      next made hmade => exact ((Reaches.make hmade).takesUp rfl).trans (.log _ _)
    next => exact .refl b

theorem reaches_endStart (b : Bench) (i : Nat) (v : Value) (fs : List Frame) :
    Reaches k b (b.endStart i v fs).1 := by
  rw [endStart.eq_def]
  simp only
  split
  next s state hs _ =>
    refine .putSession hs ?_
    rw [Session.settle]
    split
    · rfl
    · rfl
  next => exact .refl b

theorem reaches_callSessionStep (b : Bench) (fs : List Frame) :
    Reaches k b (b.callSessionStep fs).1 := by
  rw [callSessionStep]
  split
  next => exact .refl b
  next =>
    split
    next => exact .refl b
    next =>
      split
      · exact .refl b
      · exact .refl b
    next =>
      split
      next => exact .refl b
      next made hmade => exact (Reaches.make hmade).takesUp rfl

theorem reaches_endSessionStep (b : Bench) (i : Nat) (fs : List Frame) :
    Reaches k b (b.endSessionStep i fs).1 := by
  rw [endSessionStep]
  split
  next s state hs _ =>
    refine .putSession hs ?_
    rw [Session.note]
    split
    · rfl
    · rfl
  next => exact .refl b

/-! ### All turns -/

theorem reaches_call (b : Bench) (fs : List Frame) (c : Call) :
    Reaches (fun j => c = .step j) b (b.call fs c).1 := by
  cases c with
  | step i => exact (reaches_callStep b i fs).mono fun j hj => congrArg Call.step hj.symm
  | run i => exact reaches_callRun b i fs
  | resume i =>
    show Reaches _ b (b.callResume i fs).1
    rw [callResume]
    split
    · exact reaches_callRun b i fs
    · exact .refl b
  | sessionStart => exact reaches_callStart b fs
  | sessionStep => exact reaches_callSessionStep b fs

theorem reaches_giveBack (b : Bench) (o : Outcome) (fs : List Frame) :
    Reaches k b (b.giveBack o fs).1 := by
  rw [giveBack.eq_def]
  split
  next => exact .refl b
  next i fs => exact reaches_afterStep b i o fs
  next v fs => exact .record b fun g hg => by cases hg
  next i fs =>
    split
    · exact reaches_endStart b i _ fs
    · exact .refl b
  next i fs =>
    split
    · exact reaches_endSessionStep b i fs
    · exact .refl b
  next => exact .refl b

theorem reaches_goOn (b : Bench) (fs : List Frame) : Reaches k b (b.goOn fs).1 := by
  rw [goOn.eq_def]
  split
  next i fs =>
    rw [nextStep]
    split
    · exact .refl b
    · exact reaches_endRun b i fs
  next =>
    split
    · exact .of_eq rfl rfl rfl
    · exact .refl b
  next => exact .refl b
  next => exact .refl b
  next => exact reaches_obey b true _
  all_goals exact .refl b

/-- Only a step of a machine calls a callback for it. -/
theorem reaches_advance (b : Bench) (fs : List Frame) (f : Focus) :
    Reaches (fun j => f = .call (.step j)) b (b.advance fs f).1 := by
  cases f with
  | call c => exact (reaches_call b fs c).mono fun j hj => congrArg Focus.call hj
  | returned o => exact reaches_giveBack b o fs
  | answered a =>
    show Reaches _ b (b.hear a fs).1
    rw [hear.eq_def]
    split
    · exact reaches_endReading b _ _ a _
    · exact .refl b
    · exact .refl b
  | resumed => exact reaches_goOn b fs

end Bench

namespace Scheduler

/-- The running thread is about to take a step of machine `i`. -/
def Steps (s : Scheduler) (i : Nat) : Prop :=
  ∃ t fs, s.roster.current? = some (t, .call (.step i), fs)

theorem reaches_move (s : Scheduler) (x : Move) :
    s.bench.Reaches s.Steps (s.move x).bench := by
  cases x with
  | turn =>
    obtain ⟨bench, roster⟩ := s
    rw [move, advance]
    cases hc : roster.current? with
    | none => exact .refl _
    | some c =>
      obtain ⟨t, f, fs⟩ := c
      exact (bench.reaches_advance fs f).mono fun j hj => ⟨t, fs, hj ▸ hc⟩
  | dispatch => exact .refl _
  | outside x =>
    rw [move]
    split
    · cases x with
      | signal g => exact Bench.reaches_signal _ g
      | signalMachine i g =>
        rw [intervene]
        split
        · exact Bench.reaches_signalMachine _ i g
        · exact .refl _
      | edit p o =>
        refine .of_current rfl rfl ?_
        rintro j ⟨r, hr, hj⟩
        obtain ⟨r₀, hr₀, rfl⟩ := Option.map_eq_some_iff.mp hr
        exact ⟨r₀, hr₀, hj⟩
      | cooperate i on => exact .update _ i _
      | spawn | feed => exact .of_eq rfl rfl rfl
    · exact .refl _

end Scheduler
end TapeMachine
