import TapeMachine.Proofs.Schedule.Stop
import TapeMachine.Proofs.Session.Access

/-! Calls that have lost their machine.

A call on a session that drives a machine stands on the frames of its caller, alone or with
a run loop on it (`Own`). Wherever its thread is, either one of its steps waits for text, or
the call itself is about to go on (`Focus.Serves.awaited_or_own`). Once the session has dropped
the machine, and the machine no longer runs, the call goes straight to its end: a step that
waited comes to nothing, a run loop ends at its next look, and the session takes no note. -/
namespace TapeMachine

variable {P : Failure → Prop} {i j epoch : Nat} {d : Frame} {outer own fs : List Frame}
  {k : Option Nat} {f : Focus} {o : Outcome}

/-- The frames of a call that drives machine `i`: the call, or a run loop on it. -/
def Own (i : Nat) (d : Frame) (outer own : List Frame) : Prop :=
  own = d :: outer ∨ own = .looping i :: d :: outer

/-- A step of machine `i` waits, which belongs to the call `d`. -/
def Awaited (i : Nat) (d : Frame) (outer fs : List Frame) : Prop :=
  ∃ epoch own, Own i d outer own ∧ .reading i epoch :: own <:+ fs

/-- How a call on the session ends that has lost its machine: with no state to tell, or with
a failure. -/
def forlorn {α : Type} (x : Except Failure α) : Outcome := x.map fun _ => .state none

theorem Own.suffix (h : Own i d outer own) : d :: outer <:+ own := by
  rcases h with rfl | rfl
  · exact List.suffix_refl _
  · exact List.suffix_cons _ _

theorem Awaited.mono {fs' : List Frame} (h : Awaited i d outer fs) (hs : fs <:+ fs') :
    Awaited i d outer fs' := by
  obtain ⟨epoch, own, hown, hr⟩ := h
  exact ⟨epoch, own, hown, hr.trans hs⟩

theorem Frame.driven?_eq_some_iff : d.driven? = some i ↔ d = .starting i ∨ d = .stepping i := by
  cases d <;> simp [Frame.driven?]

/-! ### Frames -/

section Frames
variable (hd : d.driven? = some i)
include hd

theorem suffix_of_driven {x : Frame} (hx : x.driven? = none) (hs : d :: outer <:+ x :: fs) :
    d :: outer <:+ fs := by
  refine (List.suffix_cons_iff.mp hs).resolve_left fun heq => ?_
  rw [(List.cons.inj heq).1, hx] at hd
  cases hd

/-- Frames that wait for a step of a machine belong to a call that drives it. -/
theorem Served.eq_of_own (h : Served P k own) (hown : Own i d outer own) : k = some i := by
  rcases hown with rfl | rfl
  · cases h with
    | stepping j _ => exact hd
    | looping | calling => cases hd
  · cases h with
    | looping => rfl

/-- Within frames that wait, a call that drives a machine has a step that waits, or is the
innermost. -/
theorem Served.awaited_or_own (h : Served P k fs) (hs : d :: outer <:+ fs) :
    Awaited i d outer fs ∨ (k = some i ∧ Own i d outer fs) := by
  induction h with
  | nil => cases List.suffix_nil.mp hs
  | @looping fs j _ ih =>
    rcases List.suffix_cons_iff.mp (suffix_of_driven hd rfl hs) with heq | hs
    · cases heq
      cases hd
      exact .inr ⟨rfl, .inr rfl⟩
    · refine .inl (((ih hs).resolve_right fun h => nomatch h.1).mono ?_)
      exact (List.suffix_cons _ _).trans (List.suffix_cons _ _)
  | @stepping fs j _ ih =>
    rcases List.suffix_cons_iff.mp hs with heq | hs
    · cases heq
      cases hd
      exact .inr ⟨rfl, .inl rfl⟩
    · exact .inl (((ih hs).resolve_right fun h => nomatch h.1).mono (List.suffix_cons _ _))
  | @calling fs v deeds answer j epoch _ _ ih =>
    have htail : .reading j epoch :: fs <:+
        .calling v :: .replying deeds answer :: .reading j epoch :: fs :=
      (List.suffix_cons _ _).trans (List.suffix_cons _ _)
    have hinner := suffix_of_driven hd rfl (suffix_of_driven hd rfl (suffix_of_driven hd rfl hs))
    rcases ih hinner with hawaited | ⟨heq, hown⟩
    · exact .inl (hawaited.mono ((List.suffix_cons _ _).trans htail))
    · cases heq
      exact .inl ⟨epoch, fs, hown, htail⟩

/-- A call that drives a machine has a step that waits, or it is what the thread is about. -/
theorem Focus.Serves.awaited_or_own (h : f.Serves P fs) (hs : d :: outer <:+ fs) :
    Awaited i d outer fs ∨ (Own i d outer fs ∧
      ((f = .resumed ∧ fs = .looping i :: d :: outer) ∨
        (∃ c, f = .call c ∧ c.machine? = some i) ∨ ∃ o, f = .returned o)) := by
  have hnone : ∀ {fs : List Frame}, Served P none fs → d :: outer <:+ fs →
      Awaited i d outer fs := fun h hs =>
    (h.awaited_or_own hd hs).resolve_right fun h => nomatch h.1
  have hwaits : ∀ {fs fs' : List Frame} {j epoch : Nat}, Served P (some j) fs →
      .reading j epoch :: fs <:+ fs' → d :: outer <:+ .reading j epoch :: fs →
      Awaited i d outer fs' := by
    intro fs fs' j epoch h hr hs
    rcases h.awaited_or_own hd (suffix_of_driven hd rfl hs) with hawaited | ⟨heq, hown⟩
    · exact hawaited.mono ((List.suffix_cons _ _).trans hr)
    · cases heq
      exact ⟨epoch, fs, hown, hr⟩
  have hstarting : ∀ {fs : List Frame} {j : Nat}, Served P none fs →
      d :: outer <:+ .starting j :: fs → Awaited i d outer (.starting j :: fs) ∨
        (j = i ∧ d :: outer = .starting j :: fs) := by
    intro fs j h hs
    rcases List.suffix_cons_iff.mp hs with heq | hs
    · cases heq
      cases hd
      exact .inr ⟨rfl, rfl⟩
    · exact .inl ((hnone h hs).mono (List.suffix_cons _ _))
  cases h with
  | call _ hk => exact .inl (hnone hk hs)
  | step j hk =>
    refine (hk.awaited_or_own hd hs).imp_right fun ⟨heq, hown⟩ => ?_
    exact ⟨hown, .inr (.inl ⟨_, rfl, heq⟩)⟩
  | run j hk | resume j hk =>
    refine (hstarting hk hs).imp_right ?_
    rintro ⟨rfl, heq⟩
    exact ⟨.inl heq.symm, .inr (.inl ⟨_, rfl, rfl⟩)⟩
  | stepped j _ hk =>
    exact (hk.awaited_or_own hd hs).imp_right fun ⟨_, hown⟩ => ⟨hown, .inr (.inr ⟨_, rfl⟩)⟩
  | started j _ hk =>
    refine (hstarting hk hs).imp_right ?_
    rintro ⟨rfl, heq⟩
    exact ⟨.inl heq.symm, .inr (.inr ⟨_, rfl⟩)⟩
  | returned _ hk => exact .inl (hnone hk hs)
  | answered j epoch _ hk => exact .inl (hwaits hk (List.suffix_refl _) hs)
  | looping j hk =>
    rcases hstarting hk (suffix_of_driven hd rfl hs) with hawaited | ⟨rfl, heq⟩
    · exact .inl (hawaited.mono (List.suffix_cons _ _))
    · rw [← heq]
      exact .inr ⟨.inr rfl, .inl ⟨rfl, rfl⟩⟩
  | getting j epoch hk | replying j epoch _ hk =>
    exact .inl (hwaits hk (List.suffix_cons _ _) (suffix_of_driven hd rfl hs))

end Frames

namespace Bench
variable {b b' : Bench} {x : Turn} {rest : List Frame} {m : Machine}

/-- Frames stay until their innermost one is left. -/
theorem Yields.keeps (h : b.Yields f fs b' x) (hs : d :: rest <:+ fs) :
    d :: rest <:+ x.frames ∨ fs = d :: rest := by
  have hpop : ∀ {y : Frame} {gs gs' : List Frame}, gs <:+ gs' → d :: rest <:+ y :: gs →
      d :: rest <:+ gs' ∨ y :: gs = d :: rest := by
    intro y gs gs' hgs hs
    rcases List.suffix_cons_iff.mp hs with heq | hs
    · exact .inr heq.symm
    · exact .inl (hs.trans hgs)
  cases h with
  | steps | joins | turns | next | again | sleeps | waits => exact .inl hs
  | asks | enters | starts | begins => exact .inl (hs.trans (List.suffix_cons _ _))
  | awaits => exact .inl (hs.trans ((List.suffix_cons _ _).trans (List.suffix_cons _ _)))
  | stops | breaks | fails | settles | notes | hears | takes | answers =>
    exact hpop (List.suffix_refl _) hs
  | rests | signals => exact hpop (List.suffix_cons _ _) hs
  | calls => exact hpop ((List.suffix_cons _ _).trans (List.suffix_cons _ _)) hs
  | done => cases List.suffix_nil.mp hs

/-- A call begins to drive a machine that the session works with, or has made. -/
theorem Pushes.engaged {c : Call} (h : Pushes b fs c b' x d) (hd : d.driven? = some i) :
    b.Engaged b' i := by
  cases h with
  | reading | looping => cases hd
  | starting j he | stepping j he =>
    cases hd
    exact he

/-- A machine is called by its run loop, which goes on, or by the session, which works with it
or has made it in this turn. -/
theorem Yields.machine_of_serving (h : b.Yields f fs b' x) (hf : f.Fits fs) {c : Call}
    {fs' : List Frame} (hx : x = .go (.call c) fs') (hs : Focus.Serves P (.call c) fs')
    (hc : c.machine? = some i) :
    (b' = b ∧ b.holds i Machine.goesOn = true) ∨ b.Engaged b' i := by
  rcases h.machine_of_call hf hx hc with ⟨-, hb, hgo⟩ | he | ⟨-, -, -, v, gs, rfl⟩
  · exact .inl ⟨hb, hgo⟩
  · exact .inr he
  · -- a source calls the session
    cases hs with
    | call hsession _ =>
      cases c with
      | step | run | resume => exact absurd hsession id
      | sessionStart | sessionStep => cases hc
    | step j hk => cases hk

/-! ### The turns of a call that has lost its machine -/

theorem putSession_self {s : Session} (hs : b.session = some s) : b.putSession s = b := by
  cases b
  cases hs
  rfl

/-- The session takes no note of a call on a machine that it does not work with. -/
theorem giveBack_forlorn (hd : d.driven? = some i) (hb : ¬ b.Current i) (o : Outcome)
    (outer : List Frame) : b.giveBack o (d :: outer) = (b, .go (.returned (forlorn o)) outer) := by
  have hne : ∀ s, b.session = some s → s.current ≠ some i := fun s hs hi => hb ⟨s, hs, hi⟩
  rcases Frame.driven?_eq_some_iff.mp hd with rfl | rfl
  · cases o with
    | error e => rfl
    | ok v =>
      show b.endStart i v outer = _
      rw [endStart.eq_def]
      simp only
      split
      next s state hs _ =>
        rw [Session.settle, if_neg (hne s hs), if_neg (hne s hs), putSession_self hs]
        rfl
      next => rfl
  · cases o with
    | error e => rfl
    | ok v =>
      show b.endSessionStep i outer = _
      rw [endSessionStep]
      split
      next s state hs _ =>
        rw [Session.note, if_neg (hne s hs), if_neg (hne s hs), putSession_self hs]
        rfl
      next => rfl

theorem endRun_forlorn (b : Bench) (i : Nat) (rest : List Frame) :
    (b.endRun i rest).1.session = b.session ∧
      ∃ s, (b.endRun i rest).2 = .go (.returned (.ok (.state s))) rest :=
  ⟨(same_endRun b i rest).session, turn_endRun b i rest⟩

/-- A run loop is given back a step that has come to nothing, and ends. -/
theorem afterStep_forlorn (ho : o ≠ .ok (.stepped true)) (b : Bench) (i : Nat)
    (rest : List Frame) : (b.advance (.looping i :: rest) (.returned o)).1.session = b.session ∧
      ∃ o', (b.advance (.looping i :: rest) (.returned o)).2 = .go (.returned o') rest ∧
        forlorn o' = forlorn o ∧ o' ≠ .ok (.stepped true) := by
  cases o with
  | error e => exact ⟨rfl, .error e, rfl, rfl, nofun⟩
  | ok v =>
    have hstops : b.Stops i (.returned (.ok v)) :=
      .inr ⟨v, rfl, fun h => ho (congrArg Except.ok h)⟩
    obtain ⟨hsession, s, hs⟩ := endRun_forlorn b i rest
    rw [advance_stops hstops]
    exact ⟨hsession, _, hs, rfl, nofun⟩

theorem session_endReading (b : Bench) (i epoch : Nat) (a : Answer) (fs : List Frame) :
    (b.endReading i epoch a fs).1.session = b.session := by
  rw [endReading.eq_def]
  simp only
  split
  · rfl
  · split
    · rfl
    · rfl

/-- A step that waited comes to nothing when its machine has been reset meanwhile. -/
theorem endReading_forlorn (hm : b.machine? i = some m) (he : m.epoch ≠ epoch) (a : Answer)
    (rest : List Frame) : (b.endReading i epoch a rest).2 =
      .go (.returned (a.map fun _ => .stepped false)) rest := by
  obtain ⟨m', o, hears, -, hx⟩ := endReading_of hm epoch a rest
  rw [hx]
  cases hears with
  | text text h => exact absurd h he
  | late => rfl
  | failure => rfl

/-! ### The turn of a reset -/

/-- A character is put out to a sink that resets the machine, and the step is not completed. -/
theorem putOut_cut (hm : b.machine? i = some m)
    (hx : (b.putOut i fs).2 = .go (.returned o) rest)
    (he : (b.putOut i fs).1.epoch? i ≠ b.epoch? i) : b.Cut o := by
  have hepoch : b.epoch? i = some m.epoch := by rw [epoch?, hm]; rfl
  rw [putOut, hm, Option.map_some] at hx he
  cases hspeaks : m.speaks with
  | false =>
    rw [hspeaks] at he
    exact absurd (epoch?_update (fun m => m.emit.advance) (fun _ => rfl) b i i) he
  | true =>
    rw [hspeaks] at hx he
    simp only at hx he
    split at hx
    next delivered e heq =>
      rw [heq] at he
      cases hx
      rcases deliver_cases (b.update i Machine.emit) i m.cellChar with
        hsame | ⟨b₁, reaction, hsink, hdeliver, -⟩
      · -- only a sink with a script resets
        rw [heq] at hsame
        refine absurd ?_ he
        show (delivered.machines[i]?).map _ = _
        rw [hsame]
        exact epoch?_update Machine.emit (fun _ => rfl) b i i
      · rw [heq] at hdeliver
        exact .inr ⟨reaction, e, hsink, (congrArg Prod.snd hdeliver).symm, rfl⟩
    next delivered heq =>
      rw [heq] at he
      simp only at he
      split at hx
      next hsame =>
        rw [if_pos hsame] at he
        refine absurd ((epoch?_update Machine.advance (fun _ => rfl) delivered i i).trans ?_) he
        exact hsame.trans hepoch.symm
      next =>
        cases hx
        exact .inl rfl

/-- A step in which its machine is reset is not completed. -/
theorem callStep_cut (hm : b.machine? i = some m)
    (hx : (b.callStep i fs).2 = .go (.returned o) rest)
    (he : (b.callStep i fs).1.epoch? i ≠ b.epoch? i) : b.Cut o := by
  rw [callStep, hm, Option.map_some] at hx he
  cases hst : m.stance with
  | occupied n =>
    rw [hst] at he
    exact absurd rfl he
  | ended =>
    rw [hst] at he
    exact absurd (epoch?_update (fun m => {m with running := false}) (fun _ => rfl) b i i) he
  | inward =>
    rw [hst] at he
    have hexecute : ∀ m : Machine, m.execute.advance.epoch = m.epoch := fun m =>
      (Machine.inner_execute m).epoch
    exact absurd ((epoch?_update _ hexecute _ i i).trans (epoch?_complain b i i)) he
  | request =>
    rw [hst] at hx
    simp only at hx
    rw [request, hm] at hx
    rcases turn_ask ((b.update i fun m => {m with stepping := true}).log (.requested m.counter)) i
      (.reading i m.epoch :: fs) with ⟨a, ha⟩ | ⟨y, hy, -⟩
    · cases ha.symm.trans hx
    · cases hy.symm.trans hx
  | output =>
    rw [hst] at hx he
    exact putOut_cut hm hx he

/-- A turn that resets a machine ends with an outcome for a call that drives it only if it is
a step of the machine, whose sink resets it. -/
theorem Yields.returned_of_reset (h : b.Yields f fs b' x) (hs : f.Serves P fs)
    (hd : d.driven? = some i) (hown : Own i d outer own) (hx : x = .go (.returned o) own)
    (hb : b' = (b.advance fs f).1) (he : b'.epoch? i ≠ b.epoch? i) :
    (f = .call (.step i) ∧ fs = own) ∨ ∃ s, o = .ok (.state s) := by
  cases h with
  | steps j ho =>
    cases hx
    cases hs with
    | call hc _ => exact absurd hc id
    | step _ hk =>
      cases hk.eq_of_own hd hown
      exact .inl ⟨rfl, rfl⟩
  | turns hc ho =>
    cases hx
    cases hs with
    | call _ hk => cases hk.eq_of_own hd hown
    | step | run | resume => rcases hc with hc | hc <;> cases hc
  | joins | stops | settles =>
    cases hx
    exact .inr ⟨_, rfl⟩
  | breaks j e => exact absurd (epoch?_update Machine.leaveLoop (fun _ => rfl) b j i) he
  | fails => exact absurd rfl he
  | hears j epoch a ho =>
    rw [hb] at he
    exact absurd (epoch?_endReading b j epoch a _ i) he
  | _ => cases hx

end Bench
end TapeMachine
