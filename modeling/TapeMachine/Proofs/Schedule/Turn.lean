import TapeMachine.Thread.Advance
import TapeMachine.Proofs.Schedule.Frame
import TapeMachine.Proofs.Schedule.Stage
import TapeMachine.Proofs.Schedule.Wait

/-! What a small turn does.

`advance_turned` says it once for all turns: the frames stay in order, the
machines stir, the signs of that are recorded, and of the steps that wait at most
one begins or ends its wait. What is around the machines changes little:
callbacks keep something to act on, without a session no machine is made, and a
sink that cannot fail stays so (`Keeps`). -/
namespace TapeMachine

/-- A sink that may fail. -/
def Sink.Frail : Sink → Prop
  | .silent | .stream none => False
  | .stream (some _) => True
  | .scripted reaction => ∃ n, (reaction n).failure ≠ none

namespace Bench

/-- The sink may fail. -/
def Frail (b : Bench) : Prop := ∃ k, b.sink = some k ∧ k.Frail

/-- What stays as it is around the machines. -/
structure Keeps (b b' : Bench) : Prop where
  manned : b.Manned → b'.Manned
  alone : b.session = none → b'.session = none ∧ b'.machines.size = b.machines.size
  frail : b'.Frail → b.Frail

variable {b b' : Bench} {fs : List Frame} {i : Nat} {m : Machine}

namespace Keeps

theorem refl (b : Bench) : Keeps b b := ⟨id, fun h => ⟨h, rfl⟩, id⟩

theorem trans {b'' : Bench} (h : Keeps b b') (h' : Keeps b' b'') : Keeps b b'' := by
  refine ⟨h'.manned ∘ h.manned, fun hs => ?_, h.frail ∘ h'.frail⟩
  obtain ⟨hs', hz⟩ := h.alone hs
  obtain ⟨hs'', hz'⟩ := h'.alone hs'
  exact ⟨hs'', hz'.trans hz⟩

theorem of_eq (hs : b'.session = b.session) (hz : b'.machines.size = b.machines.size)
    (hk : b'.sink = b.sink) : Keeps b b' := by
  refine ⟨fun h => ⟨fun hn => ?_, fun s i hb hc => ?_⟩, fun h => ⟨hs.trans h, hz⟩, fun h => ?_⟩
  · rw [hz]
    exact h.first (hs ▸ hn)
  · rw [hz]
    exact h.current s i (hs ▸ hb) hc
  · rw [Frail, ← hk]
    exact h

/-- A session that works with no other machine than before. -/
theorem of_session {s s' : Session} (hs : b.session = some s) (hs' : b'.session = some s')
    (hc : ∀ i, s'.current = some i → s.current = some i)
    (hz : b'.machines.size = b.machines.size) (hk : b'.sink = b.sink) : Keeps b b' := by
  refine ⟨fun h => ⟨fun hn => ?_, fun t i ht hi => ?_⟩, fun h => ?_, fun h => ?_⟩
  · rw [hs'] at hn
    cases hn
  · rw [hs'] at ht
    cases ht
    rw [hz]
    exact h.current s i hs (hc i hi)
  · rw [hs] at h
    cases h
  · rw [Frail, ← hk]
    exact h

theorem update (b : Bench) (i : Nat) (f : Machine → Machine) : Keeps b (b.update i f) :=
  of_eq rfl (size_update b i f) rfl

theorem record (b : Bench) (e : Event) : Keeps b (b.record e) := of_eq rfl rfl rfl

theorem log (b : Bench) (n : Notice) : Keeps b (b.log n) := .record b _

/-- A stream has less room after a write, but room without end stays so. -/
theorem write (b : Bench) (text : Text) : Keeps b (b.write text) := by
  refine ⟨fun h => ⟨h.first, h.current⟩, fun h => ⟨h, rfl⟩, fun ⟨k, hk, hf⟩ => ?_⟩
  cases hsink : b.sink with
  | none => simp [Bench.write, Bench.record, hsink] at hk
  | some sink =>
    refine ⟨sink, hsink, ?_⟩
    rcases sink with - | (- | room) | reaction
    · simp only [Bench.write, Bench.record, hsink, Option.some.injEq] at hk
      rwa [← hk] at hf
    · simp only [Bench.write, Bench.record, hsink, Option.some.injEq] at hk
      rwa [← hk] at hf
    · trivial
    · simp only [Bench.write, Bench.record, hsink, Option.some.injEq] at hk
      rwa [← hk] at hf

end Keeps

/-! ### Pauses and resets -/

/-- Pauses and resets, and nothing else. -/
structure Rewinds (b b' : Bench) : Prop where
  resets : ∃ sg, Resets b.bare sg b'.bare ∧ b'.signs = b.signs ++ sg
  keeps : Keeps b b'

namespace Rewinds

theorem of_eq (hb : b'.bare = b.bare) (hs : b'.signs = b.signs) (hk : Keeps b b') : Rewinds b b' :=
  ⟨⟨[], by rw [hb]; exact .nil, by rw [hs, List.append_nil]⟩, hk⟩

theorem refl (b : Bench) : Rewinds b b := of_eq rfl rfl (.refl b)

theorem trans {b'' : Bench} (h : Rewinds b b') (h' : Rewinds b' b'') : Rewinds b b'' := by
  obtain ⟨sg, hr, hs⟩ := h.resets
  obtain ⟨sg', hr', hs'⟩ := h'.resets
  refine ⟨⟨sg ++ sg', hr.trans hr', ?_⟩, h.keeps.trans h'.keeps⟩
  rw [hs', hs, List.append_assoc]

/-- What still happens to a machine that was not reset might have happened before. -/
theorem update {f g : Machine → Machine} (h : Rewinds b b') (hi : b.machine? i = some m)
    (he : b'.epoch? i = some m.epoch) (hfg : ∀ m, (f m).bare = g m.bare) :
    Rewinds (b.update i f) (b'.update i f) := by
  obtain ⟨sg, hr, hs⟩ := h.resets
  obtain ⟨m', hi', he'⟩ := Option.map_eq_some_iff.mp he
  obtain ⟨heq, hr'⟩ :=
    hr.set_of_epoch_eq (getElem?_bare_of hi) (getElem?_bare_of hi') he' (g m.bare)
  refine ⟨⟨sg, ?_, hs⟩, ?_⟩
  · rw [bare_update_of hi, bare_update_of hi', hfg, hfg, heq]
    exact hr'
  · have hback : Keeps (b.update i f) b := .of_eq rfl (size_update b i f).symm rfl
    exact hback.trans (h.keeps.trans (.update b' i f))

end Rewinds

theorem rewinds_signalMachine (hi : i < b.machines.size) (g : Signal) :
    Rewinds b (b.signalMachine i g) := by
  cases g with
  | pause => exact .of_eq (bare_update_flags Machine.bare_pause b i) rfl (.update b i _)
  | reset =>
    refine ⟨⟨[.reset], ?_, signs_log _ _⟩, (Keeps.update b i _).trans (.record _ _)⟩
    rw [signalMachine, bare_log, bare_update Machine.bare_reset]
    exact .single (by rw [length_bare]; exact hi)

theorem rewinds_signalSession {s : Session} (hs : b.session = some s) (hm : b.Manned)
    (g : Signal) : Rewinds b (b.signalSession s g) := by
  cases g with
  | pause =>
    rw [signalSession]
    split
    next i hc hp =>
      refine .of_eq (bare_update_flags Machine.bare_pause b i) rfl ?_
      exact .of_session hs rfl (fun _ => id) (size_update _ _ _) rfl
    next => exact .refl b
  | reset =>
    -- a session that has no machine keeps none
    have hforget : ∀ j, s.forget.current = some j → s.current = some j := fun j h => by cases h
    rw [signalSession]
    split
    next i hc =>
      refine (rewinds_signalMachine (hm.current s i hs hc) .reset).trans (.of_eq rfl rfl ?_)
      exact .of_session hs rfl hforget rfl rfl
    next => exact .of_eq rfl rfl (.of_session hs rfl hforget rfl rfl)

theorem rewinds_signal (hm : b.Manned) (g : Signal) : Rewinds b (b.signal g) := by
  rw [signal]
  cases hs : b.session with
  | none => exact rewinds_signalMachine (hm.first hs) g
  | some s => exact rewinds_signalSession hs hm g

theorem rewinds_obey (hm : b.Manned) (waits : Bool) (gs : List Signal) :
    Rewinds b (b.obey waits gs) := by
  induction gs generalizing b with
  | nil => exact .refl b
  | cons g rest ih =>
    have hg := rewinds_signal hm g
    have hrec : Rewinds (b.signal g) ((b.signal g).record (.signalled g waits)) :=
      .of_eq rfl (by simp [Event.sign?]) (.record _ _)
    have hhead := hg.trans hrec
    exact hhead.trans (ih (hhead.keeps.manned hm))

/-! ### Turns -/

/-- What a small turn on frames `fs` does. -/
structure Turned (b : Bench) (fs : List Frame) (r : Bench × Turn) : Prop where
  fits : r.2.Fits
  keeps : Keeps b r.1
  stir : ∃ sg, Stir b.Frail b.bare sg r.1.bare ∧ r.1.signs = b.signs ++ sg
  rewaits : Rewaits b.bare r.1.bare (readings fs) (readings r.2.frames)

namespace Turned
variable {r : Bench × Turn}

/-- Pauses and resets in a turn. -/
theorem of_rewinds (h : Rewinds b r.1) (hf : r.2.Fits)
    (hr : readings r.2.frames = readings fs) : Turned b fs r where
  fits := hf
  keeps := h.keeps
  stir := by
    obtain ⟨sg, hs, hsg⟩ := h.resets
    exact ⟨sg, .calm hs, hsg⟩
  rewaits := by
    obtain ⟨sg, hs, -⟩ := h.resets
    rw [hr]
    exact .same (Waiting.of_resets hs)

/-- A turn that shows in no machine and no sign. -/
theorem quiet (hb : r.1.bare = b.bare) (hs : r.1.signs = b.signs) (hk : Keeps b r.1)
    (hf : r.2.Fits) (hr : readings r.2.frames = readings fs) : Turned b fs r :=
  of_rewinds (.of_eq hb hs hk) hf hr

/-- An act of a machine, and pauses and resets after it. -/
theorem of_act {b₁ : Bench} {m₁ : Machine} (a : Machine.Act) (hi : b.machine? i = some m)
    (hd : m.bare.Does a m₁) (hb : b₁.bare = b.bare.set i m₁)
    (hs : b₁.signs = b.signs ++ a.signs i m.bare) (hk : Keeps b b₁) (h : Rewinds b₁ r.1)
    (hp : a = .spill → b.Frail ∨ r.1.epoch? i ≠ some m.epoch) (hf : r.2.Fits)
    (hw : Rewaits b.bare (b.bare.set i m₁) (readings fs) (readings r.2.frames)) :
    Turned b fs r where
  fits := hf
  keeps := hk.trans h.keeps
  stir := by
    obtain ⟨sg, hres, hsg⟩ := h.resets
    have hbi := getElem?_bare_of hi
    rw [hb] at hres
    refine ⟨a.signs i m.bare ++ sg, .act a hbi hd (fun ha => ?_) hres, ?_⟩
    · -- without a reset the epoch is the one that the act left
      refine (hp ha).imp_right fun he hnil => he ?_
      subst hnil
      have hlt := (List.getElem?_eq_some_iff.mp hbi).1
      rw [epoch?_eq_bare, hres.eq_of_nil, List.getElem?_set_self hlt, Option.map_some,
        hd.kept.epoch]
      rfl
    · rw [hsg, hs, List.append_assoc]
  rewaits := by
    obtain ⟨sg, hres, -⟩ := h.resets
    exact hw.resets (hb ▸ hres)

/-- An act of a machine, and nothing after it. -/
theorem of_act_only {m₁ : Machine} (a : Machine.Act) (hi : b.machine? i = some m)
    (hd : m.bare.Does a m₁) (hb : r.1.bare = b.bare.set i m₁)
    (hs : r.1.signs = b.signs ++ a.signs i m.bare) (hk : Keeps b r.1) (hp : a ≠ .spill)
    (hf : r.2.Fits) (hw : Rewaits b.bare (b.bare.set i m₁) (readings fs) (readings r.2.frames)) :
    Turned b fs r :=
  .of_act a hi hd hb hs hk (.refl _) (fun h => absurd h hp) hf hw

end Turned

end Bench
end TapeMachine
