import TapeMachine.Proofs.Machine.Later
import TapeMachine.Proofs.Machine.Scene
import TapeMachine.Proofs.Schedule.Advance
import TapeMachine.Proofs.Schedule.Alone

/-! Single steps.

A single step of a machine that is alone comes to what its scene says, whatever its
callbacks do (`stepsTo_of_shows`), and waits for ever just where the scene says nothing
(`stuck_of_shows`). Callbacks may pause, reset and rest, and a source may make calls of
its own; but while a step waits a further step is refused and a run ends at once, so that
of all this only the resets can be told. -/
namespace TapeMachine

namespace Bench

/-- The bench shows a scene: there is one machine, and it works for no session. -/
structure Shows (b : Bench) (x : Scene) : Prop where
  session : b.session = none
  machine : b.bare = [x.machine]
  source : b.source = x.source
  sink : b.sink = x.sink
  requests : b.requests = x.requests
  deliveries : b.deliveries = x.deliveries
  signs : b.signs = x.signs

/-- A call leads to its end, and nothing has happened that could be told. -/
def Passes (b : Bench) (x : Scene) (c : Call) (fs : List Frame) : Prop :=
  ∃ b' o, b'.Shows x ∧ Leads b (.call c) fs b' (.returned o) fs

namespace Shows
variable {b : Bench} {x : Scene}

/-! ### What does not show -/

theorem update {f g : Machine → Machine} (h : b.Shows x) (hfg : ∀ m, (f m).bare = g m.bare) :
    (b.update 0 f).Shows (x.withMachine (g x.machine)) := by
  refine {h with machine := ?_}
  rw [bare_update hfg, h.machine]
  rfl

theorem flags {f : Machine → Machine} (h : b.Shows x) (hf : ∀ m, (f m).bare = m.bare) :
    (b.update 0 f).Shows x := h.update (g := id) hf

theorem told (h : b.Shows x) (e : Event) : (b.record e).Shows (x.tell e.sign?.toList) := by
  refine {h with signs := ?_}
  rw [signs_record, h.signs]
  rfl

theorem record {e : Event} (h : b.Shows x) (he : e.sign? = none) : (b.record e).Shows x := by
  have htold := h.told e
  rw [he] at htold
  exact {htold with signs := htold.signs.trans (List.append_nil _)}

theorem exists_machine? (h : b.Shows x) : ∃ m, b.machine? 0 = some m ∧ m.bare = x.machine :=
  exists_of_getElem?_bare (by rw [h.machine]; rfl)

theorem epoch? (h : b.Shows x) : b.epoch? 0 = some x.machine.epoch := by
  rw [epoch?_eq_bare, h.machine]
  rfl

/-- Of what callbacks signal only the resets show. -/
theorem obey (h : b.Shows x) (waits : Bool) (gs : List Signal) :
    (b.obey waits gs).Shows (x.resets (gs.count .reset)) := by
  induction gs generalizing b x with
  | nil => rwa [List.count_nil, Scene.resets_zero]
  | cons g rest ih =>
    have hsignal : b.signal g = b.signalMachine 0 g := by rw [signal, h.session]
    show ((b.signal g).record (.signalled g waits)).obey waits rest |>.Shows _
    rw [hsignal]
    cases g with
    | pause =>
      rw [List.count_cons_of_ne (by decide)]
      exact ih ((h.flags Machine.bare_pause).record rfl)
    | reset =>
      have hreset : (b.signalMachine 0 .reset).Shows (x.resets 1) :=
        (h.update Machine.bare_reset).told (.notice .reset)
      rw [List.count_cons_self, Nat.add_comm, ← Scene.resets_resets]
      exact ih (hreset.record rfl)

/-! ### Calls while a step waits -/

theorem refuses (h : b.Shows x) (hw : x.machine.stepping = true) (fs : List Frame) :
    b.advance fs (.call (.step 0)) = (b, .fail (.reentrantStep x.machine.counter) fs) := by
  obtain ⟨m, hm, hbare⟩ := h.exists_machine?
  rw [← hbare] at hw ⊢
  exact advance_of_stepping hm hw fs

theorem endRun (h : b.Shows x) (fs : List Frame) :
    ∃ b' o, b'.Shows x ∧ b.endRun 0 fs = (b', .go (.returned o) fs) := by
  have hleft := h.flags Machine.bare_leaveLoop
  simp only [Bench.endRun]
  split
  · exact ⟨_, _, hleft, rfl⟩
  · refine ⟨_, _, hleft.record ?_, rfl⟩
    split <;> rfl

/-- A run that is started while a step waits ends at once. -/
theorem run (h : b.Shows x) (hw : x.machine.stepping = true) (fs : List Frame) :
    Passes b x (.run 0) fs := by
  have hgoing := h.flags Machine.bare_unpause
  have hcall : b.advance fs (.call (.run 0)) = b.callRun 0 fs := rfl
  simp only [callRun] at hcall
  split at hcall
  · exact ⟨_, _, hgoing, .go hcall .refl⟩
  · have hentered := hgoing.flags Machine.bare_enterLoop
    have hnext : ∀ b' : Bench, b'.advance (.looping 0 :: fs) .resumed = b'.nextStep 0 fs :=
      fun _ => rfl
    generalize (b.update 0 Machine.unpause).update 0 Machine.enterLoop = b₁ at *
    have hnext₁ := hnext b₁
    rw [nextStep] at hnext₁
    split at hnext₁
    · -- the step of the run is refused, and the run fails with it
      have hrefused := hentered.refuses hw (.looping 0 :: fs)
      exact ⟨_, _, hentered.flags Machine.bare_leaveLoop,
        .go hcall (.go hnext₁ (.go hrefused (.go rfl .refl)))⟩
    · obtain ⟨b', o, hend, he⟩ := hentered.endRun fs
      exact ⟨b', o, hend, .go hcall (.go (hnext₁.trans he) .refl)⟩

theorem passes (h : b.Shows x) (hw : x.machine.stepping = true) (v : Verb) (fs : List Frame) :
    Passes b x (b.callOf v) fs := by
  cases v with
  | step =>
    have hcall : b.callOf .step = .step 0 := by rw [callOf, h.session]; rfl
    rw [hcall]
    exact ⟨b, _, h, .go (h.refuses hw fs) .refl⟩
  | run => exact h.run hw fs
  | resume =>
    have hcall : b.advance fs (.call (.resume 0)) = b.callResume 0 fs := rfl
    rw [callResume] at hcall
    split at hcall
    · obtain ⟨b', o, h', hl⟩ := h.run hw fs
      refine ⟨b', o, h', ?_⟩
      cases hl with
      | go he hrest => exact .go (hcall.trans he) hrest
      | sleep he hrest => exact .sleep (hcall.trans he) hrest
    · exact ⟨b, _, h, .go hcall .refl⟩
  | start =>
    have hcall : b.advance fs (.call .sessionStart) = (b, .value (.state none) fs) := by
      show b.callStart fs = _
      rw [callStart, h.session]
    exact ⟨b, _, h, .go hcall .refl⟩

/-- A source that takes its time comes to its answer, whatever it does on the way. -/
theorem replying (h : b.Shows x) (hw : x.machine.stepping = true) (deeds : List Deed)
    (answer : Except Failure (Option Text)) (fs : List Frame) :
    ∃ b', b'.Shows (x.resets (deeds.count (.signal .reset))) ∧
      Leads b .resumed (.replying deeds answer :: fs) b' (.answered (.ofReply answer)) fs := by
  induction deeds generalizing b x with
  | nil =>
    rw [List.count_nil, Scene.resets_zero]
    exact ⟨b, h, .go rfl .refl⟩
  | cons d deeds ih =>
    cases d with
    | rest =>
      rw [List.count_cons_of_ne (by decide)]
      obtain ⟨b', h', hl⟩ := ih h hw
      exact ⟨b', h', .sleep rfl hl⟩
    | signal g =>
      have hobey := h.obey true [g]
      have hw' : (x.resets ([g].count .reset)).machine.stepping = true :=
        (Machine.stepping_wiped _ _).trans hw
      obtain ⟨b', h', hl⟩ := ih hobey hw'
      refine ⟨b', ?_, .go rfl hl⟩
      rw [Scene.resets_resets] at h'
      cases g with
      | pause =>
        rw [List.count_cons_of_ne (by decide)]
        rwa [List.count_cons_of_ne (by decide), List.count_nil, Nat.zero_add] at h'
      | reset =>
        rw [List.count_cons_self]
        rwa [List.count_cons_self, List.count_nil, Nat.zero_add, Nat.add_comm] at h'
    | call v =>
      rw [List.count_cons_of_ne (by simp)]
      obtain ⟨b₁, o, h₁, hl₁⟩ := h.passes hw v (.calling v :: .replying deeds answer :: fs)
      obtain ⟨b', h', hl⟩ := ih (h₁.record (e := .called v o) rfl) hw
      exact ⟨b', h', .go rfl (hl₁.trans (.go rfl hl))⟩

/-! ### The source and the sink -/

/-- The call of the source shows, and nothing of what the source does then. -/
theorem asked (h : b.Shows x) (source : Option Source) :
    ({b with requests := b.requests + 1, source}.record (.asked 0)).Shows
      {x.tell [.asked 0] with requests := x.requests + 1, source} :=
  {h.told (.asked 0) with requests := congrArg (· + 1) h.requests, source := rfl}

/-- The source comes to its answer while the step that asked waits. -/
theorem ask {r : Hearing} (h : b.Shows x) (hw : x.machine.stepping = true)
    (hr : Source.hearing? (x.requests + 1) x.source = some r) (fs : List Frame) :
    ∃ b₁ f₁ fs₁ b', b.ask 0 fs = (b₁, .go f₁ fs₁) ∧
      Leads b₁ f₁ fs₁ b' (.answered r.answer) fs ∧ b'.Shows (x.asked r) := by
  rw [Scene.asked, Bench.ask]
  rw [← h.source, ← h.requests] at hr
  cases hsource : b.source with
  | none =>
    rw [hsource] at hr
    cases hr
    simp only [Bench.record, Scene.resets_zero]
    exact ⟨_, _, _, _, rfl, .refl, h.asked _⟩
  | some source =>
    rw [hsource] at hr
    cases source with
    | fixed text =>
      cases hr
      simp only [Bench.record, Scene.resets_zero]
      exact ⟨_, _, _, _, rfl, .refl, h.asked _⟩
    | queue texts =>
      simp only [Bench.record]
      cases texts with
      | nil => cases hr
      | cons text texts =>
        cases hr
        rw [Scene.resets_zero]
        exact ⟨_, _, _, _, rfl, .go rfl .refl, h.asked _⟩
    | lines rest keepEnd =>
      cases hr
      rw [Scene.resets_zero]
      cases rest with
      | nil =>
        have hempty : (if keepEnd then (Source.splitLine []).1
            else Source.withoutEnd (Source.splitLine []).1) = [] := by cases keepEnd <;> rfl
        rw [hempty]
        simp only [Bench.record]
        exact ⟨_, _, _, _, rfl, .refl, (h.asked _).record (e := .notice .exhausted) rfl⟩
      | cons c rest =>
        simp only [Bench.record]
        exact ⟨_, _, _, _, rfl, .refl, h.asked _⟩
    | scripted reply =>
      simp only [Source.hearing?, Option.some.injEq] at hr
      simp only [Bench.record]
      cases hreply : reply (b.requests + 1) with
      | now signals answer =>
        rw [hreply] at hr
        subst hr
        exact ⟨_, _, _, _, rfl, .refl, (h.asked _).obey false signals⟩
      | later deeds answer =>
        rw [hreply] at hr
        subst hr
        obtain ⟨b', h', hl⟩ := (h.asked (some (.scripted reply))).replying hw deeds answer fs
        exact ⟨_, _, _, b', rfl, hl, h'⟩

/-- The call of the sink shows. -/
theorem handed (h : b.Shows x) (c : Char) (size : Option Nat) (sink : Option Sink) :
    ({b with deliveries := b.deliveries + 1, sink}.record (.emitted 0 c size)).Shows
      {x.tell [.emitted 0 c] with deliveries := x.deliveries + 1, sink} :=
  {h.told (.emitted 0 c size) with deliveries := congrArg (· + 1) h.deliveries, sink := rfl}

/-- The sink takes a character, or fails over it. -/
theorem deliver {r : Taking} (h : b.Shows x) (hr : Sink.taking (x.deliveries + 1) x.sink = r)
    (c : Char) : ∃ b', b.deliver 0 c = (b', r.failure) ∧ b'.Shows (x.handed c r) := by
  rw [← h.deliveries, ← h.sink] at hr
  subst hr
  rw [Scene.handed, Bench.deliver]
  rcases b.sink with - | (- | (- | (- | room)) | reaction)
  all_goals
    simp only [Bench.record, Bench.blocked, Bench.write, Sink.taking, Scene.resets_zero]
    refine ⟨_, rfl, ?_⟩
  · exact h.handed c _ none
  · exact h.handed c _ (some .silent)
  · exact ((h.handed c _ _).record (e := .wrote [c]) rfl).record (e := .flushed) rfl
  · exact h.handed c _ (some (.stream (some 0)))
  · exact ((h.handed c _ _).record (e := .wrote [c]) rfl).record (e := .flushed) rfl
  · exact (h.handed c _ (some (.scripted reaction))).obey false _

/-! ### Steps -/

theorem work {m : Machine} (h : b.Shows x) (hm : b.machine? 0 = some m)
    (hb : m.bare = x.machine) :
    ((b.complain 0).update 0 fun m => m.execute.advance).Shows x.work := by
  obtain ⟨hnoted, hbare, hsigns, -⟩ := complain_spec hm
  have haround : (b.complain 0).session = b.session ∧ (b.complain 0).source = b.source ∧
      (b.complain 0).sink = b.sink ∧ (b.complain 0).requests = b.requests ∧
      (b.complain 0).deliveries = b.deliveries := by
    rw [complain]
    split
    · exact ⟨rfl, rfl, rfl, rfl, rfl⟩
    · exact ⟨rfl, rfl, rfl, rfl, rfl⟩
  obtain ⟨hsession, hsource, hsink, hrequests, hdeliveries⟩ := haround
  refine ⟨hsession.trans h.session, ?_, hsource.trans h.source, hsink.trans h.sink,
    hrequests.trans h.requests, hdeliveries.trans h.deliveries, ?_⟩
  · rw [bare_update_of hnoted, hbare, h.machine, Machine.bare_advance, Machine.bare_execute,
      Machine.bare_noted, hb]
    rfl
  · rw [signs_update, hsigns, h.signs, ← Machine.complaint?_bare, hb]
    rfl

theorem putOut {m : Machine} (h : b.Shows x) (hm : b.machine? 0 = some m)
    (hb : m.bare = x.machine) : ∃ b', b.putOut 0 [] =
      (b', .go (.returned (x.put.2.map .stepped)) []) ∧ b'.Shows x.put.1 := by
  have hlook : (m.cellChar, m.speaks, m.epoch) =
      (x.machine.cellChar, x.machine.speaks, x.machine.epoch) := by rw [← hb]; rfl
  rw [Bench.putOut, hm, Option.map_some, hlook, Scene.put]
  cases x.machine.speaks with
  | false => exact ⟨_, rfl, h.update (g := fun m => m.emit.advance) fun _ => rfl⟩
  | true =>
    obtain ⟨b', hdeliver, h'⟩ := (h.update Machine.bare_emit).deliver rfl x.machine.cellChar
    simp only [if_true]
    rw [hdeliver]
    generalize hr : Sink.taking (x.deliveries + 1) x.sink = r
    rw [show Sink.taking ((x.withMachine x.machine.emit).deliveries + 1)
      (x.withMachine x.machine.emit).sink = r from hr] at h' ⊢
    cases r.failure with
    | some e => exact ⟨b', rfl, h'⟩
    | none =>
      have hepoch : b'.epoch? 0 = some (x.machine.epoch + r.resets) :=
        h'.epoch?.trans (congrArg some (Machine.epoch_wiped x.machine.emit r.resets))
      simp only [hepoch, Option.some.injEq, Nat.add_eq_left]
      split
      · exact ⟨_, rfl, h'.update Machine.bare_advance⟩
      · exact ⟨_, rfl, h'⟩

/-- How a call of a step goes on. -/
theorem advance_step {m : Machine} (hm : b.machine? 0 = some m) (hb : m.bare = x.machine) :
    b.advance [] (.call (.step 0)) =
      match x.machine.stance with
      | .occupied counter => (b, .fail (.reentrantStep counter) [])
      | .ended => (b.update 0 (fun m => {m with running := false}), .value (.stepped false) [])
      | .output => b.putOut 0 []
      | .request => b.request 0 []
      | .inward =>
        ((b.complain 0).update 0 (fun m => m.execute.advance), .value (.stepped true) []) := by
  show b.callStep 0 [] = _
  rw [callStep, hm, Option.map_some, ← hb, Machine.stance_bare]
  cases m.stance <;> rfl

/-- A step that asks for text begins to wait. -/
theorem request (h : b.Shows x) (hst : x.machine.stance = .request) : ∃ b' : Bench,
    b.advance [] (.call (.step 0)) = b'.ask 0 [.reading 0 x.machine.epoch] ∧
      b'.Shows (x.withMachine {x.machine with stepping := true}) := by
  obtain ⟨m, hm, hb⟩ := h.exists_machine?
  have hepoch : m.epoch = x.machine.epoch := by rw [← hb]; rfl
  have hwaits := h.update (f := fun m => {m with stepping := true})
    (g := fun m => {m with stepping := true}) fun _ => rfl
  refine ⟨_, ?_, hwaits.record (e := .notice (.requested m.counter)) rfl⟩
  rw [advance_step hm hb, hst, ← hepoch]
  show b.request 0 [] = _
  rw [Bench.request, hm]
  rfl

/-- With the answer the step that waits comes to its end. -/
theorem endReading {r : Hearing} (hs : x.machine.stepping = false)
    (h : b.Shows ((x.withMachine {x.machine with stepping := true}).asked r)) :
    ∃ b', b.endReading 0 x.machine.epoch r.answer [] =
      (b', .go (.returned ((x.read r).2.map .stepped)) []) ∧ b'.Shows (x.read r).1 := by
  have hfreed : (b.update 0 fun m => {m with stepping := false}).Shows (x.asked r) := by
    have hsettled : ({x.machine with stepping := true}.wiped r.resets).settled =
        x.machine.wiped r.resets := by
      rw [Machine.settled_wiped]
      exact congrArg (Machine.wiped r.resets) (Machine.settled_eq hs)
    have hupdate := h.update (f := fun m => {m with stepping := false}) (g := Machine.settled)
      fun _ => rfl
    exact {hupdate with machine := hupdate.machine.trans (congrArg (fun m => [m]) hsettled)}
  rw [Scene.read]
  simp only [Bench.endReading]
  cases r.answer with
  | error e => exact ⟨_, rfl, hfreed⟩
  | ok text =>
    have hheard := hfreed.told (.answered 0 text)
    have hepoch := hheard.epoch?.trans
      (congrArg some (Machine.epoch_wiped x.machine r.resets))
    simp only [hepoch, Option.some.injEq, Nat.add_eq_left]
    split
    · refine ⟨_, rfl, hheard.update (g := fun m => (m.receive text).consume.advance) fun m => ?_⟩
      rw [Machine.bare_advance, Machine.bare_consume, Machine.bare_receive]
    · exact ⟨_, rfl, hheard.record (e := .notice .discarded) rfl⟩

end Shows

/-- A single step comes to what its scene says. -/
theorem leads_step {b : Bench} {x y : Scene} {r : Except Failure Bool} (h : b.Shows x)
    (hx : x.step = some (y, r)) : ∃ b', b'.Shows y ∧
      Leads b (.call (.step 0)) [] b' (.returned (r.map .stepped)) [] := by
  obtain ⟨m, hm, hb⟩ := h.exists_machine?
  have hcall := Shows.advance_step hm hb
  cases hst : x.machine.stance with
  | occupied counter =>
    rw [hst] at hcall
    rw [Scene.step, hst] at hx
    cases hx
    exact ⟨b, h, .go hcall .refl⟩
  | ended =>
    rw [hst] at hcall
    rw [Scene.step_of_ended hst] at hx
    cases hx
    exact ⟨_, h.flags (f := fun m => {m with running := false}) fun _ => rfl, .go hcall .refl⟩
  | inward =>
    rw [hst] at hcall
    rw [Scene.step_of_inward hst] at hx
    cases hx
    exact ⟨_, h.work hm hb, .go hcall .refl⟩
  | output =>
    rw [hst] at hcall
    rw [Scene.step_of_output hst] at hx
    obtain ⟨b', hput, h'⟩ := h.putOut hm hb
    rw [Option.some.inj hx] at hput h'
    exact ⟨b', h', .go (hcall.trans hput) .refl⟩
  | request =>
    rw [Scene.step_of_request hst] at hx
    obtain ⟨r', hr, heq⟩ := Option.map_eq_some_iff.mp hx
    obtain ⟨b₁, hrequest, h₁⟩ := h.request hst
    obtain ⟨b₂, f, fs, b₃, hask, hl, h₃⟩ := h₁.ask rfl hr [.reading 0 x.machine.epoch]
    have hfree := (Machine.stance_eq_request_iff.mp hst).1
    obtain ⟨b₄, hend, h₄⟩ := Shows.endReading hfree h₃
    rw [heq] at hend h₄
    exact ⟨b₄, h₄, .go (hrequest.trans hask) (hl.trans (.go hend .refl))⟩

/-- A step whose scene says nothing comes to wait for a text. -/
theorem awaits_step {b : Bench} {x : Scene} (h : b.Shows x) (hx : x.step = none) :
    ∃ b' b'' fs fs', Leads b (.call (.step 0)) [] b' .resumed fs ∧
      b'.advance fs .resumed = (b'', .await fs') := by
  obtain ⟨hst, hempty⟩ := Scene.request_of_step_eq_none hx
  obtain ⟨b₁, hrequest, h₁⟩ := h.request hst
  have hsource : b₁.source = some (.queue []) := h₁.source.trans hempty
  have hask : b₁.ask 0 [.reading 0 x.machine.epoch] =
      ({b₁ with requests := b₁.requests + 1}.record (.asked 0),
        .go .resumed [.getting, .reading 0 x.machine.epoch]) := by
    rw [ask]
    simp only [Bench.record, hsource]
  have hawait : ({b₁ with requests := b₁.requests + 1}.record (.asked 0)).advance
      [.getting, .reading 0 x.machine.epoch] .resumed =
        ({b₁ with requests := b₁.requests + 1}.record (.asked 0),
          .await [.getting, .reading 0 x.machine.epoch]) := by
    simp only [advance, goOn, Bench.record, hsource]
  exact ⟨_, _, _, _, .go (hrequest.trans hask) .refl, hawait⟩

end Bench

namespace Scheduler
variable {s s' : Scheduler} {x y : Scene} {r : Except Failure Bool}

/-- How a single step that comes to an end is told. -/
def Stepped.ofResult : Except Failure Bool → Stepped
  | .ok true => .executed
  | .ok false => .ended
  | .error e => .failed e

/-- A single step of a machine that is alone. -/
theorem stepsTo_of_shows (hi : s.Idle) (h : s.bench.Shows x) (hx : x.step = some (y, r)) :
    ∃ s', StepsTo s s' (.ofResult r) ∧ s'.Idle ∧ s'.bench.Shows y := by
  obtain ⟨b', h', hl⟩ := Bench.leads_step h hx
  obtain ⟨n, s', hidle, rfl, hf, -⟩ := complete_of_leads hi hl
  refine ⟨s', ⟨n, fun fuel hle => ?_⟩, hidle, h'⟩
  rw [stepOnce, hf fuel hle]
  rcases r with e | (_ | _) <;> rfl

/-- A step that asks an empty queue waits for ever. -/
theorem stuck_of_shows (hi : s.Idle) (h : s.bench.Shows x) (hx : x.step = none) :
    ∃ s', StepsTo s s' .stuck := by
  obtain ⟨b', b'', fs, fs', hl, he⟩ := Bench.awaits_step h hx
  obtain ⟨n, s', hf⟩ := complete_of_awaits hi hl he
  exact ⟨s', n, fun fuel hle => by rw [stepOnce, hf fuel hle]⟩

end Scheduler
end TapeMachine
