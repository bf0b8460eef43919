import TapeMachine.CommandLine.Execution
import TapeMachine.Proofs.Schedule.Calm
import TapeMachine.Proofs.Schedule.Heed
import TapeMachine.Proofs.Schedule.Serial

/-! Machines that are tended.

A source that gives its texts and a sink that takes every character, and that do nothing
besides, leave the flags of a machine alone. So a step within a run has the effect of its
instruction on the machine as a whole, the sink has been called with all that the machine
has put out, and a stream behind the sink has shown it (`Bench.Tended`). Others may write to
the stream too: what they write comes between, and the machine does not notice
(`Bench.Tended.write`). -/
namespace TapeMachine

/-- A source that gives texts and does nothing else. -/
def Source.Plain : Source → Prop
  | .fixed _ | .lines _ _ => True
  | .queue _ | .scripted _ => False

/-- A sink that takes every character and does nothing else. -/
def Sink.Plain : Sink → Prop
  | .silent | .stream none => True
  | .stream (some _) | .scripted _ => False

/-- Neither a sink nor the stream behind it has to do with the event. -/
def Event.Silent : Event → Prop
  | .emitted _ _ _ | .wrote _ => False
  | _ => True

namespace Machine
variable (texts : Nat → Text) (m : Machine) (k : Nat)

@[simp] theorem flags_noted : m.noted.flags = m.flags := by
  rw [noted]
  split <;> simp

/-- A step leaves the flags of a run alone. -/
theorem flags_onward : (m.onward texts k).1.flags = m.flags := by
  rw [onward]
  split <;> simp

/-- A step does not look at the flags of a run. -/
theorem onward_bare :
    m.bare.onward texts k = ((m.onward texts k).1.bare, (m.onward texts k).2) := by
  rw [onward, onward, stance_bare]
  split <;> simp

end Machine

namespace Bench
variable {b : Bench} {m : Machine} {texts : Nat → Text} {out : Sink} {k : Nat} {e : Event}

theorem delivered_record (he : e.Silent) : (b.record e).delivered = b.delivered := by
  simp only [delivered, record, Array.toList_push, List.filterMap_append]
  cases e with
  | emitted => exact he.elim
  | _ => exact List.append_nil _

theorem written_record (he : e.Silent) :
    CommandLine.written (b.record e) = CommandLine.written b := by
  simp only [CommandLine.written, record, Array.toList_push, List.filterMap_append]
  cases e with
  | wrote => exact he.elim
  | _ => simp

/-- An earlier moment: what the sink had had by then, and what the stream behind it had
shown. -/
structure Prior where
  given : Text := []
  shown : Text := []

/-- Machine 0 works for no session, and its callbacks are plain: the source has been
called so many times and goes on to give these texts, and the sink has had all that the
machine has put out. What it has had since an earlier moment the stream that may be behind
it has shown. -/
structure Tended (texts : Nat → Text) (out : Sink) (prior : Prior) (b : Bench) (m : Machine)
    (k : Nat) : Prop where
  session : b.session = none
  machine : b.machine? 0 = some m
  requests : b.requests = k
  source : ∃ source, b.source = some source ∧ source.Plain
  gives : Source.Gives texts k b.source
  sink : b.sink = some out
  plain : out.Plain
  hears : m.hears = true
  speaks : m.speaks = true
  delivered : b.delivered = m.output.toList
  written : out = .stream none → ∃ since, b.delivered = prior.given ++ since ∧
    CommandLine.written b = prior.shown ++ since

namespace Tended
variable {prior : Prior}

theorem record (h : Tended texts out prior b m k) (he : e.Silent) :
    Tended texts out prior (b.record e) m k :=
  {h with
    delivered := (delivered_record he).trans h.delivered
    written := fun hs => by
      rw [delivered_record he, written_record he]
      exact h.written hs}

theorem update {f : Machine → Machine} (h : Tended texts out prior b m k)
    (hears : (f m).hears = m.hears) (speaks : (f m).speaks = m.speaks)
    (output : (f m).output = m.output) : Tended texts out prior (b.update 0 f) (f m) k :=
  {h with
    machine := machine?_update_self h.machine f
    hears := hears.trans h.hears
    speaks := speaks.trans h.speaks
    delivered := h.delivered.trans (congrArg Array.toList output.symm)}

/-! ### What a step does -/

theorem complain (h : Tended texts out prior b m k) :
    Tended texts out prior (b.complain 0) m.noted k := by
  rw [Bench.complain, h.machine, Option.bind_some, Machine.noted]
  cases m.complaint? with
  | none => exact h
  | some c => exact (h.update (f := fun m => m.report c) rfl rfl rfl).record trivial

theorem work (h : Tended texts out prior b m k)
    (ho : m.program.command? m.counter ≠ some .output) :
    Tended texts out prior ((b.complain 0).update 0 fun m => m.execute.advance)
      m.noted.execute.advance k := by
  have hinner := Machine.inner_execute m.noted
  refine h.complain.update (f := fun m => m.execute.advance) hinner.hears hinner.speaks ?_
  refine Machine.output_execute ?_
  rw [Machine.noted_eq]
  exact ho

/-- A character goes to the sink, and through it to the stream. -/
theorem deliver (h : Tended texts out prior b m k) :
    ∃ b', (b.update 0 Machine.emit).deliver 0 m.cellChar = (b', none) ∧
      Tended texts out prior b' m.emit k := by
  have hsink := h.sink
  have hm : (b.update 0 Machine.emit).machine? 0 = some m.emit := machine?_update_self h.machine _
  have hout : m.emit.output.toList = b.delivered ++ [m.cellChar] := by
    rw [h.delivered]
    exact Array.toList_push
  rw [Bench.deliver]
  rcases out with - | (- | room) | reaction
  · refine ⟨_, by simp only [Bench.record, Bench.update, hsink]; rfl, ?_⟩
    refine ⟨h.session, hm, h.requests, h.source, h.gives, rfl, trivial, h.hears, h.speaks,
      ?_, fun hs => ?_⟩
    · rw [hout]
      simp [Bench.delivered]
    · cases hs
  · refine ⟨_, by simp only [Bench.record, Bench.update, hsink, blocked]; rfl, ?_⟩
    refine Tended.record ?_ trivial
    refine ⟨h.session, hm, h.requests, h.source, h.gives, ?_, trivial, h.hears, h.speaks,
      ?_, fun _ => ?_⟩
    · simp [Bench.write, Bench.record]
    · rw [hout]
      simp [Bench.write, Bench.record, Bench.delivered]
    · obtain ⟨since, hgiven, hshown⟩ := h.written rfl
      refine ⟨since ++ [m.cellChar], ?_, ?_⟩
      · simp only [Bench.delivered] at hgiven
        simp [Bench.delivered, Bench.write, Bench.record, hgiven]
      · simp only [CommandLine.written] at hshown
        simp [CommandLine.written, Bench.write, Bench.record, hshown]
  · exact h.plain.elim
  · exact h.plain.elim

theorem putOut (h : Tended texts out prior b m k) (fs : List Frame) :
    ∃ b', b.putOut 0 fs = (b', .value (.stepped true) fs) ∧
      Tended texts out prior b' m.emit.advance k := by
  obtain ⟨b', hdeliver, h'⟩ := h.deliver
  have hepoch : b'.epoch? 0 = some m.epoch := by rw [epoch?, h'.machine]; rfl
  refine ⟨b'.update 0 Machine.advance, ?_, h'.update rfl rfl rfl⟩
  rw [Bench.putOut, h.machine, Option.map_some, h.speaks]
  simp only [hdeliver, hepoch, if_true]

/-- The source gives its next text at once. -/
theorem ask (h : Tended texts out prior b m k) (fs : List Frame) : ∃ b',
    b.ask 0 fs = (b', .go (.answered (.ok (texts (k + 1)))) fs) ∧
      Tended texts out prior b' m (k + 1) := by
  have hasked : ∀ source : Source, source.Plain → Source.Gives texts (k + 1) (some source) →
      Tended texts out prior ({b with requests := b.requests + 1, source := some source}.record
        (.asked 0)) m (k + 1) := fun source hplain hgives =>
    Tended.record {h with
      requests := congrArg (· + 1) h.requests
      source := ⟨source, rfl, hplain⟩
      gives := hgives} trivial
  obtain ⟨source, hsource, hplain⟩ := h.source
  have hgives := h.gives
  rw [hsource] at hgives
  rw [Bench.ask]
  rcases source with text | texts' | ⟨rest, keepEnd⟩ | reply
  · have htext : texts (k + 1) = if k + 1 = 1 then text else [] :=
      hgives (k + 1) (Nat.lt_succ_self k)
    rw [htext]
    simp only [Bench.record, hsource, h.requests]
    refine ⟨_, rfl, ?_⟩
    have h' := hasked (.fixed text) trivial fun n hn => hgives n (Nat.lt_of_succ_lt hn)
    rwa [h.requests] at h'
  · exact hplain.elim
  · have hline : texts (k + 1) = Source.line keepEnd rest 0 := hgives 0
    have hrest : Source.Gives texts (k + 1) (some (.lines (Source.splitLine rest).2 keepEnd)) := by
      intro n
      rw [Nat.add_right_comm]
      exact hgives (n + 1)
    simp only [Bench.record, hsource, hline]
    have h' := hasked (.lines (Source.splitLine rest).2 keepEnd) trivial hrest
    cases rest with
    | nil =>
      refine ⟨_, ?_, h'.record (e := .notice .exhausted) trivial⟩
      cases keepEnd <;> rfl
    | cons c rest => exact ⟨_, rfl, h'⟩
  · exact hplain.elim

/-- A step that waits begins to wait with the machine as it was but for that. -/
theorem request (h : Tended texts out prior b m k) (fs : List Frame) : ∃ b',
    b.request 0 fs = (b', .go (.answered (.ok (texts (k + 1)))) (.reading 0 m.epoch :: fs)) ∧
      Tended texts out prior b' {m with stepping := true} (k + 1) := by
  have hwaits := (h.update (f := fun m => {m with stepping := true}) rfl rfl rfl).record
    (e := .notice (.requested m.counter)) trivial
  obtain ⟨b', hask, h'⟩ := hwaits.ask (.reading 0 m.epoch :: fs)
  refine ⟨b', ?_, h'⟩
  rw [Bench.request, h.machine]
  exact hask

theorem endReading (h : Tended texts out prior b {m with stepping := true} k)
    (hs : m.stepping = false) (t : Text) (fs : List Frame) : ∃ b',
    b.endReading 0 m.epoch (.ok t) fs = (b', .value (.stepped true) fs) ∧
      Tended texts out prior b' (m.receive t).consume.advance k := by
  have hfreed : Tended texts out prior (b.update 0 fun m => {m with stepping := false}) m.settled k :=
    h.update (f := fun m => {m with stepping := false}) rfl rfl rfl
  rw [Machine.settled_eq hs] at hfreed
  have hheard := hfreed.record (e := .answered 0 t) trivial
  have hinner := Machine.inner_consume (m.receive t)
  have hout : (m.receive t).consume.advance.output = m.output := by
    obtain ⟨tape, cursor, heq⟩ := Machine.consume_eq (m.receive t)
    rw [heq]
    rfl
  refine ⟨_, ?_, hheard.update (f := fun m => (m.receive t).consume.advance) hinner.hears
    hinner.speaks hout⟩
  simp only [Bench.endReading]
  rw [if_pos (by rw [epoch?, hheard.machine]; rfl)]

/-- One step of the machine, whoever calls it. -/
theorem step (h : Tended texts out prior b m k) (hs : m.stepping = false)
    (hr : m.counter < m.program.size) (fs : List Frame) :
    ∃ b', Leads b (.call (.step 0)) fs b' (.returned (.ok (.stepped true))) fs ∧
      Tended texts out prior b' (m.onward texts k).1 (m.onward texts k).2 := by
  have hcall : b.advance fs (.call (.step 0)) = b.callStep 0 fs := rfl
  rw [callStep, h.machine, Option.map_some] at hcall
  rw [Machine.onward]
  rcases Machine.stance_inside hs hr with hst | hst | hst
  · rw [hst] at hcall
    obtain ⟨b₁, hrequest, h₁⟩ := h.request fs
    obtain ⟨b', hend, h'⟩ := h₁.endReading hs (texts (k + 1)) fs
    rw [if_pos hst]
    exact ⟨b', .go (hcall.trans hrequest) (.go hend .refl), h'⟩
  · rw [hst] at hcall
    obtain ⟨b', hput, h'⟩ := h.putOut fs
    rw [if_neg (by simp [hst]), Machine.noted_execute_of_output hst]
    exact ⟨b', .go (hcall.trans hput) .refl, h'⟩
  · rw [hst] at hcall
    obtain ⟨-, -, c, hc, hne⟩ := Machine.stance_eq_inward_iff.mp hst
    rw [if_neg (by simp [hst])]
    exact ⟨_, .go hcall .refl, h.work (by rw [hc]; simpa using hne)⟩

/-- At the end of the program a step finds nothing to do. -/
theorem stop (h : Tended texts out prior b m k) (hs : m.stepping = false)
    (he : m.program.size ≤ m.counter) (fs : List Frame) :
    ∃ b', b.advance fs (.call (.step 0)) = (b', .value (.stepped false) fs) ∧
      Tended texts out prior b' {m with running := false} k := by
  have hended : m.stance = .ended := Machine.stance_eq_ended_iff.mpr ⟨hs, decide_eq_true he⟩
  refine ⟨_, ?_, h.update (f := fun m => {m with running := false}) rfl rfl rfl⟩
  show b.callStep 0 fs = _
  rw [callStep, h.machine, Option.map_some, hended]

/-! ### What others write -/

/-- The stream has shown what the machine has put out since. -/
theorem written_eq (h : Tended texts (.stream none) prior b m k) {t : Text}
    (hm : m.output.toList = prior.given ++ t) : CommandLine.written b = prior.shown ++ t := by
  obtain ⟨since, hgiven, hshown⟩ := h.written rfl
  rw [h.delivered, hm] at hgiven
  rw [hshown, List.append_cancel_left hgiven]

/-- The present moment will do for an earlier one. -/
theorem now (h : Tended texts (.stream none) prior b m k) :
    Tended texts (.stream none) ⟨m.output.toList, CommandLine.written b⟩ b m k :=
  {h with written := fun _ => ⟨[], by simp [h.delivered], by simp⟩}

/-- A text that others write gets to the stream too. -/
theorem write (h : Tended texts (.stream none) prior b m k) (t : Text) :
    b.blocked = false ∧ CommandLine.written (b.write t) = CommandLine.written b ++ t ∧
      Tended texts (.stream none) ⟨m.output.toList, CommandLine.written b ++ t⟩
        (b.write t) m k := by
  have hwritten : CommandLine.written (b.write t) = CommandLine.written b ++ t := by
    simp [CommandLine.written, Bench.write, Bench.record]
  have hdelivered : (b.write t).delivered = m.output.toList := by
    rw [← h.delivered]
    simp [Bench.delivered, Bench.write, Bench.record]
  refine ⟨by rw [blocked, h.sink], hwritten, ?_⟩
  refine ⟨h.session, h.machine, h.requests, h.source, h.gives, ?_, trivial, h.hears, h.speaks,
    hdelivered, fun _ => ⟨[], by simp [hdelivered], by simp [hwritten]⟩⟩
  simp [Bench.write, Bench.record, h.sink]

theorem writeAll (h : Tended texts (.stream none) prior b m k) (ts : List Text) :
    ∃ b', CommandLine.writeAll b ts = (b', true) ∧
      CommandLine.written b' = CommandLine.written b ++ ts.flatten ∧
      Tended texts (.stream none) ⟨m.output.toList, CommandLine.written b'⟩ b' m k := by
  induction ts generalizing b prior with
  | nil => exact ⟨b, rfl, (List.append_nil _).symm, h.now⟩
  | cons t ts ih =>
    obtain ⟨hblocked, hwritten, h₁⟩ := h.write t
    obtain ⟨b', hall, hwritten', h'⟩ := ih h₁
    refine ⟨b', ?_, ?_, h'⟩
    · rw [CommandLine.writeAll, hblocked]
      exact hall
    · rw [hwritten', hwritten, List.flatten_cons, List.append_assoc]

end Tended
end Bench
end TapeMachine
