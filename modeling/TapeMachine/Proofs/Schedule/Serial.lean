import TapeMachine.Proofs.Schedule.Calm
import TapeMachine.Proofs.Schedule.Past

/-! Schedules do not matter.

Whatever calls of steps and runs there are, in whatever order they take turns, a
machine that was not reset stands where as many single steps, one after the other,
take it with the same texts (`Serially`). A step that waits has changed nothing yet,
and a step that is refused changes nothing at all. -/
namespace TapeMachine

namespace Bench

/-- The texts that came for the steps that asked, in order. -/
def texts (b : Bench) : List Text := b.signs.filterMap Sign.text?

theorem delivered_eq (b : Bench) : b.delivered = b.signs.filterMap Sign.char? := by
  rw [delivered, signs, List.filterMap_filterMap]
  congr 1
  funext e
  cases e with
  | notice n => cases n <;> rfl
  | _ => rfl

end Bench

namespace Machine

/-- What can be seen of two machines is the same, but for the flags of calls that are
still in progress. -/
structure Alike (m m' : Machine) : Prop where
  tape : m'.tape = m.tape
  counter : m'.counter = m.counter
  output : m'.output = m.output
  input : m'.input = m.input
  cursor : m'.cursor = m.cursor
  loops : m'.loops = m.loops

variable {m m' m₀ : Machine} {a : Act} {sg : List Sign}

theorem Alike.of_bare (h : m.bare.settled = m'.bare.settled) : Alike m m' where
  tape := (congrArg (·.tape) h).symm
  counter := (congrArg (·.counter) h).symm
  output := (congrArg (·.output) h).symm
  input := (congrArg (·.input) h).symm
  cursor := (congrArg (·.cursor) h).symm
  loops := (congrArg (·.loops) h).symm

/-- A machine stands where its steps, one after the other, take it from `m₀` with the
texts that came for it, and its sink was called with what it put out. -/
structure Serially (m₀ m : Machine) (sg : List Sign) : Prop where
  reached : ∀ all, sg.filterMap Sign.text? <+: all →
    serial (textAt all) m₀ m.steps = (m.settled, (sg.filterMap Sign.text?).length)
  running : ∀ all, sg.filterMap Sign.text? <+: all → ∀ k, k < m.steps →
    (serial (textAt all) m₀ k).1.counter < (serial (textAt all) m₀ k).1.program.size
  speaks : m.speaks = m₀.speaks
  output : m.speaks = true → m.output.toList = sg.filterMap Sign.char?

theorem Serially.idle (h : Serially m₀ m sg) (hd : Does m a m') (hm : m'.settled = m.settled)
    (ht : (a.signs 0 m).filterMap Sign.text? = []) : Serially m₀ m' (sg ++ a.signs 0 m) := by
  have hsteps : m'.steps = m.steps := congrArg (·.steps) hm
  refine ⟨?_, ?_, hd.kept.speaks.trans h.speaks, fun hs => ?_⟩
  · rw [List.filterMap_append, ht, List.append_nil, hsteps, hm]
    exact h.reached
  · rw [List.filterMap_append, ht, List.append_nil, hsteps]
    exact h.running
  · rw [hd.kept.speaks] at hs
    rw [hd.chars hs 0, h.output hs, List.filterMap_append]

/-- A completed step is one step more in the row. -/
theorem Serially.onward (h : Serially m₀ m sg) (hd : Does m a m') (hc : a.Completes)
    (hs : m'.stepping = false)
    (ho : ∀ all, (sg ++ a.signs 0 m).filterMap Sign.text? <+: all →
      m.settled.onward (textAt all) (sg.filterMap Sign.text?).length =
        (m', ((sg ++ a.signs 0 m).filterMap Sign.text?).length)) :
    Serially m₀ m' (sg ++ a.signs 0 m) := by
  have hstep := hd.stepped hc
  have hfirst : sg.filterMap Sign.text? <+: (sg ++ a.signs 0 m).filterMap Sign.text? := by
    rw [List.filterMap_append]
    exact List.prefix_append _ _
  refine ⟨fun all hall => ?_, fun all hall k hk => ?_, hd.kept.speaks.trans h.speaks,
    fun hsp => ?_⟩
  · rw [hstep.steps, serial, h.reached all (hfirst.trans hall), settled_eq hs]
    exact ho all hall
  · rw [hstep.steps] at hk
    rcases Nat.lt_succ_iff_lt_or_eq.mp hk with hk | rfl
    · exact h.running all (hfirst.trans hall) k hk
    · rw [h.reached all (hfirst.trans hall)]
      exact hstep.running
  · rw [hd.kept.speaks] at hsp
    rw [hd.chars hsp 0, h.output hsp, List.filterMap_append]

/-- Every act of a machine that spills nothing and was not reset keeps to the row. -/
theorem Serially.act (h : Serially m₀ m sg) (hd : Does m a m') (ha : a ≠ .spill)
    (he : m.epoch = 0) : Serially m₀ m' (sg ++ a.signs 0 m) := by
  have hd' := hd
  cases hd with
  | ask => exact h.idle hd' rfl rfl
  | drop late hs hlate =>
    cases late with
    | none => exact h.idle hd' rfl rfl
    | some t =>
      have hpos := hlate (Option.some_ne_none t)
      omega
  | hear t hs hasks =>
    refine h.onward hd' trivial (inner_consume _).stepping fun all hall => ?_
    have hst : m.settled.stance = .request := stance_eq_request_iff.mpr ⟨rfl, hasks⟩
    rw [List.filterMap_append] at hall
    rw [Machine.onward, if_pos hst, textAt_of_prefix hall, List.filterMap_append,
      List.length_append]
    rfl
  | work hst =>
    have hfree := (stance_eq_inward_iff.mp hst).1
    refine h.onward hd' trivial ?_ fun all hall => ?_
    · exact (inner_execute _).stepping.trans ((inner_noted _).stepping.trans hfree)
    · rw [settled_eq hfree, Machine.onward, if_neg (by rw [hst]; decide), List.filterMap_append]
      cases hc : m.complaint? <;> simp [Act.signs, hc, Sign.text?]
  | put hst =>
    have hfree := (stance_eq_output_iff.mp hst).1
    refine h.onward hd' trivial hfree fun all hall => ?_
    rw [settled_eq hfree, Machine.onward, if_neg (by rw [hst]; decide),
      noted_execute_of_output hst, List.filterMap_append]
    cases hsp : m.speaks <;> simp [Act.signs, hsp, Sign.text?]
  | spill => exact absurd rfl ha

theorem Serially.step {frail : Prop} {sg' : List Sign} (h : m.epoch = 0 → Serially m₀ m sg)
    (hf : ¬ frail) (hs : Stir frail [m] sg' [m']) (he : m'.epoch = 0) :
    Serially m₀ m' (sg ++ sg') := by
  rcases hs.of_single with ⟨k, rfl, rfl⟩ | ⟨a, m₁, k, hd, hspill, rfl, rfl⟩
  · rw [epoch_wiped] at he
    obtain rfl : k = 0 := by omega
    rw [List.replicate_zero, List.append_nil]
    exact h (by omega)
  · rw [epoch_wiped, hd.kept.epoch] at he
    obtain rfl : k = 0 := by omega
    rw [List.replicate_zero, List.append_nil]
    refine (h (by omega)).act hd (fun ha => ?_) (by omega)
    rcases hspill ha with hfrail | hk
    · exact hf hfrail
    · exact absurd hk (Nat.lt_irrefl _)

end Machine

namespace Scheduler
open Machine

variable {s : Scheduler} {m : Machine} {texts : Nat → Text} {source : Option Source}
  {sink : Option Sink} {p : Program} {o : Options} {b : Bench}

/-- The row of steps does not depend on the schedule. -/
theorem play_serially (hb : Bench.make {source := source, sink := sink} p o = .ok b)
    (hk : ∀ k, sink = some k → ¬ k.Frail) (moves : List Move) {m₀ : Machine} (hm₀ : b.bare = [m₀])
    (hm : (({bench := b} : Scheduler).play moves).bench.machine? 0 = some m) (he : m.epoch = 0) :
    Serially m₀ m.bare (({bench := b} : Scheduler).play moves).bench.signs := by
  obtain ⟨m₁, hnew, -, hbare, hsigns, hsession⟩ := exists_of_make hb
  obtain rfl : m₀ = m₁ := by simpa using hm₀.symm.trans hbare
  have hfrail : ¬ b.Frail := by
    rintro ⟨k, hsink, hf⟩
    obtain ⟨n, hn, -, rfl⟩ := Bench.eq_of_make hb
    exact hk k hsink hf
  have hstart : Serially m₀ m₀ b.signs := by
    have hsteps := hnew.atStart.steps
    rw [hsigns]
    refine ⟨fun all _ => ?_, fun all _ k hk => ?_, rfl, fun _ => ?_⟩
    · rw [hsteps, settled_eq hnew.stepping]
      rfl
    · omega
    · obtain ⟨p, n, hn, hears, speaks, rfl⟩ := hnew
      rfl
  obtain ⟨n, hn, hserial⟩ := play_single_induction
    (P := fun n sg => n.epoch = 0 → Serially m₀ n sg) (Starts.machine hb).sound hsession hbare
    (fun _ => hstart) (fun n sg n' sg' h hs => Serially.step h hfrail hs) moves
  have hbm := Bench.getElem?_bare_of hm
  rw [hn] at hbm
  cases hbm
  exact hserial he

/-- Callbacks that are bound in the same places make no difference to a new machine. -/
theorem calm_of_make {source' : Option Source} {sink' : Option Sink} {b' : Bench}
    (hb : Bench.make {source := source, sink := sink} p o = .ok b)
    (hb' : Bench.make {source := source', sink := sink'} p o = .ok b')
    (hsource : source'.isSome = source.isSome) (hsink : sink'.isSome = sink.isSome)
    (hgives : Source.Gives texts 0 source') (htakes : Sink.Takes sink') (hm : b.bare = [m]) :
    Bench.Calm texts b' m 0 := by
  obtain ⟨n, hn, hcells, rfl⟩ := Bench.eq_of_make hb
  obtain ⟨n', hn', hcells', rfl⟩ := Bench.eq_of_make hb'
  obtain rfl : n = n' := Option.some.inj (hcells.symm.trans hcells')
  refine ⟨rfl, ?_, rfl, hgives, ?_, htakes⟩
  · rw [← hm, hsource, hsink]
    rfl
  · obtain rfl : _ = m := (List.cons.inj hm).1
    exact hsource.symm

/-- Schedules do not matter. At any point of a run without resets, and with a sink that
does not fail, a machine stands where as many single steps take a fresh one whose
source gives the same texts, and its sink was called with the characters of its
output. As long as no step is completed nothing changes, and a step that is asked for
while another one waits is refused and changes nothing. -/
theorem play_serial (hb : Bench.make {source := source, sink := sink} p o = .ok b)
    (hk : ∀ k, sink = some k → ¬ k.Frail) (moves : List Move)
    (hm : (({bench := b} : Scheduler).play moves).bench.machine? 0 = some m) (he : m.epoch = 0) :
    let s := ({bench := b} : Scheduler).play moves
    (∀ source' sink' b', Source.Gives (textAt s.bench.texts) 0 source' →
      source'.isSome = source.isSome → Sink.Takes sink' → sink'.isSome = sink.isSome →
      Bench.make {source := source', sink := sink'} p o = .ok b' →
      ∃ s' m', StepTimes m.steps {bench := b'} s' ∧ s'.bench.machine? 0 = some m' ∧
        m'.steps = m.steps ∧ Alike m m') ∧
    (sink.isSome = true → s.bench.delivered = m.output.toList) ∧
    (∀ more m', (s.play more).bench.machine? 0 = some m' → m'.epoch = 0 → m'.steps = m.steps →
      Alike m m') ∧
    (m.stepping = true → ∀ fs, s.bench.advance fs (.call (.step 0)) =
      (s.bench, .fail (.reentrantStep m.counter) fs)) := by
  intro s
  obtain ⟨m₀, hnew, -, hbare, -, hsession⟩ := exists_of_make hb
  have hserial := play_serially hb hk moves hbare hm he
  refine ⟨fun source' sink' b' hgives hsource htakes hsink hb' => ?_, fun hsome => ?_,
    fun more m' hm' he' hsteps => ?_, fun hstepping fs => ?_⟩
  · have hcalm := calm_of_make hb hb' hsource hsink hgives htakes hbare
    have hidle : Idle {bench := b'} := ⟨rfl, rfl⟩
    have hwalk : Walk (textAt s.bench.texts) m.steps (m₀, 0) _ :=
      walk_serial (hserial.running _ (List.prefix_refl _))
    obtain ⟨s', htimes, -, hcalm'⟩ := steps_of_walk hwalk hidle hcalm hnew.stepping
    have hreached : serial (textAt s.bench.texts) m₀ m.steps = (m.bare.settled, _) :=
      hserial.reached _ (List.prefix_refl _)
    obtain ⟨m', hm', hbare'⟩ := Bench.exists_machine? hcalm'.machine
    rw [hreached] at hbare'
    refine ⟨s', m', htimes, hm', (congrArg (·.steps) hbare' : m'.bare.steps = _), .of_bare ?_⟩
    rw [hbare']
    rfl
  · have hspeaks : m.speaks = sink.isSome := by
      obtain ⟨n, hn, -, rfl⟩ := Bench.eq_of_make hb
      obtain rfl : _ = m₀ := (List.cons.inj hbare).1
      exact hserial.speaks
    rw [Bench.delivered_eq]
    exact (hserial.output (hspeaks.trans hsome)).symm
  · have hplay : s.play more = ({bench := b} : Scheduler).play (moves ++ more) :=
      (play_append _ moves more).symm
    have hserial' := play_serially hb hk (moves ++ more) hbare (hplay ▸ hm') he'
    rw [← hplay] at hserial'
    have hsigns := signs_prefix_play (play_sound (Starts.machine hb).sound moves).1 more
    have hreached := hserial.reached _ (hsigns.filterMap Sign.text?)
    have hreached' := hserial'.reached _ (List.prefix_refl _)
    rw [show m'.bare.steps = m.bare.steps from hsteps, hreached] at hreached'
    exact .of_bare (Prod.mk.inj hreached').1
  · exact Bench.advance_of_stepping hm hstepping fs

/-- While a run waits for a text, a step is asked for and refused. Then the text comes, and
another step takes its turn between two steps of the run. -/
def meanwhile : List Move :=
  Move.alone (.step 0) 2 ++ [.outside (.feed ['a']), .outside (.spawn (.step 0)), .dispatch] ++
    List.replicate 3 .turn ++ .dispatch :: List.replicate 2 .turn ++
    .dispatch :: List.replicate 3 .turn

/-- A run that waits for a text from a queue, with other calls coming in between: the refused
step leaves the machine as it is, and in the end the machine stands where three single steps
take it with a source that has the same text. -/
theorem play_serial_interleaved : ∃ b b' m₁ m₂ m,
    Bench.make {source := some (.queue []), sink := some .silent} ⟨#[',', '+', '.']⟩
        {memorySize := .integer 1} = .ok b ∧
    Bench.make {source := some (.fixed ['a']), sink := some .silent} ⟨#[',', '+', '.']⟩
        {memorySize := .integer 1} = .ok b' ∧
    let s₁ := ({bench := b} : Scheduler).play (Move.alone (.run 0) 4)
    let s := ({bench := b} : Scheduler).play (Move.alone (.run 0) 4 ++ meanwhile)
    (s₁.bench.machine? 0 = some m₁ ∧ m₁.stepping = true ∧
      ∀ fs, s₁.bench.advance fs (.call (.step 0)) = (s₁.bench, .fail (.reentrantStep 0) fs)) ∧
    ((s₁.play (Move.alone (.step 0) 2)).bench.machine? 0 = some m₂ ∧ Alike m₁ m₂) ∧
    (s.bench.machine? 0 = some m ∧ m.epoch = 0 ∧ m.steps = 3 ∧ m.output = #['b']) ∧
    (∃ s' m', StepTimes 3 {bench := b'} s' ∧ s'.bench.machine? 0 = some m' ∧ m'.steps = 3 ∧
      Alike m m') ∧
    s.bench.delivered = m.output.toList := by
  have hb : Bench.make {source := some (.queue []), sink := some .silent} ⟨#[',', '+', '.']⟩
      {memorySize := .integer 1} = .ok _ := rfl
  have hb' : Bench.make {source := some (.fixed ['a']), sink := some .silent}
      ⟨#[',', '+', '.']⟩ {memorySize := .integer 1} = .ok _ := rfl
  have hsink : ∀ k, some Sink.silent = some k → ¬ k.Frail := fun k h => by
    cases h
    exact id
  have hgives : Source.Gives (textAt [['a']]) 0 (some (.fixed ['a'])) := by
    intro n hn
    match n with
    | 1 => rfl
    | n + 2 => rfl
  obtain ⟨-, -, hkept, hrefused⟩ := play_serial hb hsink (Move.alone (.run 0) 4) rfl rfl
  obtain ⟨hserial, hdelivered, -, -⟩ :=
    play_serial hb hsink (Move.alone (.run 0) 4 ++ meanwhile) rfl rfl
  exact ⟨_, _, _, _, _, hb, hb', ⟨rfl, rfl, hrefused rfl⟩,
    ⟨rfl, hkept (Move.alone (.step 0) 2) _ rfl rfl rfl⟩, ⟨rfl, rfl, rfl, rfl⟩,
    hserial _ (some .silent) _ hgives rfl trivial rfl hb', hdelivered rfl⟩

end Scheduler
end TapeMachine
