import TapeMachine.Proofs.Machine.Stripped
import TapeMachine.Proofs.Schedule.Row

/-! Comments do not matter.

A program runs like the same program without comments: between two instructions the one
passes over its comments while the other stands still, and at an instruction both do the
same, ask and hand over the same, and fail in the same way (`Scene.Stripped.step`). So
every row of steps of the one goes with a row of the other in which only the steps at
comments are left out (`rows_of_strip`). Nothing is asked of the callbacks: they may
fail, pause, reset, and make calls of their own. -/
namespace TapeMachine

/-- Another position in what was told of a bracket. -/
def Sign.relocate (f : Nat → Nat) : Sign → Sign
  | .complained c => .complained (c.relocate f)
  | g => g

/-- The step found an instruction. -/
def Entry.instructs (e : Entry) : Bool := e.command.any (· != .comment)

/-- The entries of a log for steps at instructions. -/
def instructed (log : List Entry) : List Entry := log.filter Entry.instructs

theorem instructed_append (log log' : List Entry) :
    instructed (log ++ log') = instructed log ++ instructed log' := List.filter_append ..

theorem instructed_of_instruction {c : Command} (hne : c ≠ .comment) (r : Except Failure Bool) :
    instructed [⟨some c, r⟩] = [⟨some c, r⟩] :=
  List.filter_cons_of_pos (p := Entry.instructs) (bne_iff_ne.mpr hne)

namespace Scene

/-- The second scene is on the stripped program what the first one is on its own. -/
structure Stripped (p : Program) (x x' : Scene) : Prop where
  program : x.machine.program = p
  machine : x.machine.Stripped x'.machine
  source : x'.source = x.source
  sink : x'.sink = x.sink
  requests : x'.requests = x.requests
  deliveries : x'.deliveries = x.deliveries
  signs : x'.signs = x.signs.map (Sign.relocate p.rank)
  /-- No step waits. -/
  free : x.machine.stepping = false

namespace Stripped
variable {p : Program} {x x' y : Scene} {c : Command} {r : Except Failure Bool}

theorem tell (h : Stripped p x x') (sg : List Sign) :
    Stripped p (x.tell sg) (x'.tell (sg.map (Sign.relocate p.rank))) := by
  refine {h with signs := ?_}
  show x'.signs ++ _ = (x.signs ++ sg).map _
  rw [h.signs, List.map_append]

theorem withMachine {m m' : Machine} (h : Stripped p x x') (hm : m.Stripped m')
    (hp : m.program = x.machine.program) (hs : m.stepping = x.machine.stepping) :
    Stripped p (x.withMachine m) (x'.withMachine m') :=
  {h with program := hp.trans h.program, machine := hm, free := hs.trans h.free}

theorem resets (h : Stripped p x x') (k : Nat) : Stripped p (x.resets k) (x'.resets k) := by
  have htell := (h.withMachine (h.machine.wiped k) (Machine.program_wiped _ k)
    (Machine.stepping_wiped _ k)).tell (List.replicate k .reset)
  rwa [List.map_replicate] at htell

theorem asked (h : Stripped p x x') (r : Hearing) : Stripped p (x.asked r) (x'.asked r) := by
  have htell := h.tell [.asked 0]
  have hasked : Stripped p
      {x.tell [.asked 0] with source := r.source, requests := x.requests + 1}
      {x'.tell [.asked 0] with source := r.source, requests := x'.requests + 1} :=
    {htell with source := rfl, requests := congrArg (· + 1) h.requests}
  exact hasked.resets r.resets

theorem handed (h : Stripped p x x') (c : Char) (r : Taking) :
    Stripped p (x.handed c r) (x'.handed c r) := by
  have htell := h.tell [.emitted 0 c]
  have hhanded : Stripped p
      {x.tell [.emitted 0 c] with sink := r.sink, deliveries := x.deliveries + 1}
      {x'.tell [.emitted 0 c] with sink := r.sink, deliveries := x'.deliveries + 1} :=
    {htell with sink := rfl, deliveries := congrArg (· + 1) h.deliveries}
  exact hhanded.resets r.resets

/-! ### At an instruction -/

section Instruction
variable (h : Stripped p x x') (hc : x.machine.program.command? x.machine.counter = some c)
  (hne : c ≠ .comment)
include h hc hne

theorem work : Stripped p x.work x'.work := by
  have hinner := Machine.inner_noted x.machine
  have hinner' := Machine.inner_execute x.machine.noted
  have hnoted : x.machine.noted.program.command? x.machine.noted.counter = some c := by
    rw [Machine.noted_eq]
    exact hc
  have hsigns : (x'.machine.complaint?.map Sign.complained).toList =
      (x.machine.complaint?.map Sign.complained).toList.map (Sign.relocate p.rank) := by
    rw [h.machine.complaint? hc hne, h.program]
    cases x.machine.complaint? <;> rfl
  rw [Scene.work, Scene.work, hsigns]
  exact (h.tell _).withMachine ((h.machine.noted hc hne).execute hnoted hne)
    (hinner'.program.trans hinner.program) (hinner'.stepping.trans hinner.stepping)

theorem put : x'.put.2 = x.put.2 ∧ Stripped p x.put.1 x'.put.1 := by
  have hchar : x'.machine.cellChar = x.machine.cellChar := by
    rw [Machine.cellChar, Machine.cellChar, h.machine.tape]
  have hemitted : Stripped p (x.withMachine x.machine.emit) (x'.withMachine x'.machine.emit) :=
    h.withMachine h.machine.emit rfl rfl
  rw [Scene.put, Scene.put, hchar, h.machine.speaks, h.deliveries, h.sink]
  cases x.machine.speaks with
  | false => exact ⟨rfl, h.withMachine (h.machine.emit.advance hc hne) rfl rfl⟩
  | true =>
    simp only [if_true]
    generalize Sink.taking (x.deliveries + 1) x.sink = r
    have hhanded := hemitted.handed x.machine.cellChar r
    cases r.failure with
    | some e => exact ⟨rfl, hhanded⟩
    | none =>
      simp only
      split
      next hzero =>
        refine ⟨rfl, hhanded.withMachine (hhanded.machine.advance ?_ hne) rfl rfl⟩
        show (x.machine.emit.wiped r.resets).program.command?
          (x.machine.emit.wiped r.resets).counter = some c
        rw [hzero]
        exact hc
      next => exact ⟨rfl, hhanded⟩

theorem read (r : Hearing) :
    (x'.read r).2 = (x.read r).2 ∧ Stripped p (x.read r).1 (x'.read r).1 := by
  have hasked := h.asked r
  rw [Scene.read, Scene.read]
  cases r.answer with
  | error e => exact ⟨rfl, hasked⟩
  | ok text =>
    have hheard := hasked.tell [.answered 0 text]
    simp only
    split
    next hzero =>
      have hinner := Machine.inner_consume ((x.machine.wiped r.resets).receive text)
      refine ⟨rfl, hheard.withMachine ((hheard.machine.receive text).consume_advance ?_ hne)
        hinner.program hinner.stepping⟩
      show (x.machine.wiped r.resets).program.command? (x.machine.wiped r.resets).counter = some c
      rw [hzero]
      exact hc
    next => exact ⟨rfl, hheard⟩

/-- At an instruction both come to the same, if they come to anything. -/
theorem step : (x.step = none → x'.step = none) ∧
    ∀ y r, x.step = some (y, r) → ∃ y', x'.step = some (y', r) ∧ Stripped p y y' := by
  have hstance := h.machine.stance h.free hc hne
  cases hst : x.machine.stance with
  | occupied counter =>
    have hfree := h.free
    rw [Machine.stepping_of_stance hst] at hfree
    cases hfree
  | ended =>
    have hended := (Machine.stance_eq_ended_iff.mp hst).2
    have hlt := Program.lt_size_of_command? hc
    rw [Machine.ended, decide_eq_true_eq] at hended
    omega
  | inward =>
    rw [step_of_inward hst, step_of_inward (hstance.trans hst)]
    refine ⟨fun hnone => absurd hnone (Option.some_ne_none _), fun y r hy => ?_⟩
    cases hy
    exact ⟨x'.work, rfl, h.work hc hne⟩
  | output =>
    obtain ⟨hresult, hput⟩ := h.put hc hne
    rw [step_of_output hst, step_of_output (hstance.trans hst)]
    refine ⟨fun hnone => absurd hnone (Option.some_ne_none _), fun y r hy => ?_⟩
    rw [Option.some.inj hy] at hresult hput
    exact ⟨x'.put.1, congrArg some (Prod.ext rfl hresult), hput⟩
  | request =>
    rw [step_of_request hst, step_of_request (hstance.trans hst), h.requests, h.source]
    refine ⟨fun hnone => Option.map_eq_none_iff.mpr (Option.map_eq_none_iff.mp hnone),
      fun y r hy => ?_⟩
    obtain ⟨a, ha, heq⟩ := Option.map_eq_some_iff.mp hy
    obtain ⟨hresult, hread⟩ := h.read hc hne a
    rw [heq] at hresult hread
    exact ⟨(x'.read a).1, Option.map_eq_some_iff.mpr ⟨a, ha, Prod.ext rfl hresult⟩, hread⟩

end Instruction

/-! ### Between instructions -/

theorem comment (h : Stripped p x x')
    (hc : x.machine.program.command? x.machine.counter = some .comment) :
    ∃ y, x.step = some (y, .ok true) ∧ Stripped p y x' ∧
      y.machine.counter = x.machine.counter + 1 := by
  have hst : x.machine.stance = .inward := by
    rw [Machine.stance_of_not_stepping h.free, hc]
  have hnone := Machine.complaint?_eq_none (m := x.machine) (by rw [hc]; decide)
    (by rw [hc]; decide)
  have hwork : x.work = x.withMachine x.machine.advance := by
    rw [Scene.work, hnone, Machine.noted_of_complaint?_eq_none hnone, Machine.execute_of hc]
    simp [Scene.tell, Scene.withMachine, Machine.perform]
  have hcomment := h.machine.comment hc
  rw [Machine.noted_of_complaint?_eq_none hnone, Machine.execute_of hc] at hcomment
  refine ⟨x.withMachine x.machine.advance, ?_, {h with machine := hcomment}, rfl⟩
  rw [step_of_inward hst, hwork]

/-- The comments from here on to the next instruction or to the end of the program. -/
theorem exists_row (h : Stripped p x x') : ∃ log y, Row x log y ∧ instructed log = [] ∧
    Stripped p y x' ∧ (y.machine.ended = true ∨
      ∃ c, y.machine.program.command? y.machine.counter = some c ∧ c ≠ .comment) := by
  induction hn : p.size - x.machine.counter generalizing x with
  | zero =>
    refine ⟨[], x, .nil, rfl, h, .inl (decide_eq_true ?_)⟩
    rw [h.program]
    omega
  | succ n ih =>
    have hlt : ¬ x.machine.program.size ≤ x.machine.counter := by
      rw [h.program]
      omega
    obtain ⟨c, hc⟩ := Option.ne_none_iff_exists'.mp (mt Program.command?_eq_none_iff.mp hlt)
    by_cases hne : c = .comment
    · rw [hne] at hc
      obtain ⟨z, hstep, hz, hcounter⟩ := h.comment hc
      obtain ⟨log, y, hrow, hlog, hy, hstop⟩ := ih hz (by omega)
      refine ⟨_, y, (Row.nil.snoc hstep).trans hrow, ?_, hy, hstop⟩
      rw [instructed_append, hlog, hc]
      rfl
    · exact ⟨[], x, .nil, rfl, h, .inr ⟨c, hc, hne⟩⟩

/-! ### Rows -/

/-- A row of the program goes with a row without the steps at comments. -/
theorem row {log : List Entry} (h : Stripped p x x') (hrow : Row x log y) :
    ∃ y', Row x' (instructed log) y' ∧ Stripped p y y' := by
  induction hrow with
  | nil => exact ⟨x', .nil, h⟩
  | @snoc y z log r _ hstep ih =>
    obtain ⟨y', hrow', hy⟩ := ih
    rw [instructed_append]
    cases hc : y.machine.program.command? y.machine.counter with
    | none =>
      -- the end stays the end
      have hst : y.machine.stance = .ended := by rw [Machine.stance_of_not_stepping hy.free, hc]
      rw [step_of_ended hst] at hstep
      cases hstep
      exact ⟨y', (List.append_nil _).symm ▸ hrow', hy⟩
    | some c =>
      by_cases hne : c = .comment
      · subst hne
        obtain ⟨z', hstep', hz, -⟩ := hy.comment hc
        rw [hstep] at hstep'
        cases hstep'
        exact ⟨y', (List.append_nil _).symm ▸ hrow', hz⟩
      · obtain ⟨z', hstep', hz⟩ := (hy.step hc hne).2 z r hstep
        have hlast := hrow'.snoc hstep'
        rw [hy.machine.command? hc hne] at hlast
        rw [instructed_of_instruction hne]
        exact ⟨z', hlast, hz⟩

/-- A row of the stripped program comes from a row of the program. -/
theorem row_of_stripped {y' : Scene} {log' : List Entry} (h : Stripped p x x')
    (hrow : Row x' log' y') :
    ∃ log y, Row x log y ∧ instructed log = instructed log' ∧ Stripped p y y' := by
  induction hrow with
  | nil => exact ⟨[], x, .nil, rfl, h⟩
  | @snoc y' z' log' r _ hstep ih =>
    obtain ⟨log, y, hrow, hlog, hy⟩ := ih
    obtain ⟨log₁, y₁, hrow₁, hlog₁, hy₁, hstop⟩ := hy.exists_row
    have hrow₁ := hrow.trans hrow₁
    rcases hstop with hended | ⟨c, hc, hne⟩
    · have hended' := hy₁.machine.ended hended
      have hst : y'.machine.stance = .ended :=
        Machine.stance_eq_ended_iff.mpr ⟨hy₁.machine.stepping.trans hy₁.free, hended'⟩
      rw [step_of_ended hst] at hstep
      cases hstep
      refine ⟨_, y₁, hrow₁, ?_, hy₁⟩
      rw [Program.command?_eq_none_iff.mpr (of_decide_eq_true hended'), instructed_append,
        instructed_append, hlog, hlog₁]
      rfl
    · cases hstep₁ : y₁.step with
      | none =>
        rw [(hy₁.step hc hne).1 hstep₁] at hstep
        cases hstep
      | some z =>
        obtain ⟨z, r₁⟩ := z
        obtain ⟨z₁, hstep', hz⟩ := (hy₁.step hc hne).2 z r₁ hstep₁
        rw [hstep] at hstep'
        cases hstep'
        refine ⟨_, z, hrow₁.snoc hstep₁, ?_, hz⟩
        rw [instructed_append, instructed_append, instructed_append, hlog, hlog₁,
          List.append_nil, hc, hy₁.machine.command? hc hne]

end Stripped
end Scene

namespace Scheduler
variable {source : Option Source} {sink : Option Sink} {p : Program} {o : Options} {b : Bench}

/-- The machine is at the end of its program. -/
def AtEnd (s : Scheduler) : Prop := ∃ m, s.bench.machine? 0 = some m ∧ m.ended = true

/-- The second scheduler is with the stripped program where the first one is with its own,
and source and sink were called in the same way. -/
structure Uncommented (p : Program) (s s' : Scheduler) : Prop where
  machine : ∃ m m', s.bench.machine? 0 = some m ∧ s'.bench.machine? 0 = some m' ∧
    m'.tape = m.tape ∧ m'.output = m.output ∧ m'.input = m.input ∧ m'.cursor = m.cursor ∧
    m'.depth = m.depth ∧ m'.counter = p.rank m.counter
  requests : s'.bench.requests = s.bench.requests
  deliveries : s'.bench.deliveries = s.bench.deliveries
  signs : s'.bench.signs = s.bench.signs.map (Sign.relocate p.rank)

theorem uncommented_of_shows {s s' : Scheduler} {x x' : Scene} (h : x.Stripped p x')
    (hs : s.bench.Shows x) (hs' : s'.bench.Shows x') : Uncommented p s s' where
  machine := by
    obtain ⟨m, hm, hb⟩ := hs.exists_machine?
    obtain ⟨m', hm', hb'⟩ := hs'.exists_machine?
    have hmachine := h.machine
    have hcounter := hmachine.counter
    rw [h.program] at hcounter
    rw [← hb, ← hb'] at hmachine hcounter
    exact ⟨m, m', hm, hm', hmachine.tape, hmachine.output, hmachine.input, hmachine.cursor,
      hmachine.depth, hcounter⟩
  requests := hs'.requests.trans (h.requests.trans hs.requests.symm)
  deliveries := hs'.deliveries.trans (h.deliveries.trans hs.deliveries.symm)
  signs := by rw [hs'.signs, h.signs, hs.signs]

theorem atEnd_iff {s : Scheduler} {x : Scene} (h : s.bench.Shows x) :
    s.AtEnd ↔ x.machine.ended = true := by
  obtain ⟨m, hm, hb⟩ := h.exists_machine?
  rw [← hb]
  constructor
  · rintro ⟨n, hn, hended⟩
    obtain rfl := Option.some.inj (hm.symm.trans hn)
    exact hended
  · exact fun hended => ⟨m, hm, hended⟩

/-- Two machines are made alike for a program and for the program without comments. -/
theorem exists_make_strip (hb : Bench.make {source, sink} p o = .ok b) :
    ∃ b' x x', Bench.make {source, sink} p.strip o = .ok b' ∧ b.Shows x ∧ b'.Shows x' ∧
      x.Stripped p x' := by
  obtain ⟨b', hb'⟩ := exists_make hb p.strip
  obtain ⟨n, hn, hcells, hshows⟩ := shows_of_make hb
  obtain ⟨n', hn', hcells', hshows'⟩ := shows_of_make hb'
  obtain rfl : n = n' := Option.some.inj (hcells.symm.trans hcells')
  refine ⟨b', _, _, hb', hshows, hshows', rfl, ?_, rfl, rfl, rfl, rfl, rfl, rfl⟩
  exact ⟨rfl, rfl, rfl, rfl, rfl, rfl, rfl, rfl, rfl, rfl, rfl, rfl, nofun, nofun⟩

/-- Comments do not matter. Whatever the callbacks do, a row of steps of a program goes
with a row of the stripped program, as long as the number of its steps at instructions,
after which the machine holds the same and its counter is the number of instructions
before that of the other; source and sink were called alike. There is no other row of the
stripped program, and it reaches its end just when the program does. -/
theorem rows_of_strip (hb : Bench.make {source, sink} p o = .ok b) :
    ∃ b', Bench.make {source, sink} p.strip o = .ok b' ∧
      (∀ log s, Row {bench := b} log s → ∃ s', Row {bench := b'} (instructed log) s' ∧
        Uncommented p s s') ∧
      (∀ log' s', Row {bench := b'} log' s' → ∃ log s, Row {bench := b} log s ∧
        instructed log = instructed log' ∧ Uncommented p s s') ∧
      ((∃ log s, Row {bench := b} log s ∧ s.AtEnd) ↔
        ∃ log' s', Row {bench := b'} log' s' ∧ s'.AtEnd) := by
  obtain ⟨b', x, x', hb', hx, hx', hstripped⟩ := exists_make_strip hb
  have forth : ∀ log s, Row {bench := b} log s → ∃ s' y y',
      Row {bench := b'} (instructed log) s' ∧ s.bench.Shows y ∧ s'.bench.Shows y' ∧
        y.Stripped p y' := fun log s hrow => by
    obtain ⟨y, hscene, -, hy⟩ := scene_of_row hrow (idle_of_bench b) hx
    obtain ⟨y', hscene', hstripped'⟩ := hstripped.row hscene
    obtain ⟨s', hrow', -, hy'⟩ := row_of_scene hscene' (idle_of_bench b') hx'
    exact ⟨s', y, y', hrow', hy, hy', hstripped'⟩
  refine ⟨b', hb', fun log s hrow => ?_, fun log' s' hrow' => ?_, ?_, ?_⟩
  · obtain ⟨s', y, y', hrow', hy, hy', hstripped'⟩ := forth log s hrow
    exact ⟨s', hrow', uncommented_of_shows hstripped' hy hy'⟩
  · obtain ⟨y', hscene', -, hy'⟩ := scene_of_row hrow' (idle_of_bench b') hx'
    obtain ⟨log, y, hscene, hlog, hstripped'⟩ := hstripped.row_of_stripped hscene'
    obtain ⟨s, hrow, -, hy⟩ := row_of_scene hscene (idle_of_bench b) hx
    exact ⟨log, s, hrow, hlog, uncommented_of_shows hstripped' hy hy'⟩
  · rintro ⟨log, s, hrow, hend⟩
    obtain ⟨s', y, y', hrow', hy, hy', hstripped'⟩ := forth log s hrow
    have hended := hstripped'.machine.ended ((atEnd_iff hy).mp hend)
    exact ⟨_, s', hrow', (atEnd_iff hy').mpr hended⟩
  · rintro ⟨log', s', hrow', hend⟩
    obtain ⟨y', hscene', -, hy'⟩ := scene_of_row hrow' (idle_of_bench b') hx'
    obtain ⟨log, y, hscene, -, hstripped'⟩ := hstripped.row_of_stripped hscene'
    -- only comments may be left of the program
    obtain ⟨log₁, y₁, hscene₁, -, hstripped₁, hstop⟩ := hstripped'.exists_row
    obtain ⟨s, hrow, -, hy₁⟩ := row_of_scene (hscene.trans hscene₁) (idle_of_bench b) hx
    refine ⟨_, s, hrow, (atEnd_iff hy₁).mpr (hstop.resolve_right ?_)⟩
    rintro ⟨c, hc, hne⟩
    have hplace := Program.lt_size_of_command? (hstripped₁.machine.command? hc hne)
    have hended := of_decide_eq_true ((atEnd_iff hy').mp hend)
    omega

/-- A step at a comment and one at an instruction, and without the comment the same. -/
theorem rows_of_strip_remark : ∃ b b' log s s',
    Bench.make {} ⟨#['x', '+']⟩ {memorySize := .integer 1} = .ok b ∧
      Bench.make {} (Program.strip ⟨#['x', '+']⟩) {memorySize := .integer 1} = .ok b' ∧
      Row {bench := b} log s ∧ log.length = 2 ∧ Row {bench := b'} (instructed log) s' ∧
      (instructed log).length = 1 ∧ Uncommented ⟨#['x', '+']⟩ s s' := by
  obtain ⟨b, hb⟩ : ∃ b, Bench.make {source := none, sink := none} ⟨#['x', '+']⟩
      {memorySize := .integer 1} = .ok b := ⟨_, rfl⟩
  obtain ⟨n, hn, -, hshows⟩ := shows_of_make hb
  let m : Machine := {Machine.ofProgram ⟨#['x', '+']⟩ n hn with hears := false, speaks := false}
  have hcomment : (Scene.start m none none).Row [⟨some .comment, .ok true⟩]
      (.start {m with counter := 1, steps := 1} none none) := .snoc .nil rfl
  have hinstruction : (Scene.start m none none).Row
      [⟨some .comment, .ok true⟩, ⟨some .increment, .ok true⟩] _ :=
    hcomment.snoc (Scene.step_of_inward rfl)
  obtain ⟨s, hrow, -⟩ := row_of_scene hinstruction (idle_of_bench b) hshows
  obtain ⟨b', hb', hforth, -, -⟩ := rows_of_strip hb
  obtain ⟨s', hrow', huncommented⟩ := hforth _ s hrow
  exact ⟨b, b', _, s, s', hb, hb', hrow, rfl, hrow', rfl, huncommented⟩

end Scheduler
end TapeMachine
