import TapeMachine.Proofs.Machine.Widened
import TapeMachine.Proofs.Schedule.Row

/-! A bigger tape changes nothing for a program that stays on the smaller one.

As long as no step takes the head of the machine with the smaller tape past an end of it
(`Scheduler.StaysOnTape`), each step comes to the same on the bigger tape, so that a row of
steps on either is one on the other. Nothing is asked of source and sink: they may fail,
pause, reset, and make calls of their own; a reset leaves zeros on either tape. -/
namespace TapeMachine

namespace Scene
variable {x y : Scene} {log : List Entry} {r : Except Failure Bool} {k : Nat}

/-- A step leaves the tape as long as it was. -/
theorem size_step (h : x.step = some (y, r)) : y.machine.tape.size = x.machine.tape.size := by
  have hwiped : ∀ (m : Machine) j, (m.wiped j).tape.size = m.tape.size := fun m j => by
    induction j generalizing m with
    | zero => rfl
    | succ j ih => exact (ih m.reset).trans (Tape.size_cleared m.tape)
  cases hst : x.machine.stance with
  | occupied counter =>
    rw [step, hst] at h
    cases h
    rfl
  | ended =>
    rw [step_of_ended hst] at h
    cases h
    rfl
  | inward =>
    rw [step_of_inward hst] at h
    cases h
    exact (Machine.inner_execute _).size.trans (Machine.inner_noted _).size
  | output =>
    rw [step_of_output hst] at h
    obtain rfl : x.put.1 = y := congrArg Prod.fst (Option.some.inj h)
    rw [put]
    cases x.machine.speaks with
    | false => rfl
    | true =>
      simp only [if_true]
      generalize Sink.taking (x.deliveries + 1) x.sink = a
      cases a.failure with
      | some e => exact hwiped x.machine.emit a.resets
      | none =>
        simp only
        split
        · exact hwiped x.machine.emit a.resets
        · exact hwiped x.machine.emit a.resets
  | request =>
    rw [step_of_request hst] at h
    obtain ⟨a, -, hread⟩ := Option.map_eq_some_iff.mp h
    obtain rfl : (x.read a).1 = y := congrArg Prod.fst hread
    rw [read]
    cases a.answer with
    | error e => exact hwiped x.machine a.resets
    | ok text =>
      simp only
      split
      · exact (Machine.inner_consume _).size.trans (hwiped x.machine a.resets)
      · exact hwiped x.machine a.resets

theorem Row.size (h : Row x log y) : y.machine.tape.size = x.machine.tape.size := by
  induction h with
  | nil => rfl
  | snoc _ hstep ih => exact (size_step hstep).trans ih

/-- None of the first steps takes the head past an end of the tape. -/
def StaysOnTape (k : Nat) (x : Scene) : Prop :=
  ∀ log y, Row x log y → log.length < k → ¬ y.machine.Wraps

theorem staysOnTape_zero (x : Scene) : x.StaysOnTape 0 := fun _ _ _ hlt =>
  absurd hlt (Nat.not_lt_zero _)

/-- One step more, since there is only one row of each length. -/
theorem StaysOnTape.succ (hx : x.StaysOnTape k) (hrow : Row x log y) (hlength : log.length = k)
    (hy : ¬ y.machine.Wraps) : x.StaysOnTape (k + 1) := fun log' y' hrow' hlt => by
  rcases Nat.lt_succ_iff_lt_or_eq.mp hlt with hlt | heq
  · exact hx log' y' hrow' hlt
  · obtain ⟨-, rfl⟩ := hrow.unique hrow' (hlength.trans heq.symm)
    exact hy

/-- A row of steps is one on the wider tape. -/
theorem Row.widened (hrow : Row x log y) (hx : x.StaysOnTape k) (hle : log.length ≤ k)
    (j : Nat) : Row (x.widened j) log (y.widened j) := by
  induction hrow with
  | nil => exact .nil
  | snoc hrow hstep ih =>
    rw [List.length_append, List.length_singleton] at hle
    have hwider := step_widened (k := j) (hx _ _ hrow hle)
    rw [hstep] at hwider
    exact (ih (Nat.le_of_succ_le hle)).snoc hwider

/-- A row of steps on the wider tape is one on the tape. -/
theorem Row.of_widened {j : Nat} {y' : Scene} (hrow : Row (x.widened j) log y')
    (hx : x.StaysOnTape k) (hle : log.length ≤ k) : ∃ y, Row x log y ∧ y' = y.widened j := by
  induction hrow with
  | nil => exact ⟨x, .nil, rfl⟩
  | @snoc y' z' log r _ hstep ih =>
    rw [List.length_append, List.length_singleton] at hle
    obtain ⟨y, hrow, rfl⟩ := ih (Nat.le_of_succ_le hle)
    rw [step_widened (hx _ _ hrow hle)] at hstep
    obtain ⟨⟨z, r'⟩, hz, heq⟩ := Option.map_eq_some_iff.mp hstep
    cases heq
    exact ⟨z, hrow.snoc hz, rfl⟩

end Scene

namespace Scheduler
variable {source : Option Source} {sink : Option Sink} {p : Program} {o o' : Options}
  {b b' : Bench} {n n' k : Nat}

/-- None of the first single steps executes `>` on the last cell of the tape or `<` on the
first one. -/
def StaysOnTape (k : Nat) (s : Scheduler) : Prop :=
  ∀ log s₁ m, Row s log s₁ → log.length < k → s₁.bench.machine? 0 = some m → ¬ m.Wraps

/-- Two schedulers whose machines differ only in how many cells there are. -/
structure Widened (n n' : Nat) (s s' : Scheduler) : Prop where
  machine : ∃ m m', s.bench.machine? 0 = some m ∧ s'.bench.machine? 0 = some m' ∧
    m'.tape.head = m.tape.head ∧ m'.counter = m.counter ∧ m'.output = m.output ∧
    m'.input = m.input ∧ m'.cursor = m.cursor ∧ m'.steps = m.steps ∧ m'.loops = m.loops ∧
    m.tape.size = n ∧ m'.tape.size = n' ∧
    m'.tape.cells = m.tape.cells ++ Array.replicate (n' - n) 0
  requests : s'.bench.requests = s.bench.requests
  deliveries : s'.bench.deliveries = s.bench.deliveries
  signs : s'.bench.signs = s.bench.signs

theorem widened_of_shows {s s' : Scheduler} {y : Scene} (hs : s.bench.Shows y)
    (hs' : s'.bench.Shows (y.widened k)) (hn : y.machine.tape.size = n) :
    Widened n (n + k) s s' where
  machine := by
    obtain ⟨m, hm, hb⟩ := hs.exists_machine?
    obtain ⟨m', hm', hb'⟩ := hs'.exists_machine?
    have htape : m.tape = y.machine.tape := congrArg (·.tape) hb
    have htape' : m'.tape = m.tape.widened k := by
      rw [htape]
      exact congrArg (·.tape) hb'
    have hsame {α : Type} (f : Machine → α) (hf : f (y.widened k).machine = f y.machine)
        (hbare : ∀ m : Machine, f m.bare = f m) : f m' = f m := by
      rw [← hbare m', ← hbare m, hb, hb', hf]
    refine ⟨m, m', hm, hm', ?_, hsame (·.counter) rfl fun _ => rfl,
      hsame (·.output) rfl fun _ => rfl, hsame (·.input) rfl fun _ => rfl,
      hsame (·.cursor) rfl fun _ => rfl, hsame (·.steps) rfl fun _ => rfl,
      hsame (·.loops) rfl fun _ => rfl, ?_, ?_, ?_⟩
    · rw [htape', Tape.head_widened]
    · rw [htape, hn]
    · rw [htape', Tape.size_widened, htape, hn]
    · rw [htape', Tape.cells_widened, Nat.add_sub_cancel_left]
  requests := hs'.requests.trans hs.requests.symm
  deliveries := hs'.deliveries.trans hs.deliveries.symm
  signs := hs'.signs.trans hs.signs.symm

theorem staysOnTape_iff {s : Scheduler} {x : Scene} (hi : s.Idle) (hs : s.bench.Shows x) :
    s.StaysOnTape k ↔ x.StaysOnTape k := by
  constructor
  · intro h log y hscene hlt hwraps
    obtain ⟨s₁, hrow, -, hy⟩ := row_of_scene hscene hi hs
    obtain ⟨m, hm, hb⟩ := hy.exists_machine?
    rw [← hb] at hwraps
    exact h log s₁ m hrow hlt hm hwraps
  · intro h log s₁ m hrow hlt hm hwraps
    obtain ⟨y, hscene, -, hy⟩ := scene_of_row hrow hi hs
    obtain ⟨m', hm', hb⟩ := hy.exists_machine?
    obtain rfl := Option.some.inj (hm.symm.trans hm')
    refine h log y hscene hlt ?_
    rw [← hb]
    exact hwraps

/-- A bigger tape changes nothing for a program that stays on the smaller one, whatever
source and sink do. If none of the first `k` steps of the machine with `n` cells goes past
an end of its tape, then a machine with more cells takes as many steps of these as the
first one does, and they come to the same: after any number of them the two have the same
pointer, counter, output, input and open loops, and the cells of the bigger tape are those
of the smaller one and then zeros. -/
theorem rows_of_widened (hb : Bench.make {source, sink} p o = .ok b)
    (hb' : Bench.make {source, sink} p o' = .ok b') (hn : o.memorySize.cellCount? = some n)
    (hn' : o'.memorySize.cellCount? = some n') (hle : n ≤ n')
    (hstays : StaysOnTape k {bench := b}) :
    (∀ log s, Row {bench := b} log s → log.length ≤ k → ∃ s', Row {bench := b'} log s') ∧
      (∀ log s', Row {bench := b'} log s' → log.length ≤ k → ∃ s, Row {bench := b} log s) ∧
      ∀ log s log' s', Row {bench := b} log s → Row {bench := b'} log' s' →
        log.length = log'.length → log.length ≤ k → log = log' ∧ Widened n n' s s' := by
  obtain ⟨j, rfl⟩ := Nat.exists_eq_add_of_le hle
  obtain ⟨n₁, hpos, hcells, hshows⟩ := shows_of_make hb
  obtain ⟨n₂, hpos', hcells', hshows'⟩ := shows_of_make hb'
  obtain rfl : n = n₁ := Option.some.inj (hn.symm.trans hcells)
  obtain rfl : n + j = n₂ := Option.some.inj (hn'.symm.trans hcells')
  rw [Machine.ofProgram_add p hpos j] at hshows'
  generalize hx : Scene.start {Machine.ofProgram p n hpos with
    hears := source.isSome, speaks := sink.isSome} source sink = x at hshows
  have hwider : b'.Shows (x.widened j) := hx ▸ hshows'
  have hsize : x.machine.tape.size = n := by
    rw [← hx]
    exact Array.size_replicate
  have hinside := (staysOnTape_iff (idle_of_bench b) hshows).mp hstays
  refine ⟨fun log s hrow hlog => ?_, fun log s' hrow' hlog => ?_,
    fun log s log' s' hrow hrow' hlength hlog => ?_⟩
  · obtain ⟨y, hscene, -, -⟩ := scene_of_row hrow (idle_of_bench b) hshows
    obtain ⟨s', hrow', -⟩ :=
      row_of_scene (hscene.widened hinside hlog j) (idle_of_bench b') hwider
    exact ⟨s', hrow'⟩
  · obtain ⟨y', hscene', -, -⟩ := scene_of_row hrow' (idle_of_bench b') hwider
    obtain ⟨y, hscene, -⟩ := hscene'.of_widened hinside hlog
    obtain ⟨s, hrow, -⟩ := row_of_scene hscene (idle_of_bench b) hshows
    exact ⟨s, hrow⟩
  · obtain ⟨y, hscene, -, hy⟩ := scene_of_row hrow (idle_of_bench b) hshows
    obtain ⟨y', hscene', -, hy'⟩ := scene_of_row hrow' (idle_of_bench b') hwider
    obtain ⟨rfl, rfl⟩ := (hscene.widened hinside hlog j).unique hscene' hlength
    exact ⟨rfl, widened_of_shows hy hy' (hscene.size.trans hsize)⟩

/-- To the second of two cells, and of three. -/
theorem rows_of_widened_right : ∃ b b' log s s',
    Bench.make {source := none, sink := none} ⟨#['+', '>']⟩ {memorySize := .integer 2} = .ok b ∧
      Bench.make {source := none, sink := none} ⟨#['+', '>']⟩ {memorySize := .integer 3} = .ok b' ∧
      StaysOnTape 2 {bench := b} ∧ Row {bench := b} log s ∧ Row {bench := b'} log s' ∧
      log.length = 2 ∧ Widened 2 3 s s' := by
  obtain ⟨b, hb⟩ : ∃ b, Bench.make {source := none, sink := none} ⟨#['+', '>']⟩
      {memorySize := .integer 2} = .ok b := ⟨_, rfl⟩
  obtain ⟨b', hb'⟩ : ∃ b', Bench.make {source := none, sink := none} ⟨#['+', '>']⟩
      {memorySize := .integer 3} = .ok b' := ⟨_, rfl⟩
  obtain ⟨n, hn, hcells, hshows⟩ := shows_of_make hb
  obtain rfl : 2 = n := Option.some.inj hcells
  let m : Machine :=
    {Machine.ofProgram ⟨#['+', '>']⟩ 2 (by decide) with hears := false, speaks := false}
  have hone : (Scene.start m none none).Row [⟨some .increment, .ok true⟩] _ :=
    .snoc .nil (Scene.step_of_inward rfl)
  have htwo : (Scene.start m none none).Row
      [⟨some .increment, .ok true⟩, ⟨some .right, .ok true⟩] _ :=
    hone.snoc (Scene.step_of_inward rfl)
  have hstays : (Scene.start m none none).StaysOnTape 2 :=
    ((Scene.staysOnTape_zero _).succ .nil rfl (by decide)).succ hone rfl (by decide)
  have hinside := (staysOnTape_iff (idle_of_bench b) hshows).mpr hstays
  obtain ⟨s, hrow, -⟩ := row_of_scene htwo (idle_of_bench b) hshows
  obtain ⟨hforth, -, hsame⟩ := rows_of_widened hb hb' rfl rfl (by decide) hinside
  obtain ⟨s', hrow'⟩ := hforth _ s hrow (Nat.le_refl 2)
  exact ⟨b, b', _, s, s', hb, hb', hinside, hrow, hrow', rfl,
    (hsame _ _ _ _ hrow hrow' rfl (Nat.le_refl 2)).2⟩

end Scheduler
end TapeMachine
