import TapeMachine.Proofs.Machine.Whole
import TapeMachine.Proofs.Schedule.Calm
import TapeMachine.Proofs.Schedule.Row

/-! How input is cut into texts does not matter.

A source that gives texts, none of them empty, until they are used up, and then nothing
more, might as well have given one long text: whenever the input is used up the next text
has the next character, and there is no next character only when there is no next text.
So every row of steps goes like that of a machine without a source that has the whole
input from the start (`Scene.Fed.row`), and for two sources whose characters are the same
modulo 256 this is one and the same machine (`rows_of_recut`). -/
namespace TapeMachine

/-- The sink, if there is one, resets nothing. It may fail and pause. -/
def Sink.Spares : Option Sink → Prop
  | some (.scripted reaction) => ∀ n, .reset ∉ (reaction n).signals
  | _ => True

theorem Sink.Spares.taking {sink : Option Sink} (h : Sink.Spares sink) (n : Nat) :
    (taking n sink).resets = 0 ∧ Sink.Spares (taking n sink).sink := by
  match sink, h with
  | none, h | some .silent, h | some (.stream none), h => exact ⟨rfl, h⟩
  | some (.stream (some 0)), h | some (.stream (some (room + 1))), h => exact ⟨rfl, trivial⟩
  | some (.scripted reaction), h => exact ⟨List.count_eq_zero.mpr (h n), h⟩

/-- What could be told of a source. -/
def Sign.OfSource : Sign → Bool
  | .asked _ | .answered .. => true
  | _ => false

namespace Scene

/-- The scene without a source, but with the whole input. -/
def whole (all : List Nat) (x : Scene) : Scene where
  machine := x.machine.whole all
  source := none
  sink := x.sink
  requests := 0
  deliveries := x.deliveries
  signs := x.signs.filter (!·.OfSource)

/-- The machine has got the texts that it asked for, and its source has the others. -/
structure Fed (texts : List Text) (x : Scene) : Prop where
  source : Source.Gives (textAt texts) x.requests x.source
  bound : x.source.isSome = true
  hears : x.machine.hears = true
  input : x.machine.input.toList = (texts.take x.requests).flatten
  cursor : x.machine.cursor ≤ x.machine.input.size
  sink : Sink.Spares x.sink
  /-- No step waits. -/
  free : x.machine.stepping = false

namespace Fed
variable {texts : List Text} {all : List Nat} {x y : Scene}

/-- What has come is the beginning of the whole. -/
theorem codes_input {n : Nat} {l : Text} (hl : l = (texts.take n).flatten) {i : Nat}
    (hi : i < l.length ∨ texts.length ≤ n) :
    (l[i]?.map fun c => c.toNat % 256) = (codes texts.flatten)[i]? := by
  rw [codes, List.getElem?_map]
  have hall : texts.flatten = l ++ (texts.drop n).flatten := by
    rw [hl, ← List.flatten_append, List.take_append_drop]
  rcases hi with hi | hi
  · rw [hall, List.getElem?_append_left hi]
  · rw [hall, List.drop_eq_nil_of_le hi, List.flatten_nil, List.append_nil]

theorem take_succ (n : Nat) :
    (texts.take (n + 1)).flatten = (texts.take n).flatten ++ textAt texts (n + 1) := by
  rw [List.take_add_one, List.flatten_append, textAt, Nat.add_sub_cancel,
    List.getD_eq_getElem?_getD]
  cases texts[n]? <;> simp

/-! ### One step -/

theorem whole_work (h : x.machine.noted.execute.whole all = (x.machine.whole all).noted.execute) :
    x.work.whole all = (x.whole all).work := by
  have hsigns : (x.machine.complaint?.map Sign.complained).toList.filter (!·.OfSource) =
      (x.machine.complaint?.map Sign.complained).toList := by
    cases x.machine.complaint? <;> rfl
  have hmachine : x.machine.noted.execute.advance.whole all =
      (x.machine.whole all).noted.execute.advance := congrArg Machine.advance h
  rw [work, work, Scene.whole]
  simp only [Scene.withMachine, Scene.tell, List.filter_append, hsigns, hmachine]
  rfl

theorem whole_handed {c : Char} {r : Taking} (hr : r.resets = 0) :
    (x.handed c r).whole all = (x.whole all).handed c r := by
  rw [handed, handed, hr, resets_zero, resets_zero, Scene.whole]
  simp only [Scene.tell, List.filter_append]
  rfl

theorem whole_put (h : Sink.Spares x.sink) :
    (x.whole all).put = (x.put.1.whole all, x.put.2) := by
  obtain ⟨hr, -⟩ := h.taking (x.deliveries + 1)
  have hspeaks : (x.whole all).machine.speaks = x.machine.speaks := rfl
  rw [Scene.put, Scene.put, hspeaks]
  cases x.machine.speaks with
  | false => rfl
  | true =>
    have htaking : Sink.taking ((x.whole all).deliveries + 1) (x.whole all).sink =
      Sink.taking (x.deliveries + 1) x.sink := rfl
    simp only [if_true, htaking]
    generalize Sink.taking (x.deliveries + 1) x.sink = r at hr
    have hhanded :
        ((x.withMachine x.machine.emit).handed x.machine.cellChar r).whole all =
          ((x.withMachine x.machine.emit).whole all).handed x.machine.cellChar r :=
      whole_handed hr
    cases r.failure with
    | some e => exact congrArg (·, _) hhanded.symm
    | none =>
      simp only [hr, if_true]
      exact congrArg (fun y : Scene => (y.withMachine y.machine.advance, _)) hhanded.symm

/-- What a put leaves as it is. -/
theorem put (h : Fed texts x) : Fed texts x.put.1 := by
  obtain ⟨hr, hspares⟩ := h.sink.taking (x.deliveries + 1)
  rw [Scene.put]
  cases x.machine.speaks with
  | false => exact {h with}
  | true =>
    simp only [if_true, Scene.handed, hr, resets_zero]
    cases (Sink.taking (x.deliveries + 1) x.sink).failure with
    | some e => exact {h with sink := hspares}
    | none => exact {h with sink := hspares}

theorem work (h : Fed texts x) : Fed texts x.work := by
  have hnoted := Machine.inner_noted x.machine
  have hinner := Machine.inner_execute x.machine.noted
  obtain ⟨hinput, hcursor⟩ := Machine.input_execute x.machine.noted
  have hinput' : x.machine.noted.input = x.machine.input := by rw [Machine.noted_eq]
  have hcursor' : x.machine.noted.cursor = x.machine.cursor := by rw [Machine.noted_eq]
  rw [hinput', hcursor'] at hcursor
  exact {h with
    hears := hinner.hears.trans (hnoted.hears.trans h.hears)
    input := (congrArg Array.toList (hinput.trans hinput')).trans h.input
    cursor := by
      show x.machine.noted.execute.cursor ≤ x.machine.noted.execute.input.size
      rw [hinput, hinput']
      exact hcursor h.cursor
    free := hinner.stepping.trans (hnoted.stepping.trans h.free)}

/-- The text that is asked for joins the input. -/
theorem read {source : Option Source} (h : Fed texts x)
    (hsource : Source.Gives (textAt texts) (x.requests + 1) source)
    (hbound : source.isSome = true) :
    Fed texts (x.read ⟨0, .ok (textAt texts (x.requests + 1)), source⟩).1 := by
  have hinner := Machine.inner_consume (x.machine.receive (textAt texts (x.requests + 1)))
  obtain ⟨hinput, hcursor⟩ :=
    Machine.input_consume (x.machine.receive (textAt texts (x.requests + 1)))
  exact {h with
    source := hsource
    bound := hbound
    hears := hinner.hears.trans h.hears
    input := by
      show (x.machine.receive (textAt texts (x.requests + 1))).consume.input.toList = _
      rw [hinput, Machine.toList_receive, h.input]
      exact (take_succ x.requests).symm
    cursor := by
      show (x.machine.receive (textAt texts (x.requests + 1))).consume.cursor ≤
        (x.machine.receive (textAt texts (x.requests + 1))).consume.input.size
      rw [hinput]
      refine hcursor (Nat.le_trans h.cursor ?_)
      rw [← Array.length_toList, ← Array.length_toList, Machine.toList_receive,
        List.length_append]
      exact Nat.le_add_right _ _
    free := hinner.stepping.trans h.free}

/-- Where the next character is, the whole input has it too. -/
theorem next_of_lt (h : Fed texts x) (hlt : x.machine.cursor < x.machine.input.size) :
    (x.machine.input[x.machine.cursor]?.map fun c => c.toNat % 256) =
      (codes texts.flatten)[x.machine.cursor]? := by
  rw [← Array.getElem?_toList]
  exact codes_input h.input (.inl hlt)

/-- After a request either the text that came has the next character, or there is none. -/
theorem next_of_asks (h : Fed texts x) (hne : ∀ t ∈ texts, t ≠ [])
    (hle : x.machine.input.size ≤ x.machine.cursor) :
    ((x.machine.receive (textAt texts (x.requests + 1))).input[x.machine.cursor]?.map
      fun c => c.toNat % 256) = (codes texts.flatten)[x.machine.cursor]? := by
  have hinput : (x.machine.receive (textAt texts (x.requests + 1))).input.toList =
      (texts.take (x.requests + 1)).flatten := by
    rw [Machine.toList_receive, h.input, take_succ]
  rw [← Array.getElem?_toList]
  refine codes_input hinput ?_
  rcases Nat.lt_or_ge x.requests texts.length with hlt | hge
  · left
    have htext : textAt texts (x.requests + 1) = texts[x.requests] := by
      rw [textAt, Nat.add_sub_cancel, List.getD_eq_getElem?_getD, List.getElem?_eq_getElem hlt]
      rfl
    have hpos := List.length_pos_iff.mpr (hne _ (List.getElem_mem hlt))
    have hcursor := h.cursor
    rw [Machine.toList_receive, htext, List.length_append, Array.length_toList]
    omega
  · exact .inr (Nat.le_succ_of_le hge)

/-- A step that asks is a step that needs not ask with the whole input. -/
theorem whole_read {source : Option Source} (h : Fed texts x) (hne : ∀ t ∈ texts, t ≠ [])
    (hc : x.machine.program.command? x.machine.counter = some .input)
    (hle : x.machine.input.size ≤ x.machine.cursor) :
    (x.whole (codes texts.flatten)).work =
      (x.read ⟨0, .ok (textAt texts (x.requests + 1)), source⟩).1.whole
        (codes texts.flatten) := by
  have hmachine : (x.machine.receive (textAt texts (x.requests + 1))).consume.whole
      (codes texts.flatten) = (x.machine.whole (codes texts.flatten)).consume :=
    Machine.whole_consume (h.next_of_asks hne hle)
  obtain ⟨hnone, hexec⟩ :=
    Machine.noted_execute_of_input (m := x.machine.whole (codes texts.flatten)) hc
  have hwork : (x.whole (codes texts.flatten)).work = (x.whole (codes texts.flatten)).withMachine
      (x.machine.whole (codes texts.flatten)).consume.advance := by
    show (Scene.tell _ ((x.machine.whole _).complaint?.map Sign.complained).toList).withMachine
      (x.machine.whole _).noted.execute.advance = _
    rw [hnone, hexec]
    simp [Scene.tell, Scene.withMachine]
  -- what was told of the source is left out
  have hsigns : (x.read ⟨0, .ok (textAt texts (x.requests + 1)), source⟩).1.signs.filter
      (!·.OfSource) = x.signs.filter (!·.OfSource) := by
    simp [Scene.read, Scene.asked, Scene.tell, Scene.withMachine, Sign.OfSource]
  rw [hwork, ← hmachine]
  exact congrArg (Scene.mk _ _ _ _ _) hsigns.symm

/-- A step comes to an end, and to the same as with the whole input. -/
theorem step (h : Fed texts x) (hne : ∀ t ∈ texts, t ≠ []) : ∃ y r, x.step = some (y, r) ∧
    Fed texts y ∧ (x.whole (codes texts.flatten)).step =
      some (y.whole (codes texts.flatten), r) := by
  cases hst : x.machine.stance with
  | occupied counter =>
    have hfree := h.free
    rw [Machine.stepping_of_stance hst] at hfree
    cases hfree
  | ended =>
    have hst' : (x.machine.whole (codes texts.flatten)).stance = .ended :=
      Machine.stance_whole_of hst (.inl rfl)
    exact ⟨x, .ok false, step_of_ended hst, h, step_of_ended hst'⟩
  | output =>
    have hst' : (x.machine.whole (codes texts.flatten)).stance = .output :=
      Machine.stance_whole_of hst (.inr rfl)
    refine ⟨x.put.1, x.put.2, step_of_output hst, h.put, ?_⟩
    rw [step_of_output hst', whole_put h.sink]
  | inward =>
    obtain ⟨-, hasks, c, hc, hout⟩ := Machine.stance_eq_inward_iff.mp hst
    refine ⟨x.work, .ok true, step_of_inward hst, h.work, ?_⟩
    rw [step_of_inward (Machine.stance_whole h.free hc hout), ← whole_work]
    by_cases hin : c = .input
    · subst hin
      have hlt : x.machine.cursor < x.machine.input.size :=
        Nat.lt_of_not_le fun hle => hasks ⟨hc, h.hears, hle⟩
      rw [(Machine.noted_execute_of_input hc).2,
        (Machine.noted_execute_of_input (m := x.machine.whole _) hc).2]
      exact Machine.whole_consume (h.next_of_lt hlt)
    · rw [← Machine.whole_noted]
      refine Machine.whole_execute ?_
      rw [Machine.noted_eq]
      exact fun h => hin (Option.some.inj (hc.symm.trans h))
  | request =>
    obtain ⟨-, hc, hears, hle⟩ := Machine.stance_eq_request_iff.mp hst
    obtain ⟨source, hhear, hgives, hbound⟩ := h.source.hearing? h.bound
    refine ⟨(x.read ⟨0, .ok (textAt texts (x.requests + 1)), source⟩).1, .ok true, ?_,
      h.read hgives hbound, ?_⟩
    · rw [step_of_request hst, hhear]
      rfl
    · rw [step_of_inward (Machine.stance_whole h.free hc (by decide)), h.whole_read hne hc hle]

/-! ### Rows -/

/-- Every row of steps is one with the whole input. -/
theorem row {log : List Entry} (h : Fed texts x) (hne : ∀ t ∈ texts, t ≠ [])
    (hrow : Row x log y) :
    Fed texts y ∧ Row (x.whole (codes texts.flatten)) log (y.whole (codes texts.flatten)) := by
  induction hrow with
  | nil => exact ⟨h, .nil⟩
  | snoc _ hstep ih =>
    obtain ⟨hfed, hwhole⟩ := ih
    obtain ⟨z, r, hstep', hz, hlast⟩ := hfed.step hne
    rw [hstep] at hstep'
    cases hstep'
    exact ⟨hz, hwhole.snoc hlast⟩

/-- There are rows of any length. -/
theorem exists_row (h : Fed texts x) (hne : ∀ t ∈ texts, t ≠ []) (k : Nat) :
    ∃ log y, Row x log y ∧ log.length = k := by
  induction k with
  | zero => exact ⟨[], x, .nil, rfl⟩
  | succ k ih =>
    obtain ⟨log, y, hrow, hlength⟩ := ih
    obtain ⟨z, r, hstep, -⟩ := (h.row hne hrow).1.step hne
    refine ⟨_, z, hrow.snoc hstep, ?_⟩
    rw [List.length_append, hlength]
    rfl

/-- What was read is the beginning of the whole. -/
theorem codes_consumed (h : Fed texts x) :
    codes x.machine.consumedInput = (codes texts.flatten).take x.machine.cursor := by
  have hall : texts.flatten = x.machine.input.toList ++ (texts.drop x.requests).flatten := by
    rw [h.input, ← List.flatten_append, List.take_append_drop]
  have hle : x.machine.cursor ≤ (codes x.machine.input.toList).length := by
    rw [codes, List.length_map, Array.length_toList]
    exact h.cursor
  rw [hall, codes_append, List.take_append_of_le_length hle, Snapshot.consumedInput, codes, codes,
    List.map_take]

end Fed

end Scene

namespace Scheduler
variable {source source' : Source} {sink : Option Sink} {p : Program} {o : Options}
  {texts texts' : List Text} {b b' : Bench}

/-- Two schedulers whose machines differ only in the input that they have not read, and in
which characters they read for the same byte. -/
structure Recut (s s' : Scheduler) : Prop where
  machine : ∃ m m', s.bench.machine? 0 = some m ∧ s'.bench.machine? 0 = some m' ∧
    m'.tape = m.tape ∧ m'.counter = m.counter ∧ m'.output = m.output ∧ m'.loops = m.loops ∧
    m'.cursor = m.cursor ∧ m'.steps = m.steps ∧ m'.reported = m.reported ∧
    codes m'.consumedInput = codes m.consumedInput
  deliveries : s'.bench.deliveries = s.bench.deliveries
  signs : s'.bench.signs.filter (!·.OfSource) = s.bench.signs.filter (!·.OfSource)

theorem fed_of_make (hb : Bench.make {source := some source, sink} p o = .ok b)
    (hsource : Source.Gives (textAt texts) 0 (some source)) (hsink : Sink.Spares sink) :
    ∃ n hn, o.memorySize.cellCount? = some n ∧ b.Shows (.start {Machine.ofProgram p n hn with
        speaks := sink.isSome} (some source) sink) ∧
      Scene.Fed texts (.start {Machine.ofProgram p n hn with speaks := sink.isSome}
        (some source) sink) := by
  obtain ⟨n, hn, hcells, hshows⟩ := shows_of_make hb
  exact ⟨n, hn, hcells, hshows, hsource, rfl, rfl, rfl, Nat.le_refl _, hsink, rfl⟩

theorem recut_of_shows {s s' : Scheduler} {y y' : Scene} (hs : s.bench.Shows y)
    (hs' : s'.bench.Shows y') (hy : y.Fed texts) (hy' : y'.Fed texts')
    (hcodes : codes texts.flatten = codes texts'.flatten)
    (hwhole : y.whole (codes texts.flatten) = y'.whole (codes texts.flatten)) : Recut s s' where
  machine := by
    obtain ⟨m, hm, hb⟩ := hs.exists_machine?
    obtain ⟨m', hm', hb'⟩ := hs'.exists_machine?
    have hmachine : y'.machine.whole _ = y.machine.whole _ := (congrArg Scene.machine hwhole).symm
    have hcursor : y'.machine.cursor = y.machine.cursor := congrArg (·.cursor) hmachine
    have hconsumed : codes y'.machine.consumedInput = codes y.machine.consumedInput := by
      rw [hy.codes_consumed, hy'.codes_consumed, hcursor, hcodes]
    rw [← hb, ← hb'] at hmachine hcursor hconsumed
    exact ⟨m, m', hm, hm', congrArg (·.tape) hmachine, congrArg (·.counter) hmachine,
      congrArg (·.output) hmachine, congrArg (·.loops) hmachine, hcursor,
      congrArg (·.steps) hmachine, congrArg (·.reported) hmachine, hconsumed⟩
  deliveries := by
    rw [hs.deliveries, hs'.deliveries]
    exact (congrArg Scene.deliveries hwhole).symm
  signs := by
    rw [hs.signs, hs'.signs]
    exact (congrArg Scene.signs hwhole).symm

/-- How input is cut into texts does not matter. Two sources that each give texts, none of
them empty, and then nothing more take a machine through the same steps, as long as their
characters are the same modulo 256, one by one: after any number of steps of either, the
two differ in no more than the number of requests, the input not yet read, and which
characters stand for the bytes that were read. There are that many steps. -/
theorem rows_of_recut (hne : ∀ t ∈ texts, t ≠ []) (hne' : ∀ t ∈ texts', t ≠ [])
    (hcodes : codes texts.flatten = codes texts'.flatten)
    (hsource : Source.Gives (textAt texts) 0 (some source))
    (hsource' : Source.Gives (textAt texts') 0 (some source')) (hsink : Sink.Spares sink)
    (hb : Bench.make {source := some source, sink} p o = .ok b)
    (hb' : Bench.make {source := some source', sink} p o = .ok b') :
    (∀ k, ∃ log s s', Row {bench := b} log s ∧ Row {bench := b'} log s' ∧ log.length = k) ∧
    ∀ log s log' s', Row {bench := b} log s → Row {bench := b'} log' s' →
      log.length = log'.length → log = log' ∧ Recut s s' := by
  obtain ⟨n, hn, hcells, hshows, hfed⟩ := fed_of_make hb hsource hsink
  obtain ⟨n', hn', hcells', hshows', hfed'⟩ := fed_of_make hb' hsource' hsink
  obtain rfl : n = n' := Option.some.inj (hcells.symm.trans hcells')
  have hsame : ∀ log s log' s', Row {bench := b} log s → Row {bench := b'} log' s' →
      log.length = log'.length → log = log' ∧ Recut s s' := by
    intro log s log' s' hrow hrow' hlength
    obtain ⟨y, hscene, -, hy⟩ := scene_of_row hrow (idle_of_bench b) hshows
    obtain ⟨y', hscene', -, hy'⟩ := scene_of_row hrow' (idle_of_bench b') hshows'
    obtain ⟨hyfed, hwhole⟩ := hfed.row hne hscene
    obtain ⟨hyfed', hwhole'⟩ := hfed'.row hne' hscene'
    -- with the whole input both begin as the same scene
    rw [← hcodes] at hwhole'
    obtain ⟨rfl, heq⟩ := hwhole.unique hwhole' hlength
    exact ⟨rfl, recut_of_shows hy hy' hyfed hyfed' hcodes heq⟩
  refine ⟨fun k => ?_, hsame⟩
  obtain ⟨log, y, hscene, hlength⟩ := hfed.exists_row hne k
  obtain ⟨log', y', hscene', hlength'⟩ := hfed'.exists_row hne' k
  obtain ⟨s, hrow, -, -⟩ := row_of_scene hscene (idle_of_bench b) hshows
  obtain ⟨s', hrow', -, -⟩ := row_of_scene hscene' (idle_of_bench b') hshows'
  obtain ⟨rfl, -⟩ := hsame log s log' s' hrow hrow' (hlength.trans hlength'.symm)
  exact ⟨log, s, s', hrow, hrow', hlength⟩

/-- The lines of a stream, and all at once characters that stand for the same bytes. -/
theorem rows_of_recut_lines : ∃ b b',
    Bench.make {source := some (.lines ['a', '\n', 'b'] true)} ⟨#[',', '+', ',']⟩
        {memorySize := .integer 1} = .ok b ∧
      Bench.make {source := some (.fixed ['š', '\n', 'b'])} ⟨#[',', '+', ',']⟩
        {memorySize := .integer 1} = .ok b' ∧
      ∃ log s s', Row {bench := b} log s ∧ Row {bench := b'} log s' ∧ log.length = 5 ∧
        Recut s s' := by
  have hb : Bench.make {source := some (.lines ['a', '\n', 'b'] true)} ⟨#[',', '+', ',']⟩
      {memorySize := .integer 1} = .ok _ := rfl
  have hb' : Bench.make {source := some (.fixed ['š', '\n', 'b'])} ⟨#[',', '+', ',']⟩
      {memorySize := .integer 1} = .ok _ := rfl
  have hempty : ∀ n, Source.line true [] n = [] := fun n => by
    induction n with
    | zero => rfl
    | succ n ih => exact ih
  have hlines : Source.Gives (textAt [['a', '\n'], ['b']]) 0
      (some (.lines ['a', '\n', 'b'] true)) := fun n => by
    match n with
    | 0 | 1 => rfl
    | n + 2 =>
      rw [show 0 + 1 + (n + 2) = n + 3 by omega]
      exact (hempty n).symm
  have hfixed : Source.Gives (textAt [['š', '\n', 'b']]) 0
      (some (.fixed ['š', '\n', 'b'])) := fun n hn => by
    match n, hn with
    | 1, _ | n + 2, _ => rfl
  have hcodes : codes [['a', '\n'], ['b']].flatten = codes [['š', '\n', 'b']].flatten := by decide
  obtain ⟨hrows, hsame⟩ := rows_of_recut (by decide) (by decide) hcodes hlines hfixed
    (show Sink.Spares none from trivial) hb hb'
  obtain ⟨log, s, s', hrow, hrow', hlength⟩ := hrows 5
  exact ⟨_, _, hb, hb', log, s, s', hrow, hrow', hlength, (hsame _ _ _ _ hrow hrow' rfl).2⟩

end Scheduler
end TapeMachine
