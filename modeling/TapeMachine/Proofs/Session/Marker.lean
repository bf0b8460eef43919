import TapeMachine.Proofs.Program.Location
import TapeMachine.Proofs.Session.Custody

/-! The marker.

A session locates the counter of its machine in the program that it has itself, and not in
that of the machine. The two are the same as long as the session has not been given another
program since it made the machine (`Scheduler.Unedited`), and then the marker shows what
the machine executes next. After an edit it shows the place that the edited text has for
the counter, which is right only where that text has it at the same place. -/
namespace TapeMachine

variable {f : Focus} {fs : List Frame} {i : Nat}

namespace Bench
variable {b b' : Bench}

/-- The session's program. -/
def text? (b : Bench) : Option Program := b.session.map (·.program)

/-- The session keeps its program, and a machine that is made has it as its own. -/
structure Binds (b b' : Bench) : Prop where
  text : b'.text? = b.text?
  made : ∀ j m, b.machines.size ≤ j → b'.machine? j = some m → b.text? = some m.program

namespace Binds

/-- Without a new machine only the session counts. -/
theorem of_size (ht : b'.text? = b.text?) (hz : b'.machines.size = b.machines.size) :
    Binds b b' := by
  refine ⟨ht, fun j m hj hm => ?_⟩
  have hlt := lt_size_of_machine? hm
  omega

theorem of_session (hs : b'.session = b.session) (hz : b'.machines.size = b.machines.size) :
    Binds b b' := of_size (by rw [text?, hs]; rfl) hz

theorem refl (b : Bench) : Binds b b := of_session rfl rfl

theorem of_heeds (h : Heeds b b') : Binds b b' := by
  refine of_size ?_ h.size
  have hforget : ∀ b : Bench, b.text? = (b.session.map Session.forget).map (·.program) := by
    intro b
    rw [text?, Option.map_map]
    rfl
  rcases h.session with hforgot | hkept
  · rw [hforget b, text?, hforgot]
  · rw [hforget b', hforget b, hkept.forgets]

/-- The session has a machine more, made for its program. -/
theorem of_make {made : Bench} {s t : Session} {o : Options} (hs : b.session = some s)
    (hmade : b.make s.program o = .ok made) (ht : b'.session = some t)
    (hp : t.program = s.program) (hm : b'.machines = made.machines) : Binds b b' := by
  obtain ⟨n, hn, -, rfl⟩ := eq_of_make hmade
  refine ⟨?_, fun j m hj hjm => ?_⟩
  · rw [text?, text?, hs, ht]
    exact congrArg some hp
  · rw [machine?, hm] at hjm
    obtain rfl : j = b.machines.size := by
      have hlt : j < (b.machines.push _).size := (Array.getElem?_eq_some_iff.mp hjm).1
      rw [Array.size_push] at hlt
      omega
    obtain rfl : _ = m := Option.some.inj (Array.getElem?_push_size.symm.trans hjm)
    rw [text?, hs]
    rfl

end Binds

theorem binds_callRun (b : Bench) (i : Nat) (fs : List Frame) : Binds b (b.callRun i fs).1 := by
  refine .of_session (session_callRun b i fs) ?_
  simp only [callRun]
  split
  · exact size_update b i _
  · exact (size_update _ i _).trans (size_update b i _)

theorem binds_callStart (b : Bench) (fs : List Frame) : Binds b (b.callStart fs).1 := by
  rw [callStart]
  split
  next => exact .refl b
  next s hs =>
    have htext : b.text? = some s.program := by rw [text?, hs]; rfl
    split
    next =>
      simp only
      split
      · exact .of_size htext.symm (size_update _ _ _)
      · exact .of_size htext.symm rfl
    next =>
      split
      next => exact .refl b
      next made hmade => exact .of_make hs hmade rfl rfl rfl
    next => exact .refl b

theorem binds_callSessionStep (b : Bench) (fs : List Frame) :
    Binds b (b.callSessionStep fs).1 := by
  rw [callSessionStep]
  split
  next => exact .refl b
  next s hs =>
    split
    next => exact .refl b
    next =>
      split
      · exact .refl b
      · exact .refl b
    next =>
      split
      next => exact .refl b
      next made hmade => exact .of_make hs hmade rfl rfl rfl

theorem binds_endRun (b : Bench) (i : Nat) (fs : List Frame) : Binds b (b.endRun i fs).1 :=
  .of_session (session_endRun b i fs) ((same_endRun b i fs).size.trans (size_update b i _))

theorem binds_giveBack (b : Bench) (o : Outcome) (fs : List Frame) :
    Binds b (b.giveBack o fs).1 := by
  rw [giveBack.eq_def]
  split
  next => exact .refl b
  next i rest =>
    rw [afterStep.eq_def]
    split
    next => exact .of_session rfl (size_update b i _)
    next =>
      split
      · exact .refl b
      · exact .refl b
    next => exact binds_endRun b i rest
  next => exact .of_session rfl rfl
  next i rest =>
    split
    next v =>
      rw [endStart.eq_def]
      simp only
      split
      next s state hs _ =>
        refine .of_size ?_ rfl
        rw [text?, text?, hs]
        show some (s.settle i _ state).program = some s.program
        rw [Session.settle]
        split <;> rfl
      next => exact .refl b
    next => exact .refl b
  next i rest =>
    split
    next =>
      rw [endSessionStep]
      split
      next s state hs _ =>
        refine .of_size ?_ rfl
        rw [text?, text?, hs]
        show some (s.note i state).program = some s.program
        rw [Session.note]
        split <;> rfl
      next => exact .refl b
    next => exact .refl b
  next => exact .refl b

/-- What one turn does to the texts of session and machines. -/
theorem binds_advance (hf : f.Fits fs) (b : Bench) : Binds b (b.advance fs f).1 := by
  cases hf with
  | call c _ =>
    cases c with
    | step j =>
      show Binds b (b.callStep j fs).1
      by_cases hends : b.Halts j
      · rw [callStep_of_halts hends]
        exact .of_session rfl (size_update b j _)
      · exact .of_heeds (heeds_callStep hends fs)
    | run j => exact binds_callRun b j fs
    | resume j =>
      show Binds b (b.callResume j fs).1
      rw [callResume]
      split
      · exact binds_callRun b j fs
      · exact .refl b
    | sessionStart => exact binds_callStart b fs
    | sessionStep => exact binds_callSessionStep b fs
  | returned o _ => exact binds_giveBack b o fs
  | answered a j epoch _ => exact .of_heeds (heeds_endReading b j epoch a _)
  | looping j _ =>
    show Binds b (b.nextStep j _).1
    rw [nextStep]
    split
    · exact .refl b
    · exact binds_endRun b j _
  | getting j epoch _ =>
    simp only [advance, goOn]
    split
    · exact .of_session rfl rfl
    · exact .refl b
  | replying deeds answer j epoch _ =>
    rcases deeds with - | ⟨- | g | v, deeds⟩
    · exact .refl b
    · exact .refl b
    · exact .of_heeds ((Heeds.refl b).obey true [g])
    · exact .refl b

end Bench

namespace Scheduler
variable {s : Scheduler} {x : Move} {moves : List Move} {m : Machine}

/-- The session is not given another program. -/
def Unedited (s : Scheduler) : Move → Prop
  | .outside (.edit p _) => s.bench.text? = some p
  | _ => True

instance (s : Scheduler) : DecidablePred s.Unedited
  | .outside (.edit p _) => inferInstanceAs (Decidable (s.bench.text? = some p))
  | .outside (.spawn _) | .outside (.signal _) | .outside (.signalMachine _ _)
  | .outside (.feed _) | .outside (.cooperate _ _) | .turn | .dispatch => .isTrue trivial

theorem binds_move (h : s.Sound) (hx : s.Unedited x) : s.bench.Binds (s.move x).bench := by
  cases x with
  | turn =>
    obtain ⟨bench, roster⟩ := s
    rw [move, advance]
    cases hc : roster.current? with
    | none => exact .refl _
    | some c =>
      obtain ⟨t, f, fs⟩ := c
      exact Bench.binds_advance (h.fits t f fs (Roster.current?_eq_some_iff.mp hc).2) bench
  | dispatch => exact .refl _
  | outside z =>
    rw [move]
    split
    · cases z with
      | signal g => exact .of_heeds (.signal _ g)
      | signalMachine i g =>
        rw [intervene]
        split
        · cases g <;> exact .of_session rfl (Bench.size_update _ i _)
        · exact .refl _
      | edit p o =>
        refine .of_size (Eq.trans ?_ (show s.bench.text? = some p from hx).symm) rfl
        obtain ⟨t, ht, -⟩ := Option.map_eq_some_iff.mp (show s.bench.text? = some p from hx)
        show (s.bench.session.map _).map _ = _
        rw [ht]
        rfl
      | cooperate i on => exact .of_session rfl (Bench.size_update _ i _)
      | spawn c => exact .refl _
      | feed text => exact .of_session rfl rfl
    · exact .refl _

/-- If the session works with machine `i`, the two have the same program. -/
def Shares (i : Nat) (s : Scheduler) : Prop :=
  ∀ m, s.bench.Current i → s.bench.machine? i = some m → s.bench.text? = some m.program

theorem Shares.move (hshares : Shares i s) (h : s.Sound) (hx : s.Unedited x) :
    Shares i (s.move x) := by
  intro m' hcur' hm'
  have hbinds := binds_move h hx
  rw [hbinds.text]
  rcases (reaches_move s x).current i hcur' with hcur | hnew
  · obtain ⟨t, ht, hi⟩ := hcur
    have hlt := h.manned.current t i ht hi
    obtain ⟨m, hm⟩ : ∃ m, s.bench.machine? i = some m := ⟨_, Array.getElem?_eq_getElem hlt⟩
    obtain ⟨sg, hstir, -⟩ := (move_moved h x).stir
    obtain ⟨n, hn, hshift⟩ := hstir.at_index (Bench.getElem?_bare_of hm)
    obtain rfl := Option.some.inj ((Bench.getElem?_bare_of hm').symm.trans hn)
    rw [hshares m ⟨t, ht, hi⟩ hm]
    exact congrArg some hshift.program.symm
  · exact hbinds.made i m' hnew hm'

theorem Shares.play (hshares : Shares i s) (h : s.Sound) (hmoves : s.Along Unedited moves) :
    Shares i (s.play moves) := by
  induction moves generalizing s with
  | nil => exact hshares
  | cons x rest ih => exact ih (hshares.move h hmoves.1) (move_moved h x).sound hmoves.2

/-- While the counter of the session's machine is in its program, the marker is right if
the session was not given another program since it took up the machine, and altogether
just if the two programs locate the counter alike. -/
theorem play_marker (p : Program) (o : Options) (source : Option Source) (sink : Option Sink)
    (moves : List Move)
    (hm : ((ofSession p o source sink).play moves).bench.sessionMachine? = some m)
    (hr : m.counter < m.program.size) :
    let b := ((ofSession p o source sink).play moves).bench
    ∃ t i place, b.session = some t ∧ t.current = some i ∧ b.machine? i = some m ∧
      b.marker? = some place ∧
      (Text.Shows m.program.toList m.counter place ↔
        t.program.locate m.counter = m.program.locate m.counter) ∧
      ∀ before after, moves = before ++ after →
        ¬ ((ofSession p o source sink).play before).bench.Current i →
        ((ofSession p o source sink).play before).Along Unedited after →
        t.program = m.program ∧ Text.Shows m.program.toList m.counter place := by
  intro b
  obtain ⟨i, hi, hmi⟩ := Option.bind_eq_some_iff.mp hm
  obtain ⟨t, ht, hti⟩ := Option.bind_eq_some_iff.mp hi
  have hmarker : b.marker? = some (t.program.locate m.counter) := by
    rw [Bench.marker?, ht, hm]
  have hshows : Text.Shows m.program.toList m.counter (t.program.locate m.counter) ↔
      t.program.locate m.counter = m.program.locate m.counter := Program.shows_iff hr
  refine ⟨t, i, _, ht, hti, hmi, hmarker, hshows, fun before after heq hfree hafter => ?_⟩
  have hsound : (ofSession p o source sink).Sound := Starts.sound (.session rfl)
  have hshares : Shares i ((ofSession p o source sink).play moves) := by
    rw [heq, play_append]
    exact Shares.play (fun n hcur => absurd hcur hfree) (play_sound hsound before).1 hafter
  have hprogram : t.program = m.program := by
    have htext := hshares m ⟨t, ht, hti⟩ hmi
    rw [Bench.text?, ht] at htext
    exact Option.some.inj htext
  exact ⟨hprogram, hshows.mpr (by rw [hprogram])⟩

/-- On the second line after two steps, with other options for the next machine. -/
theorem play_marker_second_line : ∃ m place,
    let s := (ofSession ⟨#['+', '\n', '-']⟩ {memorySize := .integer 1} none none).play
      (Move.alone .sessionStep 5 ++
        [.outside (.edit ⟨#['+', '\n', '-']⟩ {memorySize := .integer 2})] ++
        Move.alone .sessionStep 5)
    s.bench.sessionMachine? = some m ∧ s.bench.marker? = some place ∧ place = ⟨1, 0⟩ ∧
      m.counter = 2 ∧ Text.Shows m.program.toList m.counter place := by
  obtain ⟨t, i, place, -, -, -, hplace, -, hshows⟩ := play_marker ⟨#['+', '\n', '-']⟩
    {memorySize := .integer 1} none none (Move.alone .sessionStep 5 ++
      [.outside (.edit ⟨#['+', '\n', '-']⟩ {memorySize := .integer 2})] ++
      Move.alone .sessionStep 5) rfl (by decide)
  obtain ⟨-, hright⟩ := hshows [] _ rfl (fun ⟨t, ht, hi⟩ => by cases ht; cases hi) (by decide)
  exact ⟨_, place, rfl, hplace, by cases hplace; rfl, rfl, hright⟩

/-- An edit while the machine stands at its second character: the marker goes to the second
line of the new text, and the machine has only one line. -/
theorem marker_after_edit : ∃ m place,
    let s := (ofSession ⟨#['+', '-']⟩ {memorySize := .integer 1} none none).play
      (Move.alone .sessionStep 5 ++
        [.outside (.edit ⟨#['\n', '+']⟩ {memorySize := .integer 1})])
    s.bench.sessionMachine? = some m ∧ m.counter < m.program.size ∧
      s.bench.marker? = some place ∧ ¬ Text.Shows m.program.toList m.counter place := by
  refine ⟨_, _, rfl, by decide, rfl, fun h => ?_⟩
  obtain ⟨line, c, hline, -⟩ := h.character
  cases hline

end Scheduler
end TapeMachine
