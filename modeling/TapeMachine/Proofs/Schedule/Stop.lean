import TapeMachine.Proofs.Schedule.Entry
import TapeMachine.Proofs.Schedule.LoopStack

/-! Why a run loop stops.

A run loop that ends without a failure was paused, has come to the end of its program, or
was cut off by a reset (`Concludes`). A pause is seen by the loop before its next step: from then
on, until the machine is run, resumed or reset, the loop begins no instruction, completes the
one that waits if there is one, and ends paused (`Winds`). -/
namespace TapeMachine

/-- What becomes of a machine and its step that waited when the source answers, if the step
began in the given epoch. -/
inductive Machine.Hears (m : Machine) (epoch : Nat) : Answer → Machine → Outcome → Prop
  | text (text : Text) : m.epoch = epoch → Hears m epoch (.ok text)
      (({m with stepping := false}.receive text).consume.advance) (.ok (.stepped true))
  | late (text : Text) : m.epoch ≠ epoch →
      Hears m epoch (.ok text) {m with stepping := false} (.ok (.stepped false))
  | failure (e : Failure) : Hears m epoch (.error e) {m with stepping := false} (.error e)

theorem Call.Runs.rouses {c : Call} {i : Nat} (h : c.Runs i) (b : Bench) :
    b.Rouses i (.call c) := by
  rcases h with rfl | rfl <;> rfl

namespace Bench
variable {b b' : Bench} {f : Focus} {fs rest : List Frame} {x : Turn} {i epoch : Nat}
  {m : Machine} {v : Value}

/-- A run loop is about to end without a failure. -/
def Stops (b : Bench) (i : Nat) (f : Focus) : Prop :=
  f = .resumed ∧ b.holds i Machine.goesOn = false ∨ ∃ v, f = .returned (.ok v) ∧ v ≠ .stepped true

theorem advance_stops (h : b.Stops i f) : b.advance (.looping i :: rest) f = b.endRun i rest := by
  rcases h with ⟨rfl, h⟩ | ⟨v, rfl, hv⟩
  · show b.nextStep i rest = _
    rw [nextStep, h]
    rfl
  · show b.afterStep i (.ok v) rest = _
    cases v with
    | stepped done =>
      cases done with
      | true => exact absurd rfl hv
      | false => rfl
    | state s => rfl

theorem endRun_of (hm : b.machine? i = some m) (rest : List Frame) :
    (b.endRun i rest).1.machine? i = some m.leaveLoop ∧
      (b.endRun i rest).2 = .value (.state (some m.leaveLoop.toSnapshot)) rest := by
  have hleft := machine?_update_self hm Machine.leaveLoop
  simp only [endRun]
  rw [hleft]
  exact ⟨hleft, rfl⟩

theorem endReading_of (hm : b.machine? i = some m) (epoch : Nat) (a : Answer)
    (rest : List Frame) : ∃ m' o, m.Hears epoch a m' o ∧
      (b.endReading i epoch a rest).1.machine? i = some m' ∧
      (b.endReading i epoch a rest).2 = .go (.returned o) rest := by
  have hfreed := machine?_update_self hm fun m => {m with stepping := false}
  have hepoch : ∀ text, ((b.update i fun m => {m with stepping := false}).record
      (.answered i text)).epoch? i = some m.epoch := fun _ =>
    congrArg (Option.map fun m : Machine => m.epoch) hfreed
  rw [endReading.eq_def]
  simp only
  cases a with
  | error e => exact ⟨_, _, .failure e, hfreed, rfl⟩
  | ok text =>
    simp only
    rw [hepoch]
    split
    next he => exact ⟨_, _, .text text (Option.some.inj he), machine?_update_self hfreed _, rfl⟩
    next he => exact ⟨_, _, .late text fun h => he (congrArg some h), hfreed, rfl⟩

/-- A run loop ends in no turn but one of its own. -/
theorem Yields.stops_of_value (h : b.Yields f fs b' x) (hl : .looping i :: rest <:+ fs)
    (hx : x = .value v rest) : fs = .looping i :: rest ∧ b.Stops i f := by
  have hself : ¬ .looping i :: rest <:+ rest := fun h => Nat.not_succ_le_self _ h.length_le
  have htop : ∀ {d : Frame}, .looping i :: rest <:+ d :: rest → d = .looping i := by
    intro d hl
    rcases List.suffix_cons_iff.mp hl with heq | hl
    · exact (List.cons.inj heq).1.symm
    · exact absurd hl hself
  cases h with
  | stops j s hs =>
    cases hx
    cases htop hl
    exact ⟨rfl, hs⟩
  | steps | joins | turns =>
    cases hx
    exact absurd hl hself
  | hears j epoch a ho =>
    cases hx
    cases htop hl
  | settles j w s hy =>
    cases hx
    cases htop hl
    rcases hy with hy | hy <;> cases hy
  | _ => cases hx

/-- A run loop that does not go on leaves its thread between two steps until it ends. -/
theorem Yields.between (h : b.Yields f (.looping i :: rest) b' x) (hf : ∀ c, f ≠ .call c)
    (hgo : b.holds i Machine.goesOn = false) (hl : .looping i :: rest <:+ x.frames) :
    x.frames = .looping i :: rest := by
  generalize hfs : Frame.looping i :: rest = fs at h
  have hself : ¬ .looping i :: rest <:+ rest := fun h => Nat.not_succ_le_self _ h.length_le
  cases h with
  | next j hg =>
    cases hfs
    rw [hgo] at hg
    cases hg
  | stops | breaks =>
    cases hfs
    exact absurd hl hself
  | again | sleeps => rfl
  | fails j e hy | settles j v s hy =>
    cases hfs
    rcases hy with hy | hy <;> cases hy
  | steps | asks | awaits | joins | enters | turns | starts | begins => exact absurd rfl (hf _)
  | _ => cases hfs

end Bench

namespace Scheduler
variable {s s₀ : Scheduler} {x : Move} {moves more : List Move} {t i : Nat} {rest : List Frame}
  {m : Machine} {e₀ : Nat} {v : Value}

/-- In a move machine `i` is not run, resumed or reset. -/
def Undisturbed (i : Nat) (s : Scheduler) (x : Move) : Prop :=
  ¬ s.Rouses x i ∧ (s.move x).bench.epoch? i = s.bench.epoch? i

/-- A thread is in a run loop, and no step of the loop waits. -/
def Between (s : Scheduler) (t i : Nat) (rest : List Frame) : Prop :=
  ∃ f, s.roster.threads[t]? = some (.active f (.looping i :: rest))

/-- What a turn comes to of a thread in a run loop of machine `i`, after a pause. -/
structure Winds (s : Scheduler) (t i : Nat) (rest : List Frame) : Prop where
  /-- The loop begins no instruction. -/
  starts : s.roster.current? ≠ some (t, .call (.step i), .looping i :: rest)
  /-- The instruction that waits is completed, if the source does not fail and the machine was
  not reset before. -/
  answered : ∀ a epoch,
    s.roster.current? = some (t, .answered a, .reading i epoch :: .looping i :: rest) →
      ∃ m m' o, s.bench.machine? i = some m ∧ m.Hears epoch a m' o ∧
        s.advance.bench.machine? i = some m' ∧
        s.advance.roster.current? = some (t, .returned o, .looping i :: rest)
  /-- Between two steps the loop comes back to its head, fails, or ends, paused at the next
  instruction. -/
  between : ∀ f, s.roster.current? = some (t, f, .looping i :: rest) →
    (f = .returned (.ok (.stepped true)) ∧ s.advance.bench = s.bench ∧
      s.advance.roster.threads[t]? = some (.active .resumed (.looping i :: rest))) ∨
    (∃ e, f = .returned (.error e) ∧ s.advance.bench = s.bench.update i Machine.leaveLoop ∧
      s.advance.roster.current? = some (t, .returned (.error e), rest)) ∨
    ∃ m, s.bench.machine? i = some m ∧ m.paused = true ∧
      s.advance.bench.machine? i = some m.leaveLoop ∧ s.advance.roster.current? =
        some (t, .returned (.ok (.state (some m.leaveLoop.toSnapshot))), rest)

/-- How a run loop ended that was entered in epoch `e₀`, with machine `m` and a value for its
caller. -/
structure Concludes (e₀ : Nat) (m : Machine) (v : Value) : Prop where
  value : v = .state (some m.toSnapshot)
  running : m.running = false
  reason : m.paused = true ∨ m.counter = m.program.size ∨ e₀ < m.epoch

/-! ### The end of a run loop -/

/-- A run loop that ends without a failure ends for a reason. -/
theorem Course.concludes (h : s.Governed) (hk : s.Course t i rest e₀)
    (hv : s.advance.roster.current? = some (t, .returned (.ok v), rest))
    (hle : ∀ m, s.bench.machine? i = some m → m.counter ≤ m.program.size) :
    ∃ m, s.bench.machine? i = some m ∧ s.advance.bench.machine? i = some m.leaveLoop ∧
      Concludes e₀ m.leaveLoop v := by
  obtain ⟨f₀, fs₀, ht, hl⟩ := hk.inLoop
  cases hc : s.roster.current? with
  | none =>
    rw [advance_of_none h.orderly hc, hc] at hv
    cases hv
  | some c =>
    obtain ⟨u, f, fs⟩ := c
    rw [advance_of_some hc] at hv
    obtain ⟨rfl, hx⟩ := Roster.eq_go_of_current?_settle hc hv
    have hthread := (Roster.current?_eq_some_iff.mp hc).2
    cases hthread.symm.trans ht
    obtain ⟨rfl, hstops⟩ := (h.yields hc).stops_of_value hl hx
    obtain ⟨m, hm⟩ := h.machine?_of_inLoop hk.inLoop
    obtain ⟨hm', hvalue⟩ := Bench.endRun_of hm rest
    rw [Bench.advance_stops hstops, hvalue] at hx
    cases hx
    rw [advance_of_some hc, Bench.advance_stops hstops]
    refine ⟨m, hm, hm', rfl, rfl, ?_⟩
    have hend : m.ended = true → m.counter = m.program.size := fun hend =>
      Nat.le_antisymm (hle m hm) (of_decide_eq_true hend)
    obtain ⟨hle₀, hgoes, -⟩ := hk.machine m hm
    rcases hstops with ⟨rfl, hgo⟩ | ⟨w, rfl, hw⟩
    · -- the loop has looked whether it goes on
      rw [Bench.holds_of hm, Machine.goesOn, Bool.and_eq_false_iff, Bool.not_eq_false'] at hgo
      rcases hgo with hr | hp
      · rcases Nat.eq_or_lt_of_le hle₀ with heq | hlt
        · rcases hgoes heq.symm with hr' | hended
          · rw [hr] at hr'
            cases hr'
          · exact .inr (.inl (hend hended))
        · exact .inr (.inr hlt)
      · exact .inl hp
    · -- the step that it took has executed nothing
      rcases (h.layers_of_current hc).of_looping.2 with heq | heq | ⟨o, heq, ho⟩
      · cases heq
      · cases heq
      · cases heq
        cases w with
        | state s => exact absurd ho id
        | stepped done =>
          cases done with
          | true => exact absurd rfl hw
          | false => exact .inr ((hk.stepped hthread m hm).imp_left hend)

/-! ### After a pause -/

theorem Governed.paused_move (h : s.Governed) (hu : s.Undisturbed i x)
    (hp : s.bench.holds i (·.paused) = true) : (s.move x).bench.holds i (·.paused) = true := by
  obtain ⟨m, hm, hp⟩ := Bench.exists_of_holds hp
  obtain ⟨m', hm', -, -, hlasts⟩ := h.machine_move x hm
  have hepoch := hu.2
  rw [Bench.epoch?, Bench.epoch?, hm, hm'] at hepoch
  rw [Bench.holds_of hm']
  exact (hlasts.paused (Option.some.inj hepoch) hp).resolve_right hu.1

/-- No run loop begins while a machine is neither run nor resumed. -/
theorem Governed.inLoop_of_undisturbed (h : s.Governed) (hu : s.Undisturbed i x)
    (hl : (s.move x).InLoop t i rest) : s.InLoop t i rest := by
  refine (h.inLoop_or_enters hl).resolve_right ?_
  rintro ⟨rfl, ⟨c, hruns, hc⟩, -⟩
  exact hu.1 ⟨rfl, t, _, _, hc, hruns.rouses s.bench⟩

/-- A run loop that is paused does not go on. -/
theorem goesOn_of_paused (hp : s.bench.holds i (·.paused) = true) :
    s.bench.holds i Machine.goesOn = false := by
  obtain ⟨m, hm, hp⟩ := Bench.exists_of_holds hp
  rw [Bench.holds_of hm, Machine.goesOn, show m.paused = true from hp, Bool.not_true,
    Bool.and_false]

theorem Governed.between_move (h : s.Governed) (hp : s.bench.holds i (·.paused) = true)
    (hb : s.Between t i rest) (hl : (s.move x).InLoop t i rest) :
    (s.move x).Between t i rest := by
  obtain ⟨f, ht⟩ := hb
  obtain ⟨f', fs', ht', hsuffix⟩ := hl
  have hgo := goesOn_of_paused hp
  cases comes_of_move h.orderly ht' with
  | stays ht₀ _ =>
    cases ht₀.symm.trans ht
    exact ⟨f, ht'⟩
  | spawned c hnone _ => cases hnone.symm.trans ht
  | turns f₀ fs₀ _ hc _ heq =>
    cases (Roster.current?_eq_some_iff.mp hc).2.symm.trans ht
    have hframes := Turn.frames_of_thread heq.symm
    have hcall : ∀ c, f ≠ .call c := by
      rintro c rfl
      rcases (h.layers_of_current hc).of_looping.2 with heq | heq | ⟨o, heq, -⟩
      · cases heq
        rw [h.going t i rest ht] at hgo
        cases hgo
      · cases heq
      · cases heq
    have hsame := (h.yields hc).between hcall hgo (hframes ▸ hsuffix)
    exact ⟨f', by rw [ht', ← hframes, hsame]⟩

theorem Governed.winds (h : s.Governed) (hp : s.bench.holds i (·.paused) = true) :
    s.Winds t i rest := by
  have hgo := goesOn_of_paused hp
  obtain ⟨m, hm, hpaused⟩ := Bench.exists_of_holds hp
  have hends : ∀ f, s.roster.current? = some (t, f, .looping i :: rest) → s.bench.Stops i f →
      s.advance.bench.machine? i = some m.leaveLoop ∧ s.advance.roster.current? =
        some (t, .returned (.ok (.state (some m.leaveLoop.toSnapshot))), rest) := by
    intro f hc hstops
    obtain ⟨hm', hx⟩ := Bench.endRun_of hm rest
    rw [advance_of_some hc, Bench.advance_stops hstops, hx]
    exact ⟨hm', Roster.current?_settle_go hc _ _⟩
  have hstarts : s.roster.current? ≠ some (t, .call (.step i), .looping i :: rest) := by
    intro hc
    rw [h.going t i rest (Roster.current?_eq_some_iff.mp hc).2] at hgo
    cases hgo
  refine ⟨hstarts, fun a epoch hc => ?_, fun f hc => ?_⟩
  · obtain ⟨m', o, hears, hm', hx⟩ := Bench.endReading_of hm epoch a (.looping i :: rest)
    refine ⟨m, m', o, hm, hears, ?_⟩
    rw [advance_of_some hc]
    refine ⟨hm', ?_⟩
    rw [show (s.bench.advance (.reading i epoch :: .looping i :: rest) (.answered a)).2 = _ from hx]
    exact Roster.current?_settle_go hc _ _
  · rcases (h.layers_of_current hc).of_looping.2 with rfl | rfl | ⟨o, rfl, ho⟩
    · exact absurd hc hstarts
    · exact .inr (.inr ⟨m, hm, hpaused, hends _ hc (.inl ⟨rfl, hgo⟩)⟩)
    · cases o with
      | error e =>
        refine .inr (.inl ⟨e, rfl, ?_⟩)
        rw [advance_of_some hc]
        exact ⟨rfl, Roster.current?_settle_go hc _ _⟩
      | ok v =>
        by_cases hv : v = .stepped true
        · subst hv
          refine .inl ⟨rfl, ?_⟩
          have ht := (Roster.current?_eq_some_iff.mp hc).2
          rw [advance_of_some hc]
          show (s.bench.afterStep i (.ok (.stepped true)) rest).1 = _ ∧
            (s.roster.settle t (s.bench.afterStep i (.ok (.stepped true)) rest).2).threads[t]? = _
          rw [Bench.afterStep]
          split
          · exact ⟨rfl, Roster.getElem?_settle_self ht _⟩
          · exact ⟨rfl, Roster.getElem?_settle_self ht _⟩
        · exact .inr (.inr ⟨m, hm, hpaused, hends _ hc (.inr ⟨v, rfl, hv⟩)⟩)

theorem Governed.play_winds (h : s.Governed) (ha : s.Along Addresses more)
    (hp : s.bench.holds i (·.paused) = true) (hu : s.Along (Undisturbed i) more) :
    (s.play more).bench.holds i (·.paused) = true ∧
      ∀ t rest, (s.play more).InLoop t i rest → s.InLoop t i rest ∧
        (s.play more).Winds t i rest ∧
        (s.Between t i rest → (s.play more).Between t i rest) := by
  induction more generalizing s with
  | nil => exact ⟨hp, fun t rest hl => ⟨hl, h.winds hp, id⟩⟩
  | cons x more ih =>
    obtain ⟨hp', hloops⟩ := ih (h.move ha.1) ha.2 (h.paused_move hu.1 hp) hu.2
    refine ⟨hp', fun t rest hl => ?_⟩
    obtain ⟨hl', hwinds, hbetween⟩ := hloops t rest hl
    exact ⟨h.inLoop_of_undisturbed hu.1 hl', hwinds, fun hb => hbetween (h.between_move hp hb hl')⟩

/-! ### All runs -/

/-- A run loop that ends without a failure was paused, or its program has ended, or the machine
was reset since the loop was entered. And after a pause, until the machine is run, resumed or
reset, no run loop of it begins, and a loop that is active begins no instruction more: it
completes the one that waits, if there is one, and ends paused. -/
theorem play_stops (hs : s₀.Starts) (ha : s₀.Along Addresses moves) :
    (∀ t i rest v, (s₀.play moves).InLoop t i rest →
      (s₀.play moves).advance.roster.current? = some (t, .returned (.ok v), rest) →
        ∃ before after m₀ m, s₀.Entered moves t i rest before after m₀ ∧
          (s₀.play moves).advance.bench.machine? i = some m ∧ Concludes m₀.epoch m v) ∧
    ∀ i more, (s₀.play moves).bench.holds i (·.paused) = true →
      (s₀.play moves).Along Addresses more → (s₀.play moves).Along (Undisturbed i) more →
        (s₀.play (moves ++ more)).bench.holds i (·.paused) = true ∧
          ∀ t rest, (s₀.play (moves ++ more)).InLoop t i rest →
            (s₀.play moves).InLoop t i rest ∧ (s₀.play (moves ++ more)).Winds t i rest ∧
              ((s₀.play moves).Between t i rest →
                (s₀.play (moves ++ more)).Between t i rest) := by
  have h := play_governed hs ha
  refine ⟨fun t i rest v hl hv => ?_, fun i more hp hmore hu => ?_⟩
  · obtain ⟨before, after, m₀, hentered⟩ := exists_entered hs ha hl
    obtain ⟨m, -, hm, hends⟩ := (hentered.course hs ha).concludes h hv fun m hm =>
      (play_nested hs hm).counter_le
    exact ⟨before, after, m₀, _, hentered, hm, hends⟩
  · rw [play_append]
    exact h.play_winds hmore hp hu

/-- A pause comes while a run loop waits for text. The loop reads the text that is fed to it,
and ends paused behind the `,`. -/
theorem play_stops_reading : ∃ b moves more before after m₀ m v,
    Bench.make {source := some (.queue [])} ⟨#[',', '+']⟩ {memorySize := .integer 2} = .ok b ∧
      moves = Move.alone (.run 0) 4 ++ [.outside (.signal .pause)] ∧
      more = [.outside (.feed ['a']), .dispatch, .turn, .turn, .turn, .dispatch] ∧
      (({bench := b} : Scheduler).play moves).bench.holds 0 (·.paused) = true ∧
      (({bench := b} : Scheduler).play moves).InLoop 0 0 [] ∧
      (({bench := b} : Scheduler).play (moves ++ more)).Winds 0 0 [] ∧
      (({bench := b} : Scheduler).play (moves ++ more)).advance.roster.current? =
        some (0, .returned (.ok v), []) ∧
      ({bench := b} : Scheduler).Entered (moves ++ more) 0 0 [] before after m₀ ∧
      (({bench := b} : Scheduler).play (moves ++ more)).advance.bench.machine? 0 = some m ∧
      m.paused = true ∧ m.counter = 1 ∧ Concludes m₀.epoch m v := by
  have hb : Bench.make {source := some (.queue [])} ⟨#[',', '+']⟩ {memorySize := .integer 2} =
      .ok _ := rfl
  have hquiet : ∀ {s : Scheduler} {x : Move}, x ≠ .turn → ¬ s.Rouses x 0 := fun hx h => hx h.1
  obtain ⟨-, hpause⟩ := play_stops (.machine hb)
    (show Along Addresses _ (Move.alone (.run 0) 4 ++ [.outside (.signal .pause)]) by decide)
  obtain ⟨-, hwinds⟩ := hpause 0
    [.outside (.feed ['a']), .dispatch, .turn, .turn, .turn, .dispatch] rfl (by decide) (by
      refine ⟨⟨hquiet nofun, rfl⟩, ⟨hquiet nofun, rfl⟩, ⟨?_, rfl⟩, ⟨?_, rfl⟩, ⟨?_, rfl⟩,
        ⟨hquiet nofun, rfl⟩, trivial⟩
      all_goals
        rintro ⟨-, t, f, fs, hc, hrouses⟩
        cases hc
        exact hrouses)
  obtain ⟨before, after, m₀, m, hentered, hm, hends⟩ := (play_stops (.machine hb)
    (show Along Addresses _ ((Move.alone (.run 0) 4 ++ [.outside (.signal .pause)]) ++
      [.outside (.feed ['a']), .dispatch, .turn, .turn, .turn, .dispatch]) by decide)).1
    0 0 [] _ ⟨_, _, rfl, List.suffix_refl _⟩ rfl
  have hseen : m.paused = true ∧ m.counter = 1 := by
    rw [← Option.some.inj hm]
    exact ⟨rfl, rfl⟩
  exact ⟨_, _, _, before, after, m₀, m, _, hb, rfl, rfl, rfl,
    ⟨_, _, rfl, [.getting, .reading 0 0], rfl⟩,
    (hwinds 0 [] ⟨_, _, rfl, List.suffix_refl _⟩).2.1, rfl, hentered, hm, hseen.1, hseen.2, hends⟩

end Scheduler
end TapeMachine
