import Mathlib.Data.List.Nodup
import TapeMachine.Proofs.Machine.Report
import TapeMachine.Proofs.Schedule.LoopStack

/-! Warnings.

In every run the machine warns of a bracket without a partner when it executes one
for the first time since the last reset, and of nothing else. -/
namespace TapeMachine

/-- The complaints since the last reset, one sign after the other. -/
def Sign.gather (cs : List Complaint) : Sign → List Complaint
  | .complained c => cs ++ [c]
  | .reset => []
  | _ => cs

/-- The complaints among some signs, since the last reset. -/
def complaints (sg : List Sign) : List Complaint := sg.foldl Sign.gather []

theorem complaints_append (sg sg' : List Sign) :
    complaints (sg ++ sg') = sg'.foldl Sign.gather (complaints sg) := List.foldl_append

theorem foldl_gather {sg : List Sign} (h : .reset ∉ sg) (cs : List Complaint) :
    sg.foldl Sign.gather cs = cs ++ sg.filterMap Sign.complaint? := by
  induction sg generalizing cs with
  | nil => exact (List.append_nil cs).symm
  | cons x rest ih =>
    rw [List.mem_cons, not_or] at h
    rw [List.foldl_cons, ih h.2]
    cases x with
    | complained c => simp [Sign.gather, Sign.complaint?]
    | reset => exact absurd rfl h.1
    | asked => rfl
    | answered => rfl
    | emitted => rfl

theorem foldl_gather_resets (k : Nat) (cs : List Complaint) :
    (List.replicate k Sign.reset).foldl Sign.gather cs = if 0 < k then [] else cs := by
  induction k generalizing cs with
  | zero => rfl
  | succ k ih =>
    rw [List.replicate_succ, List.foldl_cons, ih, if_pos (Nat.succ_pos k)]
    split
    · rfl
    · rfl

namespace Bench

/-- All warnings about brackets, ever. -/
def warnings (b : Bench) : List Complaint := b.signs.filterMap Sign.complaint?

/-- The warnings about brackets since the last reset. -/
def complaints (b : Bench) : List Complaint := TapeMachine.complaints b.signs

end Bench

namespace Scheduler
open Machine

variable {s : Scheduler} {moves : List Move} {i : Nat} {m m₁ m₂ : Machine}

/-! ### What was executed -/

/-- Machine `i` stood as `m₁` when it began a step that it has completed before `m`,
and it was not reset in between. -/
def Executed (s : Scheduler) (moves : List Move) (i : Nat) (m m₁ : Machine) : Prop :=
  ∃ before after, moves = before ++ after ∧ (s.play before).bench.machine? i = some m₁ ∧
    m₁.epoch = m.epoch ∧ m₁.steps < m.steps

theorem reported_of_executed (hs : s.Starts) (hm : (s.play moves).bench.machine? i = some m)
    (h : Executed s moves i m m₁) (hf : m₁.Faulty) : m₁.counter ∈ m.reported := by
  obtain ⟨before, after, rfl, hm₁, he, hsteps⟩ := h
  rw [play_append] at hm
  have hinv : ∃ n, ((s.play before).play after).bench.bare[i]? = some n ∧ n.Nested ∧
      Later m₁ n ∧ (n.epoch = m₁.epoch → m₁.steps < n.steps → m₁.counter ∈ n.reported) := by
    refine play_induction (P := fun ms _ => ∃ n, ms[i]? = some n ∧ n.Nested ∧ Later m₁ n ∧
      (n.epoch = m₁.epoch → m₁.steps < n.steps → m₁.counter ∈ n.reported))
      (play_sound hs.sound before).1 ?_ ?_ after
    · refine ⟨_, Bench.getElem?_bare_of hm₁, (play_nested hs hm₁).still (.bare m₁),
        .still (.bare m₁), fun _ hlt => absurd hlt (Nat.lt_irrefl _)⟩
    · rintro ms sg ms' sg' ⟨n, hn, hnested, hlater, hin⟩ hstir
      obtain ⟨n', hn', hshift⟩ := hstir.at_index hn
      refine ⟨n', hn', hshift.nested hnested, hlater.trans hshift.later, fun he' hlt => ?_⟩
      rcases hshift.progress with hstill | hstep | ⟨hlt', -⟩
      · rw [hstill.reported]
        exact hin (hstill.epoch.symm.trans he') (hstill.steps ▸ hlt)
      · -- the step that was just completed is the one begun in `m₁` or a later one
        have hen := hstep.epoch.symm.trans he'
        rw [hstep.reported, mem_noted hnested hstep.running]
        by_cases heq : n.steps = m₁.steps
        · have hstill := hlater.still_of hen heq
          exact .inr ⟨hf.still hstill, hstill.counter⟩
        · have hsucc := hstep.steps
          exact .inl (hin hen (by omega))
      · cases hlater with
        | reset h => omega
        | further h _ => omega
        | still h =>
          have := h.epoch
          omega
  obtain ⟨n, hn, -, -, hin⟩ := hinv
  rw [Bench.getElem?_bare_of hm] at hn
  cases hn
  exact hin he.symm hsteps

theorem executed_of_reported (hs : s.Starts) {k : Nat}
    (hm : (s.play moves).bench.machine? i = some m) (hk : k ∈ m.reported) :
    ∃ m₁, Executed s moves i m m₁ ∧ m₁.Faulty ∧ m₁.counter = k := by
  generalize hn : m.steps = n
  induction n generalizing moves m with
  | zero =>
    rcases atStart_or_lastStep hs hm with hstart | ⟨m₂, ⟨_, _, -, -, -, hsteps⟩, -⟩
    · rw [hstart.reported] at hk
      cases hk
    · omega
  | succ n ih =>
    rcases atStart_or_lastStep hs hm with
      hstart | ⟨m₂, ⟨before, after, rfl, hm₂, he, hsteps⟩, hstep⟩
    · rw [hstart.reported] at hk
      cases hk
    · rw [hstep.reported, mem_noted (play_nested hs hm₂) hstep.running] at hk
      rcases hk with hk | ⟨hf, rfl⟩
      · obtain ⟨m₁, ⟨b', a', rfl, hm₁, he₁, hlt⟩, hf, hc⟩ := ih hm₂ hk (by omega)
        refine ⟨m₁, ⟨b', a' ++ after, ?_, hm₁, he₁.trans he, by omega⟩, hf, hc⟩
        rw [List.append_assoc]
      · exact ⟨m₂, ⟨before, after, rfl, hm₂, he, by omega⟩, hf, rfl⟩

/-! ### What was warned about -/

variable {source : Option Source} {sink : Option Sink} {p : Program} {o : Options} {b : Bench}

/-- What a machine and its record know of its complaints. -/
structure Told (p : Program) (m : Machine) (sg : List Sign) : Prop where
  program : m.program = p
  nested : m.Nested
  nodup : m.reported.Nodup
  complaints : (TapeMachine.complaints sg).map Complaint.index = m.reported.reverse
  sound : ∀ c ∈ sg.filterMap Sign.complaint?,
    c.index ∈ p.unmatched ∧ p.command? c.index = some c.bracket

theorem Told.resets {sg : List Sign} (h : Told p m sg) (k : Nat) :
    Told p (m.wiped k) (sg ++ List.replicate k .reset) := by
  by_cases hk : 0 < k
  · have hstart := atStart_wiped (m := m) hk
    refine ⟨(program_wiped m k).trans h.program, hstart.nested, ?_, ?_, fun c hc => ?_⟩
    · rw [hstart.reported]
      exact List.nodup_nil
    · rw [complaints_append, foldl_gather_resets, if_pos hk, hstart.reported]
      rfl
    · rw [List.filterMap_append, List.filterMap_replicate] at hc
      exact h.sound c (by simpa [Sign.complaint?] using hc)
  · obtain rfl : k = 0 := by omega
    rw [List.replicate_zero, List.append_nil]
    exact h

theorem Told.act {sg : List Sign} {m' : Machine} {a : Act} (h : Told p m sg) (hd : Does m a m')
    (i : Nat) : Told p m' (sg ++ a.signs i m) := by
  obtain ⟨new, hsigns, hreset, hreported, hsound⟩ := hd.complains i
  have hshift : m.Shift m' := ⟨m', 0, .inr ⟨a, hd⟩, rfl⟩
  refine ⟨hshift.program.trans h.program, hshift.nested h.nested, ?_, ?_, fun c hc => ?_⟩
  · cases new with
    | none =>
      rw [hreported]
      exact h.nodup
    | some c =>
      rw [hreported]
      exact List.nodup_cons.mpr ⟨(complaint?_eq_some_iff.mp (hsound c rfl)).2, h.nodup⟩
  · rw [complaints_append, foldl_gather hreset, hsigns, hreported, List.map_append, h.complaints,
      List.reverse_append]
    cases new <;> rfl
  · rw [List.filterMap_append, List.mem_append, hsigns, Option.mem_toList] at hc
    rcases hc with hc | hc
    · exact h.sound c hc
    · rw [← h.program]
      exact complaint?_sound h.nested (hsound c hc)

theorem Told.step {frail : Prop} {sg sg' : List Sign} {m' : Machine} (h : Told p m sg)
    (hs : Stir frail [m] sg' [m']) : Told p m' (sg ++ sg') := by
  rcases hs.of_single with ⟨k, rfl, rfl⟩ | ⟨a, m₁, k, hd, -, rfl, rfl⟩
  · exact h.resets k
  · rw [← List.append_assoc]
    exact (h.act hd 0).resets k

theorem play_told (hb : Bench.make {source := source, sink := sink} p o = .ok b)
    (moves : List Move) : ∃ m, (({bench := b} : Scheduler).play moves).bench.machine? 0 = some m ∧
      Told p m (({bench := b} : Scheduler).play moves).bench.signs := by
  obtain ⟨m, hnew, hp, hbare, hsigns, hsession⟩ := exists_of_make hb
  have htold : Told p m b.signs := by
    rw [hsigns]
    refine ⟨hp, hnew.atStart.nested, ?_, ?_, fun c hc => by cases hc⟩
    · rw [hnew.atStart.reported]
      exact List.nodup_nil
    · rw [hnew.atStart.reported]
      rfl
  obtain ⟨n, hn, htold⟩ := play_single_induction (Starts.machine hb).sound hsession hbare htold
    (fun n sg n' sg' h hs => h.step hs) moves
  obtain ⟨m', hm', rfl⟩ := Bench.exists_of_getElem?_bare (i := 0) (by rw [hn]; rfl)
  exact ⟨m', hm', htold.program, htold.nested.still (Still.bare m').symm, htold.nodup,
    htold.complaints, htold.sound⟩

theorem complaints_eq_reported (hb : Bench.make {source := source, sink := sink} p o = .ok b)
    (hm : (({bench := b} : Scheduler).play moves).bench.machine? 0 = some m) :
    (({bench := b} : Scheduler).play moves).bench.complaints.map Complaint.index =
      m.reported.reverse := by
  obtain ⟨n, hn, htold⟩ := play_told hb moves
  obtain rfl := Option.some.inj (hm.symm.trans hn)
  exact htold.complaints

/-- The first execution of a faulty bracket is complained about. -/
theorem complaints_of_faulty {more : List Move} {m' : Machine}
    (hb : Bench.make {source := source, sink := sink} p o = .ok b)
    (hm : (({bench := b} : Scheduler).play moves).bench.machine? 0 = some m)
    (hm' : (({bench := b} : Scheduler).play (moves ++ more)).bench.machine? 0 = some m')
    (he : m'.epoch = m.epoch) (hsteps : m'.steps = m.steps + 1) (hf : m.Faulty)
    (hnew : m.counter ∉ m.reported) :
    (({bench := b} : Scheduler).play (moves ++ more)).bench.complaints.map Complaint.index =
      (({bench := b} : Scheduler).play moves).bench.complaints.map Complaint.index ++
        [m.counter] := by
  have hstarts := Starts.machine hb
  have hlast : LastStep {bench := b} (moves ++ more) 0 m' m :=
    ⟨moves, more, rfl, hm, he.symm, hsteps.symm⟩
  have hstep := hlast.stepped hstarts hm'
  rw [complaints_eq_reported hb hm, complaints_eq_reported hb hm', hstep.reported,
    noted_of_faulty (play_nested hstarts hm) hstep.running hf hnew, List.reverse_cons]

/-- If all brackets have partners no loop is open at the end. -/
theorem depth_at_end (hs : s.Starts) (hm : (s.play moves).bench.machine? i = some m)
    (hp : m.program.unmatched = []) (hend : m.counter = m.program.size) : m.depth = 0 := by
  have hskip : ∀ m₁, LastStep s moves i m m₁ → ¬ m₁.Skips := by
    intro m₁ hlast hskip
    have hmem := hskip.unmatched
    rw [← (hlast.stepped hs hm).program, hp] at hmem
    cases hmem
  rw [depth, loops_at_end hs hm hend hskip, Program.openAt_of_unmatched_eq_nil hp]
  rfl

/-- What a machine warns of is what is wrong with its text: of a bracket without a
partner, when it is executed for the first time since the last reset, and of nothing
else. -/
theorem play_warnings (hb : Bench.make {source := source, sink := sink} p o = .ok b)
    (moves : List Move) :
    let s := ({bench := b} : Scheduler).play moves
    (∀ c ∈ s.bench.warnings, c.index ∈ p.unmatched ∧ p.command? c.index = some c.bracket) ∧
    (s.bench.complaints.map Complaint.index).Nodup ∧
    (∀ m, s.bench.machine? 0 = some m → ∀ k, k ∈ s.bench.complaints.map Complaint.index ↔
      ∃ m₁, Executed {bench := b} moves 0 m m₁ ∧ m₁.Faulty ∧ m₁.counter = k) ∧
    (∀ m more m', s.bench.machine? 0 = some m → (s.play more).bench.machine? 0 = some m' →
      m'.epoch = m.epoch → m'.steps = m.steps + 1 → m.Faulty →
      m.counter ∉ s.bench.complaints.map Complaint.index →
      (s.play more).bench.complaints.map Complaint.index =
        s.bench.complaints.map Complaint.index ++ [m.counter]) ∧
    (p.unmatched = [] → s.bench.warnings = [] ∧
      ∀ m, s.bench.machine? 0 = some m → m.counter = p.size → m.depth = 0) := by
  intro s
  obtain ⟨m, hm, htold⟩ := play_told hb moves
  have hstarts := Starts.machine hb
  refine ⟨htold.sound, ?_, ?_, ?_, fun hp => ⟨?_, ?_⟩⟩
  · rw [complaints_eq_reported hb hm, List.nodup_reverse]
    exact htold.nodup
  · intro n hn k
    rw [complaints_eq_reported hb hn, List.mem_reverse]
    constructor
    · exact executed_of_reported hstarts hn
    · rintro ⟨m₁, hexec, hf, rfl⟩
      exact reported_of_executed hstarts hn hexec hf
  · intro n more m' hn hm' he hsteps hf hnew
    rw [complaints_eq_reported hb hn, List.mem_reverse] at hnew
    have hplay : s.play more = ({bench := b} : Scheduler).play (moves ++ more) :=
      (play_append _ moves more).symm
    rw [hplay] at hm' ⊢
    exact complaints_of_faulty hb hn hm' he hsteps hf hnew
  · rw [List.eq_nil_iff_forall_not_mem]
    intro c hc
    have hindex := (htold.sound c hc).1
    rw [hp] at hindex
    cases hindex
  · intro n hn hend
    obtain rfl := Option.some.inj (hm.symm.trans hn)
    rw [← htold.program] at hp hend
    exact depth_at_end hstarts hm hp hend

/-- A run that meets a stray bracket of each kind. -/
theorem play_warnings_stray : ∃ b,
    Bench.make {} ⟨#[']', '[']⟩ {memorySize := .integer 1, cooperative := false} = .ok b ∧
      (({bench := b} : Scheduler).play (Move.alone (.run 0) 6)).bench.complaints =
        [.unopened 0, .unclosed 1] ∧
      ∀ c ∈ (({bench := b} : Scheduler).play (Move.alone (.run 0) 6)).bench.warnings,
        c.index ∈ Program.unmatched ⟨#[']', '[']⟩ := by
  have hb : Bench.make {} ⟨#[']', '[']⟩ {memorySize := .integer 1, cooperative := false} =
      .ok _ := rfl
  exact ⟨_, hb, rfl, fun c hc => ((play_warnings hb (Move.alone (.run 0) 6)).1 c hc).1⟩

end Scheduler
end TapeMachine
