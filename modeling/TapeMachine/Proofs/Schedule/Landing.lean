import TapeMachine.Proofs.Program.Landing
import TapeMachine.Proofs.Schedule.Warning

/-! Where runs leave their loops.

On a zero cell a `[` takes the machine to the partner of the `[`, or to the last character if
there is none, and the step takes it one further. It warns of the `[` in the second case only,
and then once until the next reset. -/
namespace TapeMachine

/-- The loop that begins at `s` is left at `l`: at the partner of its `[`, or at the last
character of the program if the `[` is left over. -/
structure Program.Leaves (p : Program) (s l : Nat) : Prop where
  partner : ∀ e, p.Pairs s e → l = e
  lone : (¬ ∃ e, p.Pairs s e) ↔ s ∈ p.unmatched
  last : s ∈ p.unmatched → l = p.size - 1
  low : s ≤ l
  high : l < p.size

theorem Program.leaves_landing {p : Program} {s : Nat} (hs : p.char? s = some '[') :
    p.Leaves s (p.landing s) where
  partner _ := landing_eq_of_pairs
  lone := by rw [exists_pairs_iff hs, not_not]
  last := landing_of_unmatched hs
  low := (landing_bounds hs).1
  high := (landing_bounds hs).2

namespace Machine

variable {m : Machine}

theorem openLoop_counter (hz : m.tape.read = 0) :
    m.openLoop.counter = m.program.landing m.counter := by
  rw [openLoop, if_pos hz]
  rfl

theorem fault?_opening (hs : m.program.char? m.counter = some '[') (hz : m.tape.read = 0) :
    m.fault? = if m.counter ∈ m.program.unmatched then some (.unclosed m.counter) else none := by
  rw [fault?, Program.command?_eq_opening_iff.mpr hs]
  simp only [Program.mem_unmatched_iff_loopEnd? hs, hz, decide_true, Bool.true_and,
    Option.isNone_iff_eq_none]

theorem complaint?_opening (hs : m.program.char? m.counter = some '[') (hz : m.tape.read = 0) :
    m.complaint? = if m.counter ∈ m.program.unmatched ∧ m.counter ∉ m.reported
      then some (.unclosed m.counter) else none := by
  rw [complaint?, fault?_opening hs hz]
  by_cases hlone : m.counter ∈ m.program.unmatched
  · by_cases hnew : m.counter ∈ m.reported
    · rw [if_pos hlone, if_neg fun h => h.2 hnew]
      simp [Complaint.index, hnew]
    · rw [if_pos hlone, if_pos ⟨hlone, hnew⟩]
      simp [Complaint.index, hnew]
  · rw [if_neg hlone, if_neg fun h => hlone h.1]
    rfl

/-- The step at a `[` on a zero cell goes one further than to where the loop is left. -/
theorem Stepped.counter_opening {m' : Machine} (h : Stepped m m')
    (hs : m.program.char? m.counter = some '[') (hz : m.tape.read = 0) :
    m'.counter = m.program.landing m.counter + 1 := by
  rw [h.counter, execute_of (Program.command?_eq_opening_iff.mpr hs)]
  exact congrArg (· + 1) (openLoop_counter hz)

theorem faulty_opening_iff (hs : m.program.char? m.counter = some '[') :
    m.Faulty ↔ m.counter ∈ m.program.unmatched ∧ m.tape.read = 0 :=
  ⟨fun h => ⟨h.unmatched, h.zero (Program.command?_eq_opening_iff.mpr hs)⟩,
    fun h => ⟨h.1, fun _ => h.2⟩⟩

end Machine

/-- What was complained about since the last reset was complained about. -/
theorem mem_of_mem_complaints {sg : List Sign} {c : Complaint} (h : c ∈ complaints sg) :
    c ∈ sg.filterMap Sign.complaint? := by
  induction sg using List.reverseRecOn with
  | nil => cases h
  | append_singleton sg x ih =>
    rw [complaints_append] at h
    rw [List.filterMap_append, List.mem_append]
    cases x with
    | complained c' =>
      refine (List.mem_append.mp h).imp ih fun h => ?_
      exact h
    | reset => cases h
    | asked => exact .inl (ih h)
    | answered => exact .inl (ih h)
    | emitted => exact .inl (ih h)

namespace Scheduler
open Machine

variable {source : Option Source} {sink : Option Sink} {p : Program} {o : Options} {b : Bench}
variable {moves : List Move} {k : Nat} {m m₁ : Machine}

theorem program_of_play (hb : Bench.make {source := source, sink := sink} p o = .ok b)
    (hm : (({bench := b} : Scheduler).play moves).bench.machine? 0 = some m) : m.program = p := by
  obtain ⟨m', hm', htold⟩ := play_told hb moves
  obtain rfl := Option.some.inj (hm.symm.trans hm')
  exact htold.program

theorem Executed.program (hb : Bench.make {source := source, sink := sink} p o = .ok b)
    (h : Executed {bench := b} moves 0 m m₁) : m₁.program = p := by
  obtain ⟨before, -, -, hm₁, -⟩ := h
  exact program_of_play hb hm₁

/-- A complaint at a `[` is that it is not closed. -/
theorem unclosed_mem_complaints_iff (hb : Bench.make {source := source, sink := sink} p o = .ok b)
    (hk : p.char? k = some '[') :
    .unclosed k ∈ (({bench := b} : Scheduler).play moves).bench.complaints ↔
      k ∈ (({bench := b} : Scheduler).play moves).bench.complaints.map Complaint.index := by
  refine ⟨fun h => List.mem_map.mpr ⟨_, h, rfl⟩, fun h => ?_⟩
  obtain ⟨c, hc, rfl⟩ := List.mem_map.mp h
  obtain ⟨m, -, htold⟩ := play_told hb moves
  have hcommand := (htold.sound c (mem_of_mem_complaints hc)).2
  rw [Program.command?_eq_opening_iff.mpr hk] at hcommand
  cases c with
  | unclosed => exact hc
  | unopened => cases hcommand

/-- A `[` is complained about exactly if it has no partner and was executed on a zero cell. -/
theorem unclosed_mem_complaints_iff_executed
    (hb : Bench.make {source := source, sink := sink} p o = .ok b) (hk : p.char? k = some '[')
    (hm : (({bench := b} : Scheduler).play moves).bench.machine? 0 = some m) :
    .unclosed k ∈ (({bench := b} : Scheduler).play moves).bench.complaints ↔
      k ∈ p.unmatched ∧ ∃ m₁, Executed {bench := b} moves 0 m m₁ ∧ m₁.counter = k ∧
        m₁.tape.read = 0 := by
  rw [unclosed_mem_complaints_iff hb hk, complaints_eq_reported hb hm, List.mem_reverse]
  constructor
  · intro hreported
    obtain ⟨m₁, hexec, hf, rfl⟩ := executed_of_reported (.machine hb) hm hreported
    obtain rfl := hexec.program hb
    obtain ⟨hlone, hz⟩ := (faulty_opening_iff hk).mp hf
    exact ⟨hlone, m₁, hexec, rfl, hz⟩
  · rintro ⟨hlone, m₁, hexec, rfl, hz⟩
    obtain rfl := hexec.program hb
    exact reported_of_executed (.machine hb) hm hexec ((faulty_opening_iff hk).mpr ⟨hlone, hz⟩)

/-- A loop on a zero cell is left at the partner of its `[`, or at the last character if it has
none; that is what counting the depth in one go finds. In every run the machine goes on right
after it, and it warns of the `[` once between resets, if it has no partner and was executed on
a zero cell, and otherwise not. -/
theorem play_landing (hb : Bench.make {source := source, sink := sink} p o = .ok b)
    (hk : p.char? k = some '[') (moves : List Move) :
    let s := ({bench := b} : Scheduler).play moves
    p.Leaves k (p.landing k) ∧
    (p.landing k = (p.sweep (k + 1) 1).1 - 1 ∧ (0 < (p.sweep (k + 1) 1).2 ↔ k ∈ p.unmatched)) ∧
    (∀ m : Machine, m.program = p → m.counter = k → m.tape.read = 0 →
      m.openLoop.counter = p.landing k ∧
        m.complaint? = if k ∈ p.unmatched ∧ k ∉ m.reported then some (.unclosed k) else none) ∧
    (∀ m, s.bench.machine? 0 = some m →
      (∀ m₁, LastStep {bench := b} moves 0 m m₁ → m₁.counter = k → m₁.tape.read = 0 →
        m.counter = p.landing k + 1) ∧
      (.unclosed k ∈ s.bench.complaints ↔ k ∈ p.unmatched ∧
        ∃ m₁, Executed {bench := b} moves 0 m m₁ ∧ m₁.counter = k ∧ m₁.tape.read = 0)) ∧
    s.bench.complaints.count (.unclosed k) ≤ 1 ∧
    (.unclosed k ∈ s.bench.warnings → k ∈ p.unmatched) := by
  intro s
  obtain ⟨m, hm, htold⟩ := play_told hb moves
  have hnodup : (s.bench.complaints.map Complaint.index).Nodup := by
    rw [complaints_eq_reported hb hm, List.nodup_reverse]
    exact htold.nodup
  refine ⟨Program.leaves_landing hk, Program.sweep_spec hk, ?_, ?_, ?_,
    fun h => (htold.sound _ h).1⟩
  · rintro m rfl rfl hz
    exact ⟨openLoop_counter hz, complaint?_opening hk hz⟩
  · intro m hm
    refine ⟨fun m₁ hlast hcounter hz => ?_, unclosed_mem_complaints_iff_executed hb hk hm⟩
    have hstep := hlast.stepped (Starts.machine hb) hm
    obtain ⟨before, -, -, hm₁, -⟩ := hlast
    obtain rfl := program_of_play hb hm₁
    subst hcounter
    exact hstep.counter_opening hk hz
  · exact List.nodup_iff_count_le_one.mp hnodup.of_map _

/-- A program whose first `[` has no partner and whose second has the last character. -/
theorem play_landing_last : ∃ b,
    Bench.make {} ⟨#['[', '[', ']']⟩ {memorySize := .integer 1, cooperative := false} = .ok b ∧
      (({bench := b} : Scheduler).play (Move.alone (.run 0) 6)).bench.complaints = [.unclosed 0] ∧
      Program.Leaves ⟨#['[', '[', ']']⟩ 0 2 ∧ Program.Leaves ⟨#['[', '[', ']']⟩ 1 2 := by
  have hb : Bench.make {} ⟨#['[', '[', ']']⟩ {memorySize := .integer 1, cooperative := false} =
      .ok _ := rfl
  exact ⟨_, hb, rfl, (play_landing hb rfl (k := 0) (Move.alone (.run 0) 6)).1,
    (play_landing hb rfl (k := 1) (Move.alone (.run 0) 6)).1⟩

end Scheduler
end TapeMachine
