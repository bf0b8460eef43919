import TapeMachine.Proofs.Machine.Nested

/-! Complaints.

At run time a `]` is at fault if no loop is open, and a `[` on a zero cell if its
scan finds no end. Both are the same as to be without a partner in the text
(`faulty_iff`), since the open loops are those of the text. A fault is complained
about when it is executed for the first time since the last reset, so the brackets
that were complained about are the faulty ones that were executed. -/
namespace TapeMachine

/-- The kind of bracket that a complaint is about. -/
def Complaint.bracket : Complaint → Command
  | .unclosed _ => .opening
  | .unopened _ => .closing

namespace Machine

variable {m m' : Machine} {a : Act} {c : Complaint}

/-- The next instruction is a bracket without a partner, and if it is a `[`, it does
not enter a loop. -/
structure Faulty (m : Machine) : Prop where
  unmatched : m.counter ∈ m.program.unmatched
  zero : m.program.command? m.counter = some .opening → m.tape.read = 0

theorem Faulty.still (h : m.Faulty) (h' : Still m m') : m'.Faulty where
  unmatched := by
    rw [h'.counter, h'.program]
    exact h.unmatched
  zero := by
    rw [h'.counter, h'.program, h'.tape]
    exact h.zero

theorem fault?_eq_some (h : m.fault? = some c) :
    c.index = m.counter ∧ m.program.command? m.counter = some c.bracket := by
  rw [fault?] at h
  split at h
  next ho =>
    split at h
    · cases h
      exact ⟨rfl, ho⟩
    · cases h
  next hc =>
    split at h
    · cases h
      exact ⟨rfl, hc⟩
    · cases h
  next => cases h

/-- What is found at run time is what is wrong with the text. -/
theorem faulty_iff (h : m.Nested) (hr : m.counter < m.program.size) :
    m.Faulty ↔ ∃ c, m.fault? = some c := by
  have hopen := h.loops_eq hr
  rw [fault?]
  constructor
  · intro hf
    rcases Program.mem_unmatched_iff.mp hf.unmatched with ⟨hc, hnone⟩ | ⟨ho, hnone⟩
    · rw [← hopen] at hnone
      simp [hc, hnone]
    · have hz := hf.zero ho
      simp [ho, hz, hnone]
  · rintro ⟨c, hc⟩
    split at hc
    next ho =>
      split at hc
      next hz =>
        simp only [Bool.and_eq_true, decide_eq_true_eq, Option.isNone_iff_eq_none] at hz
        exact ⟨Program.mem_unmatched_iff.mpr (.inr ⟨ho, hz.2⟩), fun _ => hz.1⟩
      next => cases hc
    next hcl =>
      split at hc
      next he =>
        rw [List.isEmpty_iff, hopen] at he
        refine ⟨Program.mem_unmatched_iff.mpr (.inl ⟨hcl, he⟩), fun ho => ?_⟩
        rw [hcl] at ho
        cases ho
      next => cases hc
    next => cases hc

theorem complaint?_eq_some_iff :
    m.complaint? = some c ↔ m.fault? = some c ∧ c.index ∉ m.reported := by
  rw [complaint?, Option.filter_eq_some_iff]
  simp

/-- A complaint is about a bracket without a partner, and names its kind. -/
theorem complaint?_sound (h : m.Nested) (hc : m.complaint? = some c) :
    c.index ∈ m.program.unmatched ∧ m.program.command? c.index = some c.bracket := by
  obtain ⟨hf, -⟩ := complaint?_eq_some_iff.mp hc
  obtain ⟨hindex, hcommand⟩ := fault?_eq_some hf
  rw [hindex]
  exact ⟨((faulty_iff h (Program.lt_size_of_command? hcommand)).mpr ⟨c, hf⟩).unmatched, hcommand⟩

theorem mem_noted {k : Nat} (h : m.Nested) (hr : m.counter < m.program.size) :
    k ∈ m.noted.reported ↔ k ∈ m.reported ∨ (m.Faulty ∧ m.counter = k) := by
  rw [faulty_iff h hr, noted]
  cases hc : m.complaint? with
  | some c =>
    obtain ⟨hf, hnew⟩ := complaint?_eq_some_iff.mp hc
    obtain ⟨hindex, -⟩ := fault?_eq_some hf
    show k ∈ c.index :: m.reported ↔ _
    rw [List.mem_cons, hindex]
    constructor
    · rintro (rfl | hk)
      · exact .inr ⟨⟨c, hf⟩, rfl⟩
      · exact .inl hk
    · rintro (hk | ⟨-, rfl⟩)
      · exact .inr hk
      · exact .inl rfl
  | none =>
    refine ⟨.inl, ?_⟩
    rintro (hk | ⟨⟨c, hf⟩, rfl⟩)
    · exact hk
    · -- a fault that is not complained about was complained about before
      obtain ⟨hindex, -⟩ := fault?_eq_some hf
      by_cases hnew : c.index ∈ m.reported
      · rwa [hindex] at hnew
      · rw [complaint?_eq_some_iff.mpr ⟨hf, hnew⟩] at hc
        cases hc

theorem noted_of_faulty (h : m.Nested) (hr : m.counter < m.program.size) (hf : m.Faulty)
    (hnew : m.counter ∉ m.reported) : m.noted.reported = m.counter :: m.reported := by
  obtain ⟨c, hc⟩ := (faulty_iff h hr).mp hf
  obtain ⟨hindex, -⟩ := fault?_eq_some hc
  rw [noted, complaint?_eq_some_iff.mpr ⟨hc, hindex ▸ hnew⟩]
  exact congrArg (· :: m.reported) hindex

end Machine

/-! ### Complaints as signs -/

/-- What a complaint is in a list of signs. -/
def Sign.complaint? : Sign → Option Complaint
  | .complained c => some c
  | _ => none

namespace Machine
variable {m m' : Machine} {a : Act}

/-- An act complains at most once, and then the machine knows of it. -/
theorem Does.complains (h : Does m a m') (i : Nat) : ∃ new : Option Complaint,
    (a.signs i m).filterMap Sign.complaint? = new.toList ∧ .reset ∉ a.signs i m ∧
      m'.reported = new.toList.map Complaint.index ++ m.reported ∧
      ∀ c, new = some c → m.complaint? = some c := by
  cases h with
  | ask => exact ⟨none, rfl, by simp [Act.signs], rfl, fun c hc => by cases hc⟩
  | hear text hs hasks =>
    obtain ⟨t, n, heq⟩ := consume_eq ({m with stepping := false}.receive text)
    rw [heq]
    exact ⟨none, rfl, by simp [Act.signs], rfl, fun c hc => by cases hc⟩
  | drop late =>
    refine ⟨none, ?_, ?_, rfl, fun c hc => by cases hc⟩
    · cases late <;> rfl
    · cases late <;> simp [Act.signs]
  | work hst =>
    refine ⟨m.complaint?, ?_, ?_, ?_, fun c hc => hc⟩
    · cases hc : m.complaint? <;> simp [Act.signs, hc, Sign.complaint?]
    · cases hc : m.complaint? <;> simp [Act.signs, hc]
    · rw [((Does.work hst).stepped trivial).reported, noted]
      cases m.complaint? <;> rfl
  | put =>
    refine ⟨none, ?_, ?_, rfl, fun c hc => by cases hc⟩
    · cases hs : m.speaks <;> simp [Act.signs, hs, Sign.complaint?]
    · cases hs : m.speaks <;> simp [Act.signs, hs]
  | spill =>
    refine ⟨none, ?_, ?_, rfl, fun c hc => by cases hc⟩
    · cases hs : m.speaks <;> simp [Act.signs, hs, Sign.complaint?]
    · cases hs : m.speaks <;> simp [Act.signs, hs]

end Machine
end TapeMachine
