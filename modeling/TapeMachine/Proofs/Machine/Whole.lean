import TapeMachine.Proofs.Machine.Onward

/-! The whole input.

A machine sees of a character no more than its code modulo 256, and of its source no more
than the characters that come. So a machine with a source can be told by one without,
which has the whole input from the start, reduced to what can be seen of it
(`Machine.whole`): an instruction does the same to both as long as the next character, or
that there is none, is the same for both. -/
namespace TapeMachine

/-- What a machine sees of characters. -/
def codes (text : Text) : List Nat := text.map fun c => c.toNat % 256

theorem codes_append (s t : Text) : codes (s ++ t) = codes s ++ codes t := List.map_append

namespace Machine
variable {m : Machine} {all : List Nat}

/-- The machine with the whole input and without a source. -/
def whole (all : List Nat) (m : Machine) : Machine :=
  {m with input := (all.map Char.ofNat).toArray, hears := false}

@[simp] theorem complaint?_whole (m : Machine) : (m.whole all).complaint? = m.complaint? := rfl

@[simp] theorem whole_noted (m : Machine) : m.noted.whole all = (m.whole all).noted := by
  rw [noted, noted, complaint?_whole]
  cases m.complaint? <;> rfl

/-- A character and its code modulo 256 are the same byte. -/
theorem byte_ofNat (n : Nat) : (Char.ofNat (n % 256)).toNat.toUInt8 = n.toUInt8 := by
  have hvalid : (n % 256).isValidChar := .inl (by omega)
  have hn : (Char.ofNat (n % 256)).toNat = n % 256 := by
    rw [Char.ofNat, dif_pos hvalid]
    rfl
  rw [hn]
  exact UInt8.toNat_inj.mp (by simp)

/-- Reading is the same where the next character is. -/
theorem whole_consume (h : (m.input[m.cursor]?.map fun c => c.toNat % 256) = all[m.cursor]?) :
    m.consume.whole all = (m.whole all).consume := by
  have hinput : (m.whole all).input[(m.whole all).cursor]? = all[m.cursor]?.map Char.ofNat := by
    show (all.map Char.ofNat).toArray[m.cursor]? = _
    rw [List.getElem?_toArray, List.getElem?_map]
  rw [consume, consume, hinput, ← h]
  cases m.input[m.cursor]? with
  | none => rfl
  | some c =>
    simp only [Option.map_some, byte_ofNat]
    rfl

/-- No other instruction looks at the input. -/
theorem whole_execute (hc : m.program.command? m.counter ≠ some .input) :
    m.execute.whole all = (m.whole all).execute := by
  have hcommand : (m.whole all).program.command? (m.whole all).counter =
      m.program.command? m.counter := rfl
  rw [execute, execute, hcommand]
  cases h : m.program.command? m.counter with
  | none => rfl
  | some c =>
    cases c
    case input => exact absurd h hc
    case opening =>
      have hread : (m.whole all).tape.read = m.tape.read := rfl
      simp only [perform, openLoop, hread]
      split <;> rfl
    case closing =>
      have hread : (m.whole all).tape.read = m.tape.read := rfl
      have hloops : (m.whole all).loops = m.loops := rfl
      simp only [perform, closeLoop, hread, hloops]
      cases m.loops with
      | nil => rfl
      | cons start outer =>
        simp only
        split <;> rfl
    all_goals rfl

/-- The end is the end, and output is output. -/
theorem stance_whole_of {st : Stance} (hst : m.stance = st) (h : st = .ended ∨ st = .output) :
    (m.whole all).stance = st := by
  rcases h with rfl | rfl
  · exact stance_eq_ended_iff.mpr (stance_eq_ended_iff (m := m).mp hst)
  · exact stance_eq_output_iff.mpr (stance_eq_output_iff (m := m).mp hst)

/-- Without a source no step asks. -/
theorem stance_whole {c : Command} (hs : m.stepping = false)
    (hc : m.program.command? m.counter = some c) (hne : c ≠ .output) :
    (m.whole all).stance = .inward := by
  refine stance_eq_inward_iff.mpr ⟨hs, ?_, c, hc, hne⟩
  rintro ⟨-, hears, -⟩
  cases hears

end Machine
end TapeMachine
