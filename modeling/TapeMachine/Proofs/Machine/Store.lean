import TapeMachine.Proofs.Machine.Onward
import TapeMachine.Proofs.Program.Block

/-! The meaning of structured programs.

A structured program is understood without a counter and without a stack: a sequence
runs from left to right, and a loop runs its body as long as the cell is not zero
(`Eval`). What it works on is a `Store` of numbers and texts, and a machine has one
to show. -/
namespace TapeMachine

/-- What a structured program works on. -/
structure Store where
  memory : List Nat
  pointer : Nat
  output : Text
  input : Text
  /-- How many characters of the input have been read. -/
  index : Nat
  /-- How often the source was asked. -/
  asked : Nat

namespace Store

/-- The number under the pointer. -/
def cell (s : Store) : Nat := s.memory.getD s.pointer 0

/-- Numbers are kept modulo 256. -/
def put (s : Store) (v : Nat) : Store := {s with memory := s.memory.set s.pointer (v % 256)}

theorem put_congr {v w : Nat} (h : v % 256 = w % 256) (s : Store) : s.put v = s.put w := by
  rw [put, put, h]

/-- When the input is used up the source, if there is one, has one text more. -/
def refill (source : Option (Nat → Text)) (s : Store) : Store :=
  match source with
  | some texts =>
    if s.input.length ≤ s.index then
      {s with input := s.input ++ texts (s.asked + 1), asked := s.asked + 1}
    else s
  | none => s

/-- The next character of the input, or zero when there is none. -/
def take (s : Store) : Store :=
  match s.input[s.index]? with
  | some c => {s.put c.toNat with index := s.index + 1}
  | none => s.put 0

/-- The effect of an instruction that is no bracket. -/
def exec (source : Option (Nat → Text)) (s : Store) : Command → Store
  | .right => {s with pointer := (s.pointer + 1) % s.memory.length}
  | .left => {s with pointer := (s.pointer + s.memory.length - 1) % s.memory.length}
  | .increment => s.put (s.cell + 1)
  | .decrement => s.put (s.cell + 255)
  | .output => {s with output := s.output ++ [Char.ofNat s.cell]}
  | .input => (s.refill source).take
  | .opening | .closing | .comment => s

end Store

/-- A structured program takes one store to another. There is no other store if it
runs for ever. -/
inductive Eval (source : Option (Nat → Text)) : Block → Store → Store → Prop
  | done {s : Store} : Eval source .done s s
  | plain {c : Char} {h : Plain c} {rest : Block} {s s' : Store} :
      Eval source rest (s.exec source (Command.ofChar c)) s' → Eval source (.plain c h rest) s s'
  | leave {body rest : Block} {s s' : Store} :
      s.cell = 0 → Eval source rest s s' → Eval source (.loop body rest) s s'
  | again {body rest : Block} {s s₁ s' : Store} :
      s.cell ≠ 0 → Eval source body s s₁ → Eval source (.loop body rest) s₁ s' →
      Eval source (.loop body rest) s s'

/-- A structured program has at most one result. -/
theorem Eval.unique {source : Option (Nat → Text)} {t : Block} {s s₁ s₂ : Store}
    (h₁ : Eval source t s s₁) (h₂ : Eval source t s s₂) : s₁ = s₂ := by
  induction h₁ generalizing s₂ with
  | done =>
    cases h₂ with
    | done => rfl
  | plain _ ih =>
    cases h₂ with
    | plain h₂ => exact ih h₂
  | leave hzero _ ih =>
    cases h₂ with
    | leave _ h₂ => exact ih h₂
    | again hne => exact absurd hzero hne
  | again hne _ _ ihb ihl =>
    cases h₂ with
    | leave hzero => exact absurd hzero hne
    | again _ hbody hloop =>
      cases ihb hbody
      exact ihl hloop

namespace Machine

/-- What a machine shows of its store, when so many requests were made. -/
def store (m : Machine) (k : Nat) : Store where
  memory := m.tape.cells.toList.map UInt8.toNat
  pointer := m.tape.head
  output := m.output.toList
  input := m.input.toList
  index := m.cursor
  asked := k

variable {m : Machine} {texts : Nat → Text} {k : Nat}

theorem cell_store (m : Machine) (k : Nat) : (m.store k).cell = m.tape.read.toNat := by
  have hcell := Array.getElem?_eq_getElem m.tape.head_lt
  simp [Store.cell, store, Tape.read, List.getD_eq_getElem?_getD, hcell]

theorem cell_store_eq_zero_iff : (m.store k).cell = 0 ↔ m.tape.read = 0 := by
  rw [cell_store]
  exact ⟨fun h => UInt8.toNat_inj.mp h, fun h => by rw [h]; rfl⟩

theorem store_write (m : Machine) (k : Nat) (v : UInt8) (n : Nat) :
    ({m with tape := m.tape.write v, cursor := n} : Machine).store k =
      {(m.store k).put v.toNat with index := n} := by
  have hv : v.toNat % 256 = v.toNat := Nat.mod_eq_of_lt v.toNat_lt
  simp [store, Store.put, Tape.write, List.map_set, hv]

theorem store_consume (m : Machine) (k : Nat) : m.consume.store k = (m.store k).take := by
  have hinput : (m.store k).input[(m.store k).index]? = m.input[m.cursor]? := by
    simp [store]
  rw [consume, Store.take, hinput]
  cases m.input[m.cursor]? with
  | none => exact store_write m k 0 m.cursor
  | some c =>
    have hbyte : (m.store k).put c.toNat.toUInt8.toNat = (m.store k).put c.toNat := by
      simp [Store.put]
    have hwrite := store_write m k c.toNat.toUInt8 (m.cursor + 1)
    rw [hbyte] at hwrite
    exact hwrite

theorem store_receive (m : Machine) (t : Text) (k : Nat) :
    (m.receive t).store (k + 1) =
      {m.store k with input := (m.store k).input ++ t, asked := k + 1} := by
  simp [store, receive]

/-- The source that a machine has, if it has one. -/
def source? (m : Machine) (texts : Nat → Text) : Option (Nat → Text) :=
  if m.hears then some texts else none

theorem refill_of_asks (h : m.Asks) : (m.store k).refill (m.source? texts) =
    {m.store k with input := (m.store k).input ++ texts (k + 1), asked := k + 1} := by
  obtain ⟨-, hears, hle⟩ := h
  have hle' : (m.store k).input.length ≤ (m.store k).index := by simpa [store] using hle
  rw [source?, if_pos hears, Store.refill, if_pos hle']
  rfl

theorem refill_of_not_asks (hc : m.program.command? m.counter = some .input) (h : ¬ m.Asks) :
    (m.store k).refill (m.source? texts) = m.store k := by
  rw [source?]
  split
  next hears =>
    have hlt : ¬ (m.store k).input.length ≤ (m.store k).index := by
      intro hle
      exact h ⟨hc, hears, by simpa [store] using hle⟩
    rw [Store.refill, if_neg hlt]
  next => rfl

theorem store_openLoop (m : Machine) (k : Nat) : m.openLoop.store k = m.store k := by
  rw [openLoop]
  split
  · rfl
  · rfl

theorem store_closeLoop (m : Machine) (k : Nat) : m.closeLoop.store k = m.store k := by
  rw [closeLoop]
  split
  · rfl
  · split
    · rfl
    · rfl

/-- An instruction that reads nothing does to the store what it means. -/
theorem store_perform {c : Command} (hc : c ≠ .input) (source : Option (Nat → Text)) :
    (m.perform c).store k = (m.store k).exec source c := by
  cases c
  case right => simp [perform, store, Store.exec, Tape.right]
  case left =>
    have hpos := m.tape.size_pos
    have hsub : m.tape.head + (m.tape.cells.size - 1) = m.tape.head + m.tape.cells.size - 1 := by
      rw [Tape.size] at hpos
      omega
    simp [perform, store, Store.exec, Tape.left, hsub]
  case increment =>
    have hwrite := store_write m k (m.tape.read + 1) m.cursor
    refine hwrite.trans ?_
    rw [Store.exec, cell_store]
    refine Store.put_congr ?_ (m.store k)
    rw [UInt8.toNat_add]
    exact Nat.mod_mod _ _
  case decrement =>
    have hwrite := store_write m k (m.tape.read - 1) m.cursor
    refine hwrite.trans ?_
    rw [Store.exec, cell_store]
    refine Store.put_congr ?_ (m.store k)
    rw [UInt8.toNat_sub, Nat.add_comm m.tape.read.toNat]
    exact Nat.mod_mod _ _
  case output =>
    have hcell := cell_store m k
    simp only [perform, Store.exec, hcell]
    simp [store, emit, cellChar]
  case input => exact absurd rfl hc
  case opening => exact store_openLoop m k
  case closing => exact store_closeLoop m k
  case comment => rfl

/-- One step does to the store what its instruction means. -/
theorem store_onward {c : Command} (texts : Nat → Text) (k : Nat)
    (hc : m.program.command? m.counter = some c) (hs : m.stepping = false) :
    (m.onward texts k).1.store (m.onward texts k).2 = (m.store k).exec (m.source? texts) c := by
  have hexec : m.noted.execute.advance.store k = (m.perform c).store k := by
    rw [noted_eq, execute_reported, execute_of hc]
    rfl
  rw [onward]
  split
  next hst =>
    obtain ⟨-, hasks⟩ := stance_eq_request_iff.mp hst
    obtain rfl : c = .input := Option.some.inj (hc.symm.trans hasks.1)
    rw [Store.exec, refill_of_asks hasks, ← store_receive, ← store_consume]
    rfl
  next hst =>
    refine hexec.trans ?_
    by_cases hi : c = .input
    · subst hi
      have hasks : ¬ m.Asks := fun h => hst (stance_eq_request_iff.mpr ⟨hs, h⟩)
      rw [Store.exec, refill_of_not_asks hc hasks, ← store_consume]
      rfl
    · exact store_perform hi _

end Machine
end TapeMachine
