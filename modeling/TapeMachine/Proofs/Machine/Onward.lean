import TapeMachine.Proofs.Machine.Later

/-! One step after the other.

What a machine comes to when its steps are executed one after the other, each with
the text that it asks for (`serial`). What acts tell of texts and characters is
enough to know where this gets it. -/
namespace TapeMachine

/-- The text that came for a step. -/
def Sign.text? : Sign → Option Text
  | .answered _ text => some text
  | _ => none

/-- The character that a sink was called with. -/
def Sign.char? : Sign → Option Char
  | .emitted _ c => some c
  | _ => none

/-- The texts of a list, counted from one, and after them no text more. -/
def textAt (ts : List Text) (n : Nat) : Text := ts.getD (n - 1) []

theorem textAt_of_prefix {ts all : List Text} {t : Text} (h : ts ++ [t] <+: all) :
    textAt all (ts.length + 1) = t := by
  obtain ⟨rest, rfl⟩ := h
  simp [textAt]

namespace Machine

variable {m m' : Machine} {a : Act} {texts : Nat → Text}

/-- One step, when so many requests were made before. -/
def onward (texts : Nat → Text) (m : Machine) (k : Nat) : Machine × Nat :=
  if m.stance = .request then ((m.receive (texts (k + 1))).consume.advance, k + 1)
  else (m.noted.execute.advance, k)

/-- So many steps one after the other, and the number of requests made on the way. -/
def serial (texts : Nat → Text) (m : Machine) : Nat → Machine × Nat
  | 0 => (m, 0)
  | n + 1 => (serial texts m n).1.onward texts (serial texts m n).2

theorem stepping_onward (texts : Nat → Text) (m : Machine) (k : Nat) :
    (m.onward texts k).1.stepping = m.stepping := by
  rw [onward]
  split
  · exact (inner_consume _).stepping
  · exact (inner_execute _).stepping.trans (inner_noted _).stepping

/-- Inside the program this completes a step. -/
theorem stepped_onward (texts : Nat → Text) (k : Nat) (hs : m.stepping = false)
    (hr : m.counter < m.program.size) : Stepped m (m.onward texts k).1 := by
  rw [onward]
  rcases stance_inside hs hr with hst | hst | hst
  · obtain ⟨-, hasks⟩ := stance_eq_request_iff.mp hst
    have hask : Does m .ask {m with stepping := true} := .ask hst
    have hhear : Does {m with stepping := true} (.hear (texts (k + 1)))
        (m.settled.receive (texts (k + 1))).consume.advance := .hear _ rfl hasks
    rw [settled_eq hs] at hhear
    rw [if_pos hst]
    exact (hhear.stepped trivial).of_still (hask.still id)
  · have hput := (Does.put hst).stepped trivial
    rw [if_neg (by simp [hst])]
    rwa [← noted_execute_of_output hst] at hput
  · rw [if_neg (by simp [hst])]
    exact (Does.work hst).stepped trivial

/-- So many steps, each of them inside the program. -/
inductive Walk (texts : Nat → Text) : Nat → Machine × Nat → Machine × Nat → Prop
  | nil {x : Machine × Nat} : Walk texts 0 x x
  | cons {n : Nat} {x y : Machine × Nat} : x.1.counter < x.1.program.size →
      Walk texts n (x.1.onward texts x.2) y → Walk texts (n + 1) x y

theorem Walk.trans {n n' : Nat} {x y z : Machine × Nat} (h : Walk texts n x y)
    (h' : Walk texts n' y z) : Walk texts (n' + n) x z := by
  induction h with
  | nil => exact h'
  | cons hr _ ih => exact .cons hr (ih h')

theorem Walk.snoc {n : Nat} {x y : Machine × Nat} (h : Walk texts n x y)
    (hr : y.1.counter < y.1.program.size) : Walk texts (n + 1) x (y.1.onward texts y.2) := by
  have hlast := h.trans (.cons hr .nil)
  rwa [Nat.add_comm] at hlast

/-- The steps that were taken are those of the walk. -/
theorem Walk.steps {n : Nat} {x y : Machine × Nat} (h : Walk texts n x y)
    (hs : x.1.stepping = false) : y.1.steps = x.1.steps + n := by
  induction h with
  | nil => rfl
  | @cons n x _ hr _ ih =>
    have hfree := (stepping_onward texts x.1 x.2).trans hs
    rw [ih hfree, (stepped_onward texts x.2 hs hr).steps]
    omega

theorem walk_serial {n : Nat}
    (h : ∀ k, k < n → (serial texts m k).1.counter < (serial texts m k).1.program.size) :
    Walk texts n (m, 0) (serial texts m n) := by
  induction n with
  | zero => exact .nil
  | succ n ih => exact (ih fun k hk => h k (Nat.lt_succ_of_lt hk)).snoc (h n (Nat.lt_succ_self n))

/-! ### Output -/

theorem output_execute (h : m.program.command? m.counter ≠ some .output) :
    m.execute.output = m.output := by
  rw [execute]
  cases hc : m.program.command? m.counter with
  | none => rfl
  | some c =>
    cases c
    case output => exact absurd hc h
    case input =>
      obtain ⟨t, n, heq⟩ := consume_eq m
      show m.consume.output = m.output
      rw [heq]
    case opening =>
      simp only [perform, openLoop]
      split
      · rfl
      · rfl
    case closing =>
      simp only [perform, closeLoop]
      split
      · rfl
      · split
        · rfl
        · rfl
    all_goals rfl

/-- What a machine puts out its sink is called with. -/
theorem Does.chars (h : Does m a m') (hs : m.speaks = true) (i : Nat) :
    m'.output.toList = m.output.toList ++ (a.signs i m).filterMap Sign.char? := by
  cases h with
  | ask => exact (List.append_nil _).symm
  | hear text =>
    obtain ⟨t, n, heq⟩ := consume_eq ({m with stepping := false}.receive text)
    rw [heq]
    exact (List.append_nil _).symm
  | drop late => cases late <;> exact (List.append_nil _).symm
  | work hst =>
    obtain ⟨-, -, c, hc, hne⟩ := stance_eq_inward_iff.mp hst
    have hout : m.noted.execute.advance.output = m.output := by
      rw [noted_eq, execute_reported]
      exact output_execute (by rw [hc]; simpa using hne)
    rw [hout]
    cases hc : m.complaint? <;> simp [Act.signs, hc, Sign.char?]
  | put => simp [Act.signs, hs, Sign.char?, emit, advance]
  | spill => simp [Act.signs, hs, Sign.char?, emit]

/-! ### Input -/

theorem toList_receive (m : Machine) (t : Text) :
    (m.receive t).input.toList = m.input.toList ++ t := Array.toList_appendList

/-- Reading goes no further than the input. -/
theorem input_consume (m : Machine) : m.consume.input = m.input ∧
    (m.cursor ≤ m.input.size → m.consume.cursor ≤ m.input.size) := by
  rw [consume]
  cases hc : m.input[m.cursor]? with
  | none => exact ⟨rfl, id⟩
  | some c => exact ⟨rfl, fun _ => (Array.getElem?_eq_some_iff.mp hc).1⟩

/-- No instruction changes what has come as input. -/
theorem input_execute (m : Machine) : m.execute.input = m.input ∧
    (m.cursor ≤ m.input.size → m.execute.cursor ≤ m.input.size) := by
  rw [execute]
  cases m.program.command? m.counter with
  | none => exact ⟨rfl, id⟩
  | some c =>
    cases c
    case input => exact input_consume m
    case opening =>
      simp only [perform, openLoop]
      split
      · exact ⟨rfl, id⟩
      · exact ⟨rfl, id⟩
    case closing =>
      simp only [perform, closeLoop]
      split
      · exact ⟨rfl, id⟩
      · split
        · exact ⟨rfl, id⟩
        · exact ⟨rfl, id⟩
    all_goals exact ⟨rfl, id⟩

/-- The texts that come for a machine that was not reset are its input. -/
theorem Does.input (h : Does m a m') (he : m.epoch = 0) (i : Nat) :
    m'.input.toList = m.input.toList ++ ((a.signs i m).filterMap Sign.text?).flatten := by
  cases h with
  | ask => exact (List.append_nil _).symm
  | hear text =>
    rw [show (Machine.consume _).advance.input = (Machine.consume _).input from rfl,
      (input_consume _).1, toList_receive]
    simp [Act.signs, Sign.text?]
  | drop late hs hlate =>
    cases late with
    | none => exact (List.append_nil _).symm
    | some t =>
      have hpos := hlate (Option.some_ne_none t)
      omega
  | work hst =>
    have hin : m.noted.execute.advance.input = m.input := by
      rw [noted_eq, execute_reported]
      exact (input_execute m).1
    rw [hin]
    cases hc : m.complaint? <;> simp [Act.signs, hc, Sign.text?]
  | put => cases hs : m.speaks <;> simp [Act.signs, hs, Sign.text?, emit, advance]
  | spill => cases hs : m.speaks <;> simp [Act.signs, hs, Sign.text?, emit]

end Machine
end TapeMachine
