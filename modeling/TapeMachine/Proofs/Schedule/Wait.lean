import TapeMachine.Proofs.Machine.Stir

/-! Waiting.

A machine knows that a step of it waits for text, and the thread of that step
knows which machine it is and in which epoch the step began. A turn begins one
wait, ends one, or leaves them as they are (`Rewaits`). A step whose wait ends in
the epoch in which it began finds its machine where it left it (`Awaits`): a reset
in between is the only thing that could have moved it. -/
namespace TapeMachine

/-- A step of a machine waits for text. -/
def Waiting (ms : List Machine) (i : Nat) : Prop := ∃ m, ms[i]? = some m ∧ m.stepping = true

/-- The machine of a step that began in an epoch: unless it was reset since, it still
stands where text is asked for. -/
def Awaits (ms : List Machine) (i epoch : Nat) : Prop :=
  ∃ m, ms[i]? = some m ∧ epoch ≤ m.epoch ∧ (m.epoch = epoch → m.Asks)

/-- How a turn changes which steps wait. -/
inductive Rewaits (ms ms' : List Machine) : List (Nat × Nat) → List (Nat × Nat) → Prop
  | same {rs : List (Nat × Nat)} : (∀ j, Waiting ms' j ↔ Waiting ms j) → Rewaits ms ms' rs rs
  | began {rs : List (Nat × Nat)} (i epoch : Nat) : ¬ Waiting ms i → Waiting ms' i →
      (∀ j, j ≠ i → (Waiting ms' j ↔ Waiting ms j)) → Awaits ms' i epoch →
      Rewaits ms ms' rs ((i, epoch) :: rs)
  | ended {rs : List (Nat × Nat)} (i epoch : Nat) : ¬ Waiting ms' i →
      (∀ j, j ≠ i → (Waiting ms' j ↔ Waiting ms j)) → Rewaits ms ms' ((i, epoch) :: rs) rs

namespace Waiting
variable {ms ms' : List Machine} {sg : List Sign}

theorem modify_reset (ms : List Machine) (i j : Nat) :
    Waiting (ms.modify i Machine.reset) j ↔ Waiting ms j := by
  by_cases hij : i = j
  · subst hij
    rw [Waiting, Waiting, List.getElem?_modify_eq]
    cases ms[i]? with
    | none => simp
    | some m => simp [Machine.reset]
  · rw [Waiting, Waiting, List.getElem?_modify_ne _ _ hij]

theorem of_resets (h : Resets ms sg ms') (j : Nat) : Waiting ms' j ↔ Waiting ms j := by
  induction h with
  | nil => exact Iff.rfl
  | cons i _ _ ih => rw [ih, modify_reset]

theorem set_ne {i j : Nat} (m : Machine) (h : j ≠ i) : Waiting (ms.set i m) j ↔ Waiting ms j := by
  rw [Waiting, Waiting, List.getElem?_set_ne (Ne.symm h)]

theorem set_self {i : Nat} {m m' : Machine} (h : ms[i]? = some m) :
    Waiting (ms.set i m') i ↔ m'.stepping = true := by
  rw [Waiting, List.getElem?_set_self (List.getElem?_eq_some_iff.mp h).1]
  simp

theorem iff_of {i : Nat} {m : Machine} (h : ms[i]? = some m) :
    Waiting ms i ↔ m.stepping = true := by
  rw [Waiting, h]
  simp

/-- A machine put in the place of another waits if that one did. -/
theorem set_same {i : Nat} {m m' : Machine} (h : ms[i]? = some m)
    (hs : m'.stepping = m.stepping) (j : Nat) : Waiting (ms.set i m') j ↔ Waiting ms j := by
  by_cases hij : j = i
  · subst hij
    rw [set_self h, hs, iff_of h]
  · exact set_ne m' hij

theorem append_new {m : Machine} (h : m.IsNew) (j : Nat) :
    Waiting (ms ++ [m]) j ↔ Waiting ms j := by
  rw [Waiting, Waiting, List.getElem?_append]
  split
  next => exact Iff.rfl
  next hj =>
    rw [List.getElem?_eq_none (Nat.le_of_not_lt hj)]
    obtain ⟨p, n, hn, hears, speaks, rfl⟩ := h
    cases hk : j - ms.length with
    | zero => simp [Machine.ofProgram]
    | succ k => simp

end Waiting

theorem Awaits.of_resets {ms ms' : List Machine} {sg : List Sign} (h : Resets ms sg ms')
    {i epoch : Nat} (ha : Awaits ms i epoch) : Awaits ms' i epoch := by
  obtain ⟨m, hm, hle, hasks⟩ := ha
  obtain ⟨k, hk⟩ := h.at_index hm
  refine ⟨_, hk, ?_, fun he => ?_⟩
  · rw [Machine.epoch_wiped]
    omega
  · rw [Machine.epoch_wiped] at he
    obtain rfl : k = 0 := by omega
    exact hasks he

namespace Rewaits
variable {ms ms' : List Machine} {rs rs' : List (Nat × Nat)} {i : Nat} {m m' : Machine}

theorem resets {ms'' : List Machine} {sg : List Sign} (h : Rewaits ms ms' rs rs')
    (hr : Resets ms' sg ms'') : Rewaits ms ms'' rs rs' := by
  cases h with
  | same h => exact .same fun j => (Waiting.of_resets hr j).trans (h j)
  | began i epoch hn hw h ha =>
    exact .began i epoch hn ((Waiting.of_resets hr i).mpr hw)
      (fun j hj => (Waiting.of_resets hr j).trans (h j hj)) (ha.of_resets hr)
  | ended i epoch hn h =>
    exact .ended i epoch (fun hw => hn ((Waiting.of_resets hr i).mp hw))
      (fun j hj => (Waiting.of_resets hr j).trans (h j hj))

theorem set_same (h : ms[i]? = some m) (hs : m'.stepping = m.stepping) :
    Rewaits ms (ms.set i m') rs rs :=
  .same (Waiting.set_same h hs)

theorem set_began (h : ms[i]? = some m) (hs : m.stepping = false) (hs' : m'.stepping = true)
    (ha : m'.Asks) : Rewaits ms (ms.set i m') rs ((i, m'.epoch) :: rs) := by
  refine .began i m'.epoch ?_ ((Waiting.set_self h).mpr hs') (fun j => Waiting.set_ne m') ?_
  · rw [Waiting.iff_of h, hs]
    exact Bool.false_ne_true
  · have hlt := (List.getElem?_eq_some_iff.mp h).1
    exact ⟨m', List.getElem?_set_self hlt, Nat.le_refl _, fun _ => ha⟩

theorem set_ended {epoch : Nat} (h : ms[i]? = some m) (hs' : m'.stepping = false) :
    Rewaits ms (ms.set i m') ((i, epoch) :: rs) rs := by
  refine .ended i epoch ?_ (fun j => Waiting.set_ne m')
  rw [Waiting.set_self h, hs']
  exact Bool.false_ne_true

end Rewaits
end TapeMachine
