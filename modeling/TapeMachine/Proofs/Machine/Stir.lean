import TapeMachine.Proofs.Machine.Act

/-! Stirs.

What one turn of a thread does to all the machines at once, with the signs of it
in order: nothing but resets, one machine more, or one act and resets after it. -/
namespace TapeMachine

namespace Machine

/-! ### Resets -/

theorem wiped_succ (m : Machine) (k : Nat) : m.wiped (k + 1) = (m.wiped k).reset := by
  induction k generalizing m with
  | zero => rfl
  | succ k ih => exact ih m.reset

theorem stepping_wiped (m : Machine) (k : Nat) : (m.wiped k).stepping = m.stepping := by
  induction k generalizing m with
  | zero => rfl
  | succ k ih => exact ih m.reset

theorem epoch_wiped (m : Machine) (k : Nat) : (m.wiped k).epoch = m.epoch + k := by
  induction k generalizing m with
  | zero => rfl
  | succ k ih =>
    rw [wiped, ih m.reset]
    show m.epoch + 1 + k = m.epoch + (k + 1)
    omega

theorem program_wiped (m : Machine) (k : Nat) : (m.wiped k).program = m.program := by
  induction k generalizing m with
  | zero => rfl
  | succ k ih => exact ih m.reset

end Machine

/-- Machines are reset, one after the other. -/
inductive Resets : List Machine → List Sign → List Machine → Prop
  | nil {ms : List Machine} : Resets ms [] ms
  | cons {ms ms' : List Machine} {sg : List Sign} (i : Nat) : i < ms.length →
      Resets (ms.modify i Machine.reset) sg ms' → Resets ms (.reset :: sg) ms'

namespace Resets
variable {ms ms' ms'' : List Machine} {sg sg' : List Sign}

theorem single {i : Nat} (h : i < ms.length) : Resets ms [.reset] (ms.modify i Machine.reset) :=
  .cons i h .nil

theorem trans (h : Resets ms sg ms') (h' : Resets ms' sg' ms'') : Resets ms (sg ++ sg') ms'' := by
  induction h with
  | nil => exact h'
  | cons i hi _ ih => exact .cons i hi (ih h')

theorem length_eq (h : Resets ms sg ms') : ms'.length = ms.length := by
  induction h with
  | nil => rfl
  | cons i _ _ ih => rw [ih, List.length_modify]

theorem eq_of_nil (h : Resets ms [] ms') : ms' = ms := by
  cases h
  rfl

/-- Nothing but resets can be told. -/
theorem signs_eq (h : Resets ms sg ms') : sg = List.replicate sg.length .reset := by
  induction h with
  | nil => rfl
  | cons i _ _ ih => rw [List.length_cons, List.replicate_succ, ← ih]

theorem at_index (h : Resets ms sg ms') {i : Nat} {m : Machine} (hm : ms[i]? = some m) :
    ∃ k, ms'[i]? = some (m.wiped k) := by
  induction h generalizing m with
  | nil => exact ⟨0, hm⟩
  | cons j _ _ ih =>
    by_cases hij : j = i
    · subst hij
      obtain ⟨k, hk⟩ := ih (by rw [List.getElem?_modify_eq, hm]; rfl)
      exact ⟨k + 1, hk⟩
    · exact ih (by rw [List.getElem?_modify_ne _ _ hij, hm])

/-- What happens to the others has nothing to do with a machine that is not reset. -/
theorem set_of_epoch_eq (h : Resets ms sg ms') {i : Nat} {m m' : Machine} (hm : ms[i]? = some m)
    (hm' : ms'[i]? = some m') (he : m'.epoch = m.epoch) (n : Machine) :
    m' = m ∧ Resets (ms.set i n) sg (ms'.set i n) := by
  induction h generalizing m with
  | nil => exact ⟨Option.some.inj (hm'.symm.trans hm), .nil⟩
  | @cons ms _ _ j hj hrest ih =>
    by_cases hij : j = i
    · -- a reset of the machine itself shows in its epoch
      subst hij
      have hreset : (ms.modify j Machine.reset)[j]? = some m.reset := by
        rw [List.getElem?_modify_eq, hm]
        rfl
      obtain ⟨k, hk⟩ := hrest.at_index hreset
      obtain rfl := Option.some.inj (hm'.symm.trans hk)
      rw [Machine.epoch_wiped] at he
      have hone : m.reset.epoch = m.epoch + 1 := rfl
      omega
    · have hothers : (ms.modify j Machine.reset)[i]? = some m := by
        rw [List.getElem?_modify_ne _ _ hij, hm]
      obtain ⟨heq, hres⟩ := ih hothers hm' he
      refine ⟨heq, .cons j (by rwa [List.length_set]) ?_⟩
      have hcomm : (ms.set i n).modify j Machine.reset = (ms.modify j Machine.reset).set i n := by
        apply List.ext_getElem?
        intro k
        simp only [List.getElem?_modify, List.getElem?_set, List.length_modify]
        grind
      rw [hcomm]
      exact hres

/-- A single machine is reset as often as can be told. -/
theorem of_single {m : Machine} (h : Resets [m] sg ms') : ms' = [m.wiped sg.length] := by
  generalize hms : [m] = ms at h
  induction h generalizing m with
  | nil => exact hms.symm
  | cons i hi _ ih =>
    subst hms
    obtain rfl : i = 0 := by simpa using hi
    exact ih rfl

end Resets

/-! ### One turn -/

/-- A machine as it is made. -/
def Machine.IsNew (m : Machine) : Prop :=
  ∃ (p : Program) (n : Nat) (h : 0 < n) (hears speaks : Bool),
    m = {Machine.ofProgram p n h with hears := hears, speaks := speaks}

open Machine in
/-- What one turn does to the machines. Only a frail sink, one that may fail, or a
reset makes a machine spill. -/
inductive Stir (frail : Prop) : List Machine → List Sign → List Machine → Prop
  | calm {ms ms' : List Machine} {sg : List Sign} : Resets ms sg ms' → Stir frail ms sg ms'
  | made {ms : List Machine} {m : Machine} : m.IsNew → Stir frail ms [] (ms ++ [m])
  | act {ms ms' : List Machine} {sg : List Sign} {i : Nat} {m m₁ : Machine} (a : Act) :
      ms[i]? = some m → Does m a m₁ → (a = .spill → frail ∨ sg ≠ []) →
      Resets (ms.set i m₁) sg ms' → Stir frail ms (a.signs i m ++ sg) ms'

namespace Stir
variable {frail : Prop} {ms ms' ms'' : List Machine} {sg sg' : List Sign}

theorem mono {frail' : Prop} (h : Stir frail ms sg ms') (hf : frail → frail') :
    Stir frail' ms sg ms' := by
  cases h with
  | calm hr => exact .calm hr
  | made hn => exact .made hn
  | act a hm hd hs hr => exact .act a hm hd (fun ha => (hs ha).imp_left hf) hr

/-- No machine goes away, and each is acted on or left alone, and then reset or not. -/
theorem at_index (h : Stir frail ms sg ms') {i : Nat} {m : Machine} (hm : ms[i]? = some m) :
    ∃ m', ms'[i]? = some m' ∧ m.Shift m' := by
  cases h with
  | calm hr =>
    obtain ⟨k, hk⟩ := hr.at_index hm
    exact ⟨_, hk, m, k, .inl rfl, rfl⟩
  | made hn =>
    refine ⟨m, ?_, m, 0, .inl rfl, rfl⟩
    rw [List.getElem?_append_left (List.getElem?_eq_some_iff.mp hm).1, hm]
  | @act _ _ j n n₁ a hn hd hs hr =>
    by_cases hij : j = i
    · subst hij
      obtain rfl : n = m := Option.some.inj (hn.symm.trans hm)
      have hlt := (List.getElem?_eq_some_iff.mp hm).1
      obtain ⟨k, hk⟩ := hr.at_index (List.getElem?_set_self hlt)
      exact ⟨_, hk, n₁, k, .inr ⟨a, hd⟩, rfl⟩
    · obtain ⟨k, hk⟩ := hr.at_index (by rw [List.getElem?_set_ne hij, hm])
      exact ⟨_, hk, m, k, .inl rfl, rfl⟩

/-- A machine that a turn adds is new. -/
theorem isNew_of_length_le (h : Stir frail ms sg ms') {i : Nat} {m : Machine} (hi : ms.length ≤ i)
    (hm : ms'[i]? = some m) : m.IsNew := by
  have hlt := (List.getElem?_eq_some_iff.mp hm).1
  cases h with
  | calm hr =>
    rw [hr.length_eq] at hlt
    omega
  | @made n hn =>
    rw [List.length_append, List.length_singleton] at hlt
    obtain rfl : i = ms.length := by omega
    rw [List.getElem?_append_right (Nat.le_refl _), Nat.sub_self] at hm
    cases hm
    exact hn
  | act a hm' hd hs hr =>
    rw [hr.length_eq, List.length_set] at hlt
    omega

/-- With one machine only, that one acts or nothing does, and only it is reset. -/
theorem of_single {m m' : Machine} (h : Stir frail [m] sg [m']) :
    (∃ k, sg = List.replicate k .reset ∧ m' = m.wiped k) ∨
      ∃ a m₁ k, Machine.Does m a m₁ ∧ (a = .spill → frail ∨ 0 < k) ∧
        sg = a.signs 0 m ++ List.replicate k .reset ∧ m' = m₁.wiped k := by
  generalize hms : [m'] = ms' at h
  cases h with
  | calm hr =>
    subst hms
    have hw := hr.of_single
    exact .inl ⟨_, hr.signs_eq, by simpa using hw⟩
  | made hn => simp at hms
  | @act _ rest i n n₁ a hn hd hs hr =>
    subst hms
    obtain rfl : i = 0 := by simpa using (List.getElem?_eq_some_iff.mp hn).1
    obtain rfl : m = n := by simpa using hn
    have hw := Resets.of_single (m := n₁) hr
    refine .inr ⟨a, n₁, rest.length, hd, fun ha => ?_, ?_, by simpa using hw⟩
    · exact (hs ha).imp_right List.length_pos_iff.mpr
    · rw [← hr.signs_eq]

end Stir

namespace Machine

/-! ### What one turn can make of a machine -/

/-- A step that waits still does after a turn only if nothing but resets came. -/
theorem Shift.of_waiting {m m' : Machine} (h : m.Shift m') (hs : m.stepping = true)
    (hs' : m'.stepping = true) : ∃ k, m' = m.wiped k := by
  obtain ⟨m₁, k, rfl | ⟨a, hd⟩, rfl⟩ := h
  · exact ⟨k, rfl⟩
  · rw [stepping_wiped, hd.stepping_false hs] at hs'
    cases hs'

theorem Shift.program {m m' : Machine} (h : m.Shift m') : m'.program = m.program := by
  obtain ⟨m₁, k, rfl | ⟨a, hd⟩, rfl⟩ := h
  · exact program_wiped _ _
  · rw [program_wiped, hd.kept.program]

end Machine
end TapeMachine
