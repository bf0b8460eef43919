import TapeMachine.Bench
import TapeMachine.Proofs.Machine.Stir

/-! The stage.

The bench as far as acts go: the bare machines in the order of their numbers, and
the signs in the order of the record. -/
namespace TapeMachine.Bench

/-- The machines without what pauses and run loops leave on them. -/
def bare (b : Bench) : List Machine := b.machines.toList.map Machine.bare

/-- What of the record can be told of machines. -/
def signs (b : Bench) : List Sign := b.events.toList.filterMap Event.sign?

/-- Callbacks have something to act on. -/
structure Manned (b : Bench) : Prop where
  first : b.session = none → 0 < b.machines.size
  current : ∀ s i, b.session = some s → s.current = some i → i < b.machines.size

variable {b : Bench} {i : Nat} {m : Machine}

theorem getElem?_bare (b : Bench) (i : Nat) : b.bare[i]? = (b.machine? i).map Machine.bare := by
  simp [bare, machine?]

theorem length_bare (b : Bench) : b.bare.length = b.machines.size := by simp [bare]

theorem getElem?_bare_of (h : b.machine? i = some m) : b.bare[i]? = some m.bare := by
  rw [getElem?_bare, h]
  rfl

theorem exists_of_getElem?_bare (h : b.bare[i]? = some m) :
    ∃ m', b.machine? i = some m' ∧ m'.bare = m := by
  rw [getElem?_bare] at h
  exact Option.map_eq_some_iff.mp h

theorem epoch?_eq_bare (b : Bench) (i : Nat) : b.epoch? i = b.bare[i]?.map (·.epoch) := by
  rw [getElem?_bare, epoch?, Option.map_map]
  rfl

theorem lt_size_of_machine? (h : b.machine? i = some m) : i < b.machines.size :=
  (Array.getElem?_eq_some_iff.mp h).1

/-! ### Machines by number -/

theorem machine?_update (b : Bench) (i j : Nat) (f : Machine → Machine) :
    (b.update i f).machine? j = if i = j then (b.machine? j).map f else b.machine? j := by
  simp only [machine?, update, Array.getElem?_modify]

theorem machine?_update_self (h : b.machine? i = some m) (f : Machine → Machine) :
    (b.update i f).machine? i = some (f m) := by
  rw [machine?_update, if_pos rfl, h]
  rfl

@[simp] theorem size_update (b : Bench) (i : Nat) (f : Machine → Machine) :
    (b.update i f).machines.size = b.machines.size := Array.size_modify

theorem exists_of_holds {p : Machine → Bool} (h : b.holds i p = true) :
    ∃ m, b.machine? i = some m ∧ p m = true := by
  rw [holds] at h
  cases hm : b.machine? i with
  | none =>
    rw [hm] at h
    cases h
  | some m =>
    rw [hm] at h
    exact ⟨m, rfl, h⟩

theorem holds_of (h : b.machine? i = some m) (p : Machine → Bool) : b.holds i p = p m := by
  rw [holds, h]
  rfl

theorem looping_unpause (b : Bench) (i : Nat) :
    (b.update i Machine.unpause).holds i (·.looping) = b.holds i (·.looping) := by
  simp only [holds, machine?_update, if_pos, Option.any_map]
  rfl

/-! ### Changes of the bare machines -/

@[simp] theorem bare_log (b : Bench) (n : Notice) : (b.log n).bare = b.bare := rfl

/-- A change that shows on bare machines. -/
theorem bare_update {f g : Machine → Machine} (h : ∀ m, (f m).bare = g m.bare) (b : Bench)
    (i : Nat) : (b.update i f).bare = b.bare.modify i g := by
  apply List.ext_getElem?
  intro j
  rw [getElem?_bare, machine?_update, List.getElem?_modify, getElem?_bare]
  by_cases hij : i = j
  · simp [hij, Function.comp_def, h]
  · simp [hij]

/-- A change out of sight. -/
theorem bare_update_flags {f : Machine → Machine} (h : ∀ m, (f m).bare = m.bare) (b : Bench)
    (i : Nat) : (b.update i f).bare = b.bare := by
  rw [bare_update (g := id) h, List.modify_id]

theorem bare_update_of (h : b.machine? i = some m) (f : Machine → Machine) :
    (b.update i f).bare = b.bare.set i (f m).bare := by
  apply List.ext_getElem?
  intro j
  rw [getElem?_bare, machine?_update]
  by_cases hij : i = j
  · subst hij
    have hlt : i < b.bare.length := by rw [length_bare]; exact lt_size_of_machine? h
    rw [if_pos rfl, List.getElem?_set_self hlt, h]
    rfl
  · rw [if_neg hij, List.getElem?_set_ne hij, getElem?_bare]

/-! ### Signs -/

@[simp] theorem signs_record (b : Bench) (e : Event) :
    (b.record e).signs = b.signs ++ e.sign?.toList := by
  rw [signs, signs, record, Array.toList_push, List.filterMap_append]
  cases h : e.sign? <;> simp [h]

@[simp] theorem signs_log (b : Bench) (n : Notice) :
    (b.log n).signs = b.signs ++ (Event.sign? (.notice n)).toList := signs_record b _

@[simp] theorem signs_update (b : Bench) (i : Nat) (f : Machine → Machine) :
    (b.update i f).signs = b.signs := rfl

/-! ### A machine more -/

variable {made : Bench} {p : Program} {o : Options}

theorem eq_of_make (h : b.make p o = .ok made) :
    ∃ n, ∃ hn : 0 < n, o.memorySize.cellCount? = some n ∧
      made = {b with machines := b.machines.push {Machine.ofProgram p n hn with
        cooperative := o.cooperative, hears := b.source.isSome, speaks := b.sink.isSome}}.log
        (.created p.size n) := by
  rw [make] at h
  split at h
  next => cases h
  next n hn => exact ⟨n, Datum.cellCount?_pos hn, hn, (Except.ok.inj h).symm⟩

/-- For any number of cells a machine can be made. -/
theorem exists_made {n : Nat} (h : o.memorySize.cellCount? = some n) :
    ∃ made, b.make p o = .ok made := by
  rw [make]
  split
  next hnone =>
    rw [h] at hnone
    cases hnone
  next => exact ⟨_, rfl⟩

/-- A machine that is made comes last and is new, and nothing of it is told. -/
theorem exists_of_make (h : b.make p o = .ok made) : ∃ m : Machine, m.IsNew ∧ m.program = p ∧
    made.bare = b.bare ++ [m] ∧ made.signs = b.signs ∧ made.session = b.session ∧
    made.sink = b.sink := by
  obtain ⟨n, hn, -, rfl⟩ := eq_of_make h
  refine ⟨_, ⟨p, n, hn, b.source.isSome, b.sink.isSome, rfl⟩, rfl, ?_, ?_, rfl, rfl⟩
  · rw [bare_log, bare, bare, Array.toList_push, List.map_append]
    rfl
  · rw [signs_log]
    exact List.append_nil _

end TapeMachine.Bench
