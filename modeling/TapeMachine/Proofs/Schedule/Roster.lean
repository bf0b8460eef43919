import Mathlib.Data.List.Perm.Basic
import TapeMachine.Proofs.Schedule.Frame
import TapeMachine.Proofs.Schedule.Move

/-! The roster.

What is true of the threads whatever the bench does. A thread that is not running
rests: its call has not begun, or it sleeps or waits (`Rested`). The running thread,
the ready ones and the getters are different threads, and all of them are under way
(`Queued`). What the threads hold between them is gathered thread by thread, and a turn
changes the share of one thread only. -/
namespace TapeMachine

/-- The frames of a thread. -/
def Thread.frames : Thread → List Frame
  | .active _ fs => fs
  | .finished _ => []

/-- What a turn leaves is of some kind. -/
def Turn.Leaves (Q : Focus → List Frame → Prop) : Turn → Prop
  | .go f fs => Q f fs
  | .sleep fs => Q .resumed fs
  | .await fs => Q .resumed fs
  | .done _ => True

/-- The thread that a turn leaves. -/
def Turn.thread : Turn → Thread
  | .go f fs => .active f fs
  | .sleep fs => .active .resumed fs
  | .await fs => .active .resumed fs
  | .done o => .finished o

theorem Turn.frames_thread (x : Turn) : x.thread.frames = x.frames := by
  cases x <;> rfl

theorem Turn.frames_of_thread {x : Turn} {f : Focus} {fs : List Frame}
    (h : x.thread = .active f fs) : x.frames = fs := by
  rw [← Turn.frames_thread, h]
  rfl

theorem Turn.Leaves.thread {Q : Focus → List Frame → Prop} {x : Turn} (h : x.Leaves Q) {f : Focus}
    {fs : List Frame} (hx : x.thread = .active f fs) : Q f fs := by
  cases x <;> cases hx <;> exact h

namespace Roster
variable {r : Roster} {t : Nat} {f : Focus} {fs : List Frame}

/-- All threads under way are of some kind. -/
def All (Q : Focus → List Frame → Prop) (r : Roster) : Prop :=
  ∀ (t : Nat) (f : Focus) (fs : List Frame), r.threads[t]? = some (.active f fs) → Q f fs

/-- What all threads hold together. -/
def gather {α : Type} (g : Thread → List α) (r : Roster) : List α := r.threads.toList.flatMap g

/-- What all threads but one hold together. -/
def gatherOthers {α : Type} (g : Thread → List α) (r : Roster) (t : Nat) : List α :=
  (r.threads.toList.eraseIdx t).flatMap g

theorem current?_eq_some_iff : r.current? = some (t, f, fs) ↔
    r.running = some t ∧ r.threads[t]? = some (.active f fs) := by
  rw [current?]
  constructor
  · intro h
    split at h
    · cases h
    · split at h
      · cases h
        exact ⟨‹_›, ‹_›⟩
      · cases h
  · rintro ⟨hr, ht⟩
    simp only [hr, ht]

/-- A thread that goes on is still the running one. -/
theorem current?_settle_go (h : r.current? = some (t, f, fs)) (f' : Focus) (fs' : List Frame) :
    (r.settle t (.go f' fs')).current? = some (t, f', fs') := by
  obtain ⟨hr, ht⟩ := current?_eq_some_iff.mp h
  have hlt := (Array.getElem?_eq_some_iff.mp ht).1
  exact current?_eq_some_iff.mpr ⟨hr, Array.getElem?_setIfInBounds_self_of_lt hlt⟩

/-- A thread that is running after a turn has taken the turn, and goes on. -/
theorem eq_go_of_current?_settle (h : r.current? = some (t, f, fs)) {x : Turn} {u : Nat}
    {f' : Focus} {fs' : List Frame} (h' : (r.settle t x).current? = some (u, f', fs')) :
    t = u ∧ x = .go f' fs' := by
  cases x with
  | go f₁ fs₁ =>
    rw [current?_settle_go h] at h'
    cases h'
    exact ⟨rfl, rfl⟩
  | sleep | await | done => cases (current?_eq_some_iff.mp h').1

/-! ### One thread's share -/

section Gather
variable {α : Type} {g : Thread → List α} {x : Thread}

theorem mem_gather_iff {r : Roster} {a : α} :
    a ∈ r.gather g ↔ ∃ (t : Nat) (x : Thread), r.threads[t]? = some x ∧ a ∈ g x := by
  rw [gather, List.mem_flatMap]
  constructor
  · rintro ⟨x, hx, ha⟩
    obtain ⟨t, ht⟩ := List.mem_iff_getElem?.mp hx
    exact ⟨t, x, by rwa [← Array.getElem?_toList], ha⟩
  · rintro ⟨t, x, ht, ha⟩
    exact ⟨x, List.mem_iff_getElem?.mpr ⟨t, by rwa [Array.getElem?_toList]⟩, ha⟩

theorem mem_gatherOthers {u : Nat} {a : α} (h : r.threads[u]? = some x) (hut : u ≠ t)
    (ha : a ∈ g x) : a ∈ r.gatherOthers g t := by
  refine List.mem_flatMap.mpr ⟨x, ?_, ha⟩
  exact List.mem_eraseIdx_iff_getElem?.mpr ⟨u, hut, by rwa [Array.getElem?_toList]⟩

theorem gather_perm (h : r.threads[t]? = some x) :
    (r.gather g).Perm (g x ++ r.gatherOthers g t) := by
  obtain ⟨hlt, rfl⟩ := Array.getElem?_eq_some_iff.mp h
  have hperm := List.getElem_cons_eraseIdx_perm (l := r.threads.toList) (n := t)
    (by rwa [Array.length_toList])
  exact (hperm.flatMap_right g).symm

theorem gather_put_perm (h : r.threads[t]? = some x) (y : Thread) :
    ((r.put t y).gather g).Perm (g y ++ r.gatherOthers g t) := by
  have hlt := (Array.getElem?_eq_some_iff.mp h).1
  have hput : (r.put t y).threads[t]? = some y := by
    rw [put, Array.getElem?_setIfInBounds_self_of_lt hlt]
  have hothers : (r.put t y).gatherOthers g t = r.gatherOthers g t := by
    rw [gatherOthers, gatherOthers, put, Array.toList_setIfInBounds, List.eraseIdx_set_eq]
  rw [← hothers]
  exact gather_perm hput

end Gather

/-! ### Turns -/

/-- A turn puts one thread in the place of the running one. -/
theorem threads_settle (r : Roster) (t : Nat) (x : Turn) :
    (r.settle t x).threads = (r.put t x.thread).threads := by
  cases x <;> rfl

theorem getElem?_settle_ne {u : Nat} (x : Turn) (h : u ≠ t) :
    (r.settle t x).threads[u]? = r.threads[u]? := by
  rw [threads_settle, put, Array.getElem?_setIfInBounds_ne (Ne.symm h)]

theorem getElem?_settle_self {y : Thread} (h : r.threads[t]? = some y) (x : Turn) :
    (r.settle t x).threads[t]? = some x.thread := by
  have hlt := (Array.getElem?_eq_some_iff.mp h).1
  rw [threads_settle, put, Array.getElem?_setIfInBounds_self_of_lt hlt]

theorem All.settle {Q : Focus → List Frame → Prop} (h : r.All Q) (t : Nat) {x : Turn}
    (hx : x.Leaves Q) : (r.settle t x).All Q := by
  intro u f fs hu
  rw [threads_settle, put, Array.getElem?_setIfInBounds] at hu
  split at hu
  · split at hu
    · exact hx.thread (Option.some.inj hu)
    · cases hu
  · exact h u f fs hu

theorem All.of_threads {Q : Focus → List Frame → Prop} {r' : Roster} (h : r.All Q)
    (ht : r'.threads = r.threads) : r'.All Q := fun t f fs hu => h t f fs (ht ▸ hu)

theorem All.spawn {Q : Focus → List Frame → Prop} (h : r.All Q) {c : Call} (hc : Q (.call c) []) :
    (r.spawn c).All Q := by
  intro t f fs ht
  simp only [Roster.spawn, Array.getElem?_push] at ht
  split at ht
  · cases ht
    exact hc
  · exact h t f fs ht

theorem threads_dispatch (r : Roster) : r.dispatch.threads = r.threads := by
  rw [dispatch.eq_def]
  split
  · rfl
  · rfl

theorem threads_wakeGetter (r : Roster) : r.wakeGetter.threads = r.threads := by
  rw [wakeGetter]
  split
  · rfl
  · rfl

/-! ### Threads at rest -/

/-- A call that has not begun, or a thread that sleeps or waits. -/
def Rests (f : Focus) (fs : List Frame) : Prop := f = .resumed ∨ ∃ c, f = .call c ∧ fs = []

/-- All threads but the running one rest. -/
def Rested (r : Roster) : Prop :=
  ∀ (t : Nat) (f : Focus) (fs : List Frame),
    r.threads[t]? = some (.active f fs) → r.running ≠ some t → Rests f fs

/-- Thread `t` is under way. -/
def Active (r : Roster) (t : Nat) : Prop :=
  ∃ (f : Focus) (fs : List Frame), r.threads[t]? = some (.active f fs)

/-- Who is running, ready or waiting is under way, and nobody is so twice. -/
structure Queued (r : Roster) : Prop where
  nodup : (r.running.toList ++ (r.ready ++ r.getters)).Nodup
  active : ∀ t ∈ r.running.toList ++ (r.ready ++ r.getters), r.Active t

/-- A roster in order. -/
structure Orderly (r : Roster) : Prop where
  rested : r.Rested
  queued : r.Queued

theorem Rested.settle (h : r.Rested) (hr : r.running = some t) (x : Turn) :
    (r.settle t x).Rested := by
  intro u f fs hu hne
  by_cases hut : u = t
  · subst hut
    -- the thread that was running is so no longer
    have hx : x.Leaves Rests := by
      cases x with
      | go => exact absurd hr hne
      | sleep => exact .inl rfl
      | await => exact .inl rfl
      | done => trivial
    rw [threads_settle, put, Array.getElem?_setIfInBounds, if_pos rfl] at hu
    split at hu
    · exact hx.thread (Option.some.inj hu)
    · cases hu
  · rw [getElem?_settle_ne x hut] at hu
    refine h u f fs hu fun heq => hut ?_
    exact Option.some.inj (heq.symm.trans hr)

theorem Active.settle {u : Nat} (h : r.Active u) {x : Turn} (hx : u = t → ∀ o, x ≠ .done o) :
    (r.settle t x).Active u := by
  obtain ⟨f, fs, hu⟩ := h
  by_cases hut : u = t
  · subst hut
    have hlt := (Array.getElem?_eq_some_iff.mp hu).1
    cases x with
    | done o => exact absurd rfl (hx rfl o)
    | go f fs => exact ⟨f, fs, Array.getElem?_setIfInBounds_self_of_lt hlt⟩
    | sleep fs => exact ⟨.resumed, fs, Array.getElem?_setIfInBounds_self_of_lt hlt⟩
    | await fs => exact ⟨.resumed, fs, Array.getElem?_setIfInBounds_self_of_lt hlt⟩
  · exact ⟨f, fs, (getElem?_settle_ne x hut).trans hu⟩

/-- Threads that are not taken out of the queues stay under way. -/
theorem Queued.of_perm {r' : Roster} (h : r.Queued)
    (hp : (r'.running.toList ++ (r'.ready ++ r'.getters)).Perm
      (r.running.toList ++ (r.ready ++ r.getters)))
    (hactive : ∀ u, r.Active u → r'.Active u) : r'.Queued :=
  ⟨hp.nodup_iff.mpr h.nodup, fun u hu => hactive u (h.active u (hp.mem_iff.mp hu))⟩

theorem Queued.settle (h : r.Queued) (hr : r.running = some t) (x : Turn) :
    (r.settle t x).Queued := by
  cases x with
  | go f fs => exact h.of_perm (.refl _) fun u hu => hu.settle (by simp)
  | sleep fs =>
    refine h.of_perm ?_ fun u hu => hu.settle (by simp)
    simp only [Roster.settle, put, hr, Option.toList_none, Option.toList_some, List.nil_append]
    rw [List.append_assoc]
    exact List.perm_middle
  | await fs =>
    refine h.of_perm ?_ fun u hu => hu.settle (by simp)
    simp only [Roster.settle, put, hr, Option.toList_none, Option.toList_some, List.nil_append]
    rw [← List.append_assoc]
    exact List.perm_append_comm
  | done o =>
    have hnodup := h.nodup
    rw [hr] at hnodup
    obtain ⟨hnot, hrest⟩ := List.nodup_cons.mp hnodup
    refine ⟨hrest, fun u hu => ?_⟩
    exact (h.active u (List.mem_append_right _ hu)).settle fun heq => absurd hu (heq ▸ hnot)

theorem Orderly.settle (h : r.Orderly) (hc : r.current? = some (t, f, fs)) (x : Turn) :
    (r.settle t x).Orderly := by
  obtain ⟨hr, -⟩ := current?_eq_some_iff.mp hc
  exact ⟨h.rested.settle hr x, h.queued.settle hr x⟩

/-- The thread whose turn it is has something to do. -/
theorem Queued.running_eq_none (h : r.Queued) (hc : r.current? = none) : r.running = none := by
  cases hr : r.running with
  | none => rfl
  | some t =>
    obtain ⟨f, fs, ht⟩ := h.active t (by rw [hr]; exact List.mem_cons_self ..)
    rw [current?_eq_some_iff.mpr ⟨hr, ht⟩] at hc
    cases hc

theorem Orderly.dispatch (h : r.Orderly) : r.dispatch.Orderly := by
  rw [Roster.dispatch.eq_def]
  split
  next t ready hr hready =>
    refine ⟨fun u f fs hu _ => h.rested u f fs hu (by rw [hr]; exact fun h => by cases h),
      h.queued.of_perm ?_ fun _ hu => hu⟩
    rw [hr, hready]
    exact .refl _
  next => exact h

theorem Orderly.wakeGetter (h : r.Orderly) : r.wakeGetter.Orderly := by
  rw [Roster.wakeGetter]
  split
  next => exact h
  next t getters hg =>
    refine ⟨h.rested, h.queued.of_perm ?_ fun _ hu => hu⟩
    rw [hg]
    simp

theorem Active.spawn {u : Nat} (h : r.Active u) (c : Call) : (r.spawn c).Active u := by
  obtain ⟨f, fs, hu⟩ := h
  have hlt := (Array.getElem?_eq_some_iff.mp hu).1
  refine ⟨f, fs, ?_⟩
  rw [Roster.spawn, Array.getElem?_push, if_neg (Nat.ne_of_lt hlt), hu]

theorem Orderly.spawn (h : r.Orderly) (c : Call) : (r.spawn c).Orderly := by
  refine ⟨fun u f fs hu hne => ?_, ?_, fun u hu => ?_⟩
  · simp only [Roster.spawn, Array.getElem?_push] at hu
    split at hu
    · cases hu
      exact .inr ⟨c, rfl, rfl⟩
    · exact h.rested u f fs hu hne
  · -- the number of the new thread is beyond all others
    have hnew : r.threads.size ∉ r.running.toList ++ (r.ready ++ r.getters) := by
      intro hm
      obtain ⟨f, fs, ht⟩ := h.queued.active _ hm
      exact Nat.lt_irrefl _ (Array.getElem?_eq_some_iff.mp ht).1
    have hperm : ((r.spawn c).running.toList ++ ((r.spawn c).ready ++ (r.spawn c).getters)).Perm
        (r.threads.size :: (r.running.toList ++ (r.ready ++ r.getters))) := by
      simp only [Roster.spawn, List.append_assoc, List.singleton_append]
      exact (List.perm_middle.append_left _).trans List.perm_middle
    exact hperm.nodup_iff.mpr (List.nodup_cons.mpr ⟨hnew, h.queued.nodup⟩)
  · by_cases hnew : u = r.threads.size
    · subst hnew
      exact ⟨.call c, [], by simp [Roster.spawn]⟩
    · refine (h.queued.active u ?_).spawn c
      simp only [Roster.spawn, List.mem_append, List.mem_singleton] at hu ⊢
      tauto

theorem orderly_empty : ({} : Roster).Orderly :=
  ⟨fun t f fs h => (by simp at h), by simp, fun t h => (by simp at h)⟩

end Roster

/-! ### Runs -/

namespace Scheduler

variable {s : Scheduler} {A : Move → Prop} {I : Scheduler → Prop} {moves : List Move}

/-- What every move of some kind keeps, every run of such moves keeps. -/
theorem play_keeps (hI : ∀ s x, A x → I s → I (s.move x)) (h : I s) (hA : ∀ x ∈ moves, A x) :
    I (s.play moves) := by
  induction moves generalizing s with
  | nil => exact h
  | cons x rest ih =>
    obtain ⟨hx, hrest⟩ := List.forall_mem_cons.mp hA
    exact ih (hI s x hx h) hrest

theorem advance_of_none (h : s.roster.Orderly) (hc : s.roster.current? = none) :
    s.advance = s := by
  obtain ⟨bench, roster⟩ := s
  have hr := h.queued.running_eq_none hc
  rw [advance, hc]
  simp only [← hr]

theorem advance_of_some {t : Nat} {f : Focus} {fs : List Frame}
    (hc : s.roster.current? = some (t, f, fs)) :
    s.advance = ⟨(s.bench.advance fs f).1, s.roster.settle t (s.bench.advance fs f).2⟩ := by
  obtain ⟨bench, roster⟩ := s
  rw [advance, hc]

theorem orderly_move (h : s.roster.Orderly) (x : Move) : (s.move x).roster.Orderly := by
  cases x with
  | turn =>
    rw [move]
    cases hc : s.roster.current? with
    | none =>
      rw [advance_of_none h hc]
      exact h
    | some c =>
      rw [advance_of_some hc]
      exact h.settle hc _
  | dispatch => exact h.dispatch
  | outside x =>
    rw [move]
    split
    · cases x with
      | spawn c => exact h.spawn c
      | signal g => exact h
      | signalMachine i g =>
        rw [intervene]
        split
        · exact h
        · exact h
      | feed text => exact h.wakeGetter
      | cooperate i on => exact h
      | edit p o => exact h
    · exact h

/-- From outside only a new call changes the threads. -/
theorem threads_intervene {x : Intervention} (hx : ∀ c, x ≠ .spawn c) :
    (s.intervene x).roster.threads = s.roster.threads := by
  cases x with
  | spawn c => exact absurd rfl (hx c)
  | feed text => exact s.roster.threads_wakeGetter
  | signalMachine i g =>
    rw [intervene]
    split
    · rfl
    · rfl
  | signal | cooperate | edit => rfl

/-- A property of threads that calls have when they begin and that every turn keeps. -/
theorem all_move {Q : Focus → List Frame → Prop} {x : Move} (h : s.roster.Orderly)
    (hQ : s.roster.All Q) (hcall : ∀ c, x = .outside (.spawn c) → Q (.call c) [])
    (hturn : x = .turn → ∀ t f fs, s.roster.current? = some (t, f, fs) →
      (s.bench.advance fs f).2.Leaves Q) : (s.move x).roster.All Q := by
  cases x with
  | turn =>
    rw [move]
    cases hc : s.roster.current? with
    | none => rwa [advance_of_none h hc]
    | some c =>
      rw [advance_of_some hc]
      exact hQ.settle _ (hturn rfl _ _ _ hc)
  | dispatch => exact hQ.of_threads s.roster.threads_dispatch
  | outside z =>
    rw [move]
    split
    · cases z with
      | spawn c => exact hQ.spawn (hcall c rfl)
      | _ => exact hQ.of_threads (threads_intervene fun _ h => by cases h)
    · exact hQ

end Scheduler
end TapeMachine
