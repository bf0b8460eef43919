import Mathlib.Data.List.Nodup
import TapeMachine.Proofs.Schedule.Layer
import TapeMachine.Proofs.Schedule.Solo

/-! Exclusion.

A machine that is looping has one run loop active on it, a machine that is busy has a run
loop or a step that waits, and nothing is running without a run loop. This holds of every
machine at any time, whoever calls it and however calls end, as long as calls are on
machines that are there (`Scheduler.Governed`). -/
namespace TapeMachine

/-- The machine that a call is on. -/
def Call.machine? : Call → Option Nat
  | .step i | .run i | .resume i => some i
  | .sessionStart | .sessionStep => none

/-- What a thread does next is a call on one of the first `n` machines, if it is a call on a
machine. -/
def Focus.Within (n : Nat) (f : Focus) : Prop := ∀ c i, f = .call c → c.machine? = some i → i < n

theorem Call.Runs.machine? {c : Call} {i : Nat} (h : c.Runs i) : c.machine? = some i := by
  rcases h with rfl | rfl <;> rfl

/-- A thread goes on in its turn, unless it sleeps or waits. -/
theorem Turn.eq_of_thread {x : Turn} {f : Focus} {fs : List Frame}
    (h : x.thread = .active f fs) (hf : f ≠ .resumed) : x = .go f fs := by
  cases x with
  | go =>
    cases h
    rfl
  | sleep | await =>
    cases h
    exact absurd rfl hf
  | done o => cases h

namespace Bench
variable {b b' : Bench} {f : Focus} {fs : List Frame} {x : Turn} {i : Nat}

/-- A run loop begins in a call only. -/
theorem Yields.mem_runs (h : b.Yields f fs b' x) (hi : i ∈ runs x.frames) :
    i ∈ runs fs ∨ ∃ c, f = .call c ∧ c.Runs i := by
  cases h with
  | enters j hc _ =>
    rcases List.mem_cons.mp hi with rfl | hi
    · exact .inr ⟨_, rfl, hc⟩
    · exact .inl hi
  | stops | breaks => exact .inl (List.mem_cons_of_mem _ hi)
  | awaits j epoch y he hy => rcases hy with rfl | ⟨deeds, answer, rfl⟩ <;> exact .inl hi
  | fails j e hy | settles j v s hy => rcases hy with rfl | rfl <;> exact .inl hi
  | _ => exact .inl hi

/-- A turn ends with a call on the machine of a run loop, on the machine of the session, or on
machine 0 by a source. -/
theorem Yields.machine_of_call (h : b.Yields f fs b' x) (hf : f.Fits fs) {c : Call}
    {fs' : List Frame} (hx : x = .go (.call c) fs') (hi : c.machine? = some i) :
    (.looping i ∈ fs ∧ b' = b ∧ b.holds i Machine.goesOn = true) ∨ b.Engaged b' i ∨
      (i = 0 ∧ readings fs ≠ [] ∧ b' = b ∧ ∃ v gs, fs' = .calling v :: gs) := by
  cases h with
  | starts j hc he =>
    cases hx
    cases hc.machine?.symm.trans hi
    exact .inr (.inl he)
  | begins j he =>
    cases hx
    cases hi
    exact .inr (.inl he)
  | next j hg =>
    cases hx
    cases hi
    exact .inl ⟨List.mem_cons_self, rfl, hg⟩
  | calls v deeds answer =>
    cases hx
    refine .inr (.inr ⟨?_, ?_, rfl, v, _, rfl⟩)
    on_goal 2 =>
      cases hf
      exact List.cons_ne_nil _ _
    cases v with
    | step =>
      rw [callOf] at hi
      split at hi
      · cases hi
      · exact (Option.some.inj hi).symm
    | run | resume => exact (Option.some.inj hi).symm
    | start => cases hi
  | _ => cases hx

/-- A step that a run loop calls is called because the loop goes on. -/
theorem Yields.goesOn {rest : List Frame} (h : b.Yields f fs b' x)
    (hx : x = .go (.call (.step i)) (.looping i :: rest)) :
    b'.holds i Machine.goesOn = true := by
  cases h with
  | next j hg =>
    cases hx
    exact hg
  | calls v deeds answer => exact absurd (congrArg Turn.frames hx) nofun
  | _ => cases hx

end Bench

namespace Scheduler
variable {s s₀ : Scheduler} {x : Move} {moves : List Move} {i : Nat} {m m' : Machine}

/-- The surroundings call no machine but one that is there. -/
def Addresses (s : Scheduler) : Move → Prop
  | .outside (.spawn c) => ∀ i ∈ c.machine?, i < s.bench.machines.size
  | _ => True

instance (s : Scheduler) : DecidablePred s.Addresses
  | .outside (.spawn c) => inferInstanceAs (Decidable (∀ i ∈ c.machine?, _))
  | .outside (.signal _) | .outside (.signalMachine _ _) | .outside (.feed _)
  | .outside (.cooperate _ _) | .outside (.edit _ _) | .turn | .dispatch => .isTrue trivial

/-- Calls are on machines that are there, and machines know of the run loops and steps that
are active on them. -/
structure Governed (s : Scheduler) : Prop where
  sound : s.Sound
  orderly : s.roster.Orderly
  layers : s.roster.All Focus.Layers
  looped : s.Looped
  running : ∀ i m, s.bench.machine? i = some m → m.running = true → m.looping = true
  calls : s.roster.All fun f _ => f.Within s.bench.machines.size
  runs : ∀ i ∈ s.roster.runs, i < s.bench.machines.size
  /-- Nothing comes between the look of a run loop whether it goes on and its next step. -/
  going : ∀ (t i : Nat) (rest : List Frame),
    s.roster.threads[t]? = some (.active (.call (.step i)) (.looping i :: rest)) →
      s.bench.holds i Machine.goesOn = true

/-! ### Moves -/

namespace Governed
variable (h : s.Governed)
include h

theorem flipped (x : Move) : Flipped s x (s.move x) :=
  move_flipped h.sound h.looped (fun _ hm => Nat.lt_irrefl _ (h.runs _ hm)) x

theorem yields {t : Nat} {f : Focus} {fs : List Frame}
    (hc : s.roster.current? = some (t, f, fs)) :
    s.bench.Yields f fs (s.bench.advance fs f).1 (s.bench.advance fs f).2 :=
  Bench.advance_yields (h.sound.fits t f fs (Roster.current?_eq_some_iff.mp hc).2) s.bench

theorem layers_of_current {t : Nat} {f : Focus} {fs : List Frame}
    (hc : s.roster.current? = some (t, f, fs)) : f.Layers fs :=
  h.layers t f fs (Roster.current?_eq_some_iff.mp hc).2

theorem size_pos_of_reading {t : Nat} {f : Focus} {fs : List Frame}
    (ht : s.roster.threads[t]? = some (.active f fs)) (hr : readings fs ≠ []) :
    0 < s.bench.machines.size := by
  obtain ⟨⟨i, epoch⟩, hmem⟩ := List.exists_mem_of_ne_nil _ hr
  have hheld : (i, epoch) ∈ s.roster.readings := Roster.mem_gather_iff.mpr ⟨t, _, ht, hmem⟩
  obtain ⟨m, hm, -⟩ := h.sound.held.awaits i epoch hheld
  obtain ⟨n, hn, -⟩ := Bench.exists_of_getElem?_bare hm
  exact Nat.lt_of_le_of_lt (Nat.zero_le i) (Bench.lt_size_of_machine? hn)

/-- The call that a turn ends with is on a machine that is there after it. -/
theorem within_advance {t : Nat} {f : Focus} {fs : List Frame}
    (hc : s.roster.current? = some (t, f, fs)) :
    (s.bench.advance fs f).2.Leaves fun f _ => f.Within s.advance.bench.machines.size := by
  obtain ⟨-, ht⟩ := Roster.current?_eq_some_iff.mp hc
  have hfits := h.sound.fits t f fs ht
  have hyields := h.yields hc
  have hsize : s.bench.machines.size ≤ s.advance.bench.machines.size := size_le_move h.sound .turn
  have hbench : s.advance.bench = (s.bench.advance fs f).1 := by rw [advance_of_some hc]
  have hwithin : ∀ c fs' i, (s.bench.advance fs f).2 = .go (.call c) fs' → c.machine? = some i →
      i < s.advance.bench.machines.size := by
    intro c fs' i hx hi
    rcases hyields.machine_of_call hfits hx hi with ⟨hl, -⟩ |
      (⟨⟨x, hx, hcur⟩, -⟩ | ⟨rfl, hz⟩) | ⟨rfl, hr, -⟩
    · exact Nat.lt_of_lt_of_le (h.runs i (Roster.mem_runs ht hl)) hsize
    · exact Nat.lt_of_lt_of_le (h.sound.manned.current x i hx hcur) hsize
    · rw [hbench, hz]
      exact Nat.lt_succ_self _
    · exact Nat.lt_of_lt_of_le (h.size_pos_of_reading ht hr) hsize
  cases hx : (s.bench.advance fs f).2 with
  | go f' fs' =>
    rintro c i rfl hi
    exact hwithin c fs' i hx hi
  | sleep | await => exact nofun
  | done => trivial

theorem runs_move (x : Move) :
    ∀ i ∈ (s.move x).roster.runs, i < (s.move x).bench.machines.size := by
  intro i hi
  have hsize := size_le_move h.sound x
  obtain ⟨t, y, ht, hmem⟩ := Roster.mem_gather_iff.mp hi
  cases y with
  | finished o => cases hmem
  | active f fs =>
    refine Nat.lt_of_lt_of_le ?_ hsize
    cases comes_of_move h.orderly ht with
    | stays ht₀ _ => exact h.runs i (Roster.mem_runs ht₀ ((mem_runs_iff fs).mp hmem))
    | spawned c _ heq =>
      cases heq
      cases hmem
    | turns f₀ fs₀ _ hc _ heq =>
      obtain ⟨-, ht₀⟩ := Roster.current?_eq_some_iff.mp hc
      have hframes := Turn.frames_of_thread heq.symm
      rw [show Thread.frames (.active f fs) = fs from rfl, ← hframes] at hmem
      rcases (Bench.advance_yields (h.sound.fits t f₀ fs₀ ht₀) s.bench).mem_runs hmem with
        hl | ⟨c, rfl, hruns⟩
      · exact h.runs i (Roster.mem_runs ht₀ ((mem_runs_iff fs₀).mp hl))
      · exact h.calls t _ _ ht₀ c i rfl hruns.machine?

theorem going_move (x : Move) {t : Nat} {rest : List Frame}
    (ht : (s.move x).roster.threads[t]? = some (.active (.call (.step i)) (.looping i :: rest))) :
    (s.move x).bench.holds i Machine.goesOn = true := by
  cases comes_of_move h.orderly ht with
  | stays ht₀ hrun =>
    have hr : s.roster.running = some t := by
      by_contra hne
      rcases h.orderly.rested t _ _ ht₀ hne with hf | ⟨c, -, hnil⟩
      · cases hf
      · cases hnil
    rw [hrun hr]
    exact h.going t i rest ht₀
  | spawned c _ heq => cases heq
  | turns f fs _ hc hmove heq =>
    rw [hmove]
    exact (h.yields hc).goesOn (Turn.eq_of_thread heq.symm nofun)

theorem move (hx : s.Addresses x) : (s.move x).Governed := by
  have hflipped := h.flipped x
  have hsize := size_le_move h.sound x
  refine ⟨(move_moved h.sound x).sound, orderly_move h.orderly x, ?_, hflipped.looped, ?_, ?_,
    h.runs_move x, fun t i rest => h.going_move x⟩
  · refine all_move h.orderly h.layers (fun c _ => Layered.nil.call) fun _ t f fs hc => ?_
    obtain ⟨-, ht⟩ := Roster.current?_eq_some_iff.mp hc
    exact (Bench.advance_yields (h.sound.fits t f fs ht) s.bench).layers (h.layers t f fs ht)
  · intro i m' hm' hr
    have hy : (s.move x).bench.flags? i = some m'.flags := by rw [Bench.flags?, hm']; rfl
    cases hm : s.bench.machine? i with
    | none =>
      have hflags := hflipped.fresh i _ (by rw [Bench.flags?, hm]; rfl) hy
      rw [show m'.running = m'.flags.running from rfl, hflags] at hr
      cases hr
    | some m =>
      obtain ⟨y, hy', hflips, -⟩ := hflipped.flips i m.flags (by rw [Bench.flags?, hm]; rfl)
      obtain rfl := Option.some.inj (hy'.symm.trans hy)
      rcases (hflips.running hr).2 with ⟨hr₀, hl⟩ | ⟨-, hl⟩
      · exact hl.trans (h.running i m hm hr₀)
      · exact hl
  · refine all_move h.orderly (fun t f fs ht c i hf hi => ?_) (fun c hc d i hd hi => ?_) ?_
    · exact Nat.lt_of_lt_of_le (h.calls t f fs ht c i hf hi) hsize
    · cases hd
      subst hc
      exact Nat.lt_of_lt_of_le (hx i hi) hsize
    · rintro rfl t f fs hc
      exact h.within_advance hc

theorem play (hx : s.Along Addresses moves) : (s.play moves).Governed := by
  induction moves generalizing s with
  | nil => exact h
  | cons x rest ih => exact ih (h.move hx.1) hx.2

end Governed

theorem Starts.governed (hs : s₀.Starts) : s₀.Governed := by
  have hroster : s₀.roster = {} := by cases hs <;> rfl
  have hflags : ∀ i m, s₀.bench.machine? i = some m → m.flags = ⟨false, false, false, 0⟩ := by
    intro i m hm
    cases hs with
    | machine hb =>
      obtain ⟨m₀, hmachines, h₀, -⟩ := Solo.of_make hb
      rw [Bench.machine?, hmachines] at hm
      cases i with
      | zero =>
        cases hm
        exact h₀.flags
      | succ i => cases hm
    | session h => cases hm
  refine ⟨hs.sound, ?_, ?_, fun i x hx => ?_, fun i m hm hr => ?_, ?_, ?_, fun t i rest ht => ?_⟩
  · rw [hroster]
    exact Roster.orderly_empty
  · rw [hroster]
    intro t f fs ht
    cases ht
  · obtain ⟨m, hm, rfl⟩ := Option.map_eq_some_iff.mp hx
    rw [hroster, hflags i m hm]
    rfl
  · rw [show m.running = m.flags.running from rfl, hflags i m hm] at hr
    cases hr
  · rw [hroster]
    intro t f fs ht
    cases ht
  · rw [hroster]
    intro i hi
    cases hi
  · rw [hroster] at ht
    cases ht

theorem play_governed (hs : s₀.Starts) (ha : s₀.Along Addresses moves) : (s₀.play moves).Governed :=
  hs.governed.play ha

/-! ### One machine -/

/-- What machine `i` knows of its callers. -/
structure Exclusive (s : Scheduler) (i : Nat) (m : Machine) : Prop where
  /-- One call at most is in its run loop. -/
  loops : s.roster.runs.count i ≤ 1
  looping : m.looping = true ↔ i ∈ s.roster.runs
  /-- One step at most waits for the source. -/
  steps : (s.roster.readings.map Prod.fst).count i ≤ 1
  busy : m.busy = true ↔ i ∈ s.roster.runs ∨ i ∈ s.roster.readings.map Prod.fst
  running : m.running = true → m.looping = true
  /-- After the last call, however it ended. -/
  ended : (∀ t, t < s.roster.threads.size → (s.outcome? t).isSome) →
    m.looping = false ∧ m.busy = false ∧ m.running = false

theorem Governed.exclusive (h : s.Governed) (hm : s.bench.machine? i = some m) :
    s.Exclusive i m := by
  have hcount : s.roster.runs.count i = m.looping.toNat :=
    h.looped i m.flags (by rw [Bench.flags?, hm]; rfl)
  have hlooping : m.looping = true ↔ i ∈ s.roster.runs := by
    rw [← List.count_pos_iff, hcount]
    cases m.looping <;> simp
  have hstepping : m.stepping = true ↔ i ∈ s.roster.readings.map Prod.fst := by
    rw [← h.sound.held.waiting i, Waiting.iff_of (Bench.getElem?_bare_of hm)]
    rfl
  have hbusy : m.busy = true ↔ i ∈ s.roster.runs ∨ i ∈ s.roster.readings.map Prod.fst := by
    rw [Machine.busy, Bool.or_eq_true, hlooping, hstepping]
  refine ⟨hcount ▸ Bool.toNat_le _, hlooping, ?_, hbusy, h.running i m hm, fun hended => ?_⟩
  · exact List.nodup_iff_count_le_one.mp h.sound.held.nodup i
  · have hover : ∀ t, ¬ s.Underway t := by
      rintro t ⟨f, fs, ht, -⟩
      have hsome := hended t (Array.getElem?_eq_some_iff.mp ht).1
      rw [outcome?, ht] at hsome
      cases hsome
    have hidle : m.looping = false := by
      rw [Bool.eq_false_iff, Ne, hlooping, runs_of_ended hover]
      exact List.not_mem_nil
    refine ⟨hidle, ?_, ?_⟩
    · rw [Bool.eq_false_iff, Ne, hbusy, runs_of_ended hover, readings_of_ended hover]
      simp
    · rw [Bool.eq_false_iff]
      intro hr
      rw [h.running i m hm hr] at hidle
      cases hidle

/-- At any time, whoever calls a machine and however calls end, one run loop at most is
active on it and one step of it at most waits, and the machine knows exactly whether they
do. -/
theorem play_excludes (hs : s₀.Starts) (ha : s₀.Along Addresses moves)
    (hm : (s₀.play moves).bench.machine? i = some m) : (s₀.play moves).Exclusive i m :=
  (play_governed hs ha).exclusive hm

/-- A run loop waits for text while another call on the machine is refused. -/
theorem play_excludes_waiting : ∃ b s m,
    Bench.make {source := some (.queue [])} ⟨#[',']⟩ {memorySize := .integer 2} = .ok b ∧
      s = ({bench := b} : Scheduler).play (Move.alone (.run 0) 4 ++ Move.alone (.step 0) 2) ∧
      s.bench.machine? 0 = some m ∧ m.looping = true ∧ m.stepping = true ∧
      s.outcome? 1 = some (.error (.reentrantStep 0)) ∧ s.Exclusive 0 m := by
  have hb : Bench.make {source := some (.queue [])} ⟨#[',']⟩ {memorySize := .integer 2} =
      .ok _ := rfl
  exact ⟨_, _, _, hb, rfl, rfl, rfl, rfl, rfl, play_excludes (.machine hb) (by decide) rfl⟩

end Scheduler
end TapeMachine
