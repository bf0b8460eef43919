import TapeMachine.Proofs.Session.Access

/-! Steps that get in each other's way.

A call on a session ends with the failure about a step that waits exactly where a start
clashes with a single step: without such a clash no call ever ends so, and a start that
clashes ends so at once (`play_exclusive`). -/
namespace TapeMachine

namespace Bench
variable {b : Bench} {i : Nat} {m : Machine}

/-- A start on a paused session looks for a run loop. -/
theorem callStart_of_paused {x : Session} (hx : b.session = some x) (hp : x.phase = .paused)
    (hi : x.current = some i) (hm : b.machine? i = some m) (hl : m.looping = false)
    (fs : List Frame) : b.callStart fs =
      (b.putSession {x with phase := .running}, .go (.call (.resume i)) (.starting i :: fs)) := by
  obtain ⟨program, options, phase, current, last⟩ := x
  obtain rfl : phase = .paused := hp
  obtain rfl : current = some i := hi
  have hholds : (b.putSession ⟨program, options, .running, some i, last⟩).holds i (·.looping) =
      false := by
    rw [holds, show (b.putSession _).machine? i = some m from hm]
    exact hl
  simp only [callStart, hx, hholds, Bool.false_eq_true, if_false]

/-- A machine that is paused, and not looping, begins to run. -/
theorem callResume_of_paused (hm : b.machine? i = some m) (hp : m.paused = true)
    (hl : m.looping = false) (fs : List Frame) : b.callResume i fs =
      ((b.update i Machine.unpause).update i Machine.enterLoop,
        .go .resumed (.looping i :: fs)) := by
  have hpaused : b.holds i (·.paused) = true := by
    rw [holds, hm]
    exact hp
  have hlooping : (b.update i Machine.unpause).holds i (·.looping) = false := by
    rw [holds, machine?_update_self hm]
    exact hl
  simp only [callResume, hpaused, callRun, hlooping, Bool.false_eq_true, if_true, if_false]

end Bench

namespace Scheduler

variable {P : Failure → Prop} {W : Nat → Prop} {s : Scheduler}

theorem advance_go {t : Nat} {f f' : Focus} {fs fs' : List Frame} {b' : Bench}
    (hc : s.roster.current? = some (t, f, fs)) (he : s.bench.advance fs f = (b', .go f' fs')) :
    s.advance.bench = b' ∧ s.advance.roster.current? = some (t, f', fs') := by
  rw [advance_of_some hc, he]
  exact ⟨rfl, Roster.current?_settle_go hc f' fs'⟩

/-- A start that clashes with a single step resumes the machine, and the first step of the
run loop is refused. -/
theorem Clashes.ends (h : s.Attended P W) (hs : s.Clashes) :
    ∃ n, (s.play (List.replicate 6 .turn)).Ends (.error (.reentrantStep n)) := by
  obtain ⟨t, fs, i, hc, x, m, hx, hphase, hi, hm, hstepping, hlooping⟩ := hs
  obtain ⟨-, hthread⟩ := Roster.current?_eq_some_iff.mp hc
  have hserved : Served P none fs := by
    cases h.serves t _ _ hthread with
    | call _ hs => exact hs
  have hpaused : m.paused = true := by
    have hagrees : s.bench.Agrees W := h.phased t _ _ hc
    obtain ⟨n, -, hn, hagree⟩ := hagrees.sessionMachine? hx hi
    obtain rfl := Option.some.inj (hm.symm.trans hn)
    rw [hphase] at hagree
    exact Flags.phase_eq_paused.mp (hagree.resolve_right fun hrun => by cases hrun.1).symm
  obtain ⟨hb₁, hc₁⟩ := advance_go hc (Bench.callStart_of_paused hx hphase hi hm hlooping fs)
  have hm₁ : s.advance.bench.machine? i = some m := by
    rw [hb₁]
    exact hm
  obtain ⟨hb₂, hc₂⟩ := advance_go hc₁ (Bench.callResume_of_paused hm₁ hpaused hlooping _)
  have hm₂ : s.advance.advance.bench.machine? i = some m.unpause.enterLoop := by
    rw [hb₂]
    exact Bench.machine?_update_self (Bench.machine?_update_self hm₁ _) _
  have hgoes : s.advance.advance.bench.holds i Machine.goesOn = true := by
    rw [Bench.holds, hm₂]
    rfl
  obtain ⟨hb₃, hc₃⟩ := advance_go hc₂ (if_pos hgoes)
  have hm₃ : s.advance.advance.advance.bench.machine? i = some m.unpause.enterLoop := by
    rw [hb₃]
    exact hm₂
  obtain ⟨-, hc₄⟩ := advance_go hc₃ (Bench.advance_of_stepping hm₃ hstepping _)
  -- the failure passes through the run loop to the start
  obtain ⟨-, hc₅⟩ := advance_go hc₄ rfl
  obtain ⟨-, hc₆⟩ := advance_go hc₅ rfl
  exact ⟨_, t, fs, hc₆, hserved.outermost⟩

/-- With callbacks that fail with failures of their own, no call on a session ever ends with
the failure about a step that waits, unless a start was called on the paused session while
a single step of its machine waited; and such a start always ends so. -/
theorem play_exclusive (p : Program) (o : Options) (source : Option Source) (sink : Option Sink)
    (moves : List Move) (hsource : ∀ x, source = some x → x.OfSession fun e => ¬ e.Reentrant)
    (hsink : ∀ x, sink = some x → x.OfSession fun e => ¬ e.Reentrant)
    (hmoves : ∀ x ∈ moves, x.OfSession) :
    let s := (ofSession p o source sink).play moves
    ((∀ before, before <+: moves → ¬ ((ofSession p o source sink).play before).Clashes) →
      ∀ n, ¬ s.Ends (.error (.reentrantStep n))) ∧
    (s.Clashes → ∃ n, (s.play (List.replicate 6 .turn)).Ends (.error (.reentrantStep n))) := by
  intro s
  refine ⟨fun hfree n ⟨t, fs, hc, hfs⟩ => ?_, fun hs => ?_⟩
  · have hsecured := play_secured (fun _ => id) (secured_ofSession hsource hsink) hmoves hfree
    obtain ⟨-, ht⟩ := Roster.current?_eq_some_iff.mp hc
    have hfails : Fails (fun e => ¬ e.Reentrant) (.error (.reentrantStep n) : Outcome) := by
      cases hsecured.attended.serves t _ _ ht with
      | stepped _ ho _ | started _ ho _ | returned ho _ => exact ho
    exact hfails _ rfl trivial
  · refine hs.ends (attended_play p o source sink moves (fun x hx => ?_) hmoves)
    cases x with
    | scripted reply =>
      intro n
      have hreply := hsource _ hx n
      cases hr : reply n with
      | now signals answer => exact fun _ _ => trivial
      | later deeds answer =>
        rw [hr] at hreply
        exact ⟨hreply.1, fun _ _ => trivial⟩
    | fixed | queue | lines => trivial

/-- A start is about to be called. -/
def starts (s : Scheduler) : Bool :=
  match s.roster.current? with
  | some (_, .call .sessionStart, _) => true
  | _ => false

theorem Clashes.starts (h : s.Clashes) : s.starts = true := by
  obtain ⟨t, fs, i, hc, -⟩ := h
  rw [Scheduler.starts, hc]

/-- A second single step, called while the first one waits, is not refused by the machine. -/
theorem play_exclusive_steps :
    ¬ ((ofSession ⟨#[',']⟩ {memorySize := .integer 1} (some (.queue [])) none).play
      (Move.alone .sessionStep 3 ++ Move.alone .sessionStep 1)).Ends
        (.error (.reentrantStep 0)) := by
  refine (play_exclusive _ _ _ _ _ ?_ ?_ ?_).1 (fun before hb hclash => ?_) 0
  · intro x hx
    cases hx
    trivial
  · exact nofun
  · decide
  · have hnone : ∀ k < 9, ((ofSession ⟨#[',']⟩ {memorySize := .integer 1}
        (some (.queue [])) none).play ((Move.alone .sessionStep 3 ++
          Move.alone .sessionStep 1).take k)).starts = false := by decide
    have hfalse := hnone before.length (Nat.lt_succ_of_le hb.length_le)
    rw [← List.prefix_iff_eq_take.mp hb, hclash.starts] at hfalse
    cases hfalse

/-- A run is paused after its first step, a single step waits for text, and a start fails. -/
theorem reentrant_start :
    let s := (ofSession ⟨#['+', ',']⟩ {memorySize := .integer 1} (some (.queue [])) none).play
      (Move.alone .sessionStart 5 ++ .outside (.signal .pause) :: .dispatch ::
        List.replicate 3 .turn ++ Move.alone .sessionStep 3 ++ Move.alone .sessionStart 7)
    s.roster.running = none ∧ s.outcome? 2 = some (.error (.reentrantStep 1)) :=
  ⟨rfl, rfl⟩

end Scheduler
end TapeMachine
