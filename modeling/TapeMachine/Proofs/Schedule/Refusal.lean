import TapeMachine.Proofs.Schedule.Pending

/-! Calls that are refused.

While a step waits for text and no run loop is active on its machine, no other call gets to
execute anything: a step is refused at once, and a run or a resume when it comes to its first
step. The call ends with an error and leaves everything as it was, but for a pause, which a
run has taken back before (`Refuses`). The step that waits comes to what it would have come to
without the call (`Completes`). -/
namespace TapeMachine

/-! ### Threads that have ended -/

namespace Roster
variable {r : Roster} {t u : Nat} {y : Thread} {o : Outcome} {f : Focus} {fs : List Frame}

theorem put_put (r : Roster) (t : Nat) (y z : Thread) : (r.put t y).put t z = r.put t z := by
  rw [put, put, put, Array.setIfInBounds_setIfInBounds]

theorem put_self (h : r.threads[t]? = some y) : r.put t y = r := by
  have hthreads : r.threads.setIfInBounds t y = r.threads := by
    refine Array.ext_getElem? fun u => ?_
    rw [Array.getElem?_setIfInBounds]
    split
    next htu =>
      subst htu
      rw [if_pos (Array.getElem?_eq_some_iff.mp h).1, h]
    next => rfl
  rw [put, hthreads]

theorem put_comm (r : Roster) (y z : Thread) (h : t ≠ u) :
    (r.put t y).put u z = (r.put u z).put t y := by
  simp only [put]
  rw [Array.setIfInBounds_comm _ _ h]

theorem settle_put (r : Roster) (y : Thread) (h : t ≠ u) (x : Turn) :
    (r.put t y).settle u x = (r.settle u x).put t y := by
  cases x with
  | go f fs => exact r.put_comm y _ h
  | sleep fs | await fs | done o =>
    simp only [settle, r.put_comm y _ h]
    rfl

theorem getElem?_put_self (h : r.threads[t]? = some y) (z : Thread) :
    (r.put t z).threads[t]? = some z :=
  Array.getElem?_setIfInBounds_self_of_lt (Array.getElem?_eq_some_iff.mp h).1

theorem getElem?_put_ne (r : Roster) (y : Thread) (h : t ≠ u) :
    (r.put t y).threads[u]? = r.threads[u]? :=
  Array.getElem?_setIfInBounds_ne h

/-- A thread that has ended is not the running one. -/
theorem ne_of_current? (h : r.threads[t]? = some (.finished o))
    (hc : r.current? = some (u, f, fs)) : t ≠ u := by
  rintro rfl
  cases h.symm.trans (current?_eq_some_iff.mp hc).2

theorem current?_put_finished (h : r.threads[t]? = some (.finished o)) (o' : Outcome) :
    (r.put t (.finished o')).current? = r.current? := by
  refine Option.ext fun ⟨u, f, fs⟩ => ?_
  rw [current?_eq_some_iff, current?_eq_some_iff]
  refine and_congr_right' ?_
  by_cases htu : t = u
  · subst htu
    rw [getElem?_put_self h, h]
    exact ⟨nofun, nofun⟩
  · rw [getElem?_put_ne r _ htu]

theorem spawn_put (h : r.threads[t]? = some y) (z : Thread) (c : Call) :
    (r.put t z).spawn c = (r.spawn c).put t z := by
  have hlt := (Array.getElem?_eq_some_iff.mp h).1
  have hlt' : t < (r.threads.push (.active (.call c) [])).size := by
    rw [Array.size_push]
    exact Nat.lt_succ_of_lt hlt
  simp only [spawn, put, Array.setIfInBounds, dif_pos hlt, dif_pos hlt', Array.set_push,
    Array.size_set]

theorem dispatch_put (r : Roster) (t : Nat) (z : Thread) :
    (r.put t z).dispatch = r.dispatch.put t z := by
  obtain ⟨threads, ready, getters, running⟩ := r
  cases running with
  | none => cases ready <;> rfl
  | some u => rfl

theorem wakeGetter_put (r : Roster) (t : Nat) (z : Thread) :
    (r.put t z).wakeGetter = r.wakeGetter.put t z := by
  obtain ⟨threads, ready, getters, running⟩ := r
  cases getters <;> rfl

end Roster

namespace Scheduler
variable {s : Scheduler} {t : Nat} {o : Outcome} {more : List Move}

/-- The same, but thread `t` has ended with another outcome. -/
def ending (s : Scheduler) (t : Nat) (o : Outcome) : Scheduler :=
  {s with roster := s.roster.put t (.finished o)}

theorem intervene_ending (h : s.roster.threads[t]? = some (.finished o)) (o' : Outcome)
    (z : Intervention) : (s.ending t o').intervene z = (s.intervene z).ending t o' := by
  cases z with
  | spawn c => exact congrArg (Scheduler.mk s.bench) (Roster.spawn_put h _ c)
  | feed text => exact congrArg (Scheduler.mk _) (s.roster.wakeGetter_put t _)
  | signalMachine i g =>
    rw [intervene, intervene, apply_ite (ending · t o')]
    rfl
  | signal | cooperate | edit => rfl

theorem move_ending (h : s.roster.threads[t]? = some (.finished o)) (o' : Outcome) (x : Move) :
    (s.ending t o').move x = (s.move x).ending t o' := by
  have hcurrent := Roster.current?_put_finished h o'
  cases x with
  | turn =>
    rw [move, move]
    cases hc : s.roster.current? with
    | none =>
      rw [advance.eq_def, advance.eq_def]
      simp only [ending, hcurrent, hc]
      rfl
    | some c =>
      obtain ⟨u, f, fs⟩ := c
      have hc' : (s.ending t o').roster.current? = some (u, f, fs) := hcurrent.trans hc
      rw [advance_of_some hc, advance_of_some hc']
      exact congrArg (Scheduler.mk _) (s.roster.settle_put _ (Roster.ne_of_current? h hc) _)
  | dispatch => exact congrArg (Scheduler.mk s.bench) (s.roster.dispatch_put t _)
  | outside z =>
    rw [move, move, apply_ite (ending · t o'), ← intervene_ending h]
    rfl

theorem finished_move (ho : s.roster.Orderly) (h : s.roster.threads[t]? = some (.finished o))
    (x : Move) : (s.move x).roster.threads[t]? = some (.finished o) := by
  have hlt := Nat.lt_of_lt_of_le (Array.getElem?_eq_some_iff.mp h).1 (threads_size_le_move ho x)
  have hy := Array.getElem?_eq_getElem hlt
  cases comes_of_move ho hy with
  | stays ht _ => exact hy.trans (ht.symm.trans h)
  | spawned c hnone _ => cases hnone.symm.trans h
  | turns f fs _ hc _ _ => cases h.symm.trans (Roster.current?_eq_some_iff.mp hc).2

/-- Nothing depends on how a thread has ended. -/
theorem play_ending (ho : s.roster.Orderly) (h : s.roster.threads[t]? = some (.finished o))
    (o' : Outcome) (more : List Move) : (s.ending t o').play more = (s.play more).ending t o' := by
  induction more generalizing s with
  | nil => rfl
  | cons x more ih =>
    show ((s.ending t o').move x).play more = _
    rw [move_ending h, ih (orderly_move ho x) (finished_move ho h x)]
    rfl

end Scheduler

/-! ### Turns that go on -/

/-- A run loop that ends gives back what it took when it began. -/
theorem Machine.leaveLoop_enterLoop {m : Machine} (hr : m.running = false)
    (hl : m.looping = false) : m.enterLoop.leaveLoop = m := by
  cases m with
  | mk s =>
    cases s
    cases hr
    cases hl
    rfl

namespace Bench
variable {b : Bench} {i : Nat} {m : Machine} {f g : Machine → Machine}

theorem update_update (b : Bench) (i : Nat) (f g : Machine → Machine) :
    (b.update i f).update i g = b.update i fun m => g (f m) := by
  have hmachines : (b.machines.modify i f).modify i g = b.machines.modify i fun m => g (f m) := by
    refine Array.ext_getElem? fun j => ?_
    simp only [Array.getElem?_modify]
    split
    · exact Option.map_map g f _
    · rfl
  rw [update, update, update]
  simp only [hmachines]

theorem update_congr (hm : b.machine? i = some m) (h : f m = g m) :
    b.update i f = b.update i g := by
  have hmachines : b.machines.modify i f = b.machines.modify i g := by
    refine Array.ext_getElem? fun j => ?_
    simp only [Array.getElem?_modify]
    split
    next hij =>
      subst hij
      rw [show b.machines[i]? = some m from hm, Option.map_some, Option.map_some, h]
    next => rfl
  rw [update, update, hmachines]

theorem update_eq_self (hm : b.machine? i = some m) (h : f m = m) : b.update i f = b := by
  rw [update_congr (g := id) hm h, update]
  have hmachines : b.machines.modify i id = b.machines := by
    refine Array.ext_getElem? fun j => ?_
    rw [Array.getElem?_modify, Option.map_id_fun, id, ite_self]
  rw [hmachines]

end Bench

namespace Scheduler
variable {s s' s₀ : Scheduler} {moves more before after : List Move} {t u i j epoch : Nat}
  {c : Call} {f f' f'' : Focus} {fs fs' rest : List Frame} {b b' : Bench} {m m₀ : Machine}

/-- The running thread goes on. -/
def onto (s : Scheduler) (t : Nat) (b : Bench) (f : Focus) (fs : List Frame) : Scheduler :=
  ⟨b, s.roster.put t (.active f fs)⟩

theorem onto_self (hc : s.roster.current? = some (t, f, fs)) : s = s.onto t s.bench f fs :=
  congrArg (Scheduler.mk s.bench) (Roster.put_self (Roster.current?_eq_some_iff.mp hc).2).symm

theorem advance_of_go (hc : s.roster.current? = some (t, f, fs))
    (h : s.bench.advance fs f = (b, .go f' fs')) : s.advance = s.onto t b f' fs' := by
  rw [advance_of_some hc, h]
  rfl

theorem current?_onto (hc : s.roster.current? = some (t, f, fs)) (b : Bench) (f' : Focus)
    (fs' : List Frame) : (s.onto t b f' fs').roster.current? = some (t, f', fs') :=
  Roster.current?_settle_go hc f' fs'

theorem onto_onto (s : Scheduler) (t : Nat) (b b' : Bench) (f f' : Focus) (fs fs' : List Frame) :
    (s.onto t b f fs).onto t b' f' fs' = s.onto t b' f' fs' :=
  congrArg (Scheduler.mk b') (s.roster.put_put t _ _)

/-- In the turns since `s`, thread `t` has gone on from the frames `fs`, and nothing else has. -/
def Onward (s : Scheduler) (t : Nat) (fs : List Frame) (s' : Scheduler) : Prop :=
  ∃ b f fs', fs <:+ fs' ∧ s' = s.onto t b f fs'

/-- A step that waits still does when a thread has gone on from its frames. -/
theorem Pending.onward (h : s.Pending u j epoch rest) (hc : s.roster.current? = some (t, f, fs))
    (hs : s.Onward t fs s') : s'.Pending u j epoch rest := by
  obtain ⟨b, f', fs', hsuffix, rfl⟩ := hs
  obtain ⟨f₀, fs₀, hu, hrest⟩ := h
  have ht := (Roster.current?_eq_some_iff.mp hc).2
  by_cases htu : t = u
  · subst htu
    cases hu.symm.trans ht
    exact ⟨f', fs', Roster.getElem?_put_self ht _, hrest.trans hsuffix⟩
  · exact ⟨f₀, fs₀, (Roster.getElem?_put_ne _ _ htu).trans hu, hrest⟩

/-- So many turns lead from one scheduler to another, and `P` holds after each of them. -/
structure Takes (P : Scheduler → Prop) (n : Nat) (s s' : Scheduler) : Prop where
  play : s.play (List.replicate n .turn) = s'
  along : s.Along (fun s x => P (s.move x)) (List.replicate n .turn)

theorem Takes.zero {P : Scheduler → Prop} (s : Scheduler) : Takes P 0 s s := ⟨rfl, trivial⟩

theorem Takes.succ {P : Scheduler → Prop} {n : Nat} (hP : P s.advance)
    (h : Takes P n s.advance s') : Takes P (n + 1) s s' :=
  ⟨h.play, hP, h.along⟩

theorem Takes.imp {P Q : Scheduler → Prop} {n : Nat} (hPQ : ∀ s, P s → Q s)
    (h : Takes P n s s') : Takes Q n s s' := by
  induction n generalizing s with
  | zero => exact ⟨h.play, trivial⟩
  | succ n ih => exact .succ (hPQ _ h.along.1) (ih ⟨h.play, h.along.2⟩)

/-- One turn more in which thread `t` goes on from frames that stand on `fs`. -/
theorem Takes.goOn {n : Nat} {s₁ : Scheduler} {fs₁ : List Frame}
    (hc : s.roster.current? = some (t, f, fs)) (hs₁ : s₁ = s.onto t b f' fs₁)
    (h : b.advance fs₁ f' = (b', .go f'' fs')) (hs : fs <:+ fs')
    (hn : Takes (s.Onward t fs) n (s.onto t b' f'' fs') s') :
    Takes (s.Onward t fs) (n + 1) s₁ s' := by
  subst hs₁
  have hadvance := advance_of_go (current?_onto hc b f' fs₁) h
  rw [onto_onto] at hadvance
  exact .succ (hadvance ▸ ⟨b', f'', fs', hs, rfl⟩) (hadvance ▸ hn)

/-! ### Refusals -/

/-- The error that a call ends with which finds machine `m` in a step. -/
def refusal (m : Machine) : Focus := .returned (.error (.reentrantStep m.counter))

theorem takes_step (hc : s.roster.current? = some (t, .call (.step i), fs))
    (hm : s.bench.machine? i = some m) (hw : m.stepping = true) :
    Takes (s.Onward t fs) 1 s (s.onto t s.bench (refusal m) fs) :=
  .goOn hc (onto_self hc) (Bench.advance_of_stepping hm hw fs) (List.suffix_refl _) (.zero _)

/-- A run comes to its first step, is refused it, and gives back what it has taken. -/
theorem takes_run (hc : s.roster.current? = some (t, .call c, fs)) (hrun : c.Runs i)
    (hp : c = .resume i → m.paused = true) (hm : s.bench.machine? i = some m)
    (hw : m.stepping = true) (hl : m.looping = false) (hr : m.running = false) :
    Takes (s.Onward t fs) 4 s (s.onto t (s.bench.update i Machine.unpause) (refusal m) fs) := by
  have hup : fs <:+ .looping i :: fs := List.suffix_cons _ _
  obtain ⟨b, hb⟩ : ∃ b, b = (s.bench.update i Machine.unpause).update i Machine.enterLoop :=
    ⟨_, rfl⟩
  have hm' : b.machine? i = some m.unpause.enterLoop := by
    rw [hb]
    exact Bench.machine?_update_self (Bench.machine?_update_self hm _) _
  have henters : s.bench.advance fs (.call c) = (b, .go .resumed (.looping i :: fs)) := by
    have hrun' : s.bench.callRun i fs = (b, .go .resumed (.looping i :: fs)) := by
      rw [Bench.callRun, Bench.looping_unpause, Bench.holds_of hm, hl, hb]
      rfl
    rcases hrun with rfl | rfl
    · exact hrun'
    · show s.bench.callResume i fs = _
      rw [Bench.callResume, Bench.holds_of hm, hp rfl]
      exact hrun'
  have hlooks : b.advance (.looping i :: fs) .resumed =
      (b, .go (.call (.step i)) (.looping i :: fs)) := by
    show b.nextStep i fs = _
    rw [Bench.nextStep, Bench.holds_of hm']
    rfl
  have hrefused := Bench.advance_of_stepping hm' hw (.looping i :: fs)
  have hleaves : b.advance (.looping i :: fs) (refusal m) =
      (s.bench.update i Machine.unpause, .go (refusal m) fs) := by
    have hleft : b.update i Machine.leaveLoop = s.bench.update i Machine.unpause := by
      rw [hb, Bench.update_update, Bench.update_update]
      exact Bench.update_congr hm (Machine.leaveLoop_enterLoop (m := m.unpause) hr hl)
    show (b.update i Machine.leaveLoop, _) = _
    rw [hleft]
    rfl
  exact .goOn hc (onto_self hc) henters hup <| .goOn hc rfl hlooks hup <|
    .goOn hc rfl hrefused hup <| .goOn hc rfl hleaves (List.suffix_refl _) (.zero _)

/-- The call `c` of thread `t`, made in `s` when machine `i` was `m`, has ended in `s'` with a
refusal, and nothing else has come of it but that a run takes back a pause. -/
structure Refuses (s s' : Scheduler) (t i : Nat) (c : Call) (fs : List Frame) (m : Machine) :
    Prop where
  roster : s'.roster = s.roster.put t (.active (refusal m) fs)
  bench : s'.bench = if c = .step i then s.bench else s.bench.update i Machine.unpause
  same : c = .step i ∨ m.paused = false → s'.bench = s.bench
  /-- After a call that was all the thread had to do, all is as if the thread had ended at once,
  but for its outcome. -/
  alone : fs = [] → ∀ o more, Scheduler.play ⟨s'.bench, s.roster.settle t (.done o)⟩ more =
    (s'.advance.play more).ending t o

theorem refuses_onto (ho : s.roster.Orderly) (hc : s.roster.current? = some (t, f, fs))
    (hm : s.bench.machine? i = some m)
    (hb : b = if c = .step i then s.bench else s.bench.update i Machine.unpause) :
    s.Refuses (s.onto t b (refusal m) fs) t i c fs m := by
  refine ⟨rfl, hb, fun hsame => ?_, ?_⟩
  · rw [hb]
    split
    next => rfl
    next hc =>
      refine Bench.update_eq_self hm ?_
      rw [Machine.unpause, ← hsame.resolve_left hc]
  · rintro rfl o more
    have hother : ∀ o o', (⟨b, s.roster.settle t (.done o')⟩ : Scheduler) =
        ending ⟨b, s.roster.settle t (.done o)⟩ t o' := fun o o' =>
      congrArg (fun r => Scheduler.mk b {r with running := none}) (s.roster.put_put t _ _).symm
    obtain ⟨o', ho'⟩ : ∃ o', o' = (.error (.reentrantStep m.counter) : Outcome) := ⟨_, rfl⟩
    have hadvance : (s.onto t b (refusal m) []).advance = ⟨b, s.roster.settle t (.done o')⟩ := by
      rw [advance_of_some (current?_onto hc b (refusal m) []), ho']
      exact congrArg (fun r => Scheduler.mk b {r with running := none}) (s.roster.put_put t _ _)
    have hended := Roster.getElem?_settle_self (Roster.current?_eq_some_iff.mp hc).2 (.done o')
    have horderly : (s.roster.settle t (.done o')).Orderly := ho.settle hc _
    rw [hadvance]
    exact (congrArg (play · more) (hother o' o)).trans (play_ending horderly hended o more)

/-- A call on a machine that a step waits on, and no run loop is active on, is refused and
changes nothing but a pause, unless it is a resume that finds no pause. The step that waits
comes to the same as without the call. -/
theorem refused_call (hs : s₀.Starts) (ha : s₀.Along Addresses moves)
    (hm : (s₀.play moves).bench.machine? i = some m) (hw : m.stepping = true)
    (hl : m.looping = false) (hc : (s₀.play moves).roster.current? = some (t, .call c, fs))
    (hi : c.machine? = some i) :
    (c = .resume i ∧ m.paused = false ∧ (s₀.play moves).advance =
      (s₀.play moves).onto t (s₀.play moves).bench (.returned (.ok (.state none))) fs) ∨
    ∃ n u rest before after m₀, s₀.Begun moves u i rest before after m₀ ∧
      (m.epoch = m₀.epoch → m.counter = m₀.counter) ∧
      (s₀.play moves).Refuses (s₀.play (moves ++ List.replicate n .turn)) t i c fs m ∧
      (s₀.play moves).Completes u i rest m₀ ∧
      (s₀.play (moves ++ List.replicate n .turn)).Completes u i rest m₀ := by
  have h := play_governed hs ha
  have hr : m.running = false := by
    rw [Bool.eq_false_iff]
    intro hr
    rw [h.running i m hm hr] at hl
    cases hl
  by_cases hdeclines : c = .resume i ∧ m.paused = false
  · obtain ⟨rfl, hp⟩ := hdeclines
    refine .inl ⟨rfl, hp, advance_of_go hc ?_⟩
    show (s₀.play moves).bench.callResume i fs = _
    rw [Bench.callResume, Bench.holds_of hm, hp]
    rfl
  · right
    obtain ⟨n, b, hb, htakes⟩ : ∃ n b,
        b = (if c = .step i then (s₀.play moves).bench
          else (s₀.play moves).bench.update i Machine.unpause) ∧
        Takes ((s₀.play moves).Onward t fs) n (s₀.play moves)
          ((s₀.play moves).onto t b (refusal m) fs) := by
      by_cases hstep : c = .step i
      · subst hstep
        exact ⟨1, _, (if_pos rfl).symm, takes_step hc hm hw⟩
      · have hrun : c.Runs i := by
          cases c with
          | step j => cases hi; exact absurd rfl hstep
          | run j => cases hi; exact .inl rfl
          | resume j => cases hi; exact .inr rfl
          | sessionStart | sessionStep => cases hi
        refine ⟨4, _, (if_neg hstep).symm, takes_run hc hrun (fun hres => ?_) hm hw hl hr⟩
        exact Bool.not_eq_false _ |>.mp fun hp => hdeclines ⟨hres, hp⟩
    obtain ⟨u, epoch, rest, hp⟩ := h.exists_pending hm hw
    obtain ⟨before, after, m₀, hbegun, rfl, hne⟩ := exists_begun hs ha hp
    have hwaits := (htakes.imp fun s' hs' => hp.onward hc hs').along
    have hall := (along_append _ _ _ _).mpr ⟨ha, along_turns (s₀.play moves) n⟩
    refine ⟨n, u, rest, before, after, m₀, hbegun, fun he => ?_, ?_, hbegun.completes hs ha hne,
      (hbegun.append hwaits).completes hs hall (List.append_ne_nil_of_left_ne_nil hne _)⟩
    · show m.settled.bare.counter = m₀.bare.counter
      rw [hbegun.settled_bare hs ha hne hm he]
    · rw [play_append, htakes.play]
      exact refuses_onto h.orderly hc hm hb

/-- A run that is refused while a single step waits. -/
theorem refused_call_run : ∃ b s m n,
    Bench.make {source := some (.queue [])} ⟨#[',']⟩ {memorySize := .integer 1} = .ok b ∧
      s = ({bench := b} : Scheduler).play (Move.alone (.step 0) 3 ++ Move.alone (.run 0) 0) ∧
      s.bench.machine? 0 = some m ∧ m.stepping = true ∧ m.looping = false ∧
      s.roster.current? = some (1, .call (.run 0), []) ∧
      s.Refuses (s.play (List.replicate n .turn)) 1 0 (.run 0) [] m := by
  obtain ⟨b, hb⟩ : ∃ b, Bench.make {source := some (.queue [])} ⟨#[',']⟩
      {memorySize := .integer 1} = .ok b := ⟨_, rfl⟩
  obtain ⟨moves, hmoves⟩ : ∃ moves, moves = Move.alone (.step 0) 3 ++ Move.alone (.run 0) 0 :=
    ⟨_, rfl⟩
  obtain ⟨m, hm, hw, hl, hc, ha⟩ : ∃ m,
      (({bench := b} : Scheduler).play moves).bench.machine? 0 = some m ∧ m.stepping = true ∧
      m.looping = false ∧ (({bench := b} : Scheduler).play moves).roster.current? =
        some (1, .call (.run 0), []) ∧ ({bench := b} : Scheduler).Along Addresses moves := by
    cases hb
    subst hmoves
    exact ⟨_, rfl, rfl, rfl, rfl, by decide⟩
  rcases refused_call (.machine hb) ha hm hw hl hc rfl with ⟨hres, -⟩ |
    ⟨n, u, rest, before, after, m₀, -, -, hrefuses, -⟩
  · cases hres
  · rw [play_append] at hrefuses
    exact ⟨b, _, m, n, hb, by rw [hmoves], hm, hw, hl, hc, hrefuses⟩

/-- A run that is refused has taken back the pause. -/
theorem refused_run_unpauses : ∃ b s m m',
    Bench.make {source := some (.queue [])} ⟨#[',']⟩ {memorySize := .integer 1} = .ok b ∧
      s = ({bench := b} : Scheduler).play
        (Move.alone (.step 0) 3 ++ [.outside (.signal .pause)]) ∧
      s.bench.machine? 0 = some m ∧ m.stepping = true ∧ m.looping = false ∧ m.paused = true ∧
      (s.play (Move.alone (.run 0) 5)).outcome? 1 = some (.error (.reentrantStep 0)) ∧
      (s.play (Move.alone (.run 0) 5)).bench.machine? 0 = some m' ∧ m'.paused = false :=
  ⟨_, _, _, _, rfl, rfl, rfl, rfl, rfl, rfl, rfl, rfl, rfl⟩

end Scheduler
end TapeMachine
