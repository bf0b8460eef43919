import TapeMachine.Proofs.Session.Gone
import TapeMachine.Proofs.Session.Reentrance

/-! What a session leaves behind.

A reset takes the machine away from the calls that drive it (`Scheduler.Discards`). From then on
no callback is called for the machine, whatever the session does with new machines on the same
source and sink. A call that drove it has a step that waits, or goes straight to its end as soon
as its thread goes on (`Lingers`); it ends without a state to tell, or with the failure of the
callback that it waited for, and leaves the session as it is (`Scheduler.play_discards`). -/
namespace TapeMachine

variable {i : Nat} {d : Frame} {outer own fs : List Frame} {f : Focus} {o : Outcome}

/-- What is left of a call that has lost its machine, if its failures are of some kind. -/
inductive Lingers (C : Failure → Prop) (i : Nat) (d : Frame) (outer : List Frame) :
    Focus → List Frame → Prop
  | waits {f : Focus} {fs : List Frame} : Awaited i d outer fs → Lingers C i d outer f fs
  | sleeps : Lingers C i d outer .resumed (.looping i :: d :: outer)
  | ends {o : Outcome} {own : List Frame} : Own i d outer own → o ≠ .ok (.stepped true) →
      (∀ e, o = .error e → C e) → Lingers C i d outer (.returned o) own

/-- How a call ends that has lost its machine, by what its thread is about to do. -/
def Focus.due : Focus → Outcome
  | .answered a => forlorn a
  | .returned o => forlorn o
  | .call _ | .resumed => .ok (.state none)

theorem Awaited.suffix (h : Awaited i d outer fs) : d :: outer <:+ fs := by
  obtain ⟨epoch, own, hown, hr⟩ := h
  exact hown.suffix.trans ((List.suffix_cons _ _).trans hr)

/-- A step that waits stands above the frames of its call. -/
theorem Awaited.not_own (h : Awaited i d outer fs) : ¬ Own i d outer fs := by
  rintro hown
  obtain ⟨epoch, own, hown', hr⟩ := h
  have hle := hr.length_le
  rcases hown with rfl | rfl <;> rcases hown' with rfl | rfl
  · exact Nat.not_succ_le_self _ hle
  · simp only [List.length_cons] at hle
    omega
  · cases hr.eq_of_length_le (Nat.le_refl _)
  · exact Nat.not_succ_le_self _ hle

namespace Lingers
variable {C C' : Failure → Prop}

theorem suffix (h : Lingers C i d outer f fs) : d :: outer <:+ fs := by
  cases h with
  | waits h => exact h.suffix
  | sleeps => exact List.suffix_cons _ _
  | ends hown _ _ => exact hown.suffix

theorem mono (h : Lingers C i d outer f fs) (hC : ∀ e, C e → C' e) :
    Lingers C' i d outer f fs := by
  cases h with
  | waits h => exact .waits h
  | sleeps => exact .sleeps
  | ends hown ho hfail => exact .ends hown ho fun e he => hC e (hfail e he)

end Lingers

/-- The reset of a machine shows in what is told, after what it did before. -/
theorem Stir.exists_reset {frail : Prop} {ms ms' : List Machine} {sg : List Sign} {m m' : Machine}
    (h : Stir frail ms sg ms') (hm : ms[i]? = some m) (hm' : ms'[i]? = some m')
    (he : m'.epoch ≠ m.epoch) :
    ∃ head n, sg = head ++ .reset :: List.replicate n .reset ∧ .reset ∉ head := by
  have hsigns : ∀ {ms ms' : List Machine} {g : Sign} {rest : List Sign},
      Resets ms (g :: rest) ms' → g :: rest = .reset :: List.replicate rest.length .reset :=
    fun hr => hr.signs_eq
  cases h with
  | calm hr =>
    cases hr with
    | nil =>
      cases hm.symm.trans hm'
      exact absurd rfl he
    | cons j hj hr => exact ⟨[], _, hsigns (.cons j hj hr), List.not_mem_nil⟩
  | made hn =>
    rw [List.getElem?_append_left (List.getElem?_eq_some_iff.mp hm).1, hm] at hm'
    cases hm'
    exact absurd rfl he
  | @act _ rest j n n₁ a hn hdoes _ hr =>
    cases rest with
    | nil =>
      rw [hr.eq_of_nil, List.getElem?_set] at hm'
      split at hm'
      next heq =>
        subst heq
        split at hm'
        · cases hm'
          cases hn.symm.trans hm
          exact absurd hdoes.kept.epoch he
        · cases hm'
      next =>
        cases hm.symm.trans hm'
        exact absurd rfl he
    | cons g rest =>
      refine ⟨a.signs j n, rest.length, by rw [hsigns hr], ?_⟩
      cases a <;> simp [Machine.Act.signs]

namespace Scheduler
variable {s : Scheduler} {x : Move} {moves more : List Move} {t : Nat}
  {C : Failure → Prop}

/-- Thread `t` is in a call `d` on the session that drives machine `i` and stands on the frames
`outer`. -/
def Drives (s : Scheduler) (t i : Nat) (d : Frame) (outer : List Frame) : Prop :=
  d.driven? = some i ∧ ∃ f fs, s.roster.threads[t]? = some (.active f fs) ∧ d :: outer <:+ fs

/-- The source has failed that a step of the call had asked. -/
def Refused (s : Scheduler) (moves : List Move) (t i : Nat) (d : Frame) (outer : List Frame)
    (e : Failure) : Prop :=
  ∃ before after epoch own, moves = before ++ .turn :: after ∧ Own i d outer own ∧
    (s.play before).roster.current? = some (t, .answered (.error e), .reading i epoch :: own)

/-- The sink is about to fail to which a step of the call hands a character. -/
def Spills (s : Scheduler) (t i : Nat) (d : Frame) (outer : List Frame) (e : Failure) : Prop :=
  ∃ own, Own i d outer own ∧ s.roster.current? = some (t, .call (.step i), own) ∧
    s.bench.Cut (.error e)

/-- The call `d` is about to end, and all that comes of it is that its caller goes on. -/
structure Quits (C : Failure → Prop) (s : Scheduler) (t : Nat) (d : Frame) (outer : List Frame)
    (o : Outcome) : Prop where
  ends : s.roster.current? = some (t, .returned o, d :: outer)
  failure : ∀ e, o = .error e → C e
  goes : s.advance.roster.current? = some (t, .returned (forlorn o), outer)
  bench : s.advance.bench = s.bench

theorem Refused.cons {e : Failure} (h : (s.move x).Refused moves t i d outer e) :
    s.Refused (x :: moves) t i d outer e := by
  obtain ⟨before, after, epoch, own, rfl, hown, hc⟩ := h
  exact ⟨x :: before, after, epoch, own, rfl, hown, hc⟩

theorem Refused.append {e : Failure} (h : s.Refused moves t i d outer e) (more : List Move) :
    s.Refused (moves ++ more) t i d outer e := by
  obtain ⟨before, after, epoch, own, rfl, hown, hc⟩ := h
  exact ⟨before, after ++ more, epoch, own, by simp, hown, hc⟩

/-- A thread is the same after a move, or has taken a turn. -/
theorem threads_move (ho : s.roster.Orderly) (ht : s.roster.threads[t]? = some (.active f fs))
    (x : Move) : (s.move x).roster.threads[t]? = some (.active f fs) ∨
      (x = .turn ∧ s.roster.current? = some (t, f, fs)) := by
  have hlt := Nat.lt_of_lt_of_le (Array.getElem?_eq_some_iff.mp ht).1 (threads_size_le_move ho x)
  have ht' : (s.move x).roster.threads[t]? = some _ := Array.getElem?_eq_getElem hlt
  cases comes_of_move ho ht' with
  | stays ht₀ _ => exact .inl (ht'.trans (ht₀.symm.trans ht))
  | spawned c hnone _ => cases hnone.symm.trans ht
  | turns f₀ fs₀ hturn hc _ _ =>
    cases (Roster.current?_eq_some_iff.mp hc).2.symm.trans ht
    exact .inr ⟨hturn, hc⟩

/-! ### The turns of a call that has lost its machine -/

namespace Gone
variable (hg : s.Gone i)
include hg

theorem goesOn_eq_false : s.bench.holds i Machine.goesOn = false := by
  obtain ⟨m, hm, hrunning, -⟩ := hg.machine
  rw [Bench.holds_of hm, Machine.goesOn, hrunning]
  rfl

theorem quits (hd : d.driven? = some i)
    (hc : s.roster.current? = some (t, .returned o, d :: outer))
    (hC : ∀ e, o = .error e → C e) : s.Quits C t d outer o :=
  have ⟨hb, hgoes⟩ := advance_go hc (Bench.giveBack_forlorn hd hg.dropped o outer)
  ⟨hc, hC, hgoes, hb⟩

/-- A run loop that looks whether it goes on ends. -/
theorem looks (hc : s.roster.current? = some (t, .resumed, .looping i :: d :: outer)) :
    ∃ v, s.advance.roster.current? = some (t, .returned (.ok (.state v)), d :: outer) ∧
      s.advance.bench.session = s.bench.session := by
  have hstops : s.bench.Stops i .resumed := .inl ⟨rfl, hg.goesOn_eq_false⟩
  obtain ⟨hsession, v, hv⟩ := s.bench.endRun_forlorn i (d :: outer)
  rw [← Bench.advance_stops hstops] at hsession hv
  obtain ⟨hb, hc'⟩ := advance_go hc (Prod.ext rfl hv)
  exact ⟨v, hc', hb ▸ hsession⟩

/-- The answer to a step that waited comes too late. -/
theorem hears {a : Answer} {epoch : Nat}
    (hc : s.roster.current? = some (t, .answered a, .reading i epoch :: own)) :
    s.advance.roster.current? = some (t, .returned (a.map fun _ => .stepped false), own) ∧
      s.advance.bench.session = s.bench.session := by
  obtain ⟨m, hm, -, hstale⟩ := hg.machine
  have ht := (Roster.current?_eq_some_iff.mp hc).2
  have hlt : epoch < m.epoch := hstale t _ _ ht epoch own (List.suffix_refl _)
  have hx := Bench.endReading_forlorn hm (Nat.ne_of_gt hlt) a own
  obtain ⟨hb, hc'⟩ := advance_go hc (Prod.ext rfl hx)
  exact ⟨hc', hb ▸ s.bench.session_endReading i epoch a own⟩

end Gone

/-- A run loop is given back a step that has come to nothing, and ends. -/
theorem leaves (ho : o ≠ .ok (.stepped true))
    (hc : s.roster.current? = some (t, .returned o, .looping i :: d :: outer)) :
    ∃ o', s.advance.roster.current? = some (t, .returned o', d :: outer) ∧
      s.advance.bench.session = s.bench.session ∧ forlorn o' = forlorn o ∧
      o' ≠ .ok (.stepped true) := by
  obtain ⟨hsession, o', hx, heq, ho'⟩ := Bench.afterStep_forlorn ho s.bench i (d :: outer)
  obtain ⟨hb, hc'⟩ := advance_go hc (Prod.ext rfl hx)
  exact ⟨o', hc', hb ▸ hsession, heq, ho'⟩

/-- A call that has been given back an outcome ends in one turn, or after its run loop. -/
theorem Gone.ends (h : s.Hosted) (hg : s.Gone i) (hd : d.driven? = some i)
    (hown : Own i d outer own) (ho : o ≠ .ok (.stepped true))
    (hc : s.roster.current? = some (t, .returned o, own)) : ∃ n ≤ 2,
      (s.play (List.replicate n .turn)).roster.current? = some (t, .returned (forlorn o), outer) ∧
      (s.play (List.replicate n .turn)).bench.session = s.bench.session := by
  rcases hown with rfl | rfl
  · have hquits : s.Quits (fun _ => True) t d outer o := hg.quits hd hc fun _ _ => trivial
    exact ⟨1, by decide, hquits.goes, congrArg Bench.session hquits.bench⟩
  · obtain ⟨o', hc', hsession, heq, -⟩ := leaves ho hc
    have hquits : s.advance.Quits (fun _ => True) t d outer o' :=
      (hg.move (x := .turn) h trivial).quits hd hc' fun _ _ => trivial
    refine ⟨2, Nat.le_refl _, ?_, (congrArg Bench.session hquits.bench).trans hsession⟩
    rw [← heq]
    exact hquits.goes

/-- A call that has lost its machine and whose thread goes on ends at once, and leaves the
session as it is. -/
theorem Gone.concludes (h : s.Hosted) (hg : s.Gone i) (hd : d.driven? = some i)
    (hl : Lingers C i d outer f fs ∧ Own i d outer fs ∨
      ∃ a epoch own, f = .answered a ∧ fs = .reading i epoch :: own ∧ Own i d outer own)
    (hc : s.roster.current? = some (t, f, fs)) : ∃ n ≤ 3,
      (s.play (List.replicate n .turn)).roster.current? = some (t, .returned f.due, outer) ∧
      (s.play (List.replicate n .turn)).bench.session = s.bench.session := by
  have hnext := hg.move (x := .turn) h trivial
  have hhosted := h.move (x := .turn) trivial
  rcases hl with ⟨hl, hown⟩ | ⟨a, epoch, own, rfl, rfl, hown⟩
  · cases hl with
    | waits hawaited => exact absurd hown hawaited.not_own
    | sleeps =>
      obtain ⟨v, hc', hsession⟩ := hg.looks hc
      obtain ⟨n, hn, hc'', hsession'⟩ :=
        Gone.ends (s := s.advance) hhosted hnext hd (.inl rfl) (by simp) hc'
      exact ⟨n + 1, Nat.succ_le_succ hn, hc'', hsession'.trans hsession⟩
    | ends _ ho _ =>
      obtain ⟨n, hn, hc', hsession⟩ := hg.ends h hd hown ho hc
      exact ⟨n, Nat.le_succ_of_le hn, hc', hsession⟩
  · obtain ⟨hc', hsession⟩ := hg.hears hc
    have ho : (a.map fun _ => Value.stepped false) ≠ .ok (.stepped true) := by
      cases a <;> nofun
    obtain ⟨n, hn, hc'', hsession'⟩ := Gone.ends (s := s.advance) hhosted hnext hd hown ho hc'
    refine ⟨n + 1, Nat.succ_le_succ hn, ?_, hsession'.trans hsession⟩
    have hdue : forlorn (a.map fun _ => Value.stepped false) = (Focus.answered a).due := by
      cases a <;> rfl
    rw [← hdue]
    exact hc''

/-! ### Moves -/

/-- A call that drives a machine that is gone did so before. -/
theorem Gone.standing (h : s.Hosted) (hg : s.Gone i) (hdrives : (s.move x).Drives t i d outer) :
    s.Drives t i d outer := by
  obtain ⟨hd, f, fs, ht, hsuffix⟩ := hdrives
  refine ⟨hd, ?_⟩
  cases comes_of_move h.orderly ht with
  | stays ht₀ _ => exact ⟨f, fs, ht₀, hsuffix⟩
  | spawned c _ heq =>
    cases heq
    cases List.suffix_nil.mp hsuffix
  | turns f₀ fs₀ _ hc _ heq =>
    have hframes := Turn.frames_of_thread heq.symm
    have hsource : ¬ Bench.Sourcing d := by
      rintro (rfl | ⟨v, rfl⟩ | ⟨deeds, answer, rfl⟩) <;> cases hd
    rcases (h.governed.yields hc).suffix hsource (hframes ▸ hsuffix) with hsuffix | ⟨-, c, -, hpush⟩
    · exact ⟨f₀, fs₀, (Roster.current?_eq_some_iff.mp hc).2, hsuffix⟩
    · exact absurd (hpush.engaged hd) (hg.not_engaged _)

/-- A step that waits goes on waiting over a turn of its thread, or comes to nothing. -/
theorem Gone.awaited_turn (h : s.Hosted) (hg : s.Gone i)
    (hc : s.roster.current? = some (t, f, fs)) (hawaited : Awaited i d outer fs)
    (hC : ∀ e, s.Refused [.turn] t i d outer e → C e) :
    ∃ f' fs', s.advance.roster.threads[t]? = some (.active f' fs') ∧
      Lingers C i d outer f' fs' := by
  have ht := (Roster.current?_eq_some_iff.mp hc).2
  obtain ⟨epoch, own, hown, hr⟩ := hawaited
  rcases (h.governed.yields hc).keeps hr with hr' | rfl
  · -- the step still waits
    have hawaited : Awaited i d outer (s.bench.advance fs f).2.frames := ⟨epoch, own, hown, hr'⟩
    have ht' := Roster.getElem?_settle_self ht (s.bench.advance fs f).2
    rw [advance_of_some hc]
    rw [← Turn.frames_thread] at hawaited
    generalize (s.bench.advance fs f).2.thread = y at ht' hawaited
    cases y with
    | active f' fs' => exact ⟨f', fs', ht', .waits hawaited⟩
    | finished o => cases List.suffix_nil.mp hawaited.suffix
  · -- it has been answered
    obtain ⟨a, rfl⟩ : ∃ a, f = .answered a := by
      cases h.serves t _ _ ht with
      | answered _ _ _ _ => exact ⟨_, rfl⟩
      | call _ hk | step _ hk | stepped _ _ hk | returned _ hk => cases hk
    obtain ⟨hc', -⟩ := hg.hears hc
    refine ⟨_, _, (Roster.current?_eq_some_iff.mp hc').2, .ends hown ?_ fun e he => hC e ?_⟩
    · cases a <;> simp [Except.map]
    · cases a with
      | ok text => cases he
      | error e' =>
        cases he
        exact ⟨[], [], epoch, own, rfl, hown, hc⟩

/-- A call that has lost its machine lingers on, or ends in the move. -/
theorem Gone.lingers_move (h : s.Hosted) (hg : s.Gone i) (hd : d.driven? = some i)
    (ht : s.roster.threads[t]? = some (.active f fs)) (hl : Lingers C i d outer f fs) (x : Move) :
    (∃ f' fs', (s.move x).roster.threads[t]? = some (.active f' fs') ∧
      Lingers (fun e => C e ∨ s.Refused [x] t i d outer e) i d outer f' fs') ∨
    (x = .turn ∧ ∃ o, s.Quits C t d outer o) := by
  rcases threads_move h.orderly ht x with ht' | ⟨rfl, hc⟩
  · exact .inl ⟨f, fs, ht', hl.mono fun _ => .inl⟩
  have hgoes : ∀ {f' fs'}, s.advance.roster.current? = some (t, f', fs') →
      (s.move .turn).roster.threads[t]? = some (.active f' fs') := fun hc' =>
    (Roster.current?_eq_some_iff.mp hc').2
  cases hl with
  | waits hawaited => exact .inl (hg.awaited_turn h hc hawaited fun _ => .inr)
  | sleeps =>
    obtain ⟨v, hc', -⟩ := hg.looks hc
    exact .inl ⟨_, _, hgoes hc', .ends (.inl rfl) (by simp) nofun⟩
  | @ends o _ hown ho hfail =>
    rcases hown with rfl | rfl
    · exact .inr ⟨rfl, o, hg.quits hd hc hfail⟩
    · obtain ⟨o', hc', -, heq, ho'⟩ := leaves ho hc
      refine .inl ⟨_, _, hgoes hc', .ends (.inl rfl) ho' fun e he => .inl (hfail e ?_)⟩
      subst he
      cases o with
      | ok v => cases heq
      | error e' =>
        cases heq
        rfl

/-- Every call that drives machine `i` lingers on without it. -/
def Fades (C : Nat → Frame → List Frame → Failure → Prop) (i : Nat) (s : Scheduler) : Prop :=
  ∀ t d outer f fs, s.roster.threads[t]? = some (.active f fs) → d.driven? = some i →
    d :: outer <:+ fs → Lingers (C t d outer) i d outer f fs

theorem Fades.move {C : Nat → Frame → List Frame → Failure → Prop} (h : s.Hosted) (hg : s.Gone i)
    (hf : s.Fades C i) (x : Move) :
    Fades (fun t d outer e => C t d outer e ∨ s.Refused [x] t i d outer e) i (s.move x) := by
  intro t d outer f fs ht hd hsuffix
  obtain ⟨-, f₀, fs₀, ht₀, hsuffix₀⟩ := hg.standing h ⟨hd, f, fs, ht, hsuffix⟩
  rcases hg.lingers_move h hd ht₀ (hf t d outer f₀ fs₀ ht₀ hd hsuffix₀) x with
    ⟨f', fs', ht', hl⟩ | ⟨rfl, o, hquits⟩
  · cases ht'.symm.trans ht
    exact hl
  · cases (Roster.current?_eq_some_iff.mp hquits.goes).2.symm.trans ht
    exact absurd hsuffix.length_le (Nat.not_succ_le_self _)

/-- A call whose machine is discarded lingers on, whether its thread is at rest or a callback of
its own has reset the session. -/
theorem Discards.fades (h : s.Hosted) (hx : x.OfSession) (hdis : Discards i s x) :
    (s.move x).Fades (fun t d outer e => s.Spills t i d outer e) i := by
  intro t d outer f fs ht hd hsuffix
  have hserves := (h.move hx).serves t f fs ht
  rcases hserves.awaited_or_own hd hsuffix with
    hawaited | ⟨hown, ⟨rfl, rfl⟩ | ⟨c, rfl, hc⟩ | ⟨o, rfl⟩⟩
  · exact .waits hawaited
  · exact .sleeps
  · exact absurd hc ((hdis.gone h hx).uncalled t _ _ ht c rfl)
  · obtain ⟨hi, he⟩ := hdis
    cases comes_of_move h.orderly ht with
    | stays ht₀ hrun =>
      by_cases hr : s.roster.running = some t
      · rw [hrun hr] at he
        exact absurd rfl he
      · rcases h.orderly.rested t _ _ ht₀ hr with hf | ⟨c, hf, -⟩ <;> cases hf
    | spawned c _ heq => cases heq
    | turns f₀ fs₀ _ hc hmove heq =>
      have hturn := Turn.eq_of_thread heq.symm nofun
      have ht₀ := (Roster.current?_eq_some_iff.mp hc).2
      rw [hmove] at he
      rcases (h.governed.yields hc).returned_of_reset (h.serves t f₀ fs₀ ht₀) hd hown hturn rfl he
        with ⟨rfl, rfl⟩ | ⟨v, rfl⟩
      · -- the sink has reset the machine in the midst of a step
        obtain ⟨m, hm⟩ := h.exists_of_current hi
        have hcut := Bench.callStep_cut hm hturn he
        refine .ends hown ?_ fun e heq => ⟨_, hown, hc, heq ▸ hcut⟩
        rcases hcut with rfl | ⟨reaction, e, -, -, rfl⟩
        · simp
        · nofun
      · exact .ends hown (by simp) nofun

/-! ### Runs -/

section Runs
variable {C : Nat → Frame → List Frame → Failure → Prop} (h : s.Hosted) (hg : s.Gone i)
  (hmore : ∀ y ∈ more, y.OfSession)
include h hg hmore

theorem Gone.play : (s.play more).Gone i := by
  induction more generalizing s with
  | nil => exact hg
  | cons y rest ih =>
    obtain ⟨hy, hrest⟩ := List.forall_mem_cons.mp hmore
    exact ih (h.move hy) (hg.move h hy) hrest

/-- No callback is called for a machine that is gone. -/
theorem Gone.signs_play : ∃ sg, (s.play more).bench.signs = s.bench.signs ++ sg ∧
    ∀ g ∈ sg, g.contact? ≠ some i := by
  induction more generalizing s with
  | nil => exact ⟨[], (List.append_nil _).symm, nofun⟩
  | cons y rest ih =>
    obtain ⟨hy, hrest⟩ := List.forall_mem_cons.mp hmore
    obtain ⟨sg, hsg, hquiet⟩ := (reaches_move s y).signs
    obtain ⟨sg', hsg', hquiet'⟩ := ih (h.move hy) (hg.move h hy) hrest
    refine ⟨sg ++ sg', ?_, fun g hm => ?_⟩
    · rw [← List.append_assoc, ← hsg]
      exact hsg'
    · rcases List.mem_append.mp hm with hm | hm
      · intro hi
        obtain ⟨t, fs, hc⟩ := hquiet g hm i hi
        exact hg.uncalled t _ _ (Roster.current?_eq_some_iff.mp hc).2 _ rfl rfl
      · exact hquiet' g hm

theorem Gone.standing_play (hdrives : (s.play more).Drives t i d outer) :
    s.Drives t i d outer := by
  induction more generalizing s with
  | nil => exact hdrives
  | cons y rest ih =>
    obtain ⟨hy, hrest⟩ := List.forall_mem_cons.mp hmore
    exact hg.standing h (ih (h.move hy) (hg.move h hy) hrest hdrives)

theorem Fades.play (hf : s.Fades C i) :
    Fades (fun t d outer e => C t d outer e ∨ s.Refused more t i d outer e) i (s.play more) := by
  induction more generalizing s C with
  | nil => exact fun t d outer f fs ht hd hs => (hf t d outer f fs ht hd hs).mono fun _ => .inl
  | cons y rest ih =>
    obtain ⟨hy, hrest⟩ := List.forall_mem_cons.mp hmore
    intro t d outer f fs ht hd hs
    refine (ih (h.move hy) (hg.move h hy) hrest (hf.move h hg y) t d outer f fs ht hd hs).mono ?_
    rintro e ((hC | hrefused) | hrefused)
    · exact .inl hC
    · exact .inr (hrefused.append rest)
    · exact .inr hrefused.cons

/-- A call that has lost its machine is still there after a run, or has ended in it. -/
theorem Fades.ends (hf : s.Fades C i) (hdrives : s.Drives t i d outer) :
    (s.play more).Drives t i d outer ∨ ∃ before after o, more = before ++ .turn :: after ∧
      (s.play before).Quits (fun e => C t d outer e ∨ s.Refused before t i d outer e)
        t d outer o := by
  induction more generalizing s C with
  | nil => exact .inl hdrives
  | cons y rest ih =>
    obtain ⟨hy, hrest⟩ := List.forall_mem_cons.mp hmore
    obtain ⟨hd, f, fs, ht, hsuffix⟩ := hdrives
    rcases hg.lingers_move h hd ht (hf t d outer f fs ht hd hsuffix) y with
      ⟨f', fs', ht', hl⟩ | ⟨rfl, o, hquits⟩
    · refine (ih (h.move hy) (hg.move h hy) hrest (hf.move h hg y)
        ⟨hd, f', fs', ht', hl.suffix⟩).imp_right ?_
      rintro ⟨before, after, o, rfl, hquits⟩
      refine ⟨y :: before, after, o, rfl, hquits.ends, fun e he => ?_, hquits.goes, hquits.bench⟩
      rcases hquits.failure e he with (hC | hrefused) | hrefused
      · exact .inl hC
      · exact .inr (hrefused.append before)
      · exact .inr hrefused.cons
    · refine .inr ⟨[], rest, o, rfl, hquits.ends, fun e he => ?_, hquits.goes, hquits.bench⟩
      exact .inl (hquits.failure e he)

end Runs

/-- What comes after the move `x` in which the session discards machine `i`. -/
structure Isolates (i : Nat) (s : Scheduler) (x : Move) (more : List Move) : Prop where
  /-- The session is as new. -/
  session : (s.move x).bench.session = s.bench.session.map Session.forget
  /-- It never works with the machine again. -/
  dropped : ¬ ((s.move x).play more).bench.Current i
  /-- After the reset no callback is called for the machine. -/
  silent : ∃ before after, ((s.move x).play more).bench.signs =
    s.bench.signs ++ before ++ .reset :: after ∧ .reset ∉ before ∧
      ∀ g ∈ after, g.contact? ≠ some i
  /-- No call begins to drive it. -/
  standing : ∀ t d outer, ((s.move x).play more).Drives t i d outer →
    (s.move x).Drives t i d outer
  /-- A call that drove it is still there or has ended, with nothing, or with the failure of the
  callback that it waited for, and the session has taken no note. -/
  ends : ∀ t d outer, (s.move x).Drives t i d outer →
    ((s.move x).play more).Drives t i d outer ∨ ∃ before after o, more = before ++ .turn :: after ∧
      ((s.move x).play before).Quits (fun e => s.Spills t i d outer e ∨
        (s.move x).Refused before t i d outer e) t d outer o
  /-- A call that is still there has a step that waits for the source, or it goes on by
  itself. -/
  lingers : ∀ (t : Nat) (d : Frame) (outer : List Frame) (f : Focus) (fs : List Frame),
    ((s.move x).play more).roster.threads[t]? = some (.active f fs) →
    d.driven? = some i → d :: outer <:+ fs → Awaited i d outer fs ∨ Own i d outer fs
  /-- When the source has answered, or the call goes on by itself, it ends within three turns,
  which leave the session as it is. -/
  goes : ∀ (t : Nat) (d : Frame) (outer : List Frame) (f : Focus) (fs : List Frame),
    ((s.move x).play more).roster.current? = some (t, f, fs) →
    d.driven? = some i →
    (Own i d outer fs ∨
      ∃ a epoch own, f = .answered a ∧ fs = .reading i epoch :: own ∧ Own i d outer own) →
    ∃ n ≤ 3, ((s.move x).play (more ++ List.replicate n .turn)).roster.current? =
        some (t, .returned f.due, outer) ∧
      ((s.move x).play (more ++ List.replicate n .turn)).bench.session =
        ((s.move x).play more).bench.session

theorem Discards.isolates (h : s.Hosted) (hx : x.OfSession) (hmore : ∀ y ∈ more, y.OfSession)
    (hd : Discards i s x) : Isolates i s x more := by
  have hnext := h.move hx
  have hg := hd.gone h hx
  have hlast := hnext.play hmore
  have hgone := hg.play hnext hmore
  have hfades := (hd.fades h hx).play hnext hg hmore
  refine ⟨hd.session h hx, hgone.dropped, ?_, fun t d outer => hg.standing_play hnext hmore,
    fun t d outer => (hd.fades h hx).ends hnext hg hmore, fun t d outer f fs ht hdriven hs => ?_,
    fun t d outer f fs hc hdriven hown => ?_⟩
  · obtain ⟨m, hm⟩ := h.exists_of_current hd.1
    obtain ⟨m', hm', -⟩ := h.governed.machine_move x hm
    have hne : m'.bare.epoch ≠ m.bare.epoch := fun heq => hd.2 (by
      rw [Bench.epoch?, Bench.epoch?, hm, hm']
      exact congrArg some heq)
    obtain ⟨sg, hstir, hsg⟩ := (move_moved h.governed.sound x).stir
    obtain ⟨before, n, rfl, hbefore⟩ :=
      hstir.exists_reset (Bench.getElem?_bare_of hm) (Bench.getElem?_bare_of hm') hne
    obtain ⟨sg', hsg', hquiet⟩ := hg.signs_play hnext hmore
    refine ⟨before, List.replicate n .reset ++ sg', ?_, hbefore, fun g hm => ?_⟩
    · rw [hsg', hsg]
      simp
    · rcases List.mem_append.mp hm with hm | hm
      · rw [List.eq_of_mem_replicate hm]
        exact fun hi => by cases hi
      · exact hquiet g hm
  · exact (hlast.serves t f fs ht).awaited_or_own hdriven hs |>.imp_right And.left
  · simp only [play_append]
    have ht := (Roster.current?_eq_some_iff.mp hc).2
    have hlingers : Own i d outer fs → Lingers _ i d outer f fs := fun hown =>
      hfades t d outer f fs ht hdriven hown.suffix
    exact hgone.concludes hlast hdriven (hown.imp_left fun hown => ⟨hlingers hown, hown⟩) hc

/-- A reset of a session isolates what comes after it from what was before, wherever it comes
from and whatever is done with the session then. -/
theorem play_discards (p : Program) (o : Options) (source : Option Source) (sink : Option Sink)
    (moves more : List Move) (x : Move)
    (hsource : ∀ x, source = some x → x.OfSession fun _ => True)
    (hmoves : ∀ y ∈ moves ++ x :: more, y.OfSession)
    (hd : Discards i ((ofSession p o source sink).play moves) x) :
    Isolates i ((ofSession p o source sink).play moves) x more := by
  obtain ⟨hbefore, hx⟩ := List.forall_mem_append.mp hmoves
  obtain ⟨hx, hmore⟩ := List.forall_mem_cons.mp hx
  exact hd.isolates ((hosted_ofSession p o sink hsource).play hbefore) hx hmore

/-- A session that waits for text. -/
def waiting : Scheduler :=
  (ofSession ⟨#[',', '.']⟩ ⟨.integer 1, true⟩ (some (.queue [])) none).play
    (Move.alone .sessionStart 5)

/-- A start waits for text when the session is reset and started again. The text that comes next
goes to the start of the machine that was discarded, which ends with nothing, while the new run
waits on. -/
theorem play_discards_waiting :
    Discards 0 waiting (.outside (.signal .reset)) ∧
      Isolates 0 waiting (.outside (.signal .reset)) (Move.alone .sessionStart 5 ++
        .outside (.feed ['a']) :: .dispatch :: List.replicate 5 .turn) ∧
      ((waiting.move (.outside (.signal .reset))).play (Move.alone .sessionStart 5 ++
        .outside (.feed ['a']) :: .dispatch :: List.replicate 5 .turn)).outcome? 0 =
          some (.ok (.state none)) ∧
      ((waiting.move (.outside (.signal .reset))).play (Move.alone .sessionStart 5 ++
        .outside (.feed ['a']) :: .dispatch :: List.replicate 5 .turn)).bench.Current 1 := by
  have hd : Discards 0 waiting (.outside (.signal .reset)) :=
    discards_signal ⟨_, rfl, rfl⟩ rfl rfl
  refine ⟨hd, play_discards _ _ _ none (Move.alone .sessionStart 5) _ _ ?_ (by decide) hd, rfl, ?_⟩
  · rintro y ⟨⟩
    trivial
  · exact ⟨_, rfl, rfl⟩

end Scheduler
end TapeMachine
