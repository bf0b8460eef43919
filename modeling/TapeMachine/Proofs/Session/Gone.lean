import TapeMachine.Proofs.Session.Contact
import TapeMachine.Proofs.Session.Drive

/-! Machines that are gone.

A reset of a session leaves the session as new and takes its machine away, wherever it comes
from, a callback of that very machine included (`Scheduler.Discards`). The machine is gone then:
it is not running, the steps of it that wait began before the reset, and nobody calls it, since
only its run loops and the session would (`Scheduler.Gone`). Every move keeps it so. -/
namespace TapeMachine

namespace Bench
variable {b b₁ b' : Bench} {f : Focus} {ls ls' : List Nat} {i : Nat}

/-! ### Resets of a session -/

/-- A session keeps its machine, which is not reset. -/
structure Retains (b b' : Bench) : Prop where
  kept : ∀ i, b.Current i → b'.Current i ∧ b'.epoch? i = b.epoch? i
  forgets : b'.session.map Session.forget = b.session.map Session.forget
  /-- Signals to a session without a machine change nothing. -/
  idle : (∀ i, ¬ b.Current i) → b'.session = b.session

theorem epoch?_of_flags? (h : b'.flags? i = b.flags? i) : b'.epoch? i = b.epoch? i := by
  have hepoch : ∀ b : Bench, b.epoch? i = (b.flags? i).map (·.epoch) := by
    intro b
    rw [flags?, Option.map_map]
    rfl
  rw [hepoch, hepoch, h]

theorem retains_pause {s : Session} (hs : b.session = some s) :
    Retains b (b.signalSession s .pause) := by
  simp only [signalSession]
  split
  next i hi _ =>
    refine ⟨?_, ?_, fun hnone => absurd ⟨s, hs, hi⟩ (hnone i)⟩
    · rintro j ⟨r, hr, hj⟩
      cases hs.symm.trans hr
      exact ⟨⟨_, rfl, hj⟩, epoch?_update Machine.pause (fun _ => rfl) b i j⟩
    · rw [hs]
      rfl
  next => exact ⟨fun j hj => ⟨hj, rfl⟩, rfl, fun _ => rfl⟩

/-- Signals leave a session as new, or with its machine. -/
theorem Heeds.session (h : Heeds b b') :
    b'.session = b.session.map Session.forget ∨ Retains b b' := by
  induction h with
  | @same b b' h =>
    refine .inr ⟨fun i hi => ⟨?_, epoch?_of_flags? (h.flags i)⟩, ?_, fun _ => h.session⟩
    · rwa [Current, h.session]
    · rw [h.session]
  | signal b g =>
    rw [Bench.signal]
    cases hs : b.session with
    | none => exact .inl (by cases g <;> exact hs)
    | some s =>
      cases g with
      | pause => exact .inr (retains_pause hs)
      | reset =>
        left
        simp only [signalSession]
        split
        · rfl
        · rfl
  | @trans b b₁ b' _ _ ih ih' =>
    have hforget : ∀ s : Option Session, (s.map Session.forget).map Session.forget =
        s.map Session.forget := fun s => by rw [Option.map_map]; rfl
    rcases ih with hforgot | hkept
    · rcases ih' with hforgot' | hkept'
      · exact .inl (by rw [hforgot', hforgot, hforget])
      · -- a session as new has no machine
        refine .inl ((hkept'.idle ?_).trans hforgot)
        rintro i ⟨r, hr, hi⟩
        rw [hforgot] at hr
        obtain ⟨r₀, -, rfl⟩ := Option.map_eq_some_iff.mp hr
        cases hi
    · rcases ih' with hforgot' | hkept'
      · exact .inl (hforgot'.trans hkept.forgets)
      · refine .inr ⟨fun i hi => ?_, hkept'.forgets.trans hkept.forgets, fun hnone => ?_⟩
        · obtain ⟨hi₁, he₁⟩ := hkept.kept i hi
          obtain ⟨hi', he'⟩ := hkept'.kept i hi₁
          exact ⟨hi', he'.trans he₁⟩
        · have hsame := hkept.idle hnone
          refine (hkept'.idle fun i hi => hnone i ?_).trans hsame
          rwa [Current, hsame] at hi

/-- A reset of a session counts on its machine. -/
theorem epoch?_reset (hi : b.Current i) :
    (b.signal .reset).epoch? i = (b.epoch? i).map (· + 1) := by
  obtain ⟨s, hs, hi⟩ := hi
  simp only [signal, hs, signalSession, hi]
  show ((b.update i Machine.reset).machine? i).map _ = _
  rw [machine?_update, if_pos rfl, epoch?, Option.map_map, Option.map_map]
  rfl

/-- Nothing but signals resets a machine. -/
theorem Flips.heeds_or_epoch (h : Flips b f ls b' ls') (hi : i < b.machines.size) :
    Heeds b b' ∨ b'.epoch? i = b.epoch? i := by
  have hunpaused : ∀ j, (b.update j Machine.unpause).epoch? i = b.epoch? i := fun j =>
    epoch?_update Machine.unpause (fun _ => rfl) b j i
  cases h with
  | heeds h => exact .inl h
  | halts j _ =>
    exact .inr (epoch?_update (fun m => {m with running := false}) (fun _ => rfl) b j i)
  | joins j _ h => exact .inr ((epoch?_of_flags? (h i)).trans (hunpaused j))
  | enters j _ _ =>
    exact .inr ((epoch?_update Machine.enterLoop (fun _ => rfl) _ j i).trans (hunpaused j))
  | leaves j h =>
    refine .inr ((epoch?_of_flags? (h.flags i)).trans ?_)
    exact epoch?_update Machine.leaveLoop (fun _ => rfl) b j i
  | notes h => exact .inr (epoch?_of_flags? (h i))
  | makes _ h =>
    refine .inr (epoch?_of_flags? ((h i).trans (if_neg ?_)))
    exact Nat.ne_of_lt hi

end Bench

namespace Scheduler
variable {s : Scheduler} {x : Move} {moves more : List Move} {t i : Nat} {f : Focus}
  {fs outer own : List Frame} {d : Frame} {o : Outcome}

/-- In a move the session's machine `i` is reset, so that the session drops it. -/
def Discards (i : Nat) (s : Scheduler) (x : Move) : Prop :=
  s.bench.Current i ∧ (s.move x).bench.epoch? i ≠ s.bench.epoch? i

/-- A user who resets a session discards its machine. -/
theorem discards_signal {m : Machine} (hi : s.bench.Current i) (hm : s.bench.machine? i = some m)
    (hr : s.roster.running = none) : Discards i s (.outside (.signal .reset)) := by
  refine ⟨hi, ?_⟩
  rw [move, if_pos (by rw [hr]; rfl)]
  show (s.bench.signal .reset).epoch? i ≠ s.bench.epoch? i
  rw [Bench.epoch?_reset hi, Bench.epoch?, hm]
  exact fun heq => Nat.succ_ne_self _ (Option.some.inj heq)

/-! ### Sessions that are served -/

/-- All calls are calls on a session, which its threads serve. -/
structure Hosted (s : Scheduler) : Prop where
  governed : s.Governed
  attended : ∃ W, s.Attended (fun _ => True) W

theorem addresses_of_session (hx : x.OfSession) : s.Addresses x := by
  cases x with
  | turn | dispatch => trivial
  | outside z =>
    cases z with
    | spawn c =>
      intro j hj
      cases c with
      | step | run | resume => exact absurd hx id
      | sessionStart | sessionStep => cases hj
    | _ => trivial

theorem hosted_ofSession (p : Program) (o : Options) {source : Option Source}
    (sink : Option Sink) (hsource : ∀ x, source = some x → x.OfSession fun _ => True) :
    (ofSession p o source sink).Hosted :=
  ⟨(Starts.session rfl).governed, _, attended_play p o source sink [] hsource nofun⟩

namespace Hosted
variable (h : s.Hosted)
include h

theorem serves : s.roster.All (Focus.Serves fun _ => True) := h.attended.choose_spec.serves

theorem orderly : s.roster.Orderly := h.governed.orderly

theorem move (hx : x.OfSession) : (s.move x).Hosted := by
  obtain ⟨W, hattended⟩ := h.attended
  refine ⟨h.governed.move (addresses_of_session hx), fun j => W j ∨ s.Wrecks j, ?_⟩
  exact attended_move (fun _ _ => trivial) hattended hx (fun _ _ _ _ _ _ => trivial)
    (fun _ => .inl) fun _ _ => .inr

theorem play (hmoves : ∀ y ∈ moves, y.OfSession) : (s.play moves).Hosted :=
  play_keeps (fun _ _ hx h => h.move hx) h hmoves

/-- A call on a machine was there before a move and the bench is the same, or the machine is one
that goes on, or the session's. -/
theorem called (hx : x.OfSession) {c : Call} (hc : c.machine? = some i)
    (ht : (s.move x).roster.threads[t]? = some (.active (.call c) fs)) :
    ((s.move x).bench = s.bench ∧ (s.roster.threads[t]? = some (.active (.call c) fs) ∨
      s.bench.holds i Machine.goesOn = true)) ∨ s.bench.Engaged (s.move x).bench i := by
  have hserves := (h.move hx).serves t _ _ ht
  have hfree : ¬ c.OfSession := by
    intro hs
    cases c with
    | step | run | resume => exact hs
    | sessionStart | sessionStep => cases hc
  cases comes_of_move h.orderly ht with
  | stays ht₀ hrun =>
    refine .inl ⟨hrun ?_, .inl ht₀⟩
    by_contra hne
    rcases h.orderly.rested t _ _ ht₀ hne with hf | ⟨c', hf, rfl⟩
    · cases hf
    · cases hserves with
      | call hs _ => exact hfree hs
      | step j hk => cases hk
  | spawned c' _ heq =>
    cases heq
    cases hserves with
    | call hs _ => exact absurd hs hfree
    | step j hk => cases hk
  | turns f₀ fs₀ _ hcur hmove heq =>
    have hturn := Turn.eq_of_thread heq.symm nofun
    rw [hmove]
    have hfits := h.governed.sound.fits t f₀ fs₀ (Roster.current?_eq_some_iff.mp hcur).2
    rcases (h.governed.yields hcur).machine_of_serving hfits hturn hserves hc with ⟨hb, hgo⟩ | he
    · exact .inl ⟨hb, .inr hgo⟩
    · exact .inr he

end Hosted

/-! ### Nobody calls a machine that is gone -/

/-- Machine `i` is not the session's, and nobody is about to call it. -/
structure Gone (i : Nat) (s : Scheduler) : Prop where
  dropped : ¬ s.bench.Current i
  uncalled : s.roster.All fun f _ => ∀ c, f = .call c → c.machine? ≠ some i
  /-- It is not running, and its steps that wait began before it was reset. -/
  machine : ∃ m, s.bench.machine? i = some m ∧ m.running = false ∧
    s.roster.All fun _ fs => ∀ epoch rest, .reading i epoch :: rest <:+ fs → epoch < m.epoch

theorem Hosted.exists_of_current (h : s.Hosted) (hi : s.bench.Current i) :
    ∃ m, s.bench.machine? i = some m := by
  obtain ⟨r, hr, hi⟩ := hi
  have hlt := h.governed.sound.manned.current r i hr hi
  exact ⟨_, Array.getElem?_eq_getElem hlt⟩

/-- A step that waits after a move did so before, or has been called in the move. -/
theorem Hosted.reading_move (h : s.Hosted) {epoch : Nat} {rest : List Frame}
    (ht : (s.move x).roster.threads[t]? = some (.active f fs))
    (hr : .reading i epoch :: rest <:+ fs) :
    (∃ f₀ fs₀, s.roster.threads[t]? = some (.active f₀ fs₀) ∧ .reading i epoch :: rest <:+ fs₀) ∨
      (s.roster.threads[t]? = some (.active (.call (.step i)) rest) ∧
        s.bench.epoch? i = some epoch) := by
  cases comes_of_move h.orderly ht with
  | stays ht₀ _ => exact .inl ⟨f, fs, ht₀, hr⟩
  | spawned c _ heq =>
    cases heq
    cases List.suffix_nil.mp hr
  | turns f₀ fs₀ _ hc _ heq =>
    obtain ⟨-, ht₀⟩ := Roster.current?_eq_some_iff.mp hc
    have hframes := Turn.frames_of_thread heq.symm
    rcases (h.governed.yields hc).suffix_reading (hframes ▸ hr) with hr | ⟨rfl, rfl, he⟩
    · exact .inl ⟨f₀, fs₀, ht₀, hr⟩
    · exact .inr ⟨ht₀, he⟩

/-- A reset leaves the session as new. -/
theorem Discards.session (h : s.Hosted) (hx : x.OfSession) (hd : Discards i s x) :
    (s.move x).bench.session = s.bench.session.map Session.forget := by
  obtain ⟨hi, he⟩ := hd
  have hheeds : s.bench.Heeds (s.move x).bench →
      (s.move x).bench.session = s.bench.session.map Session.forget := fun hb =>
    hb.session.resolve_right fun hkept => he (hkept.kept i hi).2
  cases x with
  | turn =>
    rw [move] at he hheeds ⊢
    cases hc : s.roster.current? with
    | none =>
      rw [advance_of_none h.orderly hc] at he
      exact absurd rfl he
    | some c =>
      obtain ⟨t, f, fs⟩ := c
      obtain ⟨m, hm⟩ := h.exists_of_current hi
      have hfits := h.governed.sound.fits t f fs (Roster.current?_eq_some_iff.mp hc).2
      rw [advance_of_some hc] at he hheeds ⊢
      refine hheeds (((Bench.advance_flips hfits).heeds_or_epoch ?_).resolve_right he)
      exact Bench.lt_size_of_machine? hm
  | dispatch => exact absurd rfl he
  | outside z =>
    rw [move] at he hheeds ⊢
    split at he
    next hr =>
      rw [if_pos hr] at hheeds ⊢
      cases z with
      | signal g => exact hheeds (.signal s.bench g)
      | signalMachine j g => exact absurd hx id
      | cooperate j on =>
        have hsame := Bench.epoch?_update (fun m => {m with cooperative := on}) (fun _ => rfl)
          s.bench j i
        exact absurd hsame he
      | spawn | feed | edit => exact absurd rfl he
    next => exact absurd rfl he

/-- A machine that is discarded is gone. -/
theorem Discards.gone (h : s.Hosted) (hx : x.OfSession) (hd : Discards i s x) :
    (s.move x).Gone i := by
  obtain ⟨hi, he⟩ := id hd
  obtain ⟨m, hm⟩ := h.exists_of_current hi
  obtain ⟨m', hm', -, hflips, -⟩ := h.governed.machine_move x hm
  have hrise : m'.epoch ≠ m.epoch := fun heq =>
    he (by rw [Bench.epoch?, Bench.epoch?, hm, hm', Option.map_some, Option.map_some, heq])
  have hlt : m.epoch < m'.epoch := Nat.lt_of_le_of_ne hflips.epoch_le (Ne.symm hrise)
  refine ⟨?_, fun t f fs ht => ?_, m', hm', Bool.eq_false_iff.mpr fun hr => ?_,
    fun t f fs ht epoch rest hr => ?_⟩
  · rintro ⟨r, hr, hcur⟩
    rw [hd.session h hx] at hr
    obtain ⟨r₀, -, rfl⟩ := Option.map_eq_some_iff.mp hr
    cases hcur
  · rintro c rfl hc
    rcases h.called hx hc ht with ⟨hb, -⟩ | ⟨-, hb⟩ | ⟨hnew, -⟩
    · exact he (by rw [hb])
    · exact he (by rw [Bench.epoch?, Bench.epoch?, Bench.machine?, hb]; rfl)
    · exact Nat.ne_of_lt (Bench.lt_size_of_machine? hm) hnew
  · exact hrise (hflips.running hr).1
  · refine Nat.lt_of_le_of_lt ?_ hlt
    rcases h.reading_move ht hr with ⟨f₀, fs₀, ht₀, hr₀⟩ | ⟨-, hepoch⟩
    · have hmem : (i, epoch) ∈ readings fs₀ :=
        readings_of_suffix hr₀ _ (List.mem_cons_self (a := (i, epoch)) (l := readings rest))
      exact (h.governed.reading hm ht₀ hmem).2
    · rw [Bench.epoch?, hm] at hepoch
      exact Nat.le_of_eq (Option.some.inj hepoch).symm

theorem Gone.lt_size (hg : s.Gone i) : i < s.bench.machines.size := by
  obtain ⟨m, hm, -⟩ := hg.machine
  exact Bench.lt_size_of_machine? hm

theorem Gone.not_engaged (hg : s.Gone i) (b : Bench) : ¬ s.bench.Engaged b i := by
  rintro (⟨hi, -⟩ | ⟨hnew, -⟩)
  · exact hg.dropped hi
  · exact Nat.ne_of_lt hg.lt_size hnew

/-- A machine that is gone stays so. -/
theorem Gone.move (h : s.Hosted) (hx : x.OfSession) (hg : s.Gone i) : (s.move x).Gone i := by
  obtain ⟨m, hm, hrunning, hstale⟩ := hg.machine
  obtain ⟨m', hm', -, hflips, -⟩ := h.governed.machine_move x hm
  refine ⟨fun hcur => ?_, fun t f fs ht => ?_, m', hm', Bool.eq_false_iff.mpr fun hr => ?_,
    fun t f fs ht epoch rest hr => ?_⟩
  · rcases (reaches_move s x).current i hcur with hcur | hle
    · exact hg.dropped hcur
    · exact Nat.not_lt_of_le hle hg.lt_size
  · rintro c rfl hc
    rcases h.called hx hc ht with ⟨-, ht₀ | hgo⟩ | he
    · exact hg.uncalled t _ _ ht₀ c rfl hc
    · rw [Bench.holds_of hm, Machine.goesOn, hrunning] at hgo
      cases hgo
    · exact hg.not_engaged _ he
  · rcases (hflips.running hr).2 with ⟨hr₀, -⟩ | ⟨hidle, hactive⟩
    · rw [show m.flags.running = false from hrunning] at hr₀
      cases hr₀
    · -- a run loop would have begun, and somebody called the machine
      have hcount := (h.move hx).governed.looped i m'.flags (by rw [Bench.flags?, hm']; rfl)
      rw [hactive] at hcount
      have hmem : i ∈ (s.move x).roster.runs :=
        List.count_pos_iff.mp (by rw [hcount]; exact Nat.one_pos)
      obtain ⟨t, y, ht, hy⟩ := Roster.mem_gather_iff.mp hmem
      cases y with
      | finished o => cases hy
      | active f fs =>
        obtain ⟨above, rest, hfs⟩ := List.append_of_mem ((mem_runs_iff fs).mp hy)
        rcases h.governed.inLoop_or_enters ⟨f, fs, ht, above, hfs.symm⟩ with hl | ⟨-, he⟩
        · have hlooping : m.flags.looping = true := h.governed.looping_of_inLoop hm hl
          rw [hidle] at hlooping
          cases hlooping
        · obtain ⟨⟨c, hruns, hc⟩, -⟩ := he
          obtain ⟨-, ht₀⟩ := Roster.current?_eq_some_iff.mp hc
          exact hg.uncalled t _ _ ht₀ c rfl hruns.machine?
  · refine Nat.lt_of_lt_of_le ?_ hflips.epoch_le
    rcases h.reading_move ht hr with ⟨f₀, fs₀, ht₀, hr₀⟩ | ⟨ht₀, -⟩
    · exact hstale t f₀ fs₀ ht₀ epoch rest hr₀
    · exact absurd rfl (hg.uncalled t _ _ ht₀ _ rfl)

end Scheduler
end TapeMachine
