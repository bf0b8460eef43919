import TapeMachine.Proofs.Schedule.Stop

/-! Steps that wait.

A step that waits for its source was called in a turn of its thread, and has been waiting
ever since (`exists_begun`). In all that time nothing but resets can happen to its machine
(`Begun.bare_eq`), whoever else calls it: so without a reset the machine still is what it was
when the step was called, and only knows that a step waits, and when the source answers the
step comes to what it would have come to then (`Begun.completes`). -/
namespace TapeMachine

namespace Machine
variable {m m' : Machine}

theorem wiped_add (m : Machine) (a b : Nat) : m.wiped (a + b) = (m.wiped a).wiped b := by
  induction a generalizing m with
  | zero => rw [Nat.zero_add, wiped]
  | succ a ih =>
    rw [Nat.succ_add]
    exact ih m.reset

theorem settled_bare (m : Machine) : m.settled.bare = m.bare.settled := rfl

/-- A turn that leaves a step waiting where none did is the request for text. -/
theorem Shift.of_begun (h : m.Shift m') (hs : m.stepping = false) (hs' : m'.stepping = true) :
    m.stance = .request ∧ ∃ k, m' = ({m with stepping := true} : Machine).wiped k := by
  obtain ⟨m₁, k, rfl | ⟨a, hd⟩, rfl⟩ := h
  · rw [stepping_wiped, hs] at hs'
    cases hs'
  · rw [stepping_wiped] at hs'
    cases hd with
    | ask hst => exact ⟨hst, k, rfl⟩
    | hear text hw => rw [hs] at hw; cases hw
    | drop late hw => rw [hs] at hw; cases hw
    | work =>
      have hinner := (inner_execute m.noted).stepping.trans (inner_noted m).stepping
      rw [show m.noted.execute.advance.stepping = m.noted.execute.stepping from rfl, hinner,
        hs] at hs'
      cases hs'
    | put => rw [show m.emit.advance.stepping = m.stepping from rfl, hs] at hs'; cases hs'
    | spill => rw [show m.emit.stepping = m.stepping from rfl, hs] at hs'; cases hs'

end Machine

namespace Scheduler
variable {s s₀ : Scheduler} {x : Move} {moves more before after : List Move} {t i epoch : Nat}
  {f : Focus} {fs rest : List Frame} {a : Answer} {m m₀ : Machine}

/-- Thread `t` is in a step of machine `i` that waits for the source, began in an epoch, and
stands on the frames `rest`. -/
def Pending (s : Scheduler) (t i epoch : Nat) (rest : List Frame) : Prop :=
  ∃ f fs, s.roster.threads[t]? = some (.active f fs) ∧ .reading i epoch :: rest <:+ fs

/-- Thread `t` calls a step of machine `i`. -/
def CallsStep (s : Scheduler) (t i : Nat) (rest : List Frame) : Prop :=
  s.roster.current? = some (t, .call (.step i), rest)

/-- In the run `moves` thread `t` has called a step after the moves `before`, when the machine
was `m₀`, and has been in it ever since. -/
structure Begun (s₀ : Scheduler) (moves : List Move) (t i : Nat) (rest : List Frame)
    (before after : List Move) (m₀ : Machine) : Prop where
  split : moves = before ++ after
  calls : (s₀.play before).CallsStep t i rest
  machine : (s₀.play before).bench.machine? i = some m₀
  free : m₀.stepping = false
  waits : (s₀.play before).Along (fun s x => (s.move x).Pending t i m₀.epoch rest) after

/-- Turns call nothing from outside. -/
theorem along_turns (s : Scheduler) (n : Nat) : s.Along Addresses (List.replicate n .turn) := by
  induction n generalizing s with
  | zero => exact trivial
  | succ n ih => exact ⟨trivial, ih _⟩

/-- The machine of a step that waits knows of it. -/
theorem Governed.stepping_of_pending (h : s.Governed) (hp : s.Pending t i epoch rest)
    (hm : s.bench.machine? i = some m) : m.stepping = true := by
  obtain ⟨f, fs, ht, hsuffix⟩ := hp
  have hmem : (i, epoch) ∈ readings fs :=
    (hsuffix.filterMap Frame.reading?).subset List.mem_cons_self
  exact (h.reading hm ht hmem).1

/-- A machine that knows of a step that waits has one. -/
theorem Governed.exists_pending (h : s.Governed) (hm : s.bench.machine? i = some m)
    (hs : m.stepping = true) : ∃ t epoch rest, s.Pending t i epoch rest := by
  have hwaits := (Waiting.iff_of (Bench.getElem?_bare_of hm)).mpr hs
  obtain ⟨⟨j, epoch⟩, hmem, rfl⟩ := List.mem_map.mp ((h.sound.held.waiting i).mp hwaits)
  obtain ⟨t, y, ht, hmem⟩ := Roster.mem_gather_iff.mp hmem
  cases y with
  | finished o => cases hmem
  | active f fs =>
    obtain ⟨d, hd, hread⟩ := List.mem_filterMap.mp hmem
    cases d with
    | reading j epoch =>
      cases hread
      obtain ⟨inner, rest, rfl⟩ := List.append_of_mem hd
      exact ⟨t, epoch, rest, f, _, ht, List.suffix_append _ _⟩
    | _ => cases hread

/-- A step that waits after a move did so before, or it was called in the move. -/
theorem Governed.pending_or_calls (h : s.Governed) (hp : (s.move x).Pending t i epoch rest) :
    s.Pending t i epoch rest ∨ ∃ m, x = .turn ∧ s.CallsStep t i rest ∧
      s.bench.machine? i = some m ∧ m.epoch = epoch ∧ m.stepping = false := by
  obtain ⟨f, fs, ht, hsuffix⟩ := hp
  cases comes_of_move h.orderly ht with
  | stays ht₀ _ => exact .inl ⟨f, fs, ht₀, hsuffix⟩
  | spawned c _ heq =>
    cases heq
    cases List.suffix_nil.mp hsuffix
  | turns f₀ fs₀ hturn hc _ heq =>
    have hframes := Turn.frames_of_thread heq.symm
    rcases (h.yields hc).suffix_reading (hframes ▸ hsuffix) with hr | ⟨rfl, rfl, he⟩
    · exact .inl ⟨f₀, fs₀, (Roster.current?_eq_some_iff.mp hc).2, hr⟩
    · obtain ⟨m, hm, he⟩ := Option.map_eq_some_iff.mp he
      refine .inr ⟨m, hturn, hc, hm, he, Bool.eq_false_iff.mpr fun hs => ?_⟩
      -- a step that finds another one waiting is refused, and does not wait
      rw [← hframes, Bench.advance_of_stepping hm hs] at hsuffix
      exact absurd hsuffix.length_le (Nat.not_succ_le_self _)

/-- A step that waits was called, and has been waiting since. -/
theorem exists_begun (hs : s₀.Starts) (ha : s₀.Along Addresses moves)
    (hp : (s₀.play moves).Pending t i epoch rest) :
    ∃ before after m₀, s₀.Begun moves t i rest before after m₀ ∧ m₀.epoch = epoch ∧
      after ≠ [] := by
  induction moves using List.reverseRecOn with
  | nil =>
    obtain ⟨f, fs, ht, -⟩ := hp
    have hroster : (s₀.play []).roster = {} := by cases hs <;> rfl
    rw [hroster] at ht
    cases ht
  | append_singleton moves x ih =>
    obtain ⟨ha, -⟩ := (along_append Addresses s₀ moves [x]).mp ha
    rw [play_concat] at hp
    rcases (play_governed hs ha).pending_or_calls hp with hp₀ | ⟨m, rfl, hc, hm, rfl, hfree⟩
    · obtain ⟨before, after, m₀, ⟨rfl, hc, hm, hfree, hwaits⟩, rfl, hne⟩ := ih ha hp₀
      refine ⟨before, after ++ [x], m₀, ⟨?_, hc, hm, hfree, ?_⟩, rfl, ?_⟩
      · rw [List.append_assoc]
      · rw [play_append] at hp
        exact (along_append _ _ after [x]).mpr ⟨hwaits, hp, trivial⟩
      · exact List.append_ne_nil_of_right_ne_nil _ (List.cons_ne_nil _ _)
    · exact ⟨moves, [.turn], m, ⟨rfl, hc, hm, hfree, hp, trivial⟩, rfl, List.cons_ne_nil _ _⟩

/-- While the step waits nothing but resets happens to the machine. -/
theorem Governed.play_pending (h : s.Governed) (ha : s.Along Addresses moves)
    (hm : s.bench.machine? i = some m) (hs : m.stepping = true)
    (hw : s.Along (fun s x => (s.move x).Pending t i epoch rest) moves) :
    ∃ m' k, (s.play moves).bench.machine? i = some m' ∧ m'.bare = m.bare.wiped k := by
  induction moves generalizing s m with
  | nil => exact ⟨m, 0, hm, rfl⟩
  | cons x more ih =>
    have h' := h.move ha.1
    obtain ⟨m₁, hm₁, hshift, -⟩ := h.machine_move x hm
    have hs₁ := h'.stepping_of_pending hw.1 hm₁
    obtain ⟨k, hk⟩ := hshift.of_waiting hs hs₁
    obtain ⟨m', k', hm', hk'⟩ := ih h' ha.2 hm₁ hs₁ hw.2
    refine ⟨m', k + k', hm', ?_⟩
    rw [hk', hk, Machine.wiped_add]

/-- From the call of a step that waits nothing but resets has happened to its machine. -/
theorem Begun.bare_eq (hs : s₀.Starts) (ha : s₀.Along Addresses moves)
    (h : s₀.Begun moves t i rest before after m₀) (hne : after ≠ [])
    (hm : (s₀.play moves).bench.machine? i = some m) :
    m₀.stance = .request ∧
      ∃ k, m.bare = ({m₀.bare with stepping := true} : Machine).wiped k := by
  obtain ⟨rfl, hc, hm₀, hfree, hwaits⟩ := h
  obtain ⟨habefore, haafter⟩ := (along_append _ _ _ _).mp ha
  obtain ⟨x, more, rfl⟩ := List.exists_cons_of_ne_nil hne
  have hg := play_governed hs habefore
  have hg' := hg.move haafter.1
  obtain ⟨m₁, hm₁, hshift, -⟩ := hg.machine_move x hm₀
  have hs₁ := hg'.stepping_of_pending hwaits.1 hm₁
  obtain ⟨hst, k, hk⟩ := hshift.of_begun hfree hs₁
  obtain ⟨m', k', hm', hk'⟩ := hg'.play_pending haafter.2 hm₁ hs₁ hwaits.2
  rw [play_append] at hm
  obtain rfl := Option.some.inj (hm'.symm.trans hm)
  refine ⟨hst, k + k', ?_⟩
  rw [hk', hk, Machine.wiped_add]

/-- Without a reset the machine of a step that waits is what it was when the step was called. -/
theorem Begun.settled_bare (hs : s₀.Starts) (ha : s₀.Along Addresses moves)
    (h : s₀.Begun moves t i rest before after m₀) (hne : after ≠ [])
    (hm : (s₀.play moves).bench.machine? i = some m) (he : m.epoch = m₀.epoch) :
    m.settled.bare = m₀.bare := by
  obtain ⟨-, k, hk⟩ := h.bare_eq hs ha hne hm
  have hepoch : m.bare.epoch = m₀.epoch + k := by rw [hk, Machine.epoch_wiped]; rfl
  obtain rfl : k = 0 := by
    have hsame : m.bare.epoch = m₀.epoch := he
    omega
  rw [Machine.settled_bare, hk]
  exact Machine.settled_eq (m := m₀.bare) h.free

/-! ### The end of the wait -/

theorem machine?_of_reading (h : s.Sound)
    (hc : s.roster.current? = some (t, f, .reading i epoch :: fs)) :
    ∃ m, s.bench.machine? i = some m := by
  have ht := (Roster.current?_eq_some_iff.mp hc).2
  have hmem : (i, epoch) ∈ s.roster.readings :=
    Roster.mem_gather_iff.mpr ⟨t, _, ht, List.mem_cons_self⟩
  obtain ⟨n, hn, -, -⟩ := h.held.awaits i epoch hmem
  obtain ⟨m, hm, -⟩ := Bench.exists_of_getElem?_bare hn
  exact ⟨m, hm⟩

/-- The source has answered a step, and the call around the step goes on. -/
theorem advance_answered (hm : s.bench.machine? i = some m)
    (hc : s.roster.current? = some (t, .answered a, .reading i epoch :: rest)) :
    ∃ m' o, m.Hears epoch a m' o ∧ s.advance.bench.machine? i = some m' ∧
      s.advance.roster.current? = some (t, .returned o, rest) := by
  obtain ⟨m', o, hhears, hm', hx⟩ := Bench.endReading_of hm epoch a rest
  rw [advance_of_some hc]
  refine ⟨m', o, hhears, hm', ?_⟩
  rw [show (s.bench.advance (.reading i epoch :: rest) (.answered a)).2 = _ from hx]
  exact Roster.current?_settle_go hc _ _

/-- From here on, as long as thread `t` waits in the step of machine `i` that was called when
the machine was `m₀`, the answer of the source comes to what it would have come to then. -/
def Completes (s : Scheduler) (t i : Nat) (rest : List Frame) (m₀ : Machine) : Prop :=
  ∀ more a, s.Along Addresses more →
    s.Along (fun s x => (s.move x).Pending t i m₀.epoch rest) more →
    (s.play more).roster.current? = some (t, .answered a, .reading i m₀.epoch :: rest) →
    ∃ m m' o, (s.play more).bench.machine? i = some m ∧
      (m.epoch = m₀.epoch → m.settled.bare = m₀.bare) ∧ m.Hears m₀.epoch a m' o ∧
      (s.play more).advance.bench.machine? i = some m' ∧
      (s.play more).advance.roster.current? = some (t, .returned o, rest)

theorem Begun.append (h : s₀.Begun moves t i rest before after m₀)
    (hw : (s₀.play moves).Along (fun s x => (s.move x).Pending t i m₀.epoch rest) more) :
    s₀.Begun (moves ++ more) t i rest before (after ++ more) m₀ := by
  obtain ⟨rfl, hc, hm, hfree, hwaits⟩ := h
  rw [play_append] at hw
  exact ⟨List.append_assoc _ _ _, hc, hm, hfree, (along_append _ _ _ _).mpr ⟨hwaits, hw⟩⟩

theorem Begun.completes (hs : s₀.Starts) (ha : s₀.Along Addresses moves)
    (h : s₀.Begun moves t i rest before after m₀) (hne : after ≠ []) :
    (s₀.play moves).Completes t i rest m₀ := by
  intro more a hmore hw hc
  have hall := (along_append _ _ _ _).mpr ⟨ha, hmore⟩
  rw [← play_append] at hc ⊢
  obtain ⟨m, hm⟩ := machine?_of_reading (play_governed hs hall).sound hc
  obtain ⟨m', o, hhears, hm', hc'⟩ := advance_answered hm hc
  have hne' := List.append_ne_nil_of_left_ne_nil hne more
  exact ⟨m, m', o, hm, (h.append hw).settled_bare hs hall hne' hm, hhears, hm', hc'⟩

/-! ### Free machines -/

/-- What is so after every move is so after the last one. -/
theorem play_of_along {Q : Scheduler → Prop} (h : s.Along (fun s x => Q (s.move x)) moves)
    (hne : moves ≠ []) : Q (s.play moves) := by
  induction moves generalizing s with
  | nil => exact absurd rfl hne
  | cons x more ih =>
    cases more with
    | nil => exact h.1
    | cons y more => exact ih h.2 (List.cons_ne_nil y more)

/-- A step that waits was called after every moment at which none waited. -/
theorem Begun.split_of_free {first more : List Move} (hs : s₀.Starts)
    (ha : s₀.Along Addresses (first ++ more))
    (h : s₀.Begun (first ++ more) t i rest before after m₀)
    (hm : (s₀.play first).bench.machine? i = some m) (hfree : m.stepping = false) :
    ∃ mid, before = first ++ mid ∧ more = mid ++ after := by
  obtain ⟨hsplit, -, -, -, hwaits⟩ := h
  rcases List.append_eq_append_iff.mp hsplit with ⟨mid, hbefore, hmore⟩ | ⟨mid, rfl, rfl⟩
  · exact ⟨mid, hbefore, hmore⟩
  · by_cases hmid : mid = []
    · subst hmid
      exact ⟨[], by simp, by simp⟩
    · -- the step would have been waiting at that moment
      rw [along_append] at hwaits
      have hpending := play_of_along (Q := fun s => s.Pending t i m₀.epoch rest) hwaits.1 hmid
      rw [← play_append] at hpending
      have hg := play_governed hs ((along_append _ _ _ _).mp ha).1
      rw [hg.stepping_of_pending hpending hm] at hfree
      cases hfree

end Scheduler
end TapeMachine
