import TapeMachine.Proofs.Schedule.Exclusion

/-! Inside a run loop.

A thread that is within a run loop has entered it in a turn of its own, and has been in it
ever since (`Scheduler.Enters`, `Scheduler.exists_course`). All that time, unless the machine
was reset since the loop was entered, the machine is running or has come to the end of its
program (`Scheduler.Course`). -/
namespace TapeMachine

theorem Machine.Shift.ended {m m' : Machine} (h : m.Shift m') (he : m'.epoch = m.epoch)
    (hend : m.ended = true) : m'.ended = true := by
  have hle : m.program.size ≤ m.counter := of_decide_eq_true hend
  rcases h.progress with hstill | hstep | ⟨hlt, -⟩
  · refine decide_eq_true ?_
    rw [hstill.program, hstill.counter]
    exact hle
  · exact absurd hstep.running (Nat.not_lt_of_le hle)
  · exact absurd he (Nat.ne_of_gt hlt)

namespace Bench
variable {b b' : Bench} {f : Focus} {fs rest : List Frame} {x : Turn} {i j epoch : Nat}
  {m : Machine}

/-! ### Steps that execute nothing -/

/-- A step that ends at once without being completed finds the end of the program, or its sink
resets the machine. -/
theorem callStep_idle (hm : b.machine? i = some m)
    (h : (b.callStep i fs).2 = .value (.stepped false) rest) :
    m.ended = true ∨ (b.callStep i fs).1.epoch? i ≠ some m.epoch := by
  rw [callStep, hm, Option.map_some] at h ⊢
  cases hstance : m.stance with
  | occupied c =>
    rw [hstance] at h
    cases h
  | ended => exact .inl (Machine.stance_eq_ended_iff.mp hstance).2
  | output =>
    rw [hstance] at h
    simp only at h ⊢
    rw [putOut, hm, Option.map_some] at h ⊢
    cases hspeaks : m.speaks with
    | false =>
      rw [hspeaks] at h
      cases h
    | true =>
      rw [hspeaks] at h
      simp only at h ⊢
      split at h
      next => cases h
      next hdelivered =>
        split at h
        next => cases h
        next he =>
          rw [if_neg he]
          exact .inr he
  | request =>
    rw [hstance] at h
    simp only at h
    rw [request, hm] at h
    rcases turn_ask ((b.update i fun m => {m with stepping := true}).log (.requested m.counter)) i
      (.reading i m.epoch :: fs) with ⟨a, ha⟩ | ⟨y, hy, -⟩
    · cases ha.symm.trans h
    · cases hy.symm.trans h
  | inward =>
    rw [hstance] at h
    cases h

/-- A step that waited and ends without being completed began before a reset. -/
theorem endReading_idle {a : Answer}
    (h : (b.endReading i epoch a fs).2 = .value (.stepped false) rest) :
    b.epoch? i ≠ some epoch := by
  rw [endReading.eq_def] at h
  simp only at h
  split at h
  next => cases h
  next text =>
    split at h
    next => cases h
    next he =>
      have hfreed : ((b.update i fun m => {m with stepping := false}).record
          (.answered i text)).epoch? i = b.epoch? i :=
        epoch?_update (fun m => {m with stepping := false}) (fun _ => rfl) b i i
      rwa [hfreed] at he

/-! ### Frames -/

/-- A frame that a turn puts on those of a thread that makes a call. -/
inductive Pushes (b : Bench) (fs : List Frame) : Call → Bench → Turn → Frame → Prop
  | reading {b' : Bench} {x : Turn} (i epoch : Nat) : b.epoch? i = some epoch →
      Pushes b fs (.step i) b' x (.reading i epoch)
  | looping (i : Nat) {c : Call} : c.Runs i →
      Pushes b fs c ((b.update i Machine.unpause).update i Machine.enterLoop)
        (.go .resumed (.looping i :: fs)) (.looping i)
  | starting {b' : Bench} {x : Turn} (i : Nat) : b.Engaged b' i →
      Pushes b fs .sessionStart b' x (.starting i)
  | stepping {b' : Bench} {x : Turn} (i : Nat) : b.Engaged b' i →
      Pushes b fs .sessionStep b' x (.stepping i)

/-- What a source is about while a step waits for its answer. -/
def Sourcing (d : Frame) : Prop :=
  d = .getting ∨ (∃ v, d = .calling v) ∨ ∃ deeds answer, d = .replying deeds answer

/-- Some frames that a turn leaves were there before, or the turn has put the innermost of
them on the others. -/
theorem Yields.suffix {d : Frame} (h : b.Yields f fs b' x) (hd : ¬ Sourcing d)
    (hx : d :: rest <:+ x.frames) :
    d :: rest <:+ fs ∨ fs = rest ∧ ∃ c, f = .call c ∧ Pushes b fs c b' x d := by
  have htail : ∀ {y : Frame} {gs : List Frame}, Sourcing y → d :: rest <:+ y :: gs →
      d :: rest <:+ gs := fun hy hx =>
    (List.suffix_cons_iff.mp hx).resolve_left fun heq => hd ((List.cons.inj heq).1 ▸ hy)
  have hcons : ∀ {y : Frame} {gs : List Frame}, d :: rest <:+ gs → d :: rest <:+ y :: gs :=
    fun hx => hx.trans (List.suffix_cons _ _)
  have hnew : ∀ {y : Frame} {c : Call}, f = .call c → Pushes b fs c b' x y →
      d :: rest <:+ y :: fs →
      d :: rest <:+ fs ∨ fs = rest ∧ ∃ c, f = .call c ∧ Pushes b fs c b' x d := by
    intro y c hf hy hx
    rcases List.suffix_cons_iff.mp hx with heq | hx
    · cases heq
      exact .inr ⟨rfl, c, hf, hy⟩
    · exact .inl hx
  cases h with
  | steps | joins | turns | next | again | sleeps | waits => exact .inl hx
  | stops | breaks | fails | settles | notes | hears | takes | answers => exact .inl (hcons hx)
  | asks i epoch a he => exact hnew rfl (.reading i epoch he) hx
  | awaits i epoch y he hy =>
    refine hnew rfl (.reading i epoch he) (htail ?_ hx)
    exact hy.imp_right .inr
  | enters i hc => exact hnew rfl (.looping i hc) hx
  | starts i hc he => exact hnew rfl (.starting i he) hx
  | begins i he => exact hnew rfl (.stepping i he) hx
  | rests deeds answer => exact .inl (hcons (htail (.inr (.inr ⟨_, _, rfl⟩)) hx))
  | signals g deeds answer => exact .inl (hcons (htail (.inr (.inr ⟨_, _, rfl⟩)) hx))
  | calls v deeds answer =>
    exact .inl (hcons (htail (.inr (.inr ⟨_, _, rfl⟩)) (htail (.inr (.inl ⟨v, rfl⟩)) hx)))
  | done o => exact absurd (List.suffix_nil.mp hx) (List.cons_ne_nil _ _)

/-- A run loop that a turn leaves among the frames was there before, or the turn has begun
it. -/
theorem Yields.suffix_looping (h : b.Yields f fs b' x) (hx : .looping i :: rest <:+ x.frames) :
    .looping i :: rest <:+ fs ∨ ∃ c, f = .call c ∧ c.Runs i ∧ fs = rest ∧
      b' = (b.update i Machine.unpause).update i Machine.enterLoop ∧
      x = .go .resumed (.looping i :: rest) := by
  have hd : ¬ Sourcing (.looping i) := by
    rintro (h | ⟨v, h⟩ | ⟨deeds, answer, h⟩) <;> cases h
  rcases h.suffix hd hx with hx | ⟨rfl, c, rfl, hpush⟩
  · exact .inl hx
  · cases hpush with
    | looping _ hc => exact .inr ⟨c, rfl, hc, rfl, rfl, rfl⟩

/-- A step that waits after a turn did so before, or it was called in the turn. -/
theorem Yields.suffix_reading (h : b.Yields f fs b' x)
    (hx : .reading i epoch :: rest <:+ x.frames) :
    .reading i epoch :: rest <:+ fs ∨
      (fs = rest ∧ f = .call (.step i) ∧ b.epoch? i = some epoch) := by
  have hd : ¬ Sourcing (.reading i epoch) := by
    rintro (h | ⟨v, h⟩ | ⟨deeds, answer, h⟩) <;> cases h
  rcases h.suffix hd hx with hx | ⟨rfl, c, rfl, hpush⟩
  · exact .inl hx
  · cases hpush with
    | reading _ _ he => exact .inr ⟨rfl, rfl, he⟩

/-- The outcome of a step comes from a step that ends at once, or from one that waited. -/
theorem Yields.step_of_returned {v : Bool} (h : b.Yields f fs b' x)
    (hx : x = .value (.stepped v) rest) :
    (∃ i, f = .call (.step i) ∧ fs = rest) ∨
      ∃ a i epoch, f = .answered a ∧ fs = .reading i epoch :: rest := by
  cases h with
  | steps i ho =>
    cases hx
    exact .inl ⟨i, rfl, rfl⟩
  | hears i epoch a ho =>
    cases hx
    exact .inr ⟨a, i, epoch, rfl, rfl⟩
  | turns hc ho =>
    cases hx
    exact absurd ho id
  | _ => cases hx

end Bench

namespace Scheduler
variable {s s₀ : Scheduler} {x : Move} {moves : List Move} {t i e₀ : Nat} {f : Focus}
  {fs rest : List Frame} {m m' : Machine}

/-- Thread `t` is in a run loop of machine `i` that stands on the frames `rest`. -/
def InLoop (s : Scheduler) (t i : Nat) (rest : List Frame) : Prop :=
  ∃ f fs, s.roster.threads[t]? = some (.active f fs) ∧ .looping i :: rest <:+ fs

/-- Thread `t` is about to enter a run loop of machine `i`. -/
def Enters (s : Scheduler) (t i : Nat) (rest : List Frame) : Prop :=
  (∃ c, c.Runs i ∧ s.roster.current? = some (t, .call c, rest)) ∧
    s.advance.roster.current? = some (t, .resumed, .looping i :: rest)

/-! ### Moves -/

namespace Governed
variable (h : s.Governed)
include h

/-- What a move makes of a machine and its flags. -/
theorem machine_move (x : Move) (hm : s.bench.machine? i = some m) :
    ∃ m', (s.move x).bench.machine? i = some m' ∧ m.bare.Shift m'.bare ∧
      m.flags.Flips m'.flags ∧ m.flags.Lasts (s.bench.Halts i) (s.Rouses x i) m'.flags := by
  obtain ⟨sg, hstir, -⟩ := (move_moved h.sound x).stir
  obtain ⟨n, hn, hshift⟩ := hstir.at_index (Bench.getElem?_bare_of hm)
  obtain ⟨m', hm', rfl⟩ := Bench.exists_of_getElem?_bare hn
  obtain ⟨y, hy, hflips, hlasts⟩ := (h.flipped x).flips i m.flags (by rw [Bench.flags?, hm]; rfl)
  rw [Bench.flags?, hm'] at hy
  cases hy
  exact ⟨m', hm', hshift, hflips, hlasts⟩

theorem epoch_le (x : Move) (hm : s.bench.machine? i = some m)
    (hm' : (s.move x).bench.machine? i = some m') : m.epoch ≤ m'.epoch := by
  obtain ⟨n, hn, -, hflips, -⟩ := h.machine_move x hm
  obtain rfl := Option.some.inj (hn.symm.trans hm')
  exact hflips.epoch_le

theorem ended_move (x : Move) (hm : s.bench.machine? i = some m)
    (hm' : (s.move x).bench.machine? i = some m') (he : m'.epoch = m.epoch)
    (hend : m.ended = true) : m'.ended = true := by
  obtain ⟨n, hn, hshift, -⟩ := h.machine_move x hm
  obtain rfl := Option.some.inj (hn.symm.trans hm')
  exact hshift.ended he hend

/-- Without a reset, an active run loop runs on until the program has ended. -/
theorem upholds (x : Move) (hm : s.bench.machine? i = some m)
    (hm' : (s.move x).bench.machine? i = some m') (he : m'.epoch = m.epoch)
    (hl : m'.looping = true) (hr : m.running = true ∨ m.ended = true) :
    m'.running = true ∨ m'.ended = true := by
  obtain ⟨n, hn, -, -, hlasts⟩ := h.machine_move x hm
  obtain rfl := Option.some.inj (hn.symm.trans hm')
  rcases hr with hr | hend
  · refine (hlasts.running he hr hl).imp_right fun hhalts => ?_
    rw [Bench.Halts, hm, Option.map_some, Option.some.injEq] at hhalts
    exact h.ended_move x hm hm' he (Machine.stance_eq_ended_iff.mp hhalts).2
  · exact .inr (h.ended_move x hm hm' he hend)

theorem looping_of_inLoop (hm : s.bench.machine? i = some m) (hl : s.InLoop t i rest) :
    m.looping = true := by
  obtain ⟨f, fs, ht, hsuffix⟩ := hl
  exact h.looped.looping ht (hsuffix.subset List.mem_cons_self) (by rw [Bench.flags?, hm]; rfl)

theorem machine?_of_inLoop (hl : s.InLoop t i rest) : ∃ m, s.bench.machine? i = some m := by
  obtain ⟨f, fs, ht, hsuffix⟩ := hl
  have hlt := h.runs i (Roster.mem_runs ht (hsuffix.subset List.mem_cons_self))
  exact ⟨_, Array.getElem?_eq_getElem hlt⟩

/-- The machine of a step that waits knows of it, and was not made later. -/
theorem reading (hm : s.bench.machine? i = some m)
    (ht : s.roster.threads[t]? = some (.active f fs)) {epoch : Nat}
    (hr : (i, epoch) ∈ readings fs) : m.stepping = true ∧ epoch ≤ m.epoch := by
  have hmem : (i, epoch) ∈ s.roster.readings := Roster.mem_gather_iff.mpr ⟨t, _, ht, hr⟩
  have hwaits := (h.sound.held.waiting i).mpr (Held.fst_mem hmem)
  rw [Waiting.iff_of (Bench.getElem?_bare_of hm)] at hwaits
  obtain ⟨n, hn, hle, -⟩ := h.sound.held.awaits i epoch hmem
  obtain rfl := Option.some.inj (hn.symm.trans (Bench.getElem?_bare_of hm))
  exact ⟨hwaits, hle⟩

end Governed

/-! ### From the entry on -/

/-- A step of a run loop that ends without being completed found the end of the program, or
began before a reset that came since. -/
theorem Governed.idle (h : s.Governed) (hc : s.roster.current? = some (t, f, fs))
    (hx : (s.bench.advance fs f).2 = .value (.stepped false) (.looping i :: rest))
    (hm : s.bench.machine? i = some m) (hm' : s.advance.bench.machine? i = some m')
    (he : m'.epoch = m.epoch) :
    m.ended = true ∨ ∃ epoch, .reading i epoch :: .looping i :: rest <:+ fs ∧ epoch < m.epoch := by
  have hlayers := h.layers_of_current hc
  have hb : s.advance.bench = (s.bench.advance fs f).1 := by rw [advance_of_some hc]
  rcases (h.yields hc).step_of_returned hx with ⟨j, rfl, rfl⟩ | ⟨a, j, epoch, rfl, rfl⟩
  · obtain rfl : j = i := by
      rcases hlayers.of_looping.2 with heq | heq | ⟨o, heq, -⟩ <;> cases heq
      rfl
    refine .inl ((Bench.callStep_idle hm hx).resolve_right fun hne => hne ?_)
    show (s.bench.advance _ (.call (.step j))).1.epoch? j = _
    rw [← hb, Bench.epoch?, hm', Option.map_some, he]
  · obtain rfl : j = i := by
      cases hlayers with
      | answered _ _ _ hk hl => exact (hk i hl.of_looping.1).symm
    refine .inr ⟨epoch, List.suffix_refl _, ?_⟩
    have hle := (h.reading hm (Roster.current?_eq_some_iff.mp hc).2
      (List.mem_cons_self (a := (j, epoch)) (l := readings (.looping j :: rest)))).2
    refine Nat.lt_of_le_of_ne hle fun heq => Bench.endReading_idle (b := s.bench) hx ?_
    rw [Bench.epoch?, hm, heq]
    rfl

/-- A thread is in a run loop that was entered in epoch `e₀`. -/
structure Course (s : Scheduler) (t i : Nat) (rest : List Frame) (e₀ : Nat) : Prop where
  inLoop : s.InLoop t i rest
  machine : ∀ m, s.bench.machine? i = some m →
    e₀ ≤ m.epoch ∧ (m.epoch = e₀ → m.running = true ∨ m.ended = true) ∧
      (e₀ < m.epoch → m.running = false)
  /-- A step of the loop that waits began after the entry. -/
  reading : ∀ f fs epoch, s.roster.threads[t]? = some (.active f fs) →
    .reading i epoch :: .looping i :: rest <:+ fs → e₀ ≤ epoch
  /-- A step of the loop that has executed nothing found the end of the program, or a reset. -/
  stepped : s.roster.threads[t]? = some
      (.active (.returned (.ok (.stepped false))) (.looping i :: rest)) →
    ∀ m, s.bench.machine? i = some m → m.ended = true ∨ e₀ < m.epoch

theorem Enters.course (h : s.Governed) (he : s.Enters t i rest)
    (hm : s.bench.machine? i = some m) : s.advance.Course t i rest m.epoch := by
  obtain ⟨⟨c, hruns, hc⟩, hc'⟩ := he
  obtain ⟨-, ht'⟩ := Roster.current?_eq_some_iff.mp hc'
  have hself : .looping i :: rest <:+ .looping i :: rest := List.suffix_refl _
  have hturn := Roster.current?_eq_some_iff.mp hc
  have hx : (s.bench.advance rest (.call c)).2.thread =
      .active .resumed (.looping i :: rest) := by
    rw [advance_of_some hc] at ht'
    exact Option.some.inj ((Roster.getElem?_settle_self hturn.2 _).symm.trans ht')
  have hframes : (s.bench.advance rest (.call c)).2.frames = .looping i :: rest := by
    rw [← Turn.frames_thread, hx]
    rfl
  have hb : s.advance.bench = (s.bench.update i Machine.unpause).update i Machine.enterLoop := by
    have hleft : .looping i :: rest <:+ (s.bench.advance rest (.call c)).2.frames :=
      hframes ▸ hself
    rw [advance_of_some hc]
    rcases (h.yields hc).suffix_looping hleft with hsuffix | ⟨-, -, -, -, hb, -⟩
    · exact absurd hsuffix.length_le (Nat.not_succ_le_self _)
    · exact hb
  have hm' : s.advance.bench.machine? i = some m.unpause.enterLoop := by
    rw [hb]
    exact Bench.machine?_update_self (Bench.machine?_update_self hm _) _
  refine ⟨⟨_, _, ht', hself⟩, fun n hn => ?_, fun f fs epoch ht hr => ?_, fun ht => ?_⟩
  · cases hm'.symm.trans hn
    exact ⟨Nat.le_refl _, fun _ => .inl rfl, fun hlt => absurd hlt (Nat.lt_irrefl _)⟩
  · cases ht'.symm.trans ht
    exact absurd hr.length_le (Nat.not_succ_le_self _)
  · cases ht'.symm.trans ht

/-- Every move keeps what is known of a run loop as long as its thread is in it. -/
theorem Course.move (h : s.Governed) (hx : s.Addresses x) (hk : s.Course t i rest e₀)
    (hl : (s.move x).InLoop t i rest) : (s.move x).Course t i rest e₀ := by
  obtain ⟨m, hm⟩ := h.machine?_of_inLoop hk.inLoop
  obtain ⟨m', hm', -, hflips, -⟩ := h.machine_move x hm
  obtain ⟨hle, hgoes, hcut⟩ := hk.machine m hm
  have hle' := h.epoch_le x hm hm'
  have hlooping : m'.looping = true := (h.move hx).looping_of_inLoop hm' hl
  obtain ⟨f, fs, ht, hsuffix⟩ := hk.inLoop
  refine ⟨hl, fun n hn => ?_, fun f' fs' epoch ht' hr => ?_, fun ht' n hn => ?_⟩
  · cases hm'.symm.trans hn
    refine ⟨Nat.le_trans hle hle', fun he => ?_, fun hlt => Bool.eq_false_iff.mpr fun hr => ?_⟩
    · have hsame : m'.epoch = m.epoch := Nat.le_antisymm (he ▸ hle) hle'
      exact h.upholds x hm hm' hsame hlooping (hgoes (hsame.symm.trans he))
    · -- nothing but a run loop that begins sets the machine running, and one is active
      obtain ⟨hsame, hr⟩ := hflips.running hr
      change m'.epoch = m.epoch at hsame
      have hactive : m.flags.looping = true := h.looping_of_inLoop hm hk.inLoop
      rw [hactive, show m.flags.running = false from hcut (hsame ▸ hlt)] at hr
      rcases hr with ⟨hr, -⟩ | ⟨hr, -⟩ <;> cases hr
  · cases comes_of_move h.orderly ht' with
    | stays ht₀ _ => exact hk.reading _ _ epoch ht₀ hr
    | spawned c hnone _ => cases hnone.symm.trans ht
    | turns f₀ fs₀ _ hc _ heq =>
      have ht₀ := (Roster.current?_eq_some_iff.mp hc).2
      have hframes := Turn.frames_of_thread heq.symm
      rcases (h.yields hc).suffix_reading (hframes ▸ hr) with hr | ⟨rfl, rfl, he⟩
      · exact hk.reading _ _ epoch ht₀ hr
      · rw [Bench.epoch?, hm] at he
        cases he
        exact hle
  · cases hm'.symm.trans hn
    by_cases hreset : e₀ < m'.epoch
    · exact .inr hreset
    · have hsame : m'.epoch = m.epoch := by omega
      have heq₀ : m.epoch = e₀ := by omega
      refine .inl ?_
      cases comes_of_move h.orderly ht' with
      | stays ht₀ _ =>
        refine h.ended_move x hm hm' hsame ((hk.stepped ht₀ m hm).resolve_right ?_)
        omega
      | spawned c hnone _ => cases hnone.symm.trans ht
      | turns f₀ fs₀ hturn hc hmove heq =>
        subst hturn
        have hx := Turn.eq_of_thread heq.symm fun hf => by cases hf
        refine h.ended_move .turn hm hm' hsame ((h.idle hc hx hm hm' hsame).resolve_right ?_)
        rintro ⟨epoch, hr, hlt⟩
        have hle₀ := hk.reading _ _ epoch (Roster.current?_eq_some_iff.mp hc).2 hr
        omega

/-! ### Runs -/

/-- A thread that is in a run loop after a move was in it before, or enters it. -/
theorem Governed.inLoop_or_enters (h : s.Governed) (hl : (s.move x).InLoop t i rest) :
    s.InLoop t i rest ∨ (x = .turn ∧ s.Enters t i rest) := by
  obtain ⟨f, fs, ht, hsuffix⟩ := hl
  cases comes_of_move h.orderly ht with
  | stays ht₀ _ => exact .inl ⟨f, fs, ht₀, hsuffix⟩
  | spawned c _ heq =>
    cases heq
    cases List.suffix_nil.mp hsuffix
  | turns f₀ fs₀ hturn hc _ heq =>
    subst hturn
    have hframes := Turn.frames_of_thread heq.symm
    rcases (h.yields hc).suffix_looping (hframes ▸ hsuffix) with hl | ⟨c, rfl, hruns, rfl, -, hx⟩
    · exact .inl ⟨f₀, fs₀, (Roster.current?_eq_some_iff.mp hc).2, hl⟩
    · refine .inr ⟨rfl, ⟨c, hruns, hc⟩, ?_⟩
      rw [advance_of_some hc, hx]
      exact Roster.current?_settle_go hc _ _

/-- After a move thread `t` is in a run loop. -/
def Stays (t i : Nat) (rest : List Frame) (s : Scheduler) (x : Move) : Prop :=
  (s.move x).InLoop t i rest

theorem Course.play (h : s.Governed) (ha : s.Along Addresses moves) (hk : s.Course t i rest e₀)
    (hl : s.Along (Stays t i rest) moves) : (s.play moves).Course t i rest e₀ := by
  induction moves generalizing s with
  | nil => exact hk
  | cons x more ih => exact ih (h.move ha.1) ha.2 (hk.move h ha.1 hl.1) hl.2

/-- In the run `moves` thread `t` has entered a run loop after the moves `before`, when the
machine was `m₀`, and has been in it ever since. -/
structure Entered (s₀ : Scheduler) (moves : List Move) (t i : Nat) (rest : List Frame)
    (before after : List Move) (m₀ : Machine) : Prop where
  split : moves = before ++ .turn :: after
  enters : (s₀.play before).Enters t i rest
  machine : (s₀.play before).bench.machine? i = some m₀
  stays : (s₀.play before).advance.Along (Stays t i rest) after

/-- A thread that is in a run loop has entered it. -/
theorem exists_entered (hs : s₀.Starts) (ha : s₀.Along Addresses moves)
    (hl : (s₀.play moves).InLoop t i rest) :
    ∃ before after m₀, s₀.Entered moves t i rest before after m₀ := by
  induction moves using List.reverseRecOn with
  | nil =>
    obtain ⟨f, fs, ht, -⟩ := hl
    have hroster : (s₀.play []).roster = {} := by cases hs <;> rfl
    rw [hroster] at ht
    cases ht
  | append_singleton moves x ih =>
    obtain ⟨ha, hx, -⟩ := (along_append Addresses s₀ moves [x]).mp ha
    have h := play_governed hs ha
    rw [play_concat] at hl
    rcases h.inLoop_or_enters hl with hl₀ | ⟨rfl, he⟩
    · obtain ⟨before, after, m₀, rfl, henters, hm, hstays⟩ := ih ha hl₀
      refine ⟨before, after ++ [x], m₀, ?_, henters, hm, ?_⟩
      · rw [List.append_assoc, List.cons_append]
      · rw [play_append] at hl
        exact (along_append _ _ after [x]).mpr ⟨hstays, hl, trivial⟩
    · obtain ⟨c, hruns, hc⟩ := he.1
      have hlt := h.calls t _ _ (Roster.current?_eq_some_iff.mp hc).2 c i rfl hruns.machine?
      have hm : (s₀.play moves).bench.machine? i = some _ := Array.getElem?_eq_getElem hlt
      exact ⟨moves, [], _, rfl, he, hm, trivial⟩

/-- What is known of a run loop since it was entered. -/
theorem Entered.course {before after : List Move} {m₀ : Machine} (hs : s₀.Starts)
    (ha : s₀.Along Addresses moves) (h : s₀.Entered moves t i rest before after m₀) :
    (s₀.play moves).Course t i rest m₀.epoch := by
  obtain ⟨rfl, henters, hm, hstays⟩ := h
  obtain ⟨ha, hturn, hafter⟩ := (along_append _ _ _ _).mp ha
  have hg := play_governed hs ha
  rw [play_append]
  show (((s₀.play before).move .turn).play after).Course t i rest m₀.epoch
  exact (henters.course hg hm).play (hg.move hturn) hafter hstays

end Scheduler
end TapeMachine
