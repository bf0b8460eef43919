import TapeMachine.Proofs.Schedule.Pending

/-! Steps that fail.

A step fails when its source fails, at once or at any time while the step waits, or when its
sink does (`StepFails`). The failure goes through the calls around the step, run loops among them,
up to the outcome of the thread or to a source that made the call (`Escapes`). The machine is
left as it was when the step was called, but for the character that a sink failed over
(`Restored`), so that the next step that is completed executes the same instruction. -/
namespace TapeMachine

/-! ### On the way out -/

namespace Bench
variable {b : Bench} {i : Nat} {m : Machine} {e : Failure} {fs rest : List Frame}

/-- What a failure that goes through a frame leaves behind. -/
def left (b : Bench) : Frame → Bench
  | .looping i => b.update i Machine.leaveLoop
  | _ => b

/-- A failure goes through all frames but that of a source which made the call. -/
theorem advance_error (b : Bench) {d : Frame} (hd : ∀ v, d ≠ .calling v) (e : Failure)
    (fs : List Frame) : b.advance (d :: fs) (.returned (.error e)) = (b.left d, .fail e fs) := by
  cases d with
  | calling v => exact absurd rfl (hd v)
  | _ => rfl

/-- The machines after a failure has gone through some frames. -/
theorem machine?_foldl_left (b : Bench) (fs : List Frame) (i : Nat) :
    (fs.foldl left b).machine? i =
      (b.machine? i).map fun m => if i ∈ runs fs then m.leaveLoop else m := by
  induction fs generalizing b with
  | nil => simp [runs]
  | cons d fs ih =>
    rw [List.foldl_cons, ih]
    cases d with
    | looping j =>
      have hruns : runs (.looping j :: fs) = j :: runs fs := rfl
      rw [hruns, left, machine?_update]
      by_cases hij : j = i
      · subst hij
        cases b.machine? j with
        | none => simp
        | some m => by_cases hfs : j ∈ runs fs <;> simp [hfs, Machine.leaveLoop]
      · simp [hij, Ne.symm hij]
    | _ => rfl

/-- A step that begins and fails at once has put out a character that its sink failed over. -/
theorem callStep_error (hb : b.Manned) (hm : b.machine? i = some m) (hs : m.stepping = false)
    (h : (b.callStep i fs).2 = .fail e rest) : m.stance = .output ∧
      ∃ m' k, (b.callStep i fs).1.machine? i = some m' ∧ m'.bare = m.bare.emit.wiped k := by
  rw [callStep, hm, Option.map_some] at h ⊢
  cases hst : m.stance with
  | occupied c =>
    rw [Machine.stepping_of_stance hst] at hs
    cases hs
  | ended =>
    rw [hst] at h
    cases h
  | inward =>
    rw [hst] at h
    cases h
  | request =>
    rw [hst] at h
    simp only at h
    rw [request, hm] at h
    rcases turn_ask ((b.update i fun m => {m with stepping := true}).log (.requested m.counter)) i
      (.reading i m.epoch :: fs) with ⟨a, ha⟩ | ⟨y, hy, -⟩
    · cases ha.symm.trans h
    · cases hy.symm.trans h
  | output =>
    refine ⟨rfl, ?_⟩
    rw [hst] at h
    simp only at h ⊢
    rw [putOut, hm, Option.map_some] at h ⊢
    cases hspeaks : m.speaks with
    | false =>
      rw [hspeaks] at h
      cases h
    | true =>
      rw [hspeaks] at h
      simp only at h ⊢
      obtain ⟨hrewinds, -⟩ :=
        deliver_spec ((Keeps.update b i Machine.emit).manned hb) i m.cellChar
      split at h
      next delivered e' hdeliver =>
        rw [hdeliver] at hrewinds
        obtain ⟨sg, hresets, -⟩ := hrewinds.resets
        have hemit : ((b.update i Machine.emit).record (.emitted i m.cellChar
            (b.update i Machine.emit).outputSize?)).bare[i]? = some m.bare.emit :=
          getElem?_bare_of (machine?_update_self hm Machine.emit)
        obtain ⟨k, hk⟩ := hresets.at_index hemit
        obtain ⟨m', hm', hbare⟩ := exists_of_getElem?_bare hk
        exact ⟨m', k, hm', hbare⟩
      next delivered hdeliver =>
        split at h
        next => cases h
        next => cases h

end Bench

namespace Machine
variable {m m' m'' : Machine} {text : Text}

/-- A machine as it was when a step was called, and none waits; only a character that was put
out is there to stay. -/
structure Restored (m m' : Machine) : Prop extends Still m m' where
  stepping : m'.stepping = false
  output : m'.output = if m.stance = .output then m.output.push m.cellChar else m.output

theorem Restored.of_bare (hs : m.stepping = false)
    (h : m'.bare = if m.stance = .output then m.bare.emit else m.bare) : Restored m m' := by
  have hstill : Still m.bare m'.bare := by
    rw [h]
    split
    · exact ⟨rfl, rfl, rfl, rfl, rfl, rfl, rfl, rfl, rfl⟩
    · exact .refl _
  have hstepping : m'.bare.stepping = m.stepping := by
    rw [h]
    split
    · rfl
    · rfl
  refine ⟨(Still.bare m).trans (hstill.trans (Still.bare m').symm), hstepping.trans hs, ?_⟩
  show m'.bare.output = _
  rw [h]
  split
  · rfl
  · rfl

/-- While text is asked for and no step is completed, all that changes without a reset is
whether a step waits. -/
theorem Shift.settled_of_asks (h : m.Shift m') (ha : m.Asks) (he : m'.epoch = m.epoch)
    (hs : m'.steps = m.steps) : m'.settled = m.settled := by
  obtain ⟨m₁, k, hd, rfl⟩ := h
  rw [epoch_wiped] at he
  rcases hd with rfl | ⟨a, hd⟩
  · obtain rfl : k = 0 := by omega
    rfl
  · obtain rfl : k = 0 := by
      rw [hd.kept.epoch] at he
      omega
    have hc := ha.1
    rw [wiped] at hs ⊢
    cases hd with
    | ask => rfl
    | drop => rfl
    | hear text hw hasks =>
      have hsteps := ((Does.hear text hw hasks).stepped trivial).steps
      omega
    | work hst => exact absurd ha (stance_eq_inward_iff.mp hst).2.1
    | put hst | spill hst => cases hc.symm.trans (stance_eq_output_iff.mp hst).2

end Machine

namespace Scheduler
open Machine

variable {s s' s₀ : Scheduler} {moves more before after : List Move} {t u i epoch epoch' : Nat}
  {rest rest' inner outer : List Frame} {m m' m₀ m₂ : Machine} {e : Failure} {text : Text}

/-- In the coming turn of thread `t` a step of machine `i` fails: its source has failed, or its
sink does. -/
inductive StepFails (s : Scheduler) (t i : Nat) (rest : List Frame) (e : Failure) : Prop
  | source (epoch : Nat) :
      s.roster.current? = some (t, .answered (.error e), .reading i epoch :: rest) →
      StepFails s t i rest e
  | sink (m : Machine) : s.CallsStep t i rest → s.bench.machine? i = some m →
      m.stepping = false → s.advance.roster.current? = some (t, .returned (.error e), rest) →
      StepFails s t i rest e

/-- From here on, as long as machine `i` is not reset, it is what `m` was until the next step
is completed, and that step executes the instruction that `m` stood at. -/
structure Retries (s : Scheduler) (i : Nat) (m : Machine) : Prop where
  still : ∀ more m', (s.play more).bench.machine? i = some m' → m'.epoch = m.epoch →
    m'.steps = m.steps → Machine.Still m m'
  stepped : ∀ more m', (s.play more).bench.machine? i = some m' → m'.epoch = m.epoch →
    m'.steps = m.steps + 1 → Machine.Stepped m m'

/-- The same, but thread `t` has another answer from its source. -/
def answering (s : Scheduler) (t : Nat) (a : Answer) (fs : List Frame) : Scheduler :=
  {s with roster := s.roster.put t (.active (.answered a) fs)}

/-- A failure that thread `t` was given back has gone through the frames `inner` and ended the
run loops among them. On the others it is the outcome of the thread, or of the call of a
source that takes note of it and goes on. -/
structure Escapes (s s' : Scheduler) (t : Nat) (e : Failure) (inner outer : List Frame) :
    Prop where
  starts : s.roster.current? = some (t, .returned (.error e), inner ++ outer)
  turns : s' = s.play (List.replicate inner.length .turn)
  focus : s'.roster.current? = some (t, .returned (.error e), outer)
  machines : ∀ j, s'.bench.machine? j =
    (s.bench.machine? j).map fun m => if j ∈ runs inner then m.leaveLoop else m
  ends : (outer = [] ∧ s'.advance.outcome? t = some (.error e)) ∨
    ∃ v fs, outer = .calling v :: fs ∧ s'.advance.bench = s'.bench.record (.called v (.error e)) ∧
      s'.advance.roster.current? = some (t, .resumed, fs)

/-! ### The way of a failure -/

/-- Frames up to the first one of a source that made a call. -/
theorem exists_inner (rest : List Frame) : ∃ inner outer, rest = inner ++ outer ∧
    (∀ v, .calling v ∉ inner) ∧ (outer = [] ∨ ∃ v fs, outer = .calling v :: fs) := by
  induction rest with
  | nil => exact ⟨[], [], rfl, fun _ => List.not_mem_nil, .inl rfl⟩
  | cons d rest ih =>
    by_cases hd : ∃ v, d = .calling v
    · obtain ⟨v, rfl⟩ := hd
      exact ⟨[], _, rfl, fun _ => List.not_mem_nil, .inr ⟨v, rest, rfl⟩⟩
    · obtain ⟨inner, outer, rfl, hin, hout⟩ := ih
      refine ⟨d :: inner, outer, rfl, fun v hv => ?_, hout⟩
      rcases List.mem_cons.mp hv with rfl | hv
      · exact hd ⟨v, rfl⟩
      · exact hin v hv

theorem play_error (hc : s.roster.current? = some (t, .returned (.error e), inner ++ outer))
    (hin : ∀ v, .calling v ∉ inner) :
    (s.play (List.replicate inner.length .turn)).roster.current? =
        some (t, .returned (.error e), outer) ∧
      (s.play (List.replicate inner.length .turn)).bench = inner.foldl Bench.left s.bench := by
  induction inner generalizing s with
  | nil => exact ⟨hc, rfl⟩
  | cons d inner ih =>
    have hturn := s.bench.advance_error (d := d) (fun v hv => hin v (hv ▸ List.mem_cons_self)) e
      (inner ++ outer)
    have hadvance := advance_of_some hc
    rw [List.cons_append, hturn] at hadvance
    have hnext := ih (s := s.advance) (by rw [hadvance]; exact Roster.current?_settle_go hc _ _)
      fun v hv => hin v (List.mem_cons_of_mem d hv)
    rw [show s.advance.bench = s.bench.left d by rw [hadvance]] at hnext
    exact hnext

/-- A failure finds its way out. -/
theorem exists_escapes (hc : s.roster.current? = some (t, .returned (.error e), rest)) :
    ∃ inner outer s', rest = inner ++ outer ∧ s.Escapes s' t e inner outer := by
  obtain ⟨inner, outer, rfl, hin, hout⟩ := exists_inner rest
  obtain ⟨hfocus, hbench⟩ := play_error hc hin
  refine ⟨inner, outer, _, rfl, hc, rfl, hfocus, fun j => ?_, ?_⟩
  · rw [hbench]
    exact Bench.machine?_foldl_left _ _ j
  · rw [advance_of_some hfocus]
    rcases hout with rfl | ⟨v, fs, rfl⟩
    · refine .inl ⟨rfl, ?_⟩
      have hthread := (Roster.current?_eq_some_iff.mp hfocus).2
      rw [outcome?, Roster.getElem?_settle_self hthread]
      rfl
    · exact .inr ⟨v, fs, rfl, rfl, Roster.current?_settle_go hfocus _ _⟩

/-! ### The step that failed -/

theorem advance_source (hm : s.bench.machine? i = some m)
    (hc : s.roster.current? = some (t, .answered (.error e), .reading i epoch :: rest)) :
    s.advance.bench.machine? i = some m.settled ∧
      s.advance.roster.current? = some (t, .returned (.error e), rest) := by
  obtain ⟨m', o, hhears, hm', hc'⟩ := advance_answered hm hc
  cases hhears
  exact ⟨hm', hc'⟩

/-- A step whose source has answered was called when the machine was what it still is,
unless the machine was reset. -/
theorem exists_begun_of_answered {a : Answer} (hs : s₀.Starts) (ha : s₀.Along Addresses moves)
    (hc : (s₀.play moves).roster.current? = some (t, .answered a, .reading i epoch :: rest)) :
    ∃ before after m₀ m, s₀.Begun moves t i rest before after m₀ ∧ m₀.epoch = epoch ∧
      (s₀.play moves).bench.machine? i = some m ∧ m₀.stance = .request ∧
      (m.epoch = epoch → m.settled.bare = m₀.bare) := by
  have ht := (Roster.current?_eq_some_iff.mp hc).2
  obtain ⟨before, after, m₀, hbegun, rfl, hne⟩ :=
    exists_begun hs ha ⟨_, _, ht, List.suffix_refl _⟩
  obtain ⟨m, hm⟩ := machine?_of_reading (play_governed hs ha).sound hc
  obtain ⟨hst, -⟩ := hbegun.bare_eq hs ha hne hm
  exact ⟨before, after, m₀, m, hbegun, rfl, hm, hst, hbegun.settled_bare hs ha hne hm⟩

/-- Resets are only ever added to those before a step was called. -/
theorem Begun.epoch_le (hs : s₀.Starts) (h : s₀.Begun moves t i rest before after m₀)
    (hm : (s₀.play moves).advance.bench.machine? i = some m) : m₀.epoch ≤ m.epoch := by
  obtain ⟨n, hn, hlater⟩ :=
    play_later (play_sound hs.sound before).1 h.machine (after ++ [.turn])
  rw [← play_append, ← List.append_assoc, ← h.split, play_concat] at hn
  obtain rfl := Option.some.inj (hn.symm.trans hm)
  exact hlater.le.1

/-- A failed step was called at some time, and the machine is what it was then. -/
theorem StepFails.exists_begun (hs : s₀.Starts) (ha : s₀.Along Addresses moves)
    (hf : (s₀.play moves).StepFails t i rest e) :
    ∃ before after m₀ m', s₀.Begun moves t i rest before after m₀ ∧
      (s₀.play moves).advance.bench.machine? i = some m' ∧
      (s₀.play moves).advance.roster.current? = some (t, .returned (.error e), rest) ∧
      (m'.epoch = m₀.epoch → m'.bare = if m₀.stance = .output then m₀.bare.emit else m₀.bare) := by
  cases hf with
  | source epoch hc =>
    obtain ⟨before, after, m₀, m, hbegun, rfl, hm, hst, hsame⟩ :=
      exists_begun_of_answered hs ha hc
    obtain ⟨hm', hc'⟩ := advance_source hm hc
    refine ⟨before, after, m₀, _, hbegun, hm', hc', fun he => ?_⟩
    rw [hst, if_neg nofun]
    exact hsame he
  | sink m hcalls hm hfree hc' =>
    have hx := hc'
    rw [advance_of_some hcalls] at hx
    obtain ⟨-, hfail⟩ := Roster.eq_go_of_current?_settle hcalls hx
    obtain ⟨hst, m', k, hm', hk⟩ :=
      Bench.callStep_error (play_governed hs ha).sound.manned hm hfree hfail
    have hb : (s₀.play moves).advance.bench = ((s₀.play moves).bench.callStep i rest).1 := by
      rw [advance_of_some hcalls]
      rfl
    refine ⟨moves, [], m, m', ⟨(List.append_nil _).symm, hcalls, hm, hfree, trivial⟩, hb ▸ hm', hc',
      fun he => ?_⟩
    have hepoch : m'.bare.epoch = m.epoch + k := by rw [hk, Machine.epoch_wiped]; rfl
    obtain rfl : k = 0 := by
      have hsame : m'.bare.epoch = m.epoch := he
      omega
    rw [hst, if_pos rfl, hk, Machine.wiped]

/-! ### The next step -/

theorem retries_of_restored (hs : s₀.Starts) (hm : (s₀.play moves).bench.machine? i = some m')
    (h : m.Restored m') : (s₀.play moves).Retries i m where
  still more m₂ hm₂ he hsteps := h.toStill.trans <|
    still_of_steps_eq (play_sound hs.sound moves).1 hm hm₂ (he.trans h.epoch.symm)
      (hsteps.trans h.steps.symm)
  stepped more m₂ hm₂ he hsteps := by
    rw [← play_append] at hm₂
    have hlast : LastStep s₀ (moves ++ more) i m₂ m' :=
      ⟨moves, more, rfl, hm, h.epoch.trans he.symm, by rw [h.steps, hsteps]⟩
    exact (hlast.stepped hs hm₂).of_still h.toStill

/-- While text is asked for, a machine without a reset or a completed step stays the same. -/
theorem settled_of_asks (h : s.Sound) (hm : s.bench.machine? i = some m) (ha : m.Asks)
    (hm' : (s.play more).bench.machine? i = some m') (he : m'.epoch = m.epoch)
    (hs : m'.steps = m.steps) : m'.bare.settled = m.bare.settled := by
  have hrun := play_follow (Q := fun x => Later m.bare x ∧
      (x.epoch = m.epoch → x.steps = m.steps → x.settled = m.bare.settled))
    h hm ⟨.still (.refl _), fun _ _ => rfl⟩ ?_ more
  · obtain ⟨n, hn, -, hsettled⟩ := hrun
    obtain rfl := Option.some.inj (hn.symm.trans hm')
    exact hsettled he hs
  · rintro x y hshift ⟨hlater, hsettled⟩
    refine ⟨hlater.trans hshift.later, fun he hs => ?_⟩
    obtain ⟨hle, hsteps⟩ := hlater.le
    obtain ⟨hle', hsteps'⟩ := hshift.later.le
    have hex : x.epoch = m.epoch := Nat.le_antisymm (he ▸ hle') hle
    have hsx : x.steps = m.steps :=
      Nat.le_antisymm (hs ▸ hsteps' (he.trans hex.symm)) (hsteps hex)
    have heq := hsettled hex hsx
    have hasks : x.Asks := by
      have hm₀ : m.bare.settled.Asks := ha
      rw [← heq] at hm₀
      exact hm₀
    exact (hshift.settled_of_asks hasks (he.trans hex.symm) (hs.trans hsx.symm)).trans heq

/-- A step that began in the present epoch of its machine is completed with the text that
comes. -/
theorem advance_text (hm : s.bench.machine? i = some m)
    (hc : s.roster.current? = some (t, .answered (.ok text), .reading i m.epoch :: rest)) :
    ∃ m', s.advance.bench.machine? i = some m' ∧
      m'.bare = (m.bare.settled.receive text).consume.advance := by
  obtain ⟨m', o, hhears, hm', -⟩ := advance_answered hm hc
  cases hhears with
  | late _ hne => exact absurd rfl hne
  | text _ _ =>
    refine ⟨_, hm', ?_⟩
    rw [bare_advance, bare_consume, bare_receive]
    rfl

theorem current?_answering {f : Focus} {fs : List Frame} (a : Answer)
    (hc : s.roster.current? = some (t, f, fs)) :
    (s.answering t a fs).roster.current? = some (t, .answered a, fs) :=
  Roster.current?_settle_go hc (.answered a) fs

/-- A step that is called again after its source has failed comes, with a text, to what it
would have come to with this text at once. -/
theorem heard_again (hs : s₀.Starts) (ha : s₀.Along Addresses (moves ++ .turn :: more))
    (hc : (s₀.play moves).roster.current? =
      some (t, .answered (.error e), .reading i epoch :: rest))
    (hm : (s₀.play moves).advance.bench.machine? i = some m') (he : m'.epoch = epoch)
    (hc₂ : ((s₀.play moves).advance.play more).roster.current? =
      some (u, .answered (.ok text), .reading i epoch' :: rest'))
    (hm₂ : ((s₀.play moves).advance.play more).bench.machine? i = some m₂)
    (he₂ : m₂.epoch = epoch) (hs₂ : m₂.steps = m'.steps) :
    ∃ n n', ((s₀.play moves).advance.play more).advance.bench.machine? i = some n ∧
      ((s₀.play moves).answering t (.ok text) (.reading i epoch :: rest)).advance.bench.machine? i =
        some n' ∧ n.bare = n'.bare := by
  obtain ⟨before, after, m₀, m, -, -, hm₁, hst, hsame⟩ :=
    exists_begun_of_answered hs ((along_append _ _ _ _).mp ha).1 hc
  obtain rfl := Option.some.inj ((advance_source hm₁ hc).1.symm.trans hm)
  have hasks : m.settled.Asks := by
    have h : m.settled.bare.Asks := hsame he ▸ (stance_eq_request_iff.mp hst).2
    exact h
  have hfirst : s₀.play (moves ++ [.turn]) = (s₀.play moves).advance := play_concat s₀ moves .turn
  have hplay : s₀.play (moves ++ [.turn] ++ more) = (s₀.play moves).advance.play more := by
    rw [play_append, hfirst]
  rw [List.append_cons] at ha
  have hg := play_governed hs ha
  rw [hplay] at hg
  have hfailed := (play_governed hs ((along_append _ _ _ _).mp ha).1).sound
  rw [hfirst] at hfailed
  have hsettled : m₂.bare.settled = m.settled.bare.settled :=
    settled_of_asks hfailed hm hasks hm₂ (he₂.trans he.symm) hs₂
  -- the step that was called again has begun after the failure
  have hepoch' : epoch' = epoch := by
    obtain ⟨before₂, after₂, m₃, m₄, hbegun, rfl, -⟩ := exists_begun_of_answered hs ha (hplay ▸ hc₂)
    obtain ⟨mid, rfl, -⟩ := hbegun.split_of_free hs ha (hfirst ▸ hm) rfl
    have hm₃ := hbegun.machine
    rw [play_append, hfirst] at hm₃
    obtain ⟨n, hn, hlater⟩ := play_later hfailed hm mid
    obtain rfl := Option.some.inj (hn.symm.trans hm₃)
    have hle := (hg.reading hm₂ (Roster.current?_eq_some_iff.mp hc₂).2 List.mem_cons_self).2
    rw [he₂] at hle
    exact Nat.le_antisymm hle (he ▸ hlater.le.1)
  subst epoch'
  subst he
  obtain ⟨n, hn, hnbare⟩ := advance_text hm₂ (he₂ ▸ hc₂)
  obtain ⟨n', hn', hnbare'⟩ :=
    advance_text (s := (s₀.play moves).answering t (.ok text) (.reading i m.epoch :: rest)) hm₁
      (current?_answering _ hc)
  exact ⟨n, n', hn, hn', by rw [hnbare, hnbare', hsettled]; rfl⟩

/-- While no step waits, a machine is busy with a run loop or not at all. -/
theorem Governed.busy_iff_of_free (h : s.Governed) (hm : s.bench.machine? i = some m)
    (hfree : m.stepping = false) : m.busy = true ↔ i ∈ s.roster.runs := by
  rw [Machine.busy, hfree, Bool.or_false]
  exact (h.exclusive hm).looping

/-- Whatever way a failure takes, no step waits afterwards, and only a run loop that is still
active keeps the machine busy. -/
theorem Escapes.busy (hg : s.Governed) (hesc : s.Escapes s' t e inner outer)
    (hm : s.bench.machine? i = some m) (hfree : m.stepping = false)
    (hm' : s'.bench.machine? i = some m') : m'.busy = true ↔ i ∈ s'.roster.runs := by
  have hg' := hg.play (along_turns s inner.length)
  rw [← hesc.turns] at hg'
  refine hg'.busy_iff_of_free hm' ?_
  rw [hesc.machines, hm] at hm'
  obtain rfl := Option.some.inj hm'
  split
  · exact hfree
  · exact hfree

/-- A machine `m₀` has come through a step that failed, as `m'`, and the failure has found
its way out of the calls around the step. -/
structure Intact (s s' : Scheduler) (i : Nat) (m₀ m' : Machine) : Prop where
  restored : Restored m₀ m'
  busy : m'.busy = true ↔ i ∈ s.roster.runs
  after : ∀ m'', s'.bench.machine? i = some m'' → (m''.busy = true ↔ i ∈ s'.roster.runs)
  retries : s.Retries i m₀

/-- Once the source of a step has failed, a step that gets a text comes to what the first one
would have come to with this text, had the source given it at once. -/
def HearsAgain (s : Scheduler) (t i epoch : Nat) (rest : List Frame) : Prop :=
  ∀ more u text epoch' rest' m m', s.Along Addresses (.turn :: more) →
    s.advance.bench.machine? i = some m → m.epoch = epoch →
    (s.advance.play more).roster.current? =
      some (u, .answered (.ok text), .reading i epoch' :: rest') →
    (s.advance.play more).bench.machine? i = some m' → m'.epoch = epoch → m'.steps = m.steps →
    ∃ n n', (s.advance.play more).advance.bench.machine? i = some n ∧
      (s.answering t (.ok text) (.reading i epoch :: rest)).advance.bench.machine? i = some n' ∧
      n.bare = n'.bare

/-- A failure of the source or of the sink leaves the calls around the step, and unless the
machine was reset meanwhile it leaves the machine as it was when the step was called. -/
theorem failed_step_restores (hs : s₀.Starts) (ha : s₀.Along Addresses moves)
    (hf : (s₀.play moves).StepFails t i rest e) :
    ∃ before after m₀ m' inner outer s', s₀.Begun moves t i rest before after m₀ ∧
      (s₀.play moves).advance.bench.machine? i = some m' ∧ rest = inner ++ outer ∧
      (s₀.play moves).advance.Escapes s' t e inner outer ∧
      (m'.epoch = m₀.epoch → (s₀.play moves).advance.Intact s' i m₀ m') ∧
      ∀ epoch, (s₀.play moves).roster.current? =
        some (t, .answered (.error e), .reading i epoch :: rest) →
          (s₀.play moves).HearsAgain t i epoch rest := by
  obtain ⟨before, after, m₀, m', hbegun, hm', hc, hbare⟩ := hf.exists_begun hs ha
  obtain ⟨inner, outer, s', hrest, hesc⟩ := exists_escapes hc
  have hnext : s₀.play (moves ++ [.turn]) = (s₀.play moves).advance := play_concat s₀ moves .turn
  have hg := (play_governed hs ha).move (x := .turn) trivial
  refine ⟨before, after, m₀, m', inner, outer, s', hbegun, hm', hrest, hesc, fun he => ?_, ?_⟩
  · have hrestored := Restored.of_bare hbegun.free (hbare he)
    have hretries := retries_of_restored hs (hnext ▸ hm') hrestored
    rw [hnext] at hretries
    exact ⟨hrestored, hg.busy_iff_of_free hm' hrestored.stepping,
      fun _ hm'' => hesc.busy hg hm' hrestored.stepping hm'', hretries⟩
  · intro epoch hc more u text epoch' rest' m m₂ hmore hm he hc₂ hm₂ he₂ hs₂
    exact heard_again hs ((along_append _ _ _ _).mpr ⟨ha, hmore⟩) hc hm he hc₂ hm₂ he₂ hs₂

/-- A source that fails at its first call. -/
theorem failed_step_restores_request : ∃ b s m₀ m' s',
    Bench.make {source := some (.scripted fun n =>
      .now [] (if n = 1 then .error .interrupted else .ok (some ['a'])))} ⟨#[',']⟩
      {memorySize := .integer 2} = .ok b ∧
    s = ({bench := b} : Scheduler).play (Move.alone (.run 0) 3) ∧
    s.StepFails 0 0 [.looping 0] .interrupted ∧ s.advance.bench.machine? 0 = some m' ∧
    s.advance.Intact s' 0 m₀ m' ∧ s'.advance.outcome? 0 = some (.error .interrupted) ∧
    s.HearsAgain 0 0 0 [.looping 0] := by
  obtain ⟨b, hb⟩ : ∃ b, Bench.make {source := some (.scripted fun n =>
      .now [] (if n = 1 then .error .interrupted else .ok (some ['a'])))} ⟨#[',']⟩
      {memorySize := .integer 2} = .ok b := ⟨_, rfl⟩
  have hs : Starts {bench := b} := .machine hb
  obtain ⟨s, hplay⟩ : ∃ s, s = ({bench := b} : Scheduler).play (Move.alone (.run 0) 3) := ⟨_, rfl⟩
  have hc : s.roster.current? =
      some (0, .answered (.error .interrupted), [.reading 0 0, .looping 0]) := by
    cases hb
    subst hplay
    rfl
  have hf : s.StepFails 0 0 [.looping 0] .interrupted := .source 0 hc
  have ha : ({bench := b} : Scheduler).Along Addresses (Move.alone (.run 0) 3) := by
    cases hb
    decide
  obtain ⟨before, after, m₀, m', inner, outer, s', hbegun, hm', hrest, hesc, hintact, hagain⟩ :=
    failed_step_restores hs ha (hplay ▸ hf)
  have he : m'.epoch = 0 := by
    cases hb
    cases hm'
    rfl
  have hle := hbegun.epoch_le hs hm'
  rw [← hplay] at hm' hesc hintact hagain
  refine ⟨b, s, m₀, m', s', hb, hplay, hf, hm', hintact (by omega), ?_, hagain 0 hc⟩
  rcases hesc.ends with ⟨-, ho⟩ | ⟨v, fs, rfl, -⟩
  · exact ho
  · have hmem : Frame.calling v ∈ [Frame.looping 0] :=
      hrest ▸ List.mem_append_right _ List.mem_cons_self
    cases List.mem_singleton.mp hmem

end Scheduler
end TapeMachine
