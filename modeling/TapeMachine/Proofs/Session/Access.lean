import TapeMachine.Proofs.Schedule.RunLoop
import TapeMachine.Proofs.Session.Coherence

/-! Access to machines.

A start or a single step of a session drives one machine from its first to its last turn.
While no start disturbs a single step that waits, no two of them drive the same machine
(`Scheduler.Secured`): a call that begins to drive one has found that no run loop is
active on it and that no step of it waits, and a call that drives it would have been seen
by one or the other. So a step is never called while another step of its machine waits.

The one gap is a start on a paused session (`Scheduler.Clashes`). It looks for a run loop
alone, and where a single step waits it begins a run that fails at its first step. -/
namespace TapeMachine

variable {P : Failure → Prop} {W : Nat → Prop} {f : Focus} {fs : List Frame} {i : Nat}
  {m : Option Nat}

/-- The machine that a call on the session drives. -/
def Frame.driven? : Frame → Option Nat
  | .starting i | .stepping i => some i
  | _ => none

/-- The machines that the calls among some frames drive. -/
def drives (fs : List Frame) : List Nat := fs.filterMap Frame.driven?

theorem unread_driven? : Unread Frame.driven? := ⟨fun _ _ => rfl, rfl, fun _ _ => rfl⟩

/-! ### Frames -/

/-- Frames that wait for a call on a machine begin with the call that drives it. -/
theorem Served.drives_eq (h : Served P (some i) fs) : ∃ rest, Served P none rest ∧
    drives fs = i :: drives rest ∧ readings fs = readings rest := by
  cases h with
  | looping _ h => exact ⟨_, h, rfl, rfl⟩
  | stepping _ h => exact ⟨_, h, rfl, rfl⟩

/-- A step that waits belongs to a call that drives its machine. -/
theorem Served.mem_drives_of_reading (h : Served P m fs) (hi : i ∈ (readings fs).map Prod.fst) :
    i ∈ drives fs := by
  induction h with
  | nil => cases hi
  | looping j _ ih => exact List.mem_cons_of_mem _ (ih hi)
  | stepping j _ ih => exact List.mem_cons_of_mem _ (ih hi)
  | @calling rest v deeds answer j epoch _ h ih =>
    rcases List.mem_cons.mp hi with rfl | hi
    · obtain ⟨rest', -, hdrives, -⟩ := h.drives_eq
      show i ∈ drives rest
      rw [hdrives]
      exact List.mem_cons_self
    · exact ih hi

theorem Served.mem_drives_of_run (h : Served P m fs) (hi : i ∈ runs fs) : i ∈ drives fs := by
  induction h with
  | nil => cases hi
  | looping j _ ih =>
    rcases List.mem_cons.mp hi with rfl | hi
    · exact List.mem_cons_self
    · exact List.mem_cons_of_mem _ (ih hi)
  | stepping j _ ih => exact List.mem_cons_of_mem _ (ih hi)
  | calling v j epoch _ _ ih => exact ih hi

/-- The call that drives a machine shows on it, unless it is about to call it. -/
theorem Served.seen (h : Served P m fs) (hi : i ∈ drives fs) :
    m = some i ∨ i ∈ runs fs ∨ i ∈ (readings fs).map Prod.fst := by
  induction h with
  | nil => cases hi
  | looping j _ ih =>
    rcases List.mem_cons.mp hi with rfl | hi
    · exact .inl rfl
    · exact .inr ((ih hi).resolve_left nofun |>.imp_left (List.mem_cons_of_mem _))
  | stepping j _ ih =>
    rcases List.mem_cons.mp hi with rfl | hi
    · exact .inl rfl
    · exact .inr ((ih hi).resolve_left nofun)
  | calling v j epoch _ _ ih =>
    rcases ih hi with heq | hruns | hreads
    · exact .inr (.inr (Option.some.inj heq ▸ List.mem_cons_self))
    · exact .inr (.inl hruns)
    · exact .inr (.inr (List.mem_cons_of_mem _ hreads))

namespace Focus.Serves

theorem mem_drives_of_reading (h : f.Serves P fs) (hi : i ∈ (readings fs).map Prod.fst) :
    i ∈ drives fs := by
  have hinner : ∀ {j epoch : Nat} {rest : List Frame}, Served P (some j) rest →
      i ∈ ((j, epoch) :: readings rest).map Prod.fst → i ∈ drives rest := by
    intro j epoch rest hs hi
    rcases List.mem_cons.mp hi with rfl | hi
    · obtain ⟨rest', -, hdrives, -⟩ := hs.drives_eq
      rw [hdrives]
      exact List.mem_cons_self
    · exact hs.mem_drives_of_reading hi
  cases h with
  | call _ hs | step _ hs | stepped _ _ hs | returned _ hs => exact hs.mem_drives_of_reading hi
  | run j hs | resume j hs | started j _ hs =>
    exact List.mem_cons_of_mem _ (hs.mem_drives_of_reading hi)
  | looping j hs => exact List.mem_cons_of_mem _ (hs.mem_drives_of_reading hi)
  | answered j epoch _ hs | getting j epoch hs | replying j epoch _ hs => exact (hinner hs hi :)

theorem mem_drives_of_run (h : f.Serves P fs) (hi : i ∈ runs fs) : i ∈ drives fs := by
  cases h with
  | call _ hs | step _ hs | stepped _ _ hs | returned _ hs => exact hs.mem_drives_of_run hi
  | run j hs | resume j hs | started j _ hs =>
    exact List.mem_cons_of_mem _ (hs.mem_drives_of_run hi)
  | looping j hs => exact (Served.looping j hs).mem_drives_of_run hi
  | answered j epoch _ hs | getting j epoch hs | replying j epoch _ hs =>
    exact hs.mem_drives_of_run hi

/-- A call that drives a machine shows on it while its thread is at rest or calls the
session. -/
theorem seen (h : f.Serves P fs) (hf : Roster.Rests f fs ∨ ∃ c, f = .call c ∧ c.OfSession)
    (hi : i ∈ drives fs) : i ∈ runs fs ∨ i ∈ (readings fs).map Prod.fst := by
  have hcall : ∀ c, f = .call c → c.OfSession →
      i ∈ runs fs ∨ i ∈ (readings fs).map Prod.fst := by
    rintro c rfl hc
    cases h with
    | call _ hs => exact (hs.seen hi).resolve_left nofun
    | step | run | resume => exact absurd hc id
  have hinner : ∀ {j epoch : Nat} {rest : List Frame}, Served P (some j) rest → i ∈ drives rest →
      i ∈ runs rest ∨ i ∈ ((j, epoch) :: readings rest).map Prod.fst := by
    intro j epoch rest hs hi
    rcases hs.seen hi with heq | hruns | hreads
    · exact .inr (Option.some.inj heq ▸ List.mem_cons_self)
    · exact .inl hruns
    · exact .inr (List.mem_cons_of_mem _ hreads)
  rcases hf with (rfl | ⟨c, rfl, rfl⟩) | ⟨c, hf, hc⟩
  · cases h with
    | looping j hs =>
      rcases (Served.looping j hs).seen hi with heq | hseen
      · exact .inl (Option.some.inj heq ▸ List.mem_cons_self)
      · exact hseen
    | getting j epoch hs | replying j epoch _ hs => exact (hinner hs hi :)
  · cases hi
  · exact hcall c hf hc

end Focus.Serves
/-! ### Turns -/

namespace Bench
variable {b : Bench}

/-- Nothing shows on a machine that something drives it. -/
def Vacant (b : Bench) (i : Nat) : Prop :=
  ∀ m, b.machine? i = some m → m.looping = false ∧ m.stepping = false

/-- The session is paused, and a single step of its machine waits. -/
def Clash (b : Bench) (i : Nat) : Prop :=
  ∃ s m, b.session = some s ∧ s.phase = .paused ∧ s.current = some i ∧
    b.machine? i = some m ∧ m.stepping = true ∧ m.looping = false

/-- What a turn does to the machines that the calls of its thread drive. -/
inductive Engages (b : Bench) (f : Focus) (b' : Bench) : List Nat → List Nat → Prop
  | same {ds : List Nat} : Engages b f b' ds ds
  | ends (i : Nat) {ds : List Nat} : Engages b f b' (i :: ds) ds
  | begins (i : Nat) {c : Call} {ds : List Nat} : f = .call c → c.OfSession → b.Vacant i →
      i < b'.machines.size → Engages b f b' ds (i :: ds)

theorem size_of_make {made : Bench} {p : Program} {o : Options} (h : b.make p o = .ok made) :
    made.machines.size = b.machines.size + 1 := by
  obtain ⟨n, hn, -, rfl⟩ := eq_of_make h
  exact Array.size_push _

theorem vacant_size (b : Bench) : b.Vacant b.machines.size := fun _ hm =>
  absurd (lt_size_of_machine? hm) (Nat.lt_irrefl _)

theorem Agrees.lt_size {s : Session} (h : b.Agrees W) (hs : b.session = some s)
    (hi : s.current = some i) : i < b.machines.size := by
  obtain ⟨m, -, hm, -⟩ := h.sessionMachine? hs hi
  exact lt_size_of_machine? hm

theorem engages_callStart (h : b.Agrees W) (hfree : ∀ i, ¬ b.Clash i) (fs : List Frame) :
    Engages b (.call .sessionStart) (b.callStart fs).1 (drives fs)
      (drives (b.callStart fs).2.frames) := by
  rw [callStart]
  cases hs : b.session with
  | none => exact .same
  | some s =>
    simp only
    split
    next i hpaused hi =>
      split
      next => exact .same
      next hlooping =>
        refine .begins i rfl trivial (fun m hm => ?_) (h.lt_size hs hi)
        have hl : m.looping = false := by
          simpa [holds, putSession, machine?, show b.machines[i]? = some m from hm] using hlooping
        refine ⟨hl, Bool.eq_false_iff.mpr fun hw => hfree i ?_⟩
        exact ⟨s, m, hs, hpaused, hi, hm, hw, hl⟩
    next =>
      split
      next => exact .same
      next made hmade =>
        refine .begins _ rfl trivial b.vacant_size ?_
        show b.machines.size < made.machines.size
        rw [size_of_make hmade]
        exact Nat.lt_succ_self _
    next => exact .same

theorem engages_callSessionStep (h : b.Agrees W) (fs : List Frame) :
    Engages b (.call .sessionStep) (b.callSessionStep fs).1 (drives fs)
      (drives (b.callSessionStep fs).2.frames) := by
  rw [callSessionStep]
  cases hs : b.session with
  | none => exact .same
  | some s =>
    simp only
    split
    next => exact .same
    next i hi _ =>
      split
      next => exact .same
      next hbusy =>
        refine .begins i rfl trivial (fun m hm => ?_) (h.lt_size hs hi)
        simpa [holds, hm, Machine.busy] using hbusy
    next =>
      split
      next => exact .same
      next made hmade =>
        refine .begins _ rfl trivial b.vacant_size ?_
        show b.machines.size < made.machines.size
        rw [size_of_make hmade]
        exact Nat.lt_succ_self _

theorem drives_endRun (b : Bench) (i : Nat) (fs : List Frame) :
    drives (b.endRun i fs).2.frames = drives fs := by
  simp only [endRun]
  split <;> rfl

theorem drives_callRun (b : Bench) (i : Nat) (fs : List Frame) :
    drives (b.callRun i fs).2.frames = drives fs := by
  simp only [callRun]
  split <;> rfl

theorem engages_giveBack {m : Option Nat} (hs : Served P m fs) (b : Bench) (o : Outcome) :
    Engages b (.returned o) (b.giveBack o fs).1 (drives fs)
      (drives (b.giveBack o fs).2.frames) := by
  cases hs with
  | nil => exact .same
  | @looping rest i hs =>
    have hsame : drives (b.afterStep i o (.starting i :: rest)).2.frames =
        drives (.starting i :: rest) := by
      rw [afterStep.eq_def]
      split
      · rfl
      · split <;> rfl
      · exact drives_endRun b i _
    show Engages b _ _ _ (drives (b.afterStep i o (.starting i :: rest)).2.frames)
    rw [hsame]
    exact .same
  | @stepping rest i hs =>
    cases o with
    | ok v =>
      have hrest : (b.endSessionStep i rest).2.frames = rest := by
        rw [endSessionStep]
        split <;> rfl
      show Engages b _ _ _ (drives (b.endSessionStep i rest).2.frames)
      rw [hrest]
      exact .ends i
    | error e => exact .ends i
  | calling v i epoch hreply hs => exact .same

theorem engages_advance (hs : f.Serves P fs) (h : Phased W b f fs)
    (hfree : ∀ i, f = .call .sessionStart → ¬ b.Clash i) :
    Engages b f (b.advance fs f).1 (drives fs) (drives (b.advance fs f).2.frames) := by
  have hsame : ∀ {b' : Bench} {ds ds' : List Nat}, ds' = ds → Engages b f b' ds ds' := by
    rintro b' ds _ rfl
    exact .same
  cases hs with
  | @call c _ hc hs =>
    cases c with
    | sessionStart => exact engages_callStart h (fun i => hfree i rfl) fs
    | sessionStep => exact engages_callSessionStep h fs
    | step | run | resume => exact absurd hc id
  | step i hs => exact hsame (filterMap_callStep unread_driven? b i fs)
  | run i hs => exact hsame (drives_callRun b i _)
  | @resume rest i hs =>
    refine hsame ?_
    show drives (b.callResume i (.starting i :: rest)).2.frames = _
    rw [callResume]
    split
    · exact drives_callRun b i _
    · rfl
  | stepped i ho hs => exact engages_giveBack hs b _
  | @started o rest i ho hs =>
    cases o with
    | ok v =>
      have hrest : (b.endStart i v rest).2.frames = rest := by
        rw [endStart.eq_def]
        simp only
        split <;> rfl
      show Engages b _ _ _ (drives (b.endStart i v rest).2.frames)
      rw [hrest]
      exact .ends i
    | error e => exact .ends i
  | returned ho hs => exact engages_giveBack hs b _
  | @answered a rest i epoch ha hs =>
    refine hsame ?_
    show drives (b.endReading i epoch a rest).2.frames = _
    rw [frames_endReading]
    rfl
  | @looping rest i hs =>
    refine hsame ?_
    show drives (b.nextStep i (.starting i :: rest)).2.frames = _
    rw [nextStep]
    split
    · rfl
    · exact drives_endRun b i _
  | getting i epoch hs =>
    refine hsame ?_
    simp only [advance, goOn]
    split <;> rfl
  | @replying deeds answer _ i epoch hreply hs =>
    rcases deeds with - | ⟨- | g | v, deeds⟩ <;> exact .same

end Bench
/-! ### Runs -/

namespace Roster

/-- The machines that the calls of all threads drive. -/
def drives (r : Roster) : List Nat := r.gather fun x => TapeMachine.drives x.frames

theorem drives_of_threads {r r' : Roster} (h : r'.threads = r.threads) : r'.drives = r.drives := by
  rw [drives, drives, gather, gather, h]

theorem drives_spawn (r : Roster) (c : Call) : (r.spawn c).drives = r.drives := by
  rw [drives, gather, Roster.spawn, Array.toList_push, List.flatMap_append]
  exact List.append_nil _

end Roster

namespace Scheduler
variable {s : Scheduler} {t : Nat} {moves : List Move} {p : Program} {o : Options}
  {source : Option Source} {sink : Option Sink}

/-- A start is called on a paused session while a single step of its machine waits. -/
def Clashes (s : Scheduler) : Prop :=
  ∃ t fs i, s.roster.current? = some (t, .call .sessionStart, fs) ∧ s.bench.Clash i

/-- No two calls drive the same machine. -/
structure Secured (P : Failure → Prop) (s : Scheduler) : Prop where
  attended : s.Attended P fun _ => True
  sound : s.Sound
  looped : s.Looped
  nodup : s.roster.drives.Nodup
  made : ∀ i ∈ s.roster.drives, i < s.bench.machines.size

/-- Of the machine of a run loop it is known that a call drives it. -/
theorem Secured.mem_drives_of_run (h : s.Secured P) (hi : i ∈ s.roster.runs) :
    i ∈ s.roster.drives := by
  obtain ⟨t, x, ht, hix⟩ := Roster.mem_gather_iff.mp hi
  refine Roster.mem_gather_iff.mpr ⟨t, x, ht, ?_⟩
  cases x with
  | active f fs => exact (h.attended.serves t f fs ht).mem_drives_of_run hix
  | finished o => cases hix

/-- While a call on the session is made, a machine that another call drives is busy. -/
theorem Attended.busy_of_drives {c : Call} {m : Machine} (h : s.Attended P W) (hsound : s.Sound)
    (hlooped : s.Looped) (hc : s.roster.current? = some (t, .call c, fs)) (hcall : c.OfSession)
    (hi : i ∈ s.roster.drives) (hm : s.bench.machine? i = some m) :
    m.looping = true ∨ m.stepping = true := by
  obtain ⟨hr, hthread⟩ := Roster.current?_eq_some_iff.mp hc
  obtain ⟨u, x, hu, hix⟩ := Roster.mem_gather_iff.mp hi
  cases x with
  | finished o => cases hix
  | active f' fs' =>
    have hf : Roster.Rests f' fs' ∨ ∃ c, f' = .call c ∧ c.OfSession := by
      by_cases hut : t = u
      · subst hut
        cases hthread.symm.trans hu
        exact .inr ⟨c, rfl, hcall⟩
      · refine .inl (h.orderly.rested u f' fs' hu ?_)
        rw [hr]
        exact fun heq => hut (Option.some.inj heq)
    rcases (h.serves u f' fs' hu).seen hf hix with hruns | hreads
    · have hx : s.bench.flags? i = some m.flags := by rw [Bench.flags?, hm]; rfl
      exact .inl (hlooped.looping hu ((mem_runs_iff fs').mp hruns) hx)
    · obtain ⟨⟨j, epoch⟩, hmem, rfl⟩ := List.mem_map.mp hreads
      have hheld : (j, epoch) ∈ s.roster.readings := Roster.mem_gather_iff.mpr ⟨u, _, hu, hmem⟩
      have hwaits := (hsound.held.waiting j).mpr (Held.fst_mem hheld)
      exact .inr ((Waiting.iff_of (Bench.getElem?_bare_of hm)).mp hwaits)

/-- A call on the session that finds a machine vacant is the only one to drive it. -/
theorem Secured.not_mem_drives {c : Call} (h : s.Secured P)
    (hc : s.roster.current? = some (t, .call c, fs)) (hcall : c.OfSession)
    (hv : s.bench.Vacant i) : i ∉ s.roster.drives := by
  intro hi
  obtain ⟨m, hm⟩ : ∃ m, s.bench.machine? i = some m :=
    ⟨_, Array.getElem?_eq_getElem (h.made i hi)⟩
  obtain ⟨hlooping, hstepping⟩ := hv m hm
  rcases h.attended.busy_of_drives h.sound h.looped hc hcall hi hm with hbusy | hbusy
  · exact Bool.false_ne_true (hlooping.symm.trans hbusy)
  · exact Bool.false_ne_true (hstepping.symm.trans hbusy)

/-- No step is called while another step of its machine waits. -/
theorem Secured.stepping_eq_false {m : Machine} (h : s.Secured P)
    (hc : s.roster.current? = some (t, .call (.step i), fs)) (hm : s.bench.machine? i = some m) :
    m.stepping = false := by
  obtain ⟨-, hthread⟩ := Roster.current?_eq_some_iff.mp hc
  obtain ⟨rest, hs, hdrives, hreadings⟩ : ∃ rest, Served P none rest ∧
      drives fs = i :: drives rest ∧ readings fs = readings rest := by
    cases h.attended.serves t _ _ hthread with
    | call hcall _ => exact absurd hcall id
    | step _ hs => exact hs.drives_eq
  have hnodup := (Roster.gather_perm (g := fun x => drives x.frames) hthread).nodup_iff.mp h.nodup
  rw [show Thread.frames (.active (.call (.step i)) fs) = fs from rfl, hdrives, List.cons_append,
    List.nodup_cons] at hnodup
  rw [Bool.eq_false_iff]
  intro hstepping
  -- the step that waits belongs to another call that drives the machine
  have hwaits : Waiting s.bench.bare i :=
    (Waiting.iff_of (Bench.getElem?_bare_of hm)).mpr hstepping
  obtain ⟨⟨j, epoch⟩, hmem, rfl⟩ := List.mem_map.mp ((h.sound.held.waiting i).mp hwaits)
  obtain ⟨u, x, hu, hx⟩ := Roster.mem_gather_iff.mp hmem
  refine hnodup.1 (List.mem_append.mpr ?_)
  by_cases hut : u = t
  · subst hut
    cases hthread.symm.trans hu
    refine .inl (hs.mem_drives_of_reading ?_)
    rw [← hreadings]
    exact Held.fst_mem hx
  · refine .inr (Roster.mem_gatherOthers hu hut ?_)
    cases x with
    | active f' fs' =>
      exact (h.attended.serves u f' fs' hu).mem_drives_of_reading (Held.fst_mem hx)
    | finished o => cases hx

theorem Secured.admits (h : s.Secured P) : s.Admits P := by
  intro t i fs n hc hn
  obtain ⟨m, hm, hstance⟩ := Option.map_eq_some_iff.mp hn
  have hfalse := h.stepping_eq_false hc hm
  rw [Machine.stepping_of_stance hstance] at hfalse
  cases hfalse

/-- Only a turn begins or ends a call that drives a machine. -/
theorem drives_move {x : Move} (hx : x ≠ .turn) :
    (s.move x).roster.drives = s.roster.drives := by
  cases x with
  | turn => exact absurd rfl hx
  | dispatch => exact Roster.drives_of_threads s.roster.threads_dispatch
  | outside x =>
    rw [move]
    split
    · cases x with
      | spawn c => exact Roster.drives_spawn _ c
      | _ => exact Roster.drives_of_threads (threads_intervene fun _ h => by cases h)
    · rfl

/-- What a turn adds to the calls that drive machines was not among them. -/
theorem Secured.advance_drives (h : s.Secured P) (hfree : ¬ s.Clashes) :
    s.advance.roster.drives.Nodup ∧
      ∀ i ∈ s.advance.roster.drives, i < s.advance.bench.machines.size := by
  have hsize : s.bench.machines.size ≤ s.advance.bench.machines.size := size_le_move h.sound .turn
  have hmade : ∀ i ∈ s.roster.drives, i < s.advance.bench.machines.size := fun i hi =>
    Nat.lt_of_lt_of_le (h.made i hi) hsize
  cases hc : s.roster.current? with
  | none =>
    rw [advance_of_none h.attended.orderly hc] at hmade ⊢
    exact ⟨h.nodup, hmade⟩
  | some c =>
    obtain ⟨t, f, fs⟩ := c
    obtain ⟨-, ht⟩ := Roster.current?_eq_some_iff.mp hc
    have hturn := Bench.engages_advance (h.attended.serves t f fs ht) (h.attended.phased t f fs hc)
      fun i hf hclash => hfree ⟨t, fs, i, hf ▸ hc, hclash⟩
    have hold := Roster.gather_perm (g := fun x => drives x.frames) ht
    have hnew : s.advance.roster.drives.Perm (drives (s.bench.advance fs f).2.frames ++
        s.roster.gatherOthers (fun x => drives x.frames) t) := by
      rw [advance_of_some hc, Roster.drives_of_threads (s.roster.threads_settle t _),
        ← Turn.frames_thread]
      exact Roster.gather_put_perm ht _
    have hsizes : s.advance.bench = (s.bench.advance fs f).1 := by rw [advance_of_some hc]
    rw [hnew.nodup_iff]
    simp only [hnew.mem_iff]
    rw [show Thread.frames (.active f fs) = fs from rfl] at hold
    have hnodup := hold.nodup_iff.mp h.nodup
    generalize drives fs = ds at hturn hnodup hold
    generalize drives (s.bench.advance fs f).2.frames = ds' at hturn
    cases hturn with
    | same => exact ⟨hnodup, fun j hj => hmade j (hold.mem_iff.mpr hj)⟩
    | ends i =>
      exact ⟨(List.nodup_cons.mp hnodup).2, fun j hj => hmade j (hold.mem_iff.mpr (.tail _ hj))⟩
    | begins i hf hcall hv hi =>
      have hnot : i ∉ s.roster.drives := h.not_mem_drives (hf ▸ hc) hcall hv
      refine ⟨List.nodup_cons.mpr ⟨fun hm => hnot (hold.mem_iff.mpr hm), hnodup⟩, fun j hj => ?_⟩
      rcases List.mem_cons.mp hj with rfl | hj
      · rw [hsizes]
        exact hi
      · exact hmade j (hold.mem_iff.mpr hj)

/-- Every move but a start that disturbs a single step keeps the access to machines
exclusive. -/
theorem secured_move {x : Move} (hP : Covers P) (h : s.Secured P) (hx : x.OfSession)
    (hfree : ¬ s.Clashes) : (s.move x).Secured P := by
  have hattended : (s.move x).Attended P fun _ => True :=
    attended_move hP h.attended hx h.admits (fun _ => id) fun _ _ _ => trivial
  have hnew : s.bench.machines.size ∉ s.roster.runs := fun hm =>
    Nat.lt_irrefl _ (h.made _ (h.mem_drives_of_run hm))
  have hlooped := (move_flipped h.sound h.looped (fun _ => hnew) x).looped
  have hsound := (move_moved h.sound x).sound
  by_cases hturn : x = .turn
  · subst hturn
    obtain ⟨hnodup, hmade⟩ := h.advance_drives hfree
    exact ⟨hattended, hsound, hlooped, hnodup, hmade⟩
  · have hdrives : (s.move x).roster.drives = s.roster.drives := drives_move hturn
    refine ⟨hattended, hsound, hlooped, hdrives ▸ h.nodup, fun i hi => ?_⟩
    rw [hdrives] at hi
    exact Nat.lt_of_lt_of_le (h.made i hi) (size_le_move h.sound x)

theorem secured_ofSession (hsource : ∀ x, source = some x → x.OfSession P)
    (hsink : ∀ x, sink = some x → x.OfSession P) : (ofSession p o source sink).Secured P := by
  refine ⟨(attended_ofSession p o hsource hsink).mono fun _ => False.elim, ⟨fun t f fs ht => ?_,
    ⟨?_, fun j => ?_, fun i epoch hi => ?_⟩, ⟨fun hn => ?_, fun s i hs hi => ?_⟩⟩,
    fun j x hx => ?_, ?_, fun i hi => ?_⟩
  · simp [ofSession] at ht
  · exact List.nodup_nil
  · simp [Waiting, ofSession, Bench.bare, Roster.readings]
  · cases hi
  · cases hn
  · cases hs
    cases hi
  · cases hx
  · exact List.nodup_nil
  · cases hi

theorem play_secured (hP : Covers P) (h : s.Secured P) (hmoves : ∀ x ∈ moves, x.OfSession)
    (hfree : ∀ before, before <+: moves → ¬ (s.play before).Clashes) :
    (s.play moves).Secured P := by
  induction moves generalizing s with
  | nil => exact h
  | cons x rest ih =>
    obtain ⟨hx, hrest⟩ := List.forall_mem_cons.mp hmoves
    refine ih (secured_move hP h hx (hfree [] List.nil_prefix)) hrest fun before hb => ?_
    exact hfree (x :: before) (List.cons_prefix_cons.mpr ⟨rfl, hb⟩)

end Scheduler
end TapeMachine
