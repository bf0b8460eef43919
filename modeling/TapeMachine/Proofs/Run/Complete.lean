import TapeMachine.Proofs.Run.Tended

/-! Runs to the end.

A run of a tended machine that nothing else disturbs comes to its end exactly if the
instructions take the machine to the end of its program (`Machine.Arrives`), and then with
the state that the machine has there. Whether the machine lets others go first after every
step, and how many small turns the run was given beyond those it takes, makes no
difference. -/
namespace TapeMachine

namespace Machine
variable {texts : Nat → Text} {m m' : Machine}

/-- What is left of a run that ends with the machine. -/
def account (m : Machine) : Report := ⟨m.output.toList, m.steps, m.toSnapshot⟩

/-- Steps one after the other take the machine to the end of its program. -/
def Arrives (texts : Nat → Text) (m : Machine) (y : Machine × Nat) : Prop :=
  ∃ n, Walk texts n (m, 0) y ∧ y.1.program.size ≤ y.1.counter

theorem goesOn_of_flags (h : m'.flags = m.flags) : m'.goesOn = m.goesOn :=
  congrArg (fun x : Flags => x.running && !x.paused) h

/-- What a run leaves behind, when it was not paused. -/
theorem account_of_bare (h : m.bare = m') (hp : m.paused = false) :
    (⟨m.output.toList, m.steps, m.leaveLoop.toSnapshot⟩ : Report) = m'.account := by
  rw [← h, account]
  simp [leaveLoop, bare, hp]

end Machine

namespace Bench.Tended
open Machine

variable {b : Bench} {m : Machine} {texts : Nat → Text} {out : Sink} {prior : Prior}
  {n k : Nat} {x y : Machine × Nat}

/-- A run begins, and takes back a pause. -/
theorem start (h : Tended texts out prior b m k) (hl : m.looping = false) (fs : List Frame) : ∃ b',
    b.advance fs (.call (.run 0)) = (b', .go .resumed (.looping 0 :: fs)) ∧
      Tended texts out prior b' m.unpause.enterLoop k := by
  have hgoing := h.update (f := unpause) rfl rfl rfl
  refine ⟨_, ?_, hgoing.update (f := enterLoop) rfl rfl rfl⟩
  show b.callRun 0 fs = _
  have hfree : (b.update 0 unpause).holds 0 (·.looping) = false := by
    rw [holds, hgoing.machine]
    exact hl
  simp only [callRun, hfree]
  rfl

/-- A run that goes on calls for a step. -/
theorem next (h : Tended texts out prior b m k) (hg : m.goesOn = true) (fs : List Frame) :
    b.advance (.looping 0 :: fs) .resumed = (b, .go (.call (.step 0)) (.looping 0 :: fs)) := by
  show b.nextStep 0 fs = _
  rw [nextStep, if_pos]
  rw [holds, h.machine]
  exact hg

/-- With the step a run is where it was, whether it sleeps in between or not. -/
theorem round (h : Tended texts out prior b m k) (hs : m.stepping = false)
    (hr : m.counter < m.program.size) (fs : List Frame) :
    ∃ b', Leads b (.call (.step 0)) (.looping 0 :: fs) b' .resumed (.looping 0 :: fs) ∧
      Tended texts out prior b' (m.onward texts k).1 (m.onward texts k).2 := by
  obtain ⟨b', hl, h'⟩ := h.step hs hr (.looping 0 :: fs)
  refine ⟨b', hl.trans ?_, h'⟩
  have hback : b'.advance (.looping 0 :: fs) (.returned (.ok (.stepped true))) =
      if b'.holds 0 (·.cooperative) then (b', .sleep (.looping 0 :: fs))
      else (b', .go .resumed (.looping 0 :: fs)) := rfl
  by_cases hc : b'.holds 0 (·.cooperative) = true
  · rw [if_pos hc] at hback
    exact .sleep hback .refl
  · rw [if_neg hc] at hback
    exact .go hback .refl

/-- A run takes the machine as far as its instructions do. -/
theorem rounds (hwalk : Walk texts n x y) (h : Tended texts out prior b m x.2)
    (hb : m.bare = x.1) (hg : m.goesOn = true) (hs : m.stepping = false) (fs : List Frame) :
    ∃ b' m', Leads b .resumed (.looping 0 :: fs) b' .resumed (.looping 0 :: fs) ∧
      Tended texts out prior b' m' y.2 ∧ m'.bare = y.1 ∧ m'.flags = m.flags ∧
      m'.stepping = false := by
  induction hwalk generalizing b m with
  | nil => exact ⟨b, m, .refl, h, hb, rfl, hs⟩
  | @cons n x y hr _ ih =>
    obtain ⟨x, k⟩ := x
    subst hb
    obtain ⟨b₁, hl₁, h₁⟩ := h.round hs hr fs
    have hflags := flags_onward texts m k
    have honward := onward_bare texts m k
    obtain ⟨b', m', hl, h', hb', hf', hs'⟩ := ih (by rw [honward]; exact h₁) (by rw [honward])
      ((goesOn_of_flags hflags).trans hg) ((stepping_onward texts m k).trans hs)
    exact ⟨b', m', .go (h.next hg fs) (hl₁.trans hl), h', hb', hf'.trans hflags, hs'⟩

/-- At the end of the program the run ends. -/
theorem finish (h : Tended texts out prior b m k) (hg : m.goesOn = true) (hs : m.stepping = false)
    (he : m.program.size ≤ m.counter) (fs : List Frame) :
    ∃ b', Leads b .resumed (.looping 0 :: fs) b'
        (.returned (.ok (.state (some m.leaveLoop.toSnapshot)))) fs ∧
      Tended texts out prior b' m.leaveLoop k := by
  obtain ⟨b₁, hcall, hstopped⟩ := h.stop hs he (.looping 0 :: fs)
  have hleft := hstopped.update (f := leaveLoop) rfl rfl rfl
  have hend : b₁.advance (.looping 0 :: fs) (.returned (.ok (.stepped false))) =
      b₁.endRun 0 fs := rfl
  simp only [endRun, hleft.machine] at hend
  exact ⟨_, .go (h.next hg fs) (.go hcall (.go hend .refl)), hleft.record (by split <;> trivial)⟩

end Bench.Tended

namespace Scheduler
open Machine

variable {s : Scheduler} {m : Machine} {b : Bench} {texts : Nat → Text} {out : Sink}
  {prior : Bench.Prior} {t k fuel : Nat} {y : Machine × Nat}

/-- A run to the end of the program has its result as soon as it was given enough small
turns, and none before. -/
theorem runToEnd_of_arrives (hi : s.Idle) (h : Bench.Tended texts out prior s.bench m 0)
    (hl : m.looping = false) (hs : m.stepping = false) (hy : Arrives texts m.bare y) :
    ∃ n s' m', (∀ fuel, n ≤ fuel → s.runToEnd fuel = (s', some (.ok y.1.account))) ∧
      (∀ fuel, fuel < n → (s.runToEnd fuel).2 = none) ∧
      Bench.Tended texts out prior s'.bench m' y.2 ∧ m'.bare = y.1 := by
  obtain ⟨steps, hwalk, hend⟩ := hy
  obtain ⟨b₁, hstart, h₁⟩ := h.start hl []
  obtain ⟨b₂, m₂, hl₂, h₂, hb₂, hf₂, hs₂⟩ := Bench.Tended.rounds hwalk h₁ rfl rfl hs []
  have hpaused : m₂.paused = false := congrArg Flags.paused hf₂
  have hend₂ : m₂.program.size ≤ m₂.counter := by rwa [← hb₂] at hend
  obtain ⟨b₃, hl₃, h₃⟩ := h₂.finish ((goesOn_of_flags hf₂).trans rfl) hs₂ hend₂ []
  obtain ⟨n, s', -, rfl, hafter, hbefore⟩ :=
    complete_of_leads hi (.go hstart (hl₂.trans hl₃))
  have hdelivered : s'.bench.delivered = m₂.output.toList := h₃.delivered
  have haccount := account_of_bare hb₂ hpaused
  refine ⟨n, s', m₂.leaveLoop, fun fuel hle => ?_, fun fuel hlt => ?_, h₃, hb₂⟩
  · have hcomplete := hafter fuel hle
    have houtcome : (s.complete fuel (.run 0)).1.outcome? s.roster.threads.size =
        some (.ok (.state (some m₂.leaveLoop.toSnapshot))) := congrArg Prod.snd hcomplete
    rw [hcomplete] at houtcome
    simp only [runToEnd, hcomplete, ended, houtcome, report?, h₃.machine, hdelivered, ← haccount]
    rfl
  · have hnone : (s.complete fuel (.run 0)).1.outcome? s.roster.threads.size = none :=
      hbefore fuel hlt
    rw [runToEnd, ended, hnone]

/-- As long as the instructions do not take the machine to the end, its run goes on. -/
theorem exhaust_of_endless (fuel : Nat) (hlone : Lone s t b .resumed [.looping 0])
    (h : Bench.Tended texts out prior b m k) (hg : m.goesOn = true) (hs : m.stepping = false)
    (hr : ∀ n y, Walk texts n (m.bare, k) y → y.1.counter < y.1.program.size) :
    (exhaust fuel s).outcome? t = none := by
  induction fuel using Nat.strongRecOn generalizing s b m k with
  | ind fuel ih =>
    cases fuel with
    | zero => exact hlone.unfinished
    | succ fuel =>
      obtain ⟨b', hl, h'⟩ := h.round hs (hr 0 _ .nil) []
      obtain ⟨n, s', hlone', hafter, hbefore⟩ := (hlone.go (h.next hg [])).leads hl
      rw [hlone.exhaust]
      by_cases hlt : fuel < n
      · exact hbefore fuel hlt
      · obtain ⟨more, rfl⟩ := Nat.exists_eq_add_of_le' (Nat.le_of_not_lt hlt)
        rw [hafter]
        refine ih more (by omega) hlone' h' ?_ ((stepping_onward texts m k).trans hs) ?_
        · exact (goesOn_of_flags (flags_onward texts m k)).trans hg
        · intro n y hwalk
          refine hr (n + 1) y (.cons (hr 0 _ .nil) ?_)
          rwa [onward_bare]

/-- A run that has a result was a run to the end of the program. -/
theorem arrives_of_runToEnd {r : Except Failure Report} (hi : s.Idle)
    (h : Bench.Tended texts out prior s.bench m 0) (hl : m.looping = false)
    (hs : m.stepping = false) (hr : (s.runToEnd fuel).2 = some r) :
    ∃ y, Arrives texts m.bare y := by
  by_contra hnot
  have hendless : ∀ n y, Walk texts n (m.bare, 0) y → y.1.counter < y.1.program.size :=
    fun n y hwalk => Nat.lt_of_not_le fun hle => hnot ⟨y, n, hwalk, hle⟩
  have hnone : (exhaust fuel (s.spawn (.run 0))).outcome? s.roster.threads.size = none := by
    obtain ⟨hlone, hspawn⟩ := hi.spawn (.run 0)
    obtain ⟨b₁, hstart, h₁⟩ := h.start hl []
    match fuel with
    | 0 => exact outcome?_spawn s (.run 0)
    | 1 =>
      rw [hspawn]
      exact hlone.unfinished
    | fuel + 2 =>
      rw [hspawn, hlone.exhaust]
      exact exhaust_of_endless fuel (hlone.go hstart) h₁ rfl hs hendless
  rw [runToEnd, ended, complete, hnone] at hr
  cases hr

end Scheduler

/-! ### New machines -/

namespace Bench
open Machine

variable {b made : Bench} {p : Program} {o : Options} {texts : Nat → Text} {out : Sink} {n : Nat}
  {y : Machine × Nat}

/-- A bench on which nothing has happened, but for what was put on record. -/
structure Blank (b : Bench) : Prop where
  session : b.session = none
  machines : b.machines = #[]
  requests : b.requests = 0
  delivered : b.delivered = []
  written : CommandLine.written b = []

theorem Blank.log (h : b.Blank) (n : Notice) : (b.log n).Blank where
  session := h.session
  machines := h.machines
  requests := h.requests
  delivered := (delivered_record (e := .notice n) trivial).trans h.delivered
  written := (written_record (e := .notice n) trivial).trans h.written

/-- Warnings about brackets are only put on record. -/
theorem blank_warnings (p : Program) : (CommandLine.warnings p).Blank :=
  List.foldlRecOn _ _ ⟨rfl, rfl, rfl, rfl, rfl⟩ fun _ h d _ => h.log (.bracket d)

/-- A blank bench with plain callbacks. -/
structure Fresh (texts : Nat → Text) (out : Sink) (b : Bench) : Prop extends Blank b where
  source : ∃ source, b.source = some source ∧ source.Plain
  gives : Source.Gives texts 0 b.source
  sink : b.sink = some out
  plain : out.Plain

/-- On the command line the input comes with the first request, and standard output takes
every character. -/
theorem fresh_benchFor (p : Program) (input : Text) :
    Fresh (fun n => if n = 1 then input else []) (.stream none)
      (CommandLine.benchFor p (.fixed input) none) := by
  have hblank := blank_warnings p
  exact ⟨⟨hblank.session, hblank.machines, hblank.requests, hblank.delivered, hblank.written⟩,
    ⟨_, rfl, trivial⟩, fun _ _ => rfl, rfl, trivial⟩

namespace Fresh

/-- The machine that is made is tended. -/
theorem tended (h : b.Fresh texts out) (hmade : b.make p o = .ok made) : ∃ n, ∃ hn : 0 < n,
    o.memorySize.cellCount? = some n ∧
      Tended texts out {} made {ofProgram p n hn with cooperative := o.cooperative} 0 := by
  obtain ⟨n, hn, hcells, rfl⟩ := eq_of_make hmade
  obtain ⟨source, hsource, hplain⟩ := h.source
  refine ⟨n, hn, hcells, Tended.record ?_ trivial⟩
  refine ⟨h.session, ?_, h.requests, h.source, h.gives, h.sink, h.plain, rfl, rfl, h.delivered,
    fun _ => ⟨[], h.delivered, h.written⟩⟩
  rw [machine?, h.machines, hsource, h.sink]
  rfl

/-- A run of a new machine that has a result takes it to the end of its program. -/
theorem arrives {r : Except Failure Report} {fuel : Nat} (h : b.Fresh texts out)
    (hmade : b.make p o = .ok made)
    (hr : (Scheduler.runToEnd fuel {bench := made}).2 = some r) : ∃ n, ∃ hn : 0 < n, ∃ y,
      o.memorySize.cellCount? = some n ∧ Arrives texts (ofProgram p n hn) y := by
  obtain ⟨n, hn, hcells, htended⟩ := h.tended hmade
  obtain ⟨y, hy⟩ := Scheduler.arrives_of_runToEnd (Scheduler.idle_of_bench made) htended rfl rfl hr
  exact ⟨n, hn, y, hcells, hy⟩

/-- The result of a run of a new machine, as soon as it was given enough small turns. A
stream behind the sink has then shown the output. -/
theorem result {hn : 0 < n} (h : b.Fresh texts out) (hmade : b.make p o = .ok made)
    (hcells : o.memorySize.cellCount? = some n) (hy : Arrives texts (ofProgram p n hn) y) :
    ∃ k s', (∀ fuel, k ≤ fuel →
        Scheduler.runToEnd fuel {bench := made} = (s', some (.ok y.1.account))) ∧
      (∀ fuel, fuel < k → (Scheduler.runToEnd fuel {bench := made}).2 = none) ∧
      (out = .stream none → CommandLine.written s'.bench = y.1.account.output) := by
  obtain ⟨n', hn', hcells', htended⟩ := h.tended hmade
  obtain rfl : n' = n := Option.some.inj (hcells'.symm.trans hcells)
  obtain ⟨k, s', m', hafter, hbefore, htended', hbare⟩ :=
    Scheduler.runToEnd_of_arrives (Scheduler.idle_of_bench made) htended rfl rfl hy
  refine ⟨k, s', hafter, hbefore, fun hout => ?_⟩
  obtain ⟨since, hgiven, hshown⟩ := htended'.written hout
  calc CommandLine.written s'.bench = s'.bench.delivered := hshown.trans hgiven.symm
    _ = m'.output.toList := htended'.delivered
    _ = y.1.account.output := by rw [← hbare]; rfl

end Fresh
end Bench
end TapeMachine
