import TapeMachine.Proofs.Machine.Core
import TapeMachine.Proofs.Schedule.Roster
import TapeMachine.Proofs.Schedule.Sound

/-! Epochs and the record.

Nothing reads the record of events, and an epoch is only ever compared with the one in
which a step began. So it makes no difference how many resets a machine has behind it, nor
what happened before. A scheduler seen so many resets later, after a given past
(`Scheduler.aged`), makes the same moves as the scheduler itself (`play_aged`). -/
namespace TapeMachine

/-- The machine, with so many resets more behind it. -/
def Machine.aged (k : Nat) (m : Machine) : Machine := {m with epoch := m.epoch + k}

/-- A step that waits began so many epochs later. -/
def Frame.aged (k : Nat) : Frame → Frame
  | .reading i epoch => .reading i (epoch + k)
  | x => x

def Turn.aged (k : Nat) : Turn → Turn
  | .go f fs => .go f (fs.map (Frame.aged k))
  | .sleep fs => .sleep (fs.map (Frame.aged k))
  | .await fs => .await (fs.map (Frame.aged k))
  | .done o => .done o

def Thread.aged (k : Nat) : Thread → Thread
  | .active f fs => .active f (fs.map (Frame.aged k))
  | .finished o => .finished o

def Roster.aged (k : Nat) (r : Roster) : Roster := {r with threads := r.threads.map (Thread.aged k)}

/-- The bench so many resets later, after other events. -/
def Bench.aged (k : Nat) (past : Array Event) (b : Bench) : Bench :=
  {b with machines := b.machines.map (Machine.aged k), events := past ++ b.events}

def Scheduler.aged (k : Nat) (past : Array Event) (s : Scheduler) : Scheduler :=
  ⟨s.bench.aged k past, s.roster.aged k⟩

/-! ### Machines -/

namespace Machine
variable (k : Nat) (m : Machine)

@[simp] theorem reset_aged : (m.aged k).reset = m.reset.aged k := by
  simp only [reset, aged, Nat.add_right_comm]

@[simp] theorem consume_aged : (m.aged k).consume = m.consume.aged k := by
  simp only [consume, aged]
  split <;> rfl

@[simp] theorem openLoop_aged : (m.aged k).openLoop = m.openLoop.aged k := by
  rw [openLoop, openLoop, apply_ite (aged k)]
  rfl

@[simp] theorem closeLoop_aged : (m.aged k).closeLoop = m.closeLoop.aged k := by
  have hloops : (m.aged k).loops = m.loops := rfl
  rw [closeLoop, closeLoop, hloops]
  cases m.loops with
  | nil => rfl
  | cons start outer =>
    simp only
    rw [apply_ite (aged k)]
    rfl

@[simp] theorem execute_aged : (m.aged k).execute = m.execute.aged k := by
  rw [execute, execute, show (m.aged k).program.command? (m.aged k).counter =
    m.program.command? m.counter from rfl]
  cases m.program.command? m.counter with
  | none => rfl
  | some c =>
    cases c
    case input => exact consume_aged k m
    case opening => exact openLoop_aged k m
    case closing => exact closeLoop_aged k m
    all_goals rfl

end Machine

namespace Bench
variable (k : Nat) (past : Array Event) (b : Bench) (i : Nat)

/-! ### The bench -/

@[simp] theorem machine?_aged :
    (b.aged k past).machine? i = (b.machine? i).map (Machine.aged k) := by
  simp only [machine?, aged, Array.getElem?_map]

@[simp] theorem snapshot?_aged : (b.aged k past).snapshot? i = b.snapshot? i := by
  rw [snapshot?, machine?_aged, Option.map_map]
  rfl

theorem epoch?_aged : (b.aged k past).epoch? i = (b.epoch? i).map (· + k) := by
  rw [epoch?, machine?_aged, epoch?, Option.map_map, Option.map_map]
  rfl

theorem epoch?_aged_eq_iff {epoch : Nat} :
    (b.aged k past).epoch? i = some (epoch + k) ↔ b.epoch? i = some epoch := by
  rw [epoch?_aged]
  cases b.epoch? i with
  | none => simp
  | some e => simp

theorem holds_aged {p : Machine → Bool} (h : ∀ m, p (m.aged k) = p m) :
    (b.aged k past).holds i p = b.holds i p := by
  rw [holds, machine?_aged, holds, Option.any_map]
  congr 1
  exact funext h

@[simp] theorem record_aged (e : Event) :
    (b.aged k past).record e = (b.record e).aged k past := by
  simp only [record, aged, Array.append_push]

@[simp] theorem log_aged (n : Notice) : (b.aged k past).log n = (b.log n).aged k past :=
  record_aged k past b _

theorem update_aged (f : Machine → Machine) (h : ∀ m, f (m.aged k) = (f m).aged k) :
    (b.aged k past).update i f = (b.update i f).aged k past := by
  simp only [update, aged]
  congr 1
  apply Array.ext_getElem?
  intro j
  simp only [Array.getElem?_modify, Array.getElem?_map]
  split
  · rw [Option.map_map, Option.map_map]
    congr 1
    exact funext h
  · rfl

/-! ### Callbacks -/

variable {b}

theorem signal_aged (hs : b.session = none) (g : Signal) :
    (b.aged k past).signal g = (b.signal g).aged k past := by
  have hs' : (b.aged k past).session = none := hs
  rw [signal, signal, hs, hs']
  cases g with
  | pause => exact update_aged k past b 0 Machine.pause fun _ => rfl
  | reset =>
    show ((b.aged k past).update 0 Machine.reset).log .reset = _
    rw [update_aged k past b 0 Machine.reset (Machine.reset_aged k), log_aged]
    rfl

theorem session_signal (hs : b.session = none) (g : Signal) : (b.signal g).session = none := by
  rw [signal, hs]
  cases g
  · exact hs
  · exact hs

theorem obey_aged (hs : b.session = none) (waits : Bool) (gs : List Signal) :
    (b.aged k past).obey waits gs = (b.obey waits gs).aged k past := by
  induction gs generalizing b with
  | nil => rfl
  | cons g rest ih =>
    show (((b.aged k past).signal g).record _).obey waits rest = _
    rw [signal_aged k past hs, record_aged]
    exact ih (session_signal hs g)

theorem outputSize?_aged (hs : b.session = none) :
    (b.aged k past).outputSize? = b.outputSize? := by
  have hs' : (b.aged k past).session = none := hs
  rw [outputSize?, inCharge?, hs', outputSize?, inCharge?, hs]
  simp only [machine?_aged, Option.map_map]
  rfl

theorem write_aged (text : Text) :
    (b.aged k past).write text = (b.write text).aged k past := by
  rw [write, write, ← record_aged]
  rfl

theorem deliver_aged (hs : b.session = none) (i : Nat) (c : Char) :
    (b.aged k past).deliver i c = Prod.map (aged k past) id (b.deliver i c) := by
  have hcalled : {b.aged k past with deliveries := (b.aged k past).deliveries + 1}.record
      (.emitted i c (b.aged k past).outputSize?) =
        ({b with deliveries := b.deliveries + 1}.record
          (.emitted i c b.outputSize?)).aged k past := by
    rw [outputSize?_aged k past hs, ← record_aged]
    rfl
  simp only [deliver, hcalled]
  generalize hbc : {b with deliveries := b.deliveries + 1}.record (.emitted i c b.outputSize?) =
    called
  have hsession : called.session = none := hbc ▸ hs
  rw [show (called.aged k past).sink = called.sink from rfl,
    show (called.aged k past).blocked = called.blocked from rfl,
    show (called.aged k past).deliveries = called.deliveries from rfl]
  split
  · rfl
  · rfl
  · split
    · rfl
    · rw [write_aged, record_aged]
      rfl
  · rw [obey_aged k past hsession]
    rfl

/-! ### Steps -/

/-- What a turn comes to, so many resets later. -/
def agedTurn (k : Nat) (past : Array Event) (r : Bench × Turn) : Bench × Turn :=
  (r.1.aged k past, r.2.aged k)

theorem ask_aged (hs : b.session = none) (i : Nat) (fs : List Frame) :
    (b.aged k past).ask i (fs.map (Frame.aged k)) = agedTurn k past (b.ask i fs) := by
  have hasked : {b.aged k past with requests := (b.aged k past).requests + 1}.record (.asked i) =
      ({b with requests := b.requests + 1}.record (.asked i)).aged k past := by
    rw [← record_aged]
    rfl
  simp only [ask, hasked]
  generalize hba : {b with requests := b.requests + 1}.record (.asked i) = asked
  have hsession : asked.session = none := hba ▸ hs
  rw [show (asked.aged k past).source = asked.source from rfl,
    show (asked.aged k past).requests = asked.requests from rfl]
  split
  · rfl
  · rfl
  · rfl
  · rw [log_aged]
    rfl
  · rfl
  · split
    · rw [obey_aged k past hsession]
      rfl
    · rfl

theorem request_aged (hs : b.session = none) (i : Nat) (fs : List Frame) :
    (b.aged k past).request i (fs.map (Frame.aged k)) = agedTurn k past (b.request i fs) := by
  rw [request, request, machine?_aged]
  cases b.machine? i with
  | none => rfl
  | some m =>
    simp only [Option.map_some]
    rw [update_aged k past b i (fun m => {m with stepping := true}) fun _ => rfl, log_aged]
    refine ask_aged k past ?_ i (.reading i m.epoch :: fs)
    exact hs

theorem putOut_aged (hs : b.session = none) (i : Nat) (fs : List Frame) :
    (b.aged k past).putOut i (fs.map (Frame.aged k)) = agedTurn k past (b.putOut i fs) := by
  rw [putOut, putOut, machine?_aged, Option.map_map]
  cases b.machine? i with
  | none => rfl
  | some m =>
    have hemit : (b.aged k past).update i Machine.emit = (b.update i Machine.emit).aged k past :=
      update_aged k past b i Machine.emit fun _ => rfl
    have hdeliver := deliver_aged k past (b := b.update i Machine.emit) hs i m.cellChar
    simp only [Option.map_some, Function.comp_apply]
    rw [show (m.aged k).cellChar = m.cellChar from rfl,
      show (m.aged k).speaks = m.speaks from rfl, show (m.aged k).epoch = m.epoch + k from rfl]
    cases m.speaks with
    | false =>
      simp only
      rw [update_aged k past b i (fun m => m.emit.advance) fun _ => rfl]
      rfl
    | true =>
      simp only [hemit, hdeliver]
      cases (b.update i Machine.emit).deliver i m.cellChar with
      | mk delivered failure =>
        cases failure with
        | some e => rfl
        | none =>
          simp only [Prod.map, id, epoch?_aged_eq_iff]
          split
          · rw [update_aged k past delivered i Machine.advance fun _ => rfl]
            rfl
          · rfl

theorem complain_aged (b : Bench) (i : Nat) :
    (b.aged k past).complain i = (b.complain i).aged k past := by
  have hcomplaint : ((b.aged k past).machine? i).bind Machine.complaint? =
      (b.machine? i).bind Machine.complaint? := by
    rw [machine?_aged, Option.bind_map]
    rfl
  rw [complain, complain, hcomplaint]
  split
  next => rfl
  next c _ =>
    have hreport : (b.aged k past).update i (·.report c) = (b.update i (·.report c)).aged k past :=
      update_aged k past b i (·.report c) fun _ => rfl
    rw [hreport, log_aged]

theorem callStep_aged (hs : b.session = none) (i : Nat) (fs : List Frame) :
    (b.aged k past).callStep i (fs.map (Frame.aged k)) = agedTurn k past (b.callStep i fs) := by
  have hstance : ((b.aged k past).machine? i).map Machine.stance =
      (b.machine? i).map Machine.stance := by
    rw [machine?_aged, Option.map_map]
    rfl
  rw [callStep, callStep, hstance]
  split
  · rfl
  · rfl
  · rw [update_aged k past b i (fun m => {m with running := false}) fun _ => rfl]
    rfl
  · exact putOut_aged k past hs i fs
  · exact request_aged k past hs i fs
  · have hexecute : ∀ m : Machine, (m.aged k).execute.advance = (m.execute.advance).aged k := by
      intro m
      rw [Machine.execute_aged]
      rfl
    rw [complain_aged, update_aged k past (b.complain i) i _ hexecute]
    rfl

theorem endReading_aged (b : Bench) (i epoch : Nat) (a : Answer) (fs : List Frame) :
    (b.aged k past).endReading i (epoch + k) a (fs.map (Frame.aged k)) =
      agedTurn k past (b.endReading i epoch a fs) := by
  have hfreed : (b.aged k past).update i (fun m => {m with stepping := false}) =
      (b.update i fun m => {m with stepping := false}).aged k past :=
    update_aged k past b i _ fun _ => rfl
  cases a with
  | error e =>
    rw [endReading, endReading, hfreed]
    rfl
  | ok text =>
    have hconsume : ∀ m : Machine, ((m.aged k).receive text).consume.advance =
        ((m.receive text).consume.advance).aged k := by
      intro m
      rw [show (m.aged k).receive text = (m.receive text).aged k from rfl, Machine.consume_aged]
      rfl
    rw [endReading, endReading, hfreed]
    simp only [record_aged, epoch?_aged_eq_iff]
    split
    · rw [update_aged k past _ i _ hconsume]
      rfl
    · rw [log_aged]
      rfl

/-! ### Other turns -/

theorem callRun_aged (b : Bench) (i : Nat) (fs : List Frame) :
    (b.aged k past).callRun i (fs.map (Frame.aged k)) = agedTurn k past (b.callRun i fs) := by
  have hgoing : (b.aged k past).update i Machine.unpause =
      (b.update i Machine.unpause).aged k past :=
    update_aged k past b i Machine.unpause fun _ => rfl
  simp only [callRun, hgoing]
  rw [holds_aged k past _ i fun _ => rfl, snapshot?_aged,
    update_aged k past (b.update i Machine.unpause) i Machine.enterLoop fun _ => rfl]
  split
  · rfl
  · rfl

theorem callResume_aged (b : Bench) (i : Nat) (fs : List Frame) :
    (b.aged k past).callResume i (fs.map (Frame.aged k)) =
      agedTurn k past (b.callResume i fs) := by
  rw [callResume, callResume, holds_aged k past b i fun _ => rfl]
  split
  · exact callRun_aged k past b i fs
  · rfl

theorem endRun_aged (b : Bench) (i : Nat) (fs : List Frame) :
    (b.aged k past).endRun i (fs.map (Frame.aged k)) = agedTurn k past (b.endRun i fs) := by
  have hleft : (b.aged k past).update i Machine.leaveLoop =
      (b.update i Machine.leaveLoop).aged k past :=
    update_aged k past b i Machine.leaveLoop fun _ => rfl
  simp only [endRun, hleft, machine?_aged]
  cases (b.update i Machine.leaveLoop).machine? i with
  | none => rfl
  | some m =>
    simp only [Option.map_some, log_aged]
    rfl

theorem nextStep_aged (b : Bench) (i : Nat) (fs : List Frame) :
    (b.aged k past).nextStep i (fs.map (Frame.aged k)) = agedTurn k past (b.nextStep i fs) := by
  rw [nextStep, nextStep, holds_aged k past b i fun _ => rfl]
  split
  · rfl
  · exact endRun_aged k past b i fs

theorem afterStep_aged (b : Bench) (i : Nat) (o : Outcome) (fs : List Frame) :
    (b.aged k past).afterStep i o (fs.map (Frame.aged k)) =
      agedTurn k past (b.afterStep i o fs) := by
  rw [afterStep.eq_def, afterStep.eq_def, holds_aged k past b i fun _ => rfl]
  split
  · rw [update_aged k past b i Machine.leaveLoop fun _ => rfl]
    rfl
  · split
    · rfl
    · rfl
  · exact endRun_aged k past b i fs

theorem giveBack_aged (hs : b.session = none) (o : Outcome) (fs : List Frame) :
    (b.aged k past).giveBack o (fs.map (Frame.aged k)) = agedTurn k past (b.giveBack o fs) := by
  have hs' : (b.aged k past).session = none := hs
  rcases fs with - | ⟨x, fs⟩
  · rfl
  · cases x with
    | looping i => exact afterStep_aged k past b i o fs
    | calling v =>
      show ((b.aged k past).record _, _) = _
      rw [record_aged]
      rfl
    | starting i =>
      cases o with
      | error e => rfl
      | ok v =>
        show (b.aged k past).endStart i v _ = agedTurn k past (b.endStart i v fs)
        simp only [endStart, hs, hs']
        rfl
    | stepping i =>
      cases o with
      | error e => rfl
      | ok v =>
        show (b.aged k past).endSessionStep i _ = agedTurn k past (b.endSessionStep i fs)
        simp only [endSessionStep, hs, hs']
        rfl
    | reading | replying | getting => rfl

theorem goOn_aged (hs : b.session = none) (fs : List Frame) :
    (b.aged k past).goOn (fs.map (Frame.aged k)) = agedTurn k past (b.goOn fs) := by
  rcases fs with - | ⟨x, fs⟩
  · rfl
  · cases x with
    | looping i => exact nextStep_aged k past b i fs
    | getting =>
      simp only [List.map_cons, Frame.aged, goOn]
      rw [show (b.aged k past).source = b.source from rfl]
      split
      · rfl
      · rfl
    | replying deeds answer =>
      rcases deeds with - | ⟨- | g | v, deeds⟩
      · rfl
      · rfl
      · show ((b.aged k past).obey true [g], _) = _
        rw [obey_aged k past hs]
        rfl
      · show (b.aged k past, Turn.go (.call ((b.aged k past).callOf v)) _) = _
        rw [show (b.aged k past).callOf v = b.callOf v by cases v <;> rfl]
        rfl
    | reading | calling | starting | stepping => rfl

/-- A turn is the same whatever number the epochs count from. -/
theorem advance_aged (hs : b.session = none) (fs : List Frame) (f : Focus) :
    (b.aged k past).advance (fs.map (Frame.aged k)) f = agedTurn k past (b.advance fs f) := by
  have hs' : (b.aged k past).session = none := hs
  cases f with
  | call c =>
    cases c with
    | step i => exact callStep_aged k past hs i fs
    | run i => exact callRun_aged k past b i fs
    | resume i => exact callResume_aged k past b i fs
    | sessionStart =>
      show (b.aged k past).callStart _ = agedTurn k past (b.callStart fs)
      simp only [callStart, hs, hs']
      rfl
    | sessionStep =>
      show (b.aged k past).callSessionStep _ = agedTurn k past (b.callSessionStep fs)
      simp only [callSessionStep, hs, hs']
      rfl
  | returned o => exact giveBack_aged k past hs o fs
  | answered a =>
    rcases fs with - | ⟨x, fs⟩
    · rfl
    · cases x with
      | reading i epoch => exact endReading_aged k past b i epoch a fs
      | _ => rfl
  | resumed => exact goOn_aged k past hs fs

end Bench

/-! ### The roster -/

theorem map_aged_of_readings (k : Nat) {fs : List Frame} (h : readings fs = []) :
    fs.map (Frame.aged k) = fs := by
  refine (List.map_congr_left fun x hx => ?_).trans (List.map_id fs)
  cases x with
  | reading i epoch =>
    have hmem : (i, epoch) ∈ readings fs := List.mem_filterMap.mpr ⟨_, hx, rfl⟩
    rw [h] at hmem
    cases hmem
  | _ => rfl

namespace Roster
variable (k : Nat) (r : Roster)

theorem current?_aged : (r.aged k).current? =
    r.current?.map fun c => (c.1, c.2.1, c.2.2.map (Frame.aged k)) := by
  rw [current?, current?, show (r.aged k).running = r.running from rfl]
  cases r.running with
  | none => rfl
  | some t =>
    have hthread : (r.aged k).threads[t]? = r.threads[t]?.map (Thread.aged k) := Array.getElem?_map
    simp only [hthread]
    cases r.threads[t]? with
    | none => rfl
    | some x => cases x <;> rfl

theorem put_aged (t : Nat) (x : Thread) :
    (r.aged k).put t (x.aged k) = (r.put t x).aged k := by
  simp only [put, aged, Array.map_setIfInBounds]

theorem settle_aged (t : Nat) (x : Turn) :
    (r.aged k).settle t (x.aged k) = (r.settle t x).aged k := by
  cases x with
  | go f fs => exact put_aged k r t (.active f fs)
  | sleep fs =>
    have hput := put_aged k r t (.active .resumed fs)
    simp only [settle, Turn.aged]
    rw [show Thread.active .resumed (fs.map (Frame.aged k)) =
      (Thread.active .resumed fs).aged k from rfl, hput]
    rfl
  | await fs =>
    have hput := put_aged k r t (.active .resumed fs)
    simp only [settle, Turn.aged]
    rw [show Thread.active .resumed (fs.map (Frame.aged k)) =
      (Thread.active .resumed fs).aged k from rfl, hput]
    rfl
  | done o =>
    have hput := put_aged k r t (.finished o)
    simp only [settle, Turn.aged]
    rw [show Thread.finished o = (Thread.finished o).aged k from rfl, hput]
    rfl

theorem spawn_aged (c : Call) : (r.aged k).spawn c = (r.spawn c).aged k := by
  simp only [spawn, aged, Array.map_push, Array.size_map]
  rfl

theorem dispatch_aged : (r.aged k).dispatch = r.dispatch.aged k := by
  rw [dispatch.eq_def, dispatch.eq_def, show (r.aged k).running = r.running from rfl,
    show (r.aged k).ready = r.ready from rfl]
  split
  · rfl
  · rfl

theorem wakeGetter_aged : (r.aged k).wakeGetter = r.wakeGetter.aged k := by
  rw [wakeGetter, wakeGetter, show (r.aged k).getters = r.getters from rfl]
  split
  · rfl
  · rfl

/-- Where no step waits there are no epochs. -/
theorem aged_of_readings (h : r.readings = []) : r.aged k = r := by
  have hthread : ∀ x ∈ r.threads.toList, x.aged k = x := by
    intro x hx
    have hnil : x.readings = [] := List.flatMap_eq_nil_iff.mp h x hx
    cases x with
    | active f fs => rw [Thread.aged, map_aged_of_readings k hnil]
    | finished o => rfl
  have hthreads : r.threads.map (Thread.aged k) = r.threads := by
    apply Array.toList_inj.mp
    rw [Array.toList_map]
    exact (List.map_congr_left hthread).trans (List.map_id _)
  rw [aged, hthreads]

end Roster

/-! ### Moves -/

namespace Scheduler
variable {s : Scheduler} (k : Nat) (past : Array Event)

theorem advance_aged (hs : s.bench.session = none) :
    (s.aged k past).advance = s.advance.aged k past := by
  obtain ⟨bench, roster⟩ := s
  simp only [aged, advance, Roster.current?_aged]
  cases roster.current? with
  | none => rfl
  | some c =>
    obtain ⟨t, f, fs⟩ := c
    simp only [Option.map_some]
    rw [Bench.advance_aged k past hs]
    simp only [Bench.agedTurn, Roster.settle_aged]

theorem intervene_aged (hs : s.bench.session = none) (x : Intervention) :
    (s.aged k past).intervene x = (s.intervene x).aged k past := by
  obtain ⟨bench, roster⟩ := s
  have hs' : bench.session = none := hs
  cases x with
  | spawn c => simp only [intervene, spawn, aged, Roster.spawn_aged]
  | signal g => simp only [intervene, onBench, aged, Bench.signal_aged k past hs']
  | signalMachine i g =>
    have hsize : (bench.aged k past).machines.size = bench.machines.size := Array.size_map
    simp only [intervene, onBench, aged, hsize]
    split
    · cases g with
      | pause =>
        simp only [Bench.signalMachine]
        rw [Bench.update_aged k past bench i Machine.pause fun _ => rfl]
      | reset =>
        simp only [Bench.signalMachine]
        rw [Bench.update_aged k past bench i Machine.reset (Machine.reset_aged k), Bench.log_aged]
    · rfl
  | feed text =>
    simp only [intervene, feed, aged, Roster.wakeGetter_aged]
    rfl
  | cooperate i on =>
    simp only [intervene, onBench, aged]
    rw [Bench.update_aged k past bench i (fun m => {m with cooperative := on}) fun _ => rfl]
  | edit p o => rfl

theorem move_aged (hs : s.bench.session = none) (x : Move) :
    (s.aged k past).move x = (s.move x).aged k past := by
  cases x with
  | turn => exact advance_aged k past hs
  | dispatch =>
    simp only [move, dispatch, aged, Roster.dispatch_aged]
  | outside x =>
    rw [move, move, show (s.aged k past).roster.running = s.roster.running from rfl]
    split
    · exact intervene_aged k past hs x
    · rfl

/-- A run is the same whatever number the epochs count from, and whatever was recorded
before. -/
theorem play_aged (h : s.Sound) (hs : s.bench.session = none) (moves : List Move) :
    (s.aged k past).play moves = (s.play moves).aged k past := by
  induction moves generalizing s with
  | nil => rfl
  | cons x rest ih =>
    have hx := move_moved h x
    show ((s.aged k past).move x).play rest = ((s.move x).play rest).aged k past
    rw [move_aged k past hs]
    exact ih hx.sound (hx.keeps.alone hs).1

theorem outcome?_aged (t : Nat) : (s.aged k past).outcome? t = s.outcome? t := by
  have hthread : (s.roster.aged k).threads[t]? = s.roster.threads[t]?.map (Thread.aged k) :=
    Array.getElem?_map
  rw [outcome?, outcome?, show (s.aged k past).roster = s.roster.aged k from rfl, hthread,
    Option.bind_map]
  congr 1
  funext x
  cases x <;> rfl

end Scheduler
end TapeMachine
