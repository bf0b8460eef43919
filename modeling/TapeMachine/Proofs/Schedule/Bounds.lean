import TapeMachine.Proofs.Machine.Bounds
import TapeMachine.Proofs.Machine.Core
import TapeMachine.Proofs.Schedule.LoopStack

/-! Bounds in a run.

Whatever callers and callbacks do to a machine, and in whatever order, it keeps to its
bounds, on the tape and with the program that it was made with. -/
namespace TapeMachine.Scheduler
open Machine

variable {s : Scheduler} {moves : List Move} {i : Nat} {m : Machine}

theorem play_tidy (hs : s.Starts) (hm : (s.play moves).bench.machine? i = some m) : m.Tidy := by
  have hbare := play_each hs (fun _ hn => hn.tidy) (fun _ _ hsh h => hsh.tidy h) hm
  exact ⟨hbare.cursor_le, hbare.output_le⟩

/-- A machine keeps its program and the length of its tape. -/
theorem play_kin (h : s.Sound) (hm : s.bench.machine? i = some m) (moves : List Move) :
    ∃ m', (s.play moves).bench.machine? i = some m' ∧ Kin m.bare m'.bare :=
  play_follow h hm (.refl _) (fun _ _ hsh hkin => hkin.trans hsh.kin) moves

/-- The machine that was made for its callers has the program and the tape it was made with. -/
theorem play_made {source : Option Source} {sink : Option Sink} {p : Program} {o : Options}
    {b : Bench} (hb : Bench.make {source := source, sink := sink} p o = .ok b)
    (hm : (({bench := b} : Scheduler).play moves).bench.machine? i = some m) :
    m.program = p ∧ o.memorySize.cellCount? = some m.tape.size := by
  have hstarts : Starts {bench := b} := .machine hb
  obtain ⟨-, hkeeps⟩ := play_sound hstarts.sound moves
  obtain ⟨n, hn, hcells, rfl⟩ := Bench.eq_of_make hb
  obtain ⟨-, hsize⟩ := hkeeps.alone rfl
  obtain rfl : i = 0 := by
    have hlt := (Array.getElem?_eq_some_iff.mp hm).1
    rw [hsize] at hlt
    exact Nat.lt_one_iff.mp hlt
  obtain ⟨m', hm', hkin⟩ := play_kin (i := 0) hstarts.sound rfl moves
  obtain rfl := Option.some.inj (hm'.symm.trans hm)
  refine ⟨hkin.program, ?_⟩
  rw [hcells, show m'.tape.size = _ from hkin.size]
  exact congrArg some (Array.size_replicate (v := (0 : UInt8))).symm

/-- Every machine keeps to its bounds, also while its sink is called, and what the next
instruction looks up in the program, on the tape, in the input or on the stack is there.
Program and length of the tape are those of the beginning. -/
theorem play_bounded (hs : s.Starts) (moves : List Move)
    (hm : (s.play moves).bench.machine? i = some m) :
    m.Bounded ∧ (m.stance = .output → m.emit.Bounded) ∧ m.Finds ∧
      (∀ (source : Option Source) (sink : Option Sink) (p : Program) (o : Options) (b : Bench),
        Bench.make {source := source, sink := sink} p o = .ok b → s = {bench := b} →
        m.program = p ∧ o.memorySize.cellCount? = some m.tape.size) ∧
      ∀ more, ∃ m', (s.play (moves ++ more)).bench.machine? i = some m' ∧
        m'.program = m.program ∧ m'.tape.size = m.tape.size := by
  have hnested := play_nested hs hm
  have htidy := play_tidy hs hm
  have hloops := exists_loops_eq hs hm
  refine ⟨hnested.bounded htidy hloops, fun hst => ?_, m.finds,
    fun source sink p o b hb heq => ?_, fun more => ?_⟩
  · exact (hnested.still ((Does.spill hst).still id)).bounded htidy.emit hloops
  · subst heq
    exact play_made hb hm
  · obtain ⟨m', hm', hkin⟩ := play_kin (play_sound hs.sound moves).1 hm more
    rw [play_append]
    exact ⟨m', hm', hkin.program, hkin.size⟩

/-- In a loop on the last of two cells, after a character was put out. -/
theorem play_bounded_loop : ∃ b m,
    Bench.make {sink := some .silent} ⟨#['<', '-', '[', '.', ']']⟩
      {memorySize := .integer 2, cooperative := false} = .ok b ∧
    (({bench := b} : Scheduler).play (Move.alone (.run 0) 13)).bench.machine? 0 = some m ∧
      m.counter = 4 ∧ m.tape.head = 1 ∧ m.loops = [2] ∧ m.output = #['ÿ'] ∧
      m.Bounded ∧ m.execute? = some m.execute := by
  have hb : Bench.make {sink := some .silent} ⟨#['<', '-', '[', '.', ']']⟩
      {memorySize := .integer 2, cooperative := false} = .ok _ := rfl
  have hbounded := play_bounded (i := 0) (.machine hb) (Move.alone (.run 0) 13) rfl
  exact ⟨_, _, hb, rfl, rfl, rfl, rfl, rfl, hbounded.1,
    hbounded.2.2.1.instruction (by decide)⟩

end TapeMachine.Scheduler
