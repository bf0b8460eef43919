import TapeMachine.Proofs.Machine.Structured
import TapeMachine.Proofs.Schedule.Calm

/-! Programs as trees.

A program whose brackets all have partners is a tree, and what single steps come to
is what the tree evaluates to, no more and no less: the scan for the end of a loop and
the stack of open loops only find again what the tree has. -/
namespace TapeMachine.Scheduler
open Machine

variable {p : Program} {m : Machine} {texts : Nat → Text} {source : Option Source}
  {sink : Option Sink}

/-- A machine alone, with its callbacks, before its first step. -/
def outset (m : Machine) (source : Option Source) (sink : Option Sink) : Scheduler :=
  {bench := {machines := #[m], source := source, sink := sink}}

/-- Single steps take the first machine to its end, where it shows this store. -/
def Finishes (s : Scheduler) (result : Store) : Prop :=
  ∃ n s' m, StepTimes n s s' ∧ s'.bench.machine? 0 = some m ∧ m.ended = true ∧
    m.store s'.bench.requests = result

/-- A machine at the start of its program, at whatever place of whatever tape, and with
calm callbacks. -/
structure Poised (p : Program) (texts : Nat → Text) (source : Option Source)
    (sink : Option Sink) (m : Machine) : Prop where
  program : m.program = p
  counter : m.counter = 0
  loops : m.loops = []
  stepping : m.stepping = false
  hears : m.hears = source.isSome
  source : Source.Gives texts 0 source
  sink : Sink.Takes sink

namespace Poised
variable (h : Poised p texts source sink m)
include h

theorem reached : Reached p 0 m.bare := ⟨h.counter, h.loops⟩

theorem nested : m.bare.Nested where
  counter_le := by
    rw [h.reached.counter]
    exact Nat.zero_le _
  loops_eq _ := by
    rw [h.reached.counter]
    exact h.loops

theorem works : Works p texts (source.map fun _ => texts) m.bare := by
  refine ⟨h.program, ?_, h.stepping⟩
  rw [source?, show m.bare.hears = source.isSome from h.hears]
  cases source <;> rfl

theorem calm : Bench.Calm texts (outset m source sink).bench m.bare 0 :=
  ⟨rfl, rfl, rfl, h.source, h.hears, h.sink⟩

/-- Single steps are a walk of the machine. -/
theorem walk {n : Nat} {s' : Scheduler} {m' : Machine}
    (htimes : StepTimes n (outset m source sink) s') (hm' : s'.bench.machine? 0 = some m') :
    Walk texts n (m.bare, 0) (m'.bare, s'.bench.requests) := by
  obtain ⟨⟨n, k⟩, hwalk, -, -, hcalm⟩ :=
    walk_of_steps (x := (m.bare, 0)) htimes ⟨rfl, rfl⟩ h.calm h.stepping
  obtain ⟨n', hn', rfl⟩ := Bench.exists_machine? hcalm.machine
  obtain rfl := Option.some.inj (hm'.symm.trans hn')
  rwa [hcalm.requests]

theorem steps {n k : Nat} {m' : Machine} (hwalk : Walk texts n (m.bare, 0) (m', k)) :
    ∃ s' n', StepTimes n (outset m source sink) s' ∧ s'.bench.machine? 0 = some n' ∧
      n'.bare = m' ∧ s'.bench.requests = k := by
  obtain ⟨s', htimes, -, hcalm⟩ := steps_of_walk hwalk ⟨rfl, rfl⟩ h.calm h.stepping
  obtain ⟨n', hn', hbare⟩ := Bench.exists_machine? hcalm.machine
  exact ⟨s', n', htimes, hn', hbare, hcalm.requests⟩

end Poised

/-- Single steps finish a program whose brackets all have partners just when its tree
evaluates, and with the same result. On the way the open loops of the machine are those
around its counter in the tree, and every scan ends where a loop of the tree does. -/
theorem finishes_iff_eval (hp : p.unmatched = []) (h : Poised p texts source sink m) :
    ∃ tree, Block.parse p.toList = some tree ∧ tree.text = p.toList ∧
      (∀ result, Finishes (outset m source sink) result ↔
        Eval (source.map fun _ => texts) tree (m.store 0) result) ∧
      (∀ n s' m', StepTimes n (outset m source sink) s' → s'.bench.machine? 0 = some m' →
        m'.counter ≤ p.size ∧ m'.loops = tree.around m'.counter 0) ∧
      (∀ k, p.command? k = some .opening → p.loopEnd? k = tree.end? k 0) := by
  obtain ⟨tree, htree⟩ := Program.exists_parse hp
  have htext := Block.text_of_parse htree
  have hlength : tree.length = p.size := by
    rw [Block.length, htext, Program.size_eq_length]
  have hstands : p.Stands 0 tree.text := htext ▸ p.stands_all
  refine ⟨tree, htree, htext, fun result => ⟨?_, fun he => ?_⟩, fun n s' m' htimes hm' => ?_,
    fun k hk => ?_⟩
  · rintro ⟨n, s', m', htimes, hm', hended, rfl⟩
    have hwalk := h.walk htimes hm'
    have hend : p.size ≤ m'.bare.counter := by
      rw [← (h.works.walk hwalk).program]
      exact of_decide_eq_true hended
    exact eval_of_walk_all hwalk hend h.works hstands hlength h.reached
  · obtain ⟨n, m₁, k₁, hwalk, hw₁, hreached, rfl⟩ :=
      he.walk (m := m.bare) (k := 0) h.works hstands (.start h.reached) rfl
    obtain ⟨s', m', htimes, hm', rfl, rfl⟩ := h.steps hwalk
    refine ⟨n, s', m', htimes, hm', decide_eq_true ?_, rfl⟩
    have hcounter := hreached.counter
    rw [Nat.zero_add, hlength, ← hw₁.program] at hcounter
    exact Nat.le_of_eq hcounter.symm
  · have hwalk := h.walk htimes hm'
    have hloops : m.bare.loops = p.openAt m.bare.counter := by
      rw [h.reached.counter, h.reached.loops]
    obtain ⟨hle, hloops'⟩ := h.works.loops_eq hwalk hp h.nested hloops
    have haround := hstands.openAt_eq_around (Nat.zero_le m'.counter)
      (by rwa [Nat.zero_add, hlength])
    rw [Program.openAt_zero, List.append_nil] at haround
    exact ⟨hle, hloops'.trans haround⟩
  · refine hstands.loopEnd?_eq_end? hk (Nat.zero_le k) ?_
    rw [Nat.zero_add, hlength]
    exact Program.lt_size_of_command? hk

/-- A loop that puts out what it reads, until the source has nothing more. -/
theorem finishes_iff_eval_drain : ∃ m result,
    m.program = ⟨#[',', '[', '.', ',', ']']⟩ ∧
      Finishes (outset m (some (.fixed ['a', 'b'])) none) result ∧
      result.output = ['a', 'b'] ∧ result.asked = 2 := by
  have hp : Program.unmatched ⟨#[',', '[', '.', ',', ']']⟩ = [] := rfl
  have hm : Poised ⟨#[',', '[', '.', ',', ']']⟩ (fun n => if n = 1 then ['a', 'b'] else [])
      (some (.fixed ['a', 'b'])) none
      (ofProgram ⟨#[',', '[', '.', ',', ']']⟩ 1 Nat.one_pos) :=
    ⟨rfl, rfl, rfl, rfl, rfl, fun _ _ => rfl, trivial⟩
  obtain ⟨tree, htree, -, hiff, -, -⟩ := finishes_iff_eval hp hm
  cases htree
  have hfinishes := (hiff _).mpr (.plain (.again (by decide) (.plain (.plain .done))
    (.again (by decide) (.plain (.plain .done)) (.leave rfl .done))))
  exact ⟨_, _, rfl, hfinishes, rfl, rfl⟩

end TapeMachine.Scheduler
