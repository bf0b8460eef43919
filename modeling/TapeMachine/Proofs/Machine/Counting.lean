import TapeMachine.Proofs.Machine.Later
import TapeMachine.Proofs.Program.Block
import TapeMachine.Proofs.Tape.Straight

/-! Counting loops.

A loop with a straight body that comes back to the cell it started from adds the same
to every cell in every round. It is left in the first round after which its cell is
zero, and what a machine does until then can be said instruction by instruction
(`ahead_start`, `ahead_round`, `ahead_end`). Nothing but the machine itself is involved
in any of these (`Solitary`), so that no callback is called and nothing complained about. -/
namespace TapeMachine

variable {c : Char} {w : Text}

theorem Straight.plain (h : Straight c) : Plain c := by
  constructor
  · rintro ho
    obtain rfl := Block.ofChar_eq_opening ho
    exact absurd h (by decide)
  · rintro hc
    obtain rfl := Block.ofChar_eq_closing hc
    exact absurd h (by decide)

theorem Straight.silent (h : Straight c) :
    Command.ofChar c ≠ .input ∧ Command.ofChar c ≠ .output := by
  unfold Command.ofChar
  split <;> first | decide | exact absurd h (by decide)

/-- A straight text is a block without loops. -/
theorem exists_block_of_straight (hw : ∀ c ∈ w, Straight c) : ∃ t : Block, t.text = w := by
  induction w with
  | nil => exact ⟨.done, rfl⟩
  | cons c rest ih =>
    obtain ⟨t, rfl⟩ := ih fun x hx => hw x (List.mem_cons_of_mem c hx)
    exact ⟨.plain c (hw c (List.mem_cons_self ..)).plain t, rfl⟩

namespace Machine

variable {m m' : Machine} {k n r : Nat}

/-- The machine so many instructions further on. -/
def ahead (m : Machine) : Nat → Machine
  | 0 => m
  | n + 1 => (m.ahead n).execute.advance

theorem ahead_add (m : Machine) (a b : Nat) : m.ahead (a + b) = (m.ahead a).ahead b := by
  induction b with
  | zero => rfl
  | succ b ih => exact congrArg (fun m => m.execute.advance) ih

/-- The machine put to a place in its program, with this tape, these loops open and so
many steps behind it. -/
def placed (m : Machine) (tape : Tape) (counter : Nat) (loops : List Nat) (steps : Nat) :
    Machine :=
  {m with tape, counter, loops, steps}

/-- The next instruction involves nothing but the machine, and it is not complained
about. -/
structure Solitary (m : Machine) : Prop where
  command : ∃ c, m.program.command? m.counter = some c ∧ c ≠ .input ∧ c ≠ .output
  complaint : m.complaint? = none

theorem ahead_kept (m : Machine) (n : Nat) : (m.ahead n).steps = m.steps + n ∧
    (m.ahead n).epoch = m.epoch ∧ (m.ahead n).stepping = m.stepping := by
  induction n with
  | zero => exact ⟨rfl, rfl, rfl⟩
  | succ n ih =>
    obtain ⟨hsteps, hepoch, hstepping⟩ := ih
    have hinner := inner_execute (m.ahead n)
    refine ⟨?_, hinner.epoch.trans hepoch, hinner.stepping.trans hstepping⟩
    show (m.ahead n).execute.steps + 1 = _
    rw [hinner.steps, hsteps, Nat.add_assoc]

theorem Still.ahead_one (h : Still m m') : Still (m.ahead 1) (m'.ahead 1) := by
  obtain ⟨hp, ht, hc, hl, hi, hn, hr, hs, he⟩ := h.execute
  exact ⟨hp, ht, congrArg (· + 1) hc, hl, hi, hn, hr, congrArg (· + 1) hs, he⟩

namespace Solitary
variable (h : m.Solitary)
include h

theorem still (hstill : Still m m') : m'.Solitary := by
  obtain ⟨⟨c, hc, hne⟩, hcomplaint⟩ := h
  refine ⟨⟨c, ?_, hne⟩, hstill.complaint?.trans hcomplaint⟩
  rw [hstill.program, hstill.counter, hc]

theorem not_asks : ¬ m.Asks := by
  obtain ⟨⟨c, hc, hin, -⟩, -⟩ := h
  exact fun ⟨hcommand, _⟩ => hin (Option.some.inj (hc.symm.trans hcommand))

theorem stance (hs : m.stepping = false) : m.stance = .inward := by
  obtain ⟨c, hc, -, hout⟩ := h.command
  exact stance_eq_inward_iff.mpr ⟨hs, h.not_asks, c, hc, hout⟩

/-- In one turn without a reset the machine executes the instruction or stays. -/
theorem shift (hsh : m.Shift m') (he : m'.epoch = m.epoch) :
    Still m m' ∨ Still (m.ahead 1) m' := by
  obtain ⟨m₁, k, hd, rfl⟩ := hsh
  rw [epoch_wiped] at he
  rcases hd with rfl | ⟨a, hd⟩
  · obtain rfl : k = 0 := by omega
    exact .inl (.refl m₁)
  · obtain rfl : k = 0 := by
      rw [hd.kept.epoch] at he
      omega
    cases hd with
    | ask hst => exact absurd (stance_eq_request_iff.mp hst).2 h.not_asks
    | hear text _ hasks => exact absurd hasks h.not_asks
    | drop late hs hlate => exact .inl ((Does.drop late hs hlate).still id)
    | work hst =>
      rw [noted_of_complaint?_eq_none h.complaint]
      exact .inr (.refl _)
    | put hst =>
      obtain ⟨c, hc, -, hout⟩ := h.command
      exact absurd (Option.some.inj (hc.symm.trans (stance_eq_output_iff.mp hst).2)) hout
    | spill hst => exact .inl ((Does.spill hst).still id)

end Solitary

/-! ### Straight texts -/

theorem solitary_straight (hc : Straight c) (h : m.program.char? m.counter = some c) :
    m.Solitary := by
  have hcommand := Program.command?_of_char? h
  obtain ⟨ho, hcl⟩ := Program.not_bracket hc.plain h
  exact ⟨⟨_, hcommand, hc.silent⟩, complaint?_eq_none ho hcl⟩

theorem ahead_one_straight (hc : Straight c) (h : m.program.char? m.counter = some c) :
    m.ahead 1 = m.placed (m.tape.tread c) (m.counter + 1) m.loops (m.steps + 1) := by
  show m.execute.advance = _
  rw [execute_of (Program.command?_of_char? h), Tape.tread]
  cases hcommand : Command.ofChar c
  case output => exact absurd hcommand hc.silent.2
  case input => exact absurd hcommand hc.silent.1
  case opening => exact absurd hcommand hc.plain.1
  case closing => exact absurd hcommand hc.plain.2
  all_goals rfl

/-- Through a straight text. -/
theorem ahead_straight (hw : ∀ c ∈ w, Straight c) (h : m.program.Stands m.counter w) :
    m.ahead w.length =
      m.placed (m.tape.traverse w) (m.counter + w.length) m.loops (m.steps + w.length) := by
  induction w generalizing m with
  | nil => rfl
  | cons c rest ih =>
    have hfirst := ahead_one_straight (hw c (List.mem_cons_self ..)) h.1
    have hrest := ih (m := m.ahead 1) (fun x hx => hw x (List.mem_cons_of_mem c hx))
      (by rw [hfirst]; exact h.2)
    rw [List.length_cons, Nat.add_comm, ahead_add, hrest, hfirst]
    simp only [placed, Tape.traverse, List.foldl_cons, Nat.add_assoc]

/-! ### The loop -/

/-- A machine stands at a loop with a straight body that comes back to its cell. -/
structure Counts (m : Machine) (w : Text) : Prop where
  stands : m.program.Stands m.counter ('[' :: (w ++ [']']))
  straight : ∀ c ∈ w, Straight c
  returns : (m.tape.size : Int) ∣ drift w

/-- What every round of the loop adds to a cell. -/
def gain (m : Machine) (w : Text) (j : Nat) : Int := added m.tape.size j m.tape.head w

/-- After so many rounds the cell of the loop is zero. -/
def Zeroes (m : Machine) (w : Text) (k : Nat) : Prop :=
  (m.tape.value m.tape.head + k * m.gain w m.tape.head) % 256 = 0

instance (m : Machine) (w : Text) (k : Nat) : Decidable (m.Zeroes w k) :=
  inferInstanceAs (Decidable (_ = _))

/-- The counter of a machine is in the loop. -/
def Within (m : Machine) (w : Text) (m' : Machine) : Prop :=
  m.counter ≤ m'.counter ∧ m'.counter < m.counter + w.length + 2

theorem Within.still {m'' : Machine} (h : m.Within w m') (hs : Still m' m'') : m.Within w m'' := by
  rwa [Within, hs.counter]

/-- The machine in the body after so many rounds, past this much of the body. -/
def inRound (m : Machine) (w : Text) (k r : Nat) : Machine :=
  m.placed ((m.tape.rounds w k).traverse (w.take r)) (m.counter + 1 + r) (m.counter :: m.loops)
    (m.steps + (1 + k * (w.length + 1) + r))

/-- The machine behind the loop after so many rounds. -/
def behind (m : Machine) (w : Text) (k : Nat) : Machine :=
  m.placed (m.tape.rounds w k) (m.counter + w.length + 2) m.loops
    (m.steps + (1 + k * (w.length + 1)))

/-- A `[` in front of the loop. -/
theorem ahead_one_opening {last : Nat} (hc : m.program.command? m.counter = some .opening)
    (hlast : m.program.loopEnd? m.counter = some last) : m.ahead 1 =
      if m.tape.read = 0 then m.placed m.tape (last + 1) m.loops (m.steps + 1)
      else m.placed m.tape (m.counter + 1) (m.counter :: m.loops) (m.steps + 1) := by
  show m.execute.advance = _
  rw [execute_of hc, perform, openLoop, hlast]
  split
  · rfl
  · rfl

theorem solitary_opening {last : Nat} (hc : m.program.command? m.counter = some .opening)
    (hlast : m.program.loopEnd? m.counter = some last) : m.Solitary := by
  refine ⟨⟨_, hc, by decide, by decide⟩, ?_⟩
  rw [complaint?, fault?, hc, hlast]
  simp

/-- A `]` with a loop open. -/
theorem ahead_one_closing {start : Nat} {outer : List Nat}
    (hc : m.program.command? m.counter = some .closing) (hl : m.loops = start :: outer) :
    m.ahead 1 = if m.tape.read = 0 then m.placed m.tape (m.counter + 1) outer (m.steps + 1)
      else m.placed m.tape (start + 1) m.loops (m.steps + 1) := by
  show m.execute.advance = _
  rw [execute_of hc, perform, closeLoop]
  simp only [hl]
  split
  · rfl
  · rw [← hl]
    rfl

theorem solitary_closing {start : Nat} {outer : List Nat}
    (hc : m.program.command? m.counter = some .closing) (hl : m.loops = start :: outer) :
    m.Solitary := by
  refine ⟨⟨_, hc, by decide, by decide⟩, ?_⟩
  rw [complaint?, fault?, hc, hl]
  rfl

namespace Counts
variable (h : m.Counts w)
include h

theorem read_eq_zero_iff (k : Nat) : (m.tape.rounds w k).read = 0 ↔ m.Zeroes w k := by
  have hround := Tape.adds_rounds h.straight h.returns k
  have hhead : (m.tape.rounds w k).head = m.tape.head :=
    Int.natCast_inj.mp (hround.head.trans m.tape.head_emod)
  have hvalue := hround.value m.tape.head m.tape.head_lt
  rw [← hhead, Tape.value_head, hhead] at hvalue
  rw [Zeroes, gain, ← hvalue, Int.natCast_eq_zero]
  exact ⟨fun hz => by rw [hz]; rfl, fun hz => UInt8.toNat_inj.mp hz⟩

theorem command_opening : m.program.command? m.counter = some .opening :=
  Program.command?_of_char? h.stands.1

theorem command_closing : m.program.command? (m.counter + 1 + w.length) = some .closing :=
  Program.command?_of_char? h.stands.2.right.1

theorem loopEnd? : m.program.loopEnd? m.counter = some (m.counter + 1 + w.length) := by
  obtain ⟨t, rfl⟩ := exists_block_of_straight h.straight
  have hstands : m.program.Stands m.counter (Block.loop t .done).text := h.stands
  exact hstands.loopEnd?

/-! ### Instruction by instruction -/

/-- From the start of a round into its body. -/
theorem ahead_inRound (k : Nat) (hr : r ≤ w.length) :
    (m.inRound w k 0).ahead r = m.inRound w k r := by
  have hlength : (w.take r).length = r := List.length_take_of_le hr
  have hbody : m.program.Stands (m.counter + 1) (w.take r) := by
    have hall : m.program.Stands (m.counter + 1) w := h.stands.2.left
    rw [← List.take_append_drop r w] at hall
    exact hall.left
  have hthrough := ahead_straight (m := m.inRound w k 0)
    (fun x hx => h.straight x (List.mem_of_mem_take hx)) hbody
  rw [hlength] at hthrough
  rw [hthrough]
  simp only [inRound, placed, List.take_zero, Nat.add_zero, Nat.add_assoc]
  rfl

/-- The first step: into the loop, or past it. -/
theorem ahead_first : m.ahead 1 = if m.Zeroes w 0 then m.behind w 0 else m.inRound w 0 0 := by
  have hzero : m.tape.read = 0 ↔ m.Zeroes w 0 := h.read_eq_zero_iff 0
  have hend : m.counter + 1 + w.length + 1 = m.counter + w.length + 2 := by omega
  rw [ahead_one_opening h.command_opening h.loopEnd?, hend]
  simp only [hzero, behind, inRound, Nat.zero_mul, Nat.add_zero]
  rfl

/-- The last step of a round: back to the start of the body, or out of the loop. -/
theorem ahead_last (k : Nat) : (m.inRound w k w.length).ahead 1 =
    if m.Zeroes w (k + 1) then m.behind w (k + 1) else m.inRound w (k + 1) 0 := by
  have hzero : (m.inRound w k w.length).tape.read = 0 ↔ m.Zeroes w (k + 1) := by
    rw [← h.read_eq_zero_iff, inRound, List.take_length]
    rfl
  have hsteps : 1 + k * (w.length + 1) + w.length + 1 = 1 + (k + 1) * (w.length + 1) := by
    rw [Nat.add_mul]
    omega
  have hend : m.counter + 1 + w.length + 1 = m.counter + w.length + 2 := by omega
  rw [ahead_one_closing (m := m.inRound w k w.length) h.command_closing rfl]
  by_cases hz : m.Zeroes w (k + 1)
  · rw [if_pos (hzero.mpr hz), if_pos hz, behind, inRound, ← hsteps, ← hend, List.take_length]
    rfl
  · rw [if_neg fun hr => hz (hzero.mp hr), if_neg hz, inRound, inRound, ← hsteps,
      List.take_length]
    rfl

/-- As long as the cell was not zero after any round, the loop goes on. -/
theorem ahead_round (k : Nat) (hk : ∀ j ≤ k, ¬ m.Zeroes w j) (hr : r ≤ w.length) :
    m.ahead (1 + k * (w.length + 1) + r) = m.inRound w k r := by
  rw [ahead_add, ← h.ahead_inRound k hr]
  congr 1
  induction k generalizing r with
  | zero => rw [Nat.zero_mul, Nat.add_zero, h.ahead_first, if_neg (hk 0 (Nat.le_refl 0))]
  | succ k ih =>
    have hround := ih (fun j hj => hk j (Nat.le_succ_of_le hj)) hr
    have hcount : 1 + (k + 1) * (w.length + 1) = 1 + k * (w.length + 1) + w.length + 1 := by
      rw [Nat.add_mul]
      omega
    rw [hcount, ahead_add, ahead_add, hround, h.ahead_inRound k (Nat.le_refl _), h.ahead_last,
      if_neg (hk (k + 1) (Nat.le_refl _))]

/-- After the first round that leaves zero in the cell the loop is left. -/
theorem ahead_behind (hk : m.Zeroes w k) (hfirst : ∀ j < k, ¬ m.Zeroes w j) :
    m.ahead (1 + k * (w.length + 1)) = m.behind w k := by
  cases k with
  | zero => rw [Nat.zero_mul, Nat.add_zero, h.ahead_first, if_pos hk]
  | succ k =>
    have hround := h.ahead_round k (fun j hj => hfirst j (Nat.lt_succ_of_le hj)) (Nat.le_refl _)
    have hcount : 1 + (k + 1) * (w.length + 1) = 1 + k * (w.length + 1) + w.length + 1 := by
      rw [Nat.add_mul]
      omega
    rw [hcount, ahead_add, hround, h.ahead_last, if_pos hk]

/-- Before the loop is left the machine stands in front of it or in a round. -/
theorem ahead_cases (hn : ∀ j, 1 + j * (w.length + 1) ≤ n → ¬ m.Zeroes w j) :
    n = 0 ∨ ∃ k r, r ≤ w.length ∧ n = 1 + k * (w.length + 1) + r ∧ m.ahead n = m.inRound w k r := by
  cases n with
  | zero => exact .inl rfl
  | succ n =>
    have hdiv : n = n / (w.length + 1) * (w.length + 1) + n % (w.length + 1) :=
      (Nat.div_add_mod' n (w.length + 1)).symm
    have hle : n % (w.length + 1) ≤ w.length := Nat.le_of_lt_succ (Nat.mod_lt _ (Nat.succ_pos _))
    refine .inr ⟨n / (w.length + 1), n % (w.length + 1), hle, by omega, ?_⟩
    rw [← h.ahead_round _ (fun j hj => hn j ?_) hle]
    · congr 1
      omega
    · have hmul := Nat.mul_le_mul_right (w.length + 1) hj
      omega

theorem solitary_inRound (k : Nat) (hr : r ≤ w.length) : (m.inRound w k r).Solitary := by
  rcases Nat.lt_or_eq_of_le hr with hlt | rfl
  · have hall : m.program.Stands (m.counter + 1) w := h.stands.2.left
    rw [← List.take_append_drop r w, List.drop_eq_getElem_cons hlt] at hall
    have hchar := hall.right.1
    rw [List.length_take_of_le hr] at hchar
    exact solitary_straight (m := m.inRound w k r) (h.straight _ (List.getElem_mem hlt)) hchar
  · exact solitary_closing (m := m.inRound w k w.length) h.command_closing rfl

/-- Then its counter is in the loop, and the next instruction involves nothing else. -/
theorem ahead_within (hn : ∀ j, 1 + j * (w.length + 1) ≤ n → ¬ m.Zeroes w j) :
    (m.ahead n).Solitary ∧ m.Within w (m.ahead n) := by
  rcases h.ahead_cases hn with rfl | ⟨k, r, hr, -, heq⟩
  · refine ⟨solitary_opening h.command_opening h.loopEnd?, Nat.le_refl _, ?_⟩
    show m.counter < _
    omega
  · rw [heq]
    refine ⟨h.solitary_inRound k hr, ?_, ?_⟩
    · show m.counter ≤ m.counter + 1 + r
      omega
    · show m.counter + 1 + r < _
      omega

end Counts

/-- A machine is just past the loop after so many rounds. -/
structure Counted (m : Machine) (w : Text) (k : Nat) (m' : Machine) : Prop where
  counter : m'.counter = m.counter + w.length + 2
  head : m'.tape.head = m.tape.head
  loops : m'.loops = m.loops
  size : m'.tape.size = m.tape.size
  cells : ∀ j < m.tape.size, (m'.tape.value j : Int) = (m.tape.value j + k * m.gain w j) % 256

theorem Counts.counted (h : m.Counts w) (hk : m.Zeroes w k) (hfirst : ∀ j < k, ¬ m.Zeroes w j) :
    m.Counted w k (m.ahead (1 + k * (w.length + 1))) := by
  have hround := Tape.adds_rounds h.straight h.returns k
  rw [h.ahead_behind hk hfirst]
  exact ⟨rfl, Int.natCast_inj.mp (hround.head.trans m.tape.head_emod), rfl, hround.size,
    hround.value⟩

theorem Counted.still {m'' : Machine} (h : m.Counted w k m') (hs : Still m' m'') :
    m.Counted w k m'' := by
  obtain ⟨hcounter, hhead, hloops, hsize, hcells⟩ := h
  refine ⟨hs.counter.trans hcounter, ?_, hs.loops.trans hloops, ?_, ?_⟩
  · rwa [hs.tape]
  · rwa [hs.tape]
  · rwa [hs.tape]

end Machine
end TapeMachine
