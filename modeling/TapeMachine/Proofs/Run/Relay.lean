import TapeMachine.Proofs.Machine.Counting
import TapeMachine.Proofs.Machine.Whole
import TapeMachine.Proofs.Run.Complete

/-! A program that passes on its input.

The program reads a character, and as long as what it read is not zero it puts it out and
reads the next one. It sees characters modulo 256, and the end of the input as a zero: so
what it passes on is the input up to the first character whose code is divisible by 256, or
all of it (`Text.untilZero`), and that reduced modulo 256.

The state between two instructions is told by what of the text is still to be read, what
was put out, and the byte in the first cell (`Machine.Relays`). Each round of the loop takes
one character, so that the loop is followed by induction on the text. -/
namespace TapeMachine

/-- The longest beginning of a text in which no character stands for zero. -/
def Text.untilZero (t : Text) : Text := t.takeWhile fun c => c.toNat % 256 ≠ 0

/-- The byte that is read where a text is still to come: zero if there is none left. -/
def Text.byte : Text → UInt8
  | [] => 0
  | c :: _ => c.toNat.toUInt8

/-- Puts out what it reads until it reads zero. -/
def Program.relay : Program := ofString ",[.,]"

theorem Tape.write_write (t : Tape) (v w : UInt8) : (t.write v).write w = t.write w := by
  simp [write]

theorem Tape.write_blank {n : Nat} (hn : 0 < n) : (blank n hn).write 0 = blank n hn := by
  simp [write, blank]

theorem Text.byte_cons_eq_zero_iff {c : Char} {u : Text} :
    byte (c :: u) = 0 ↔ c.toNat % 256 = 0 := by
  rw [byte, ← UInt8.toNat_inj]
  simp

namespace Machine
variable {n k : Nat} {hn : 0 < n} {t rest out : Text} {v : UInt8} {m : Machine}

/-- An instruction that involves nothing else. -/
theorem Solitary.onward (h : m.Solitary) (hs : m.stepping = false) (texts : Nat → Text) :
    m.onward texts k = (m.ahead 1, k) := by
  rw [Machine.onward, if_neg (by rw [h.stance hs]; decide),
    noted_of_complaint?_eq_none h.complaint]
  rfl

/-- The machine passes on a text that comes with its first request: so much of the text is
still to be read, this was put out, and this byte is in the first cell. All other cells are
zero. -/
structure Relays (hn : 0 < n) (t rest out : Text) (v : UInt8) (m : Machine) (k : Nat) :
    Prop where
  program : m.program = .relay
  tape : m.tape = (Tape.blank n hn).write v
  output : m.output.toList = out
  pending : m.pendingInput ++ (if k = 0 then t else []) = rest
  cursor_le : m.cursor ≤ m.input.size
  hears : m.hears = true
  /-- No step waits. -/
  free : m.stepping = false

/-- Where a test of the byte in the first cell leads: behind the loop, or into its body. -/
structure Tested (v : UInt8) (m : Machine) : Prop where
  counter : m.counter = if v = 0 then 5 else 2
  loops : m.loops = if v = 0 then [] else [1]

namespace Relays

/-! ### Reading -/

theorem start (hn : 0 < n) (t : Text) : Relays hn t t [] 0 (ofProgram .relay n hn) 0 :=
  ⟨rfl, (Tape.write_blank hn).symm, rfl, rfl, Nat.le_refl _, rfl, rfl⟩

/-- The text joins the input with the first request, and nothing with any other. -/
theorem receive (h : Relays hn t rest out v m k) :
    Relays hn t rest out v (m.receive (textAt [t] (k + 1))) (k + 1) := by
  have hpending : (m.receive (textAt [t] (k + 1))).pendingInput =
      m.pendingInput ++ textAt [t] (k + 1) := by
    rw [Snapshot.pendingInput, toList_receive]
    exact List.drop_append_of_le_length h.cursor_le
  have htext : textAt [t] (k + 1) = if k = 0 then t else [] := by
    cases k <;> rfl
  refine {h with pending := ?_, cursor_le := ?_}
  · rw [hpending, htext, if_neg (Nat.succ_ne_zero k), List.append_nil]
    exact h.pending
  · refine Nat.le_trans h.cursor_le ?_
    rw [← Array.length_toList, ← Array.length_toList, toList_receive, List.length_append]
    exact Nat.le_add_right _ _

/-- Reading takes the next character, if all has come that is needed for it. -/
theorem consume (h : Relays hn t rest out v m k) (hcome : m.pendingInput = [] → rest = []) :
    Relays hn t rest.tail out rest.byte m.consume k := by
  have htape (w : UInt8) : m.tape.write w = (Tape.blank n hn).write w := by
    rw [h.tape, Tape.write_write]
  have hpending := h.pending
  rw [Machine.consume]
  cases hnext : m.input[m.cursor]? with
  | none =>
    have hnone : m.pendingInput = [] :=
      List.drop_eq_nil_of_le (Array.getElem?_eq_none_iff.mp hnext)
    obtain rfl := hcome hnone
    exact {h with tape := htape 0}
  | some c =>
    obtain ⟨hlt, hc⟩ := Array.getElem?_eq_some_iff.mp hnext
    have hcons : m.pendingInput = c :: m.input.toList.drop (m.cursor + 1) := by
      rw [Snapshot.pendingInput, List.drop_eq_getElem_cons hlt, Array.getElem_toList, hc]
    rw [hcons, List.cons_append] at hpending
    subst hpending
    exact {h with tape := htape _, pending := rfl, cursor_le := hlt}

theorem advance (h : Relays hn t rest out v m k) : Relays hn t rest out v m.advance k := {h with}

/-- A `,`, whether it has to ask or not. -/
theorem read (h : Relays hn t rest out v m k)
    (hc : m.program.command? m.counter = some .input) :
    Relays hn t rest.tail out rest.byte (m.onward (textAt [t]) k).1 (m.onward (textAt [t]) k).2 ∧
      (m.onward (textAt [t]) k).1.counter = m.counter + 1 ∧
      (m.onward (textAt [t]) k).1.loops = m.loops := by
  have hplace (m : Machine) : m.consume.advance.counter = m.counter + 1 ∧
      m.consume.advance.loops = m.loops := by
    obtain ⟨t, n, heq⟩ := consume_eq m
    rw [heq]
    exact ⟨rfl, rfl⟩
  by_cases hle : m.input.size ≤ m.cursor
  · have hst : m.stance = .request :=
      stance_eq_request_iff.mpr ⟨h.free, hc, h.hears, hle⟩
    have hreceived := h.receive
    rw [Machine.onward, if_pos hst]
    refine ⟨(hreceived.consume fun hnone => ?_).advance, hplace _⟩
    -- after the first request nothing is to come but what has come
    have hpending := hreceived.pending
    rwa [hnone, if_neg (Nat.succ_ne_zero k), List.nil_append, eq_comm] at hpending
  · have hst : m.stance ≠ .request := fun hst =>
      hle (stance_eq_request_iff.mp hst).2.2.2
    rw [Machine.onward, if_neg hst, (noted_execute_of_input hc).2]
    refine ⟨(h.consume fun hnone => ?_).advance, hplace m⟩
    exact absurd (List.drop_eq_nil_iff.mp hnone) hle

/-! ### The other instructions -/

/-- A `.`. -/
theorem put (h : Relays hn t rest out v m k)
    (hc : m.program.command? m.counter = some .output) :
    m.onward (textAt [t]) k = (m.emit.advance, k) ∧
      Relays hn t rest (out ++ [Char.ofNat v.toNat]) v m.emit.advance k := by
  have hst : m.stance = .output := stance_eq_output_iff.mpr ⟨h.free, hc⟩
  have hchar : m.cellChar = Char.ofNat v.toNat := by
    rw [cellChar, h.tape, Tape.read_write]
  constructor
  · rw [Machine.onward, if_neg (by rw [hst]; decide), noted_execute_of_output hst]
  · refine {h with output := ?_}
    show (m.output.push m.cellChar).toList = _
    rw [Array.toList_push, h.output, hchar]

theorem placed (h : Relays hn t rest out v m k) (counter : Nat) (loops : List Nat)
    (steps : Nat) : Relays hn t rest out v (m.placed m.tape counter loops steps) k := {h with}

/-- Either bracket tests the byte, and both lead to the same places. -/
theorem test (h : Relays hn t rest out v m k)
    (hplace : m.counter = 1 ∧ m.loops = [] ∨ m.counter = 4 ∧ m.loops = [1]) :
    Relays hn t rest out v (m.onward (textAt [t]) k).1 (m.onward (textAt [t]) k).2 ∧
      Tested v (m.onward (textAt [t]) k).1 := by
  have hread : m.tape.read = v := by rw [h.tape, Tape.read_write]
  rcases hplace with ⟨hcounter, hloops⟩ | ⟨hcounter, hloops⟩
  · have hc : m.program.command? m.counter = some .opening := by
      rw [h.program, hcounter]
      rfl
    have hlast : m.program.loopEnd? m.counter = some 4 := by
      rw [h.program, hcounter]
      rfl
    rw [(solitary_opening hc hlast).onward h.free, ahead_one_opening hc hlast, hread, hcounter,
      hloops]
    split
    · exact ⟨h.placed _ _ _, (if_pos ‹_›).symm, (if_pos ‹_›).symm⟩
    · exact ⟨h.placed _ _ _, (if_neg ‹_›).symm, (if_neg ‹_›).symm⟩
  · have hc : m.program.command? m.counter = some .closing := by
      rw [h.program, hcounter]
      rfl
    rw [(solitary_closing hc hloops).onward h.free, ahead_one_closing hc hloops, hread, hcounter,
      hloops]
    split
    · exact ⟨h.placed _ _ _, (if_pos ‹_›).symm, (if_pos ‹_›).symm⟩
    · exact ⟨h.placed _ _ _, (if_neg ‹_›).symm, (if_neg ‹_›).symm⟩

/-! ### The loop -/

theorem counter_lt (h : Relays hn t rest out v m k) {i : Nat} (hcounter : m.counter = i)
    (hi : i < 5) : m.counter < m.program.size := by
  rw [hcounter, h.program]
  exact hi

/-- The body of the loop and the test after it. -/
theorem round (h : Relays hn t rest out v m k) (hv : v ≠ 0) (htested : Tested v m) :
    ∃ x, Walk (textAt [t]) 3 (m, k) x ∧
      Relays hn t rest.tail (out ++ [Char.ofNat v.toNat]) rest.byte x.1 x.2 ∧
      Tested rest.byte x.1 := by
  have hcounter : m.counter = 2 := htested.counter.trans (if_neg hv)
  have hloops : m.loops = [1] := htested.loops.trans (if_neg hv)
  -- at `.`
  have hlt := h.counter_lt hcounter (by decide)
  obtain ⟨honward, hput⟩ := h.put (by rw [h.program, hcounter]; rfl)
  generalize hm₁ : m.emit.advance = m₁ at honward hput
  have hcounter₁ : m₁.counter = 3 := by rw [← hm₁]; exact congrArg (· + 1) hcounter
  have hloops₁ : m₁.loops = [1] := by rw [← hm₁]; exact hloops
  -- at `,`
  have hlt₁ := hput.counter_lt hcounter₁ (by decide)
  obtain ⟨hread, hcounter₂, hloops₂⟩ := hput.read (by rw [hput.program, hcounter₁]; rfl)
  generalize hx₂ : m₁.onward (textAt [t]) k = x₂ at hread hcounter₂ hloops₂
  rw [hcounter₁] at hcounter₂
  -- at `]`
  have hlt₂ := hread.counter_lt hcounter₂ (by decide)
  obtain ⟨htest, htested⟩ := hread.test (.inr ⟨hcounter₂, hloops₂.trans hloops₁⟩)
  refine ⟨_, .cons hlt ?_, htest, htested⟩
  rw [honward]
  refine .cons hlt₁ ?_
  rw [hx₂]
  exact .cons hlt₂ .nil

/-- From a test to behind the loop, when the first character of `u` is in the first cell
and the others are still to be read. -/
theorem rounds (u : Text) (h : Relays hn t u.tail out u.byte m k) (htested : Tested u.byte m) :
    ∃ rest x, Walk (textAt [t]) (3 * u.untilZero.length) (m, k) x ∧
      Relays hn t rest (out ++ (codes u.untilZero).map Char.ofNat) 0 x.1 x.2 ∧
      Tested 0 x.1 := by
  induction u generalizing m k out with
  | nil => exact ⟨_, (m, k), .nil, (List.append_nil out).symm ▸ h, htested⟩
  | cons c u ih =>
    by_cases hz : Text.byte (c :: u) = 0
    · have hstop : Text.untilZero (c :: u) = [] :=
        List.takeWhile_cons_of_neg (by simpa using Text.byte_cons_eq_zero_iff.mp hz)
      rw [hz] at h htested
      rw [hstop]
      exact ⟨_, (m, k), .nil, (List.append_nil out).symm ▸ h, htested⟩
    · have hgoes : Text.untilZero (c :: u) = c :: Text.untilZero u :=
        List.takeWhile_cons_of_pos (by simpa using mt Text.byte_cons_eq_zero_iff.mpr hz)
      have hchar : (Text.byte (c :: u)).toNat = c.toNat % 256 := by simp [Text.byte]
      obtain ⟨x₁, hround, h₁, htested₁⟩ := h.round hz htested
      obtain ⟨rest, x, hwalk, hx, htested⟩ := ih h₁ htested₁
      rw [hchar, List.append_assoc] at hx
      rw [hgoes, List.length_cons, Nat.mul_add]
      exact ⟨rest, x, hround.trans hwalk, hx, htested⟩

end Relays

/-- The program comes to its end, whatever the text. -/
theorem walk_relay (hn : 0 < n) (t : Text) : ∃ rest x,
    Walk (textAt [t]) (2 + 3 * t.untilZero.length) (ofProgram .relay n hn, 0) x ∧
      Relays hn t rest ((codes t.untilZero).map Char.ofNat) 0 x.1 x.2 ∧ Tested 0 x.1 := by
  have hstart := Relays.start hn t
  obtain ⟨hread, hcounter, hloops⟩ := hstart.read rfl
  generalize hx : (ofProgram .relay n hn).onward (textAt [t]) 0 = x₁ at hread hcounter hloops
  have hlt := hread.counter_lt (i := 1) hcounter (by decide)
  obtain ⟨htest, htested⟩ := hread.test (.inl ⟨hcounter, hloops⟩)
  obtain ⟨rest, x, hwalk, hrelays, htested⟩ := Relays.rounds t htest htested
  refine ⟨rest, x, ?_, hrelays, htested⟩
  rw [Nat.add_comm]
  refine Walk.trans (.cons (hstart.counter_lt (i := 0) rfl (by decide)) ?_) hwalk
  rw [hx]
  exact .cons hlt .nil

end Machine

namespace Program
variable {n : Nat} {o : Options}

/-- The program ends on every text, and on a tape of any size. Its output is the low bytes
of the longest beginning of the text that has none that is zero, for every character of
which it takes three steps, and two steps besides. At the end the head is where it was,
all cells are zero, and no loop is open. -/
theorem run_relay (t : Text) (hcells : o.memorySize.cellCount? = some n) :
    ∃ enough s m report, s.bench.machine? 0 = some m ∧
      (∀ fuel, enough ≤ fuel → relay.run fuel o (.fixed t) .silent = (s, some (.ok report))) ∧
      report.output = (codes t.untilZero).map Char.ofNat ∧
      report.steps = 2 + 3 * t.untilZero.length ∧
      report.state.tape.head = 0 ∧ report.state.tape.cells = Array.replicate n 0 ∧
      m.loops = [] := by
  obtain ⟨made, hmade⟩ : ∃ made, Bench.withMachine relay o (.fixed t) .silent = .ok made :=
    Bench.exists_made hcells
  have hfresh : Bench.Fresh (textAt [t]) .silent
      {source := some (.fixed t), sink := some .silent} := by
    refine ⟨⟨rfl, rfl, rfl, rfl, rfl⟩, ⟨_, rfl, trivial⟩, fun n hn => ?_, rfl, trivial⟩
    match n, hn with
    | 1, _ | n + 2, _ => rfl
  obtain ⟨n', hn, hcells', htended⟩ := hfresh.tended hmade
  obtain rfl : n = n' := Option.some.inj (hcells.symm.trans hcells')
  obtain ⟨rest, x, hwalk, hrelays, htested⟩ := Machine.walk_relay hn t
  have hend : x.1.program.size ≤ x.1.counter := by
    rw [hrelays.program, htested.counter]
    decide
  obtain ⟨enough, s, m, hafter, -, htended', hbare⟩ :=
    Scheduler.runToEnd_of_arrives (Scheduler.idle_of_bench made) htended rfl rfl ⟨_, hwalk, hend⟩
  have htape : x.1.tape = Tape.blank n hn := hrelays.tape.trans (Tape.write_blank hn)
  refine ⟨enough, s, m, x.1.account, htended'.machine, fun fuel hle => ?_, hrelays.output,
    (hwalk.steps rfl).trans (Nat.zero_add _), ?_, ?_, ?_⟩
  · rw [run, hmade]
    exact hafter fuel hle
  · exact congrArg Tape.head htape
  · exact congrArg Tape.cells htape
  · rw [← show m.bare.loops = m.loops from rfl, hbare]
    exact htested.loops

/-- A character above the bytes that is read as another one, and one that is read as zero. -/
theorem run_relay_wide : ∃ enough s m report, s.bench.machine? 0 = some m ∧
    (∀ fuel, enough ≤ fuel → relay.run fuel {memorySize := .integer 1}
      (.fixed ['a', 'š', 'Ā', 'b']) .silent = (s, some (.ok report))) ∧
    report.output = ['a', 'a'] ∧ report.steps = 8 ∧ m.loops = [] := by
  obtain ⟨enough, s, m, report, hm, hrun, houtput, hsteps, -, -, hloops⟩ :=
    run_relay (o := {memorySize := .integer 1}) ['a', 'š', 'Ā', 'b'] rfl
  exact ⟨enough, s, m, report, hm, hrun, houtput.trans (by decide), hsteps.trans (by decide),
    hloops⟩

end Program
end TapeMachine
