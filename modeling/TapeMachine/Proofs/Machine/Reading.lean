import TapeMachine.Proofs.Machine.Bounds

/-! Reading.

The texts that come for the steps of a machine, one after the other, are its input. A `,`
takes the next character of it, or finds none and stores zero (`Reads`), and the source is
called for one that finds the input used up (`Exhausted`). Of all that acts do to a machine
only this has to do with its input (`Deals`), so whoever keeps account of the texts, the calls
and the reads (`Ledger`) knows input and cursor. -/
namespace TapeMachine

/-- The text that came for a step of machine `i`. -/
def Sign.heard? (i : Nat) : Sign → Option Text
  | .answered j text => if j = i then some text else none
  | _ => none

/-- The machine whose step called its source or got its answer. -/
def Sign.reader? : Sign → Option Nat
  | .asked i | .answered i _ => some i
  | _ => none

section Signs
variable {sg : List Sign} {i : Nat}

theorem heard_eq_nil (h : ∀ g ∈ sg, g.reader? ≠ some i) :
    sg.filterMap (Sign.heard? i) = [] := by
  refine List.filterMap_eq_nil_iff.mpr fun g hg => ?_
  cases g with
  | answered j text => exact if_neg fun hij => h _ hg (congrArg some hij)
  | _ => rfl

theorem asked_eq_zero (h : ∀ g ∈ sg, g.reader? ≠ some i) : sg.count (.asked i) = 0 :=
  List.count_eq_zero.mpr fun hg => h _ hg rfl

end Signs

namespace Machine
variable {m m' : Machine} {a : Act} {texts ts : List Text} {calls k : Nat}
  {cs : List (Machine × Machine)}

/-! ### One `,` -/

/-- The next instruction is a `,` that finds a source bound and the input used up. -/
def Exhausted (m : Machine) : Prop :=
  m.program.command? m.counter = some .input ∧ m.hears = true ∧ m.cursor = m.input.size

instance : DecidablePred Exhausted := fun _ => inferInstanceAs (Decidable (_ ∧ _))

/-- From one state to the next a `,` was completed. -/
def Commas (m m' : Machine) : Prop :=
  m.program.command? m.counter = some .input ∧ m'.steps = m.steps + 1

instance (m m' : Machine) : Decidable (m.Commas m') := inferInstanceAs (Decidable (_ ∧ _))

/-- What a `,` does that was completed: it consumes the next character of the input and stores
the low byte of its code point, or it finds no character and stores zero. -/
inductive Reads (m m' : Machine) : Prop
  | char (c : Char) : m'.input[m.cursor]? = some c → m'.cursor = m.cursor + 1 →
      m'.tape = m.tape.write c.toNat.toUInt8 → m'.tape.read.toNat = c.toNat % 256 → Reads m m'
  | zero : m'.input.size ≤ m.cursor → m'.cursor = m.cursor →
      m'.tape = m.tape.write 0 → m'.tape.read = 0 → Reads m m'

/-- The character that a `,` has consumed. -/
def taken? (m m' : Machine) : Option Char :=
  if m'.cursor = m.cursor then none else m'.input[m.cursor]?

theorem exhausted_iff (h : m.cursor ≤ m.input.size) : m.Exhausted ↔ m.Asks := by
  rw [Exhausted, Asks, Nat.le_antisymm_iff]
  constructor
  · rintro ⟨hc, hb, -, hn⟩
    exact ⟨hc, hb, hn⟩
  · rintro ⟨hc, hb, hn⟩
    exact ⟨hc, hb, h, hn⟩

/-- Only tape, input and cursor count. -/
theorem Reads.of_fields {n n' : Machine} (h : Reads n n') (hcursor : m.cursor = n.cursor)
    (htape : m.tape = n.tape) (hinput : m'.input = n'.input) (hcursor' : m'.cursor = n'.cursor)
    (htape' : m'.tape = n'.tape) : Reads m m' := by
  cases h with
  | char c hc hn ht hr =>
    refine .char c ?_ ?_ ?_ ?_
    · rwa [hinput, hcursor]
    · rwa [hcursor', hcursor]
    · rwa [htape', htape]
    · rwa [htape']
  | zero hc hn ht hr =>
    refine .zero ?_ ?_ ?_ ?_
    · rwa [hinput, hcursor]
    · rwa [hcursor', hcursor]
    · rwa [htape', htape]
    · rwa [htape']

theorem reads_consume (m : Machine) : Reads m m.consume := by
  have hinput := (input_consume m).1
  rw [consume] at hinput ⊢
  cases hc : m.input[m.cursor]? with
  | some c =>
    exact .char c hc rfl rfl (by rw [Tape.read_write]; rfl)
  | none => exact .zero (Array.getElem?_eq_none_iff.mp hc) rfl rfl (Tape.read_write _ _)

/-- No instruction but a `,` moves the cursor. -/
theorem cursor_execute (h : m.program.command? m.counter ≠ some .input) :
    m.execute.cursor = m.cursor := by
  rw [execute]
  cases hc : m.program.command? m.counter with
  | none => rfl
  | some c =>
    cases c
    case input => exact absurd hc h
    case opening =>
      simp only [perform, openLoop]
      split
      · rfl
      · rfl
    case closing =>
      simp only [perform, closeLoop]
      split
      · rfl
      · split
        · rfl
        · rfl
    all_goals rfl

/-- After a `,` one character more of the input was consumed, or none. -/
theorem Reads.taken (h : Reads m m') (hin : m.input.toList <+: m'.input.toList)
    (hle : m.cursor ≤ m.input.size) : m'.input.toList.take m'.cursor =
      m.input.toList.take m.cursor ++ (m.taken? m').toList := by
  have hfirst : m'.input.toList.take m.cursor = m.input.toList.take m.cursor := by
    obtain ⟨rest, hrest⟩ := hin
    rw [← hrest, List.take_append_of_le_length (by simpa using hle)]
  cases h with
  | char c hc hcursor =>
    rw [taken?, if_neg (by omega), hc, hcursor, List.take_add_one, hfirst]
    rw [← Array.getElem?_toList] at hc
    rw [hc]
  | zero _ hcursor =>
    rw [taken?, if_pos hcursor, hcursor, hfirst, Option.toList_none, List.append_nil]

/-! ### Acts -/

/-- What an act has to do with the input of a machine, when so many texts came in it and the
source was called so many times. -/
inductive Deals (m m' : Machine) : List Text → Nat → Prop
  | aside : ¬ m.Commas m' → m'.input = m.input → m'.cursor = m.cursor →
      m'.stepping = m.stepping → Deals m m' [] 0
  | asks : m.Asks → ¬ m.Commas m' → m'.input = m.input → m'.cursor = m.cursor →
      m.stepping = false → m'.stepping = true → Deals m m' [] 1
  | hears (text : Text) : m.Asks → m.Commas m' → m'.input = m.input ++ text → Reads m m' →
      m.stepping = true → m'.stepping = false → Deals m m' [text] 0
  | reads : ¬ m.Asks → m.Commas m' → m'.input = m.input → Reads m m' →
      m'.stepping = m.stepping → Deals m m' [] 0

theorem Deals.of_bare (h : Deals m.bare m'.bare ts k) : Deals m m' ts k := by
  have hreads : Reads m.bare m'.bare → Reads m m' := fun hr =>
    hr.of_fields rfl rfl rfl rfl rfl
  cases h with
  | aside hc hi hn hs => exact .aside hc hi hn hs
  | asks ha hc hi hn hs hs' => exact .asks ha hc hi hn hs hs'
  | hears text ha hc hi hr hs hs' => exact .hears text ha hc hi (hreads hr) hs hs'
  | reads ha hc hi hr hs => exact .reads ha hc hi (hreads hr) hs

theorem Deals.refl (m : Machine) : Deals m m [] 0 :=
  .aside (fun h => by have := h.2; omega) rfl rfl rfl

/-- What is executed with no help of a source. -/
theorem deals_of_inward (hst : m.stance = .inward) : Deals m m.noted.execute.advance [] 0 := by
  obtain ⟨-, hasks, c, hc, -⟩ := stance_eq_inward_iff.mp hst
  by_cases hcomma : c = .input
  · subst hcomma
    rw [(noted_execute_of_input hc).2]
    have hinner := inner_consume m
    have hreads : Reads m m.consume.advance :=
      (reads_consume m).of_fields rfl rfl rfl rfl rfl
    exact .reads hasks ⟨hc, congrArg (· + 1) hinner.steps⟩ (input_consume m).1 hreads
      hinner.stepping
  · have hne : m.program.command? m.counter ≠ some .input := fun h =>
      hcomma (Option.some.inj (hc.symm.trans h))
    rw [noted_eq, execute_reported]
    exact .aside (fun h => hne h.1) (input_execute m).1 (cursor_execute hne)
      (inner_execute m).stepping

theorem deals_of_output (hst : m.stance = .output) (hi : m'.input = m.input)
    (hn : m'.cursor = m.cursor) (hs : m'.stepping = m.stepping) : Deals m m' [] 0 := by
  obtain ⟨-, hc⟩ := stance_eq_output_iff.mp hst
  refine .aside (fun h => ?_) hi hn hs
  cases hc.symm.trans h.1

/-- All acts but the end of a wait without a text. -/
theorem Does.deals (h : Does m a m') (ha : ∀ late, a ≠ .drop late) (i : Nat) :
    Deals m m' ((a.signs i m).filterMap (Sign.heard? i)) ((a.signs i m).count (.asked i)) := by
  have hunread : (∀ g ∈ a.signs i m, g.reader? ≠ some i) → Deals m m' [] 0 →
      Deals m m' ((a.signs i m).filterMap (Sign.heard? i)) ((a.signs i m).count (.asked i)) := by
    intro hg hdeals
    rwa [heard_eq_nil hg, asked_eq_zero hg]
  cases h with
  | ask hst =>
    obtain ⟨hs, hasks⟩ := stance_eq_request_iff.mp hst
    have hno : ¬ m.Commas {m with stepping := true} := fun hc => Nat.ne_add_one _ hc.2
    simpa [Act.signs, Sign.heard?] using .asks hasks hno rfl rfl hs rfl
  | hear text hs hasks =>
    have hstepped := (Does.hear text hs hasks).stepped trivial
    have hreads : Reads m (({m with stepping := false}.receive text).consume.advance) :=
      (reads_consume ({m with stepping := false}.receive text)).of_fields rfl rfl rfl rfl rfl
    have hin := (input_consume ({m with stepping := false}.receive text)).1
    simpa [Act.signs, Sign.heard?] using .hears text hasks ⟨hasks.1, hstepped.steps⟩ hin hreads hs
      (inner_consume _).stepping
  | drop late => exact absurd rfl (ha late)
  | work hst =>
    refine hunread (fun g hg => ?_) (deals_of_inward hst)
    obtain ⟨c, -, rfl⟩ := Option.map_eq_some_iff.mp (Option.mem_toList.mp hg)
    exact (Option.some_ne_none i).symm
  | put hst | spill hst =>
    refine hunread (fun g hg => ?_) (deals_of_output hst rfl rfl rfl)
    rw [Act.signs] at hg
    split at hg
    · obtain rfl := List.mem_singleton.mp hg
      exact (Option.some_ne_none i).symm
    · cases hg

/-! ### The account -/

/-- The two states of a machine around a `,` that was completed from one to the next. -/
def comma? (m m' : Machine) : Option (Machine × Machine) :=
  if m.Commas m' then some (m, m') else none

/-- An account of the input of a machine: the texts that came, how often the source was
called, and the states around every `,` that was completed. -/
structure Ledger (texts : List Text) (calls : Nat) (cs : List (Machine × Machine))
    (m : Machine) : Prop where
  input : m.input.toList = texts.flatten
  calls : calls = (cs.filter fun p => p.1.Exhausted).length + m.stepping.toNat
  reads : ∀ p ∈ cs, Reads p.1 p.2
  taken : (cs.filterMap fun p => p.1.taken? p.2) = m.input.toList.take m.cursor
  cursor_le : m.cursor ≤ m.input.size

theorem Ledger.cursor (h : Ledger texts calls cs m) :
    m.cursor = (cs.filterMap fun p => p.1.taken? p.2).length := by
  rw [h.taken, List.length_take, Array.length_toList, Nat.min_eq_left h.cursor_le]

theorem IsNew.ledger (h : m.IsNew) : Ledger [] 0 [] m := by
  obtain ⟨p, n, hn, hears, speaks, rfl⟩ := h
  exact ⟨rfl, rfl, fun _ hp => absurd hp List.not_mem_nil, rfl, Nat.zero_le _⟩

/-- The account goes on. -/
theorem Ledger.deal (h : Ledger texts calls cs m) (hd : Deals m m' ts k)
    (hle : m'.cursor ≤ m'.input.size) :
    Ledger (texts ++ ts) (calls + k) (cs ++ (m.comma? m').toList) m' := by
  obtain ⟨hinput, hcalls, hreads, htaken, hcursor⟩ := h
  have hlast : [(m, m')].filterMap (fun p => p.1.taken? p.2) = (m.taken? m').toList := by
    rw [List.filterMap_cons]
    cases m.taken? m' <;> rfl
  cases hd with
  | aside hc hi hn hs =>
    rw [comma?, if_neg hc, Option.toList_none, List.append_nil, List.append_nil]
    exact ⟨hi ▸ hinput, by rw [hs]; exact hcalls, hreads, by rw [hi, hn]; exact htaken, hle⟩
  | asks ha hc hi hn hs hs' =>
    rw [comma?, if_neg hc, Option.toList_none, List.append_nil, List.append_nil]
    refine ⟨hi ▸ hinput, ?_, hreads, by rw [hi, hn]; exact htaken, hle⟩
    rw [hcalls, hs, hs']
    rfl
  | hears text ha hc hi hr hs hs' =>
    have hin : m'.input.toList = m.input.toList ++ text := by rw [hi]; exact toList_receive m text
    rw [comma?, if_pos hc]
    refine ⟨?_, ?_, ?_, ?_, hle⟩
    · rw [hin, hinput, List.flatten_append, List.flatten_singleton]
    · rw [List.filter_append, List.length_append, hcalls, hs, hs']
      simp [(exhausted_iff hcursor).mpr ha]
    · exact List.forall_mem_append.mpr ⟨hreads, List.forall_mem_singleton.mpr hr⟩
    · rw [List.filterMap_append, htaken, hr.taken (hin ▸ List.prefix_append _ _) hcursor]
      exact congrArg _ hlast
  | reads ha hc hi hr hs =>
    rw [comma?, if_pos hc, List.append_nil]
    refine ⟨hi ▸ hinput, ?_, ?_, ?_, hle⟩
    · rw [List.filter_append, List.length_append, hcalls, hs]
      have hno : ¬ m.Exhausted := fun h => ha ((exhausted_iff hcursor).mp h)
      simp [hno]
    · exact List.forall_mem_append.mpr ⟨hreads, List.forall_mem_singleton.mpr hr⟩
    · rw [List.filterMap_append, htaken, hr.taken (hi ▸ List.prefix_refl _) hcursor]
      exact congrArg _ hlast

theorem Ledger.of_bare (h : Ledger texts calls cs m.bare) : Ledger texts calls cs m :=
  ⟨h.input, h.calls, h.reads, h.taken, h.cursor_le⟩

end Machine

/-! ### Stirs -/

namespace Stir
variable {frail : Prop} {ms ms' : List Machine} {sg : List Sign} {i : Nat} {m m' : Machine}

theorem unread_of_resets (h : Resets ms sg ms') : ∀ g ∈ sg, g.reader? ≠ some i := by
  intro g hg
  rw [h.signs_eq] at hg
  rw [List.eq_of_mem_replicate hg]
  nofun

/-- What an act tells is about the machine that acts. -/
theorem reader_of_act {j : Nat} {a : Machine.Act} (hij : i ≠ j) :
    ∀ g ∈ a.signs j m, g.reader? ≠ some i := by
  intro g hg
  cases a with
  | ask =>
    obtain rfl := List.mem_singleton.mp hg
    exact fun h => hij (Option.some.inj h).symm
  | hear text =>
    obtain rfl := List.mem_singleton.mp hg
    exact fun h => hij (Option.some.inj h).symm
  | drop late =>
    obtain ⟨text, -, rfl⟩ := Option.map_eq_some_iff.mp (Option.mem_toList.mp hg)
    exact fun h => hij (Option.some.inj h).symm
  | work =>
    obtain ⟨c, -, rfl⟩ := Option.map_eq_some_iff.mp (Option.mem_toList.mp hg)
    exact (Option.some_ne_none i).symm
  | put | spill =>
    rw [Machine.Act.signs] at hg
    split at hg
    · obtain rfl := List.mem_singleton.mp hg
      exact (Option.some_ne_none i).symm
    · cases hg

/-- Nothing is told of a machine that is not there. -/
theorem unread (h : Stir frail ms sg ms') (hi : ms.length ≤ i) :
    ∀ g ∈ sg, g.reader? ≠ some i := by
  cases h with
  | calm hr => exact unread_of_resets hr
  | made => exact nofun
  | act a hm hd hs hr =>
    have hlt := (List.getElem?_eq_some_iff.mp hm).1
    exact List.forall_mem_append.mpr ⟨reader_of_act (by omega), unread_of_resets hr⟩

/-- The source is called once at most, by a step that begins and finds the input used up. -/
theorem asked (h : Stir frail ms sg ms') (i : Nat) : sg.count (.asked i) = 0 ∨
    sg.count (.asked i) = 1 ∧ ∃ m, ms[i]? = some m ∧ m.stance = .request := by
  cases h with
  | calm hr => exact .inl (asked_eq_zero (unread_of_resets hr))
  | made => exact .inl rfl
  | @act _ sg j n n₁ a hn hd hs hr =>
    rw [List.count_append, asked_eq_zero (unread_of_resets hr)]
    by_cases hij : i = j
    · subst hij
      cases hd with
      | ask hst => exact .inr ⟨by simp [Machine.Act.signs], n, hn, hst⟩
      | hear => exact .inl (by simp [Machine.Act.signs])
      | drop late => exact .inl (by cases late <;> simp [Machine.Act.signs])
      | work => exact .inl (by cases h : n.complaint? <;> simp [Machine.Act.signs, h])
      | put | spill => exact .inl (by cases h : n.speaks <;> simp [Machine.Act.signs, h])
    · exact .inl (asked_eq_zero (reader_of_act hij))

/-- A text comes only for a step that waits, and ends the wait. -/
theorem heard (h : Stir frail ms sg ms') (i : Nat) : sg.filterMap (Sign.heard? i) = [] ∨
    ∃ m m', ms[i]? = some m ∧ ms'[i]? = some m' ∧ m.stepping = true ∧ m'.stepping = false := by
  cases h with
  | calm hr => exact .inl (heard_eq_nil (unread_of_resets hr))
  | made => exact .inl rfl
  | @act _ sg j n n₁ a hn hd hs hr =>
    by_cases hij : i = j
    · subst hij
      have hset : (ms.set i n₁)[i]? = some n₁ :=
        List.getElem?_set_self (List.getElem?_eq_some_iff.mp hn).1
      obtain ⟨k, hk⟩ := hr.at_index hset
      by_cases hw : n.stepping = true
      · exact .inr ⟨n, _, hn, hk, hw, (n₁.stepping_wiped k).trans (hd.stepping_false hw)⟩
      · left
        rw [List.filterMap_append, heard_eq_nil (unread_of_resets hr), List.append_nil]
        cases hd with
        | hear _ hw' => exact absurd hw' hw
        | drop _ hw' => exact absurd hw' hw
        | ask => rfl
        | work => cases h : n.complaint? <;> simp [Machine.Act.signs, Sign.heard?, h]
        | put | spill => cases h : n.speaks <;> simp [Machine.Act.signs, Sign.heard?, h]
    · rw [List.filterMap_append, heard_eq_nil (reader_of_act hij),
        heard_eq_nil (unread_of_resets hr)]
      exact .inl rfl

/-- A machine that is not reset acts, or all that happens has to do with others. -/
theorem act_at (h : Stir frail ms sg ms') (hm : ms[i]? = some m) (hm' : ms'[i]? = some m')
    (he : m'.epoch = m.epoch) : (m' = m ∧ ∀ g ∈ sg, g.reader? ≠ some i) ∨
      ∃ a rest, m.Does a m' ∧ sg = a.signs i m ++ rest ∧ ∀ g ∈ rest, g.reader? ≠ some i := by
  cases h with
  | calm hr => exact .inl ⟨(hr.set_of_epoch_eq hm hm' he m).1, unread_of_resets hr⟩
  | made hn =>
    rw [List.getElem?_append_left (List.getElem?_eq_some_iff.mp hm).1, hm] at hm'
    exact .inl ⟨(Option.some.inj hm').symm, nofun⟩
  | @act _ sg j n n₁ a hn hd hs hr =>
    by_cases hij : i = j
    · subst hij
      obtain rfl := Option.some.inj (hn.symm.trans hm)
      have hset : (ms.set i n₁)[i]? = some n₁ :=
        List.getElem?_set_self (List.getElem?_eq_some_iff.mp hm).1
      obtain rfl := (hr.set_of_epoch_eq hset hm' (he.trans hd.kept.epoch.symm) n₁).1
      exact .inr ⟨a, sg, hd, rfl, unread_of_resets hr⟩
    · have hset : (ms.set j n₁)[i]? = some m := by rw [List.getElem?_set_ne (Ne.symm hij), hm]
      exact .inl ⟨(hr.set_of_epoch_eq hset hm' he m).1,
        List.forall_mem_append.mpr ⟨reader_of_act hij, unread_of_resets hr⟩⟩

end Stir
end TapeMachine
