import TapeMachine.Proofs.Program.Nesting

/-! Structured programs.

A text whose brackets all have partners is a tree: characters that stand for
themselves, and loops with a body. The parser goes from the last character to the
first and keeps the blocks whose `[` it has not met yet; it fails on a text only if
some bracket is left over (`exists_parse`). Where the text of a tree stands in a
program, the loops open before it are open after it, and the scan for the end of a
loop ends where the body does. -/
namespace TapeMachine

/-- A character that is no bracket. -/
def Plain (c : Char) : Prop := Command.ofChar c ≠ .opening ∧ Command.ofChar c ≠ .closing

/-- A sequence of characters and loops. -/
inductive Block
  | done
  | plain (c : Char) (h : Plain c) (rest : Block)
  | loop (body rest : Block)

namespace Block

def text : Block → Text
  | done => []
  | plain c _ rest => c :: rest.text
  | loop body rest => '[' :: (body.text ++ ']' :: rest.text)

def length (t : Block) : Nat := t.text.length

@[simp] theorem length_done : length done = 0 := rfl

@[simp] theorem length_plain (c : Char) (h : Plain c) (rest : Block) :
    (plain c h rest).length = rest.length + 1 := rfl

@[simp] theorem length_loop (body rest : Block) :
    (loop body rest).length = body.length + rest.length + 2 := by
  simp only [length, text, List.length_cons, List.length_append]
  omega

theorem add_length_plain (i : Nat) (c : Char) (h : Plain c) (rest : Block) :
    i + (plain c h rest).length = i + 1 + rest.length := by
  rw [length_plain]
  omega

theorem add_length_loop (i : Nat) (body rest : Block) :
    i + (loop body rest).length = i + 1 + body.length + 1 + rest.length := by
  rw [length_loop]
  omega

/-! ### Nesting -/

/-- The starts of the loops around position `k`, innermost first, when the block stands
at a position. -/
def around (k : Nat) : Block → Nat → List Nat
  | done, _ => []
  | plain _ _ rest, i => rest.around k (i + 1)
  | loop body rest, i =>
    if k ≤ i then []
    else if k ≤ i + 1 + body.length then body.around k (i + 1) ++ [i]
    else rest.around k (i + 1 + body.length + 1)

/-- The end of the loop that starts at position `k`. -/
def end? (k : Nat) : Block → Nat → Option Nat
  | done, _ => none
  | plain _ _ rest, i => rest.end? k (i + 1)
  | loop body rest, i =>
    if k = i then some (i + 1 + body.length)
    else if k < i + 1 + body.length then body.end? k (i + 1)
    else rest.end? k (i + 1 + body.length + 1)

theorem around_of_le {t : Block} {i k : Nat} (h : k ≤ i) : t.around k i = [] := by
  induction t generalizing i with
  | done => rfl
  | plain c hc rest ih => exact ih (Nat.le_succ_of_le h)
  | loop body rest => exact if_pos h

/-! ### Parsing -/

/-- One character more in front of the blocks whose `[` is still to come. -/
def front (c : Char) : List Block → Option (List Block)
  | [] => none
  | top :: outer =>
    if ho : Command.ofChar c = .opening then
      match outer with
      | [] => none
      | next :: outer => some (loop top next :: outer)
    else if hc : Command.ofChar c = .closing then some (done :: top :: outer)
    else some (plain c ⟨ho, hc⟩ top :: outer)

/-- The blocks of a text, innermost first; all but the last wait for their `[`. -/
def blocks : Text → Option (List Block)
  | [] => some [done]
  | c :: rest => (blocks rest).bind (front c)

def parse (t : Text) : Option Block :=
  match blocks t with
  | some [tree] => some tree
  | _ => none

/-- The text of blocks whose `[` is still to come. -/
def texts : List Block → Text
  | [] => []
  | [tree] => tree.text
  | top :: outer => top.text ++ ']' :: texts outer

theorem ofChar_eq_opening {c : Char} (h : Command.ofChar c = .opening) : c = '[' := by
  unfold Command.ofChar at h
  split at h <;> first | rfl | cases h

theorem ofChar_eq_closing {c : Char} (h : Command.ofChar c = .closing) : c = ']' := by
  unfold Command.ofChar at h
  split at h <;> first | rfl | cases h

theorem front_opening {c : Char} (h : Command.ofChar c = .opening) (top next : Block)
    (outer : List Block) : front c (top :: next :: outer) = some (loop top next :: outer) := by
  simp [front, h]

theorem front_closing {c : Char} (h : Command.ofChar c = .closing) (top : Block)
    (outer : List Block) : front c (top :: outer) = some (done :: top :: outer) := by
  simp [front, h]

theorem front_plain {c : Char} (h : Plain c) (top : Block) (outer : List Block) :
    front c (top :: outer) = some (plain c h top :: outer) := by
  simp [front, h.1, h.2]

theorem texts_front {c : Char} {bs bs' : List Block} (h : front c bs = some bs') :
    texts bs' = c :: texts bs := by
  cases bs with
  | nil => cases h
  | cons top outer =>
    by_cases ho : Command.ofChar c = .opening
    · cases outer with
      | nil => simp [front, ho] at h
      | cons next outer =>
        rw [front_opening ho] at h
        cases h
        obtain rfl := ofChar_eq_opening ho
        cases outer <;> simp [texts, text]
    · by_cases hc : Command.ofChar c = .closing
      · rw [front_closing hc] at h
        cases h
        obtain rfl := ofChar_eq_closing hc
        rfl
      · rw [front_plain ⟨ho, hc⟩] at h
        cases h
        cases outer <;> rfl

theorem texts_blocks {t : Text} {bs : List Block} (h : blocks t = some bs) : texts bs = t := by
  induction t generalizing bs with
  | nil =>
    cases h
    rfl
  | cons c rest ih =>
    obtain ⟨bs₁, h₁, hfront⟩ := Option.bind_eq_some_iff.mp h
    rw [texts_front hfront, ih h₁]

/-- Parsing loses nothing. -/
theorem text_of_parse {t : Text} {tree : Block} (h : parse t = some tree) : tree.text = t := by
  rw [parse] at h
  split at h
  next tree' hb =>
    cases h
    exact texts_blocks hb
  next => cases h

end Block

namespace Program
variable {p : Program} {k : Nat}

theorem command?_of_char? {c : Char} (h : p.char? k = some c) :
    p.command? k = some (Command.ofChar c) := by
  rw [command?, h]
  rfl

theorem not_bracket {c : Char} (hc : Plain c) (h : p.char? k = some c) :
    p.command? k ≠ some .opening ∧ p.command? k ≠ some .closing := by
  rw [command?_of_char? h]
  simpa [Plain] using hc

theorem openAt_succ_plain {c : Char} (hc : Plain c) (h : p.char? k = some c) :
    p.openAt (k + 1) = p.openAt k := by
  obtain ⟨ho, hcl⟩ := not_bracket hc h
  exact openAt_succ_other ho hcl

theorem drop_eq_cons (h : k < p.size) :
    ∃ c, p.char? k = some c ∧ p.toList.drop k = c :: p.toList.drop (k + 1) := by
  rw [size_eq_length] at h
  exact ⟨p.toList[k], by rw [char?_eq, List.getElem?_eq_getElem h], List.drop_eq_getElem_cons h⟩

/-- From any position on, as many blocks wait for their `[` as there are loops open. -/
theorem exists_blocks (hp : p.unmatched = []) (hk : k ≤ p.size) :
    ∃ bs, Block.blocks (p.toList.drop k) = some bs ∧ bs.length = (p.openAt k).length + 1 := by
  induction hn : p.size - k generalizing k with
  | zero =>
    obtain rfl : k = p.size := by omega
    rw [size_eq_length, List.drop_length, ← size_eq_length, openAt_of_unmatched_eq_nil hp]
    exact ⟨[.done], rfl, rfl⟩
  | succ n ih =>
    obtain ⟨c, hc, hdrop⟩ := drop_eq_cons (p := p) (k := k) (by omega)
    obtain ⟨bs, hbs, hlen⟩ := ih (k := k + 1) (by omega) (by omega)
    have hcommand := command?_of_char? hc
    rw [hdrop, Block.blocks, hbs, Option.bind_some]
    obtain _ | ⟨top, outer⟩ := bs
    · simp at hlen
    by_cases ho : Command.ofChar c = .opening
    · rw [ho] at hcommand
      rw [openAt_succ_opening hcommand, List.length_cons, List.length_cons] at hlen
      obtain _ | ⟨next, outer⟩ := outer
      · simp at hlen
      · refine ⟨_, Block.front_opening ho top next outer, ?_⟩
        simp only [List.length_cons] at hlen ⊢
        omega
    · by_cases hcl : Command.ofChar c = .closing
      · -- nothing is stray, so some loop is open before the `]`
        rw [hcl] at hcommand
        have hopen : p.openAt k ≠ [] := fun hnil => by
          have hmem := mem_unmatched_iff.mpr (.inl ⟨hcommand, hnil⟩)
          rw [hp] at hmem
          cases hmem
        obtain ⟨start, rest, hcons⟩ := List.exists_cons_of_ne_nil hopen
        rw [openAt_succ_closing hcommand, hcons, List.tail_cons] at hlen
        refine ⟨_, Block.front_closing hcl top outer, ?_⟩
        rw [List.length_cons, hlen, hcons, List.length_cons]
      · rw [openAt_succ_plain ⟨ho, hcl⟩ hc] at hlen
        exact ⟨_, Block.front_plain ⟨ho, hcl⟩ top outer, hlen⟩

/-- A program whose brackets all have partners is a tree. -/
theorem exists_parse (hp : p.unmatched = []) : ∃ tree, Block.parse p.toList = some tree := by
  obtain ⟨bs, hbs, hlen⟩ := exists_blocks hp (Nat.zero_le _)
  rw [openAt_zero] at hlen
  obtain ⟨tree, rfl⟩ := List.length_eq_one_iff.mp hlen
  rw [List.drop_zero] at hbs
  exact ⟨tree, by rw [Block.parse, hbs]⟩

/-! ### Where a text stands -/

/-- The text stands in the program from a position on. -/
def Stands (p : Program) : Nat → Text → Prop
  | _, [] => True
  | k, c :: rest => p.char? k = some c ∧ Stands p (k + 1) rest

theorem Stands.left {s t : Text} (h : p.Stands k (s ++ t)) : p.Stands k s := by
  induction s generalizing k with
  | nil => trivial
  | cons c rest ih => exact ⟨h.1, ih h.2⟩

theorem Stands.right {s t : Text} (h : p.Stands k (s ++ t)) : p.Stands (k + s.length) t := by
  induction s generalizing k with
  | nil => exact h
  | cons c rest ih =>
    rw [List.length_cons, Nat.add_comm rest.length, ← Nat.add_assoc]
    exact ih h.2

theorem stands_all (p : Program) : p.Stands 0 p.toList := by
  suffices h : ∀ n k, p.size - k = n → p.Stands k (p.toList.drop k) from h _ 0 rfl
  intro n
  induction n with
  | zero =>
    intro k hk
    rw [List.drop_eq_nil_of_le (by rw [← size_eq_length]; omega)]
    trivial
  | succ n ih =>
    intro k hk
    obtain ⟨c, hc, hdrop⟩ := drop_eq_cons (p := p) (k := k) (by omega)
    rw [hdrop]
    exact ⟨hc, ih (k + 1) (by omega)⟩

variable {body rest : Block}

theorem Stands.opening (h : p.Stands k (Block.loop body rest).text) :
    p.command? k = some .opening := command?_of_char? h.1

theorem Stands.inside (h : p.Stands k (Block.loop body rest).text) :
    p.Stands (k + 1) body.text := h.2.left

theorem Stands.closing (h : p.Stands k (Block.loop body rest).text) :
    p.command? (k + 1 + body.length) = some .closing := command?_of_char? h.2.right.1

theorem Stands.after (h : p.Stands k (Block.loop body rest).text) :
    p.Stands (k + 1 + body.length + 1) rest.text := h.2.right.2

/-- A block closes what it opens. -/
theorem Stands.openAt {t : Block} (h : p.Stands k t.text) :
    p.openAt (k + t.length) = p.openAt k := by
  induction t generalizing k with
  | done => rfl
  | plain c hc rest ih =>
    rw [Block.add_length_plain, ih h.2, openAt_succ_plain hc h.1]
  | loop body rest ihb ihr =>
    have hbody := ihb h.inside
    have hrest := ihr h.after
    rw [openAt_succ_opening h.opening] at hbody
    rw [openAt_succ_closing h.closing, hbody, List.tail_cons] at hrest
    rw [← hrest, Block.add_length_loop]

/-- The loops that are open at a position in a block are those around it. -/
theorem Stands.openAt_eq_around {t : Block} {i : Nat} (h : p.Stands i t.text) (hik : i ≤ k)
    (hk : k ≤ i + t.length) : p.openAt k = t.around k i ++ p.openAt i := by
  induction t generalizing i with
  | done =>
    obtain rfl : k = i := by
      rw [Block.length_done] at hk
      omega
    rfl
  | plain c hc rest ih =>
    rw [Block.add_length_plain] at hk
    rcases Nat.lt_or_eq_of_le hik with hlt | rfl
    · rw [ih h.2 hlt hk, openAt_succ_plain hc h.1, Block.around]
    · rw [Block.around_of_le (Nat.le_refl i), List.nil_append]
  | loop body rest ihb ihr =>
    rw [Block.add_length_loop] at hk
    rw [Block.around]
    split
    next hle =>
      rw [Nat.le_antisymm hle hik, List.nil_append]
    next hlt =>
      have hopen : p.openAt (i + 1) = i :: p.openAt i := openAt_succ_opening h.opening
      split
      next hin =>
        rw [ihb h.inside (by omega) hin, hopen, List.append_assoc, List.singleton_append]
      next hout =>
        rw [ihr h.after (by omega) hk, openAt_succ_closing h.closing, h.inside.openAt, hopen,
          List.tail_cons]

/-- The scan for the end of a loop ends where the body does. -/
theorem Stands.loopEnd? (h : p.Stands k (Block.loop body rest).text) :
    p.loopEnd? k = some (k + 1 + body.length) := by
  have hopen : p.openAt (k + 1 + body.length) = k :: p.openAt k := by
    rw [h.inside.openAt, openAt_succ_opening h.opening]
  have hafter : p.openAt (k + 1 + body.length + 1) = p.openAt k := by
    rw [openAt_succ_closing h.closing, hopen, List.tail_cons]
  -- once a loop was left it is never open again
  have hnever : ∀ i j, k < i → i ≤ j → p.openAt i = p.openAt k → k ∉ p.openAt j := by
    intro i j hki hij hi hmem
    rcases mem_openAt_of_le hij hmem with hmem | hle
    · rw [hi] at hmem
      exact absurd (opening_of_mem_openAt hmem).1 (Nat.lt_irrefl k)
    · omega
  have hlt := lt_size_of_command? h.closing
  cases he : p.loopEnd? k with
  | none =>
    have hmem := (loopEnd?_eq_none_iff h.opening).mp he
    exact absurd hmem (hnever _ _ (by omega) hlt hafter)
  | some e =>
    obtain ⟨hke, -, hope⟩ := openAt_loopEnd h.opening he
    have hsucc := openAt_loopEnd_succ h.opening he
    rcases Nat.lt_trichotomy e (k + 1 + body.length) with hlt | rfl | hlt
    · refine absurd ?_ (hnever (e + 1) _ (by omega) hlt hsucc)
      rw [hopen]
      exact List.mem_cons_self ..
    · rfl
    · refine absurd ?_ (hnever _ e (by omega) hlt hafter)
      rw [hope]
      exact List.mem_cons_self ..

/-- From every `[` in a block the scan ends where its loop does. -/
theorem Stands.loopEnd?_eq_end? {t : Block} {i : Nat} (h : p.Stands i t.text)
    (ho : p.command? k = some .opening) (hik : i ≤ k) (hk : k < i + t.length) :
    p.loopEnd? k = t.end? k i := by
  induction t generalizing i with
  | done =>
    rw [Block.length_done] at hk
    omega
  | plain c hc rest ih =>
    rw [Block.add_length_plain] at hk
    rcases Nat.lt_or_eq_of_le hik with hlt | rfl
    · exact ih h.2 hlt hk
    · exact absurd ho (not_bracket hc h.1).1
  | loop body rest ihb ihr =>
    rw [Block.add_length_loop] at hk
    rw [Block.end?]
    split
    next heq =>
      subst heq
      exact h.loopEnd?
    next hne =>
      split
      next hin => exact ihb h.inside (by omega) hin
      next hout =>
        have hclosing : k ≠ i + 1 + body.length := fun heq => by
          rw [heq, h.closing] at ho
          cases ho
        exact ihr h.after (by omega) hk

end Program
end TapeMachine
