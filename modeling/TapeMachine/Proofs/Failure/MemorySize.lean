import TapeMachine.Bench
import TapeMachine.Proofs.Text.Numeral
import TapeMachine.Proofs.Text.Quoted

/-! The message about a memory size.

Whatever is no number of cells is refused with a line that shows it, and a hint is looked for in
that line. The line always speaks of the memory size, so there is a hint; but the words for a
bracket come first, and the line has these exactly if a text inside the value has them and is
shown in double quotes. Then the hint is about the bracket (`ofMessage?_memorySizeLine`). -/
namespace TapeMachine

namespace Datum

mutual

/-- The texts inside a value, the names of fields among them. -/
def texts : Datum → List Text
  | .null | .truth _ | .integer _ | .real _ => []
  | .text t => [t]
  | .list items => textsOfItems items
  | .record fields => textsOfFields fields

def textsOfItems : List Datum → List Text
  | [] => []
  | d :: rest => texts d ++ textsOfItems rest

def textsOfFields : List (Text × Datum) → List Text
  | [] => []
  | (name, d) :: rest => name :: texts d ++ textsOfFields rest

end

/-- A text among these has the words for a bracket, and no double quote. -/
def Betrays (bracket : Char) (ts : List Text) : Prop :=
  ∃ t ∈ ts, '"' ∉ t ∧ Text.Names bracket t

instance (bracket : Char) (ts : List Text) : Decidable (Betrays bracket ts) :=
  inferInstanceAs (Decidable (∃ t ∈ ts, _))

/-- The hint that comes with a refused value. -/
def hint (d : Datum) : Hint :=
  if Betrays ']' d.texts then .unopened
  else if Betrays '[' d.texts then .unclosed
  else .memorySize

variable {d : Datum} {items : List Datum} {fields : List (Text × Datum)}
variable {ts us : List Text} {t after : Text} {c bracket : Char}

theorem not_betrays_nil : ¬ Betrays bracket [] := fun ⟨_, h, _⟩ => List.not_mem_nil h

theorem betrays_cons :
    Betrays bracket (t :: ts) ↔ ('"' ∉ t ∧ Text.Names bracket t) ∨ Betrays bracket ts := by
  simp only [Betrays, List.mem_cons, or_and_right, exists_or, exists_eq_left]

theorem betrays_append : Betrays bracket (ts ++ us) ↔ Betrays bracket ts ∨ Betrays bracket us := by
  induction ts with
  | nil => rw [List.nil_append, or_iff_right not_betrays_nil]
  | cons t ts ih => rw [List.cons_append, betrays_cons, betrays_cons, ih, or_assoc]

end Datum

/-! ### Numbers -/

namespace Text

variable {c : Char} {n : Nat}

theorem toLower_of_mem_natural (h : c ∈ natural n) : c.toLower ≠ 'u' := by
  rintro hu
  have hhigh := (toNat_of_isDigit (isDigit_of_mem_natural h)).2
  rcases toLower_cases c with hself | ⟨hlow, -⟩
  · rw [← hself, hu] at hhigh
    exact absurd hhigh (by decide)
  · omega

theorem toLower_of_mem_zeros (h : c ∈ List.replicate n '0') : c.toLower ≠ 'u' := by
  rw [List.eq_of_mem_replicate h]
  decide

theorem toLower_of_mem_integer {n : Int} (h : c ∈ integer n) : c.toLower ≠ 'u' := by
  cases n with
  | ofNat n => exact toLower_of_mem_natural h
  | negSucc n =>
    rcases List.mem_cons.mp h with rfl | h
    · decide
    · exact toLower_of_mem_natural h

end Text

namespace Decimal

theorem Digits.toLower_of_mem_layout (d : Digits) : ∀ c ∈ d.layout, c.toLower ≠ 'u' := by
  have hnatural (n : Nat) : ∀ c ∈ Text.natural n, c.toLower ≠ 'u' := fun _ =>
    Text.toLower_of_mem_natural
  have hzeros (n : Nat) : ∀ c ∈ List.replicate n '0', c.toLower ≠ 'u' := fun _ =>
    Text.toLower_of_mem_zeros
  have htake (n : Nat) : ∀ c ∈ (Text.natural d.digits).take n, c.toLower ≠ 'u' := fun _ h =>
    hnatural _ _ (List.mem_of_mem_take h)
  have hdrop (n : Nat) : ∀ c ∈ (Text.natural d.digits).drop n, c.toLower ≠ 'u' := fun _ h =>
    hnatural _ _ (List.mem_of_mem_drop h)
  simp only [layout]
  split_ifs <;>
    simp only [List.cons_append, List.append_assoc, List.nil_append, List.forall_mem_append,
      List.forall_mem_cons]
  · exact ⟨by decide, by decide, hzeros _, hnatural _⟩
  · exact ⟨htake _, by decide, hdrop _⟩
  · exact ⟨hnatural _, hzeros _, by decide, by decide, List.forall_mem_nil _⟩
  · exact ⟨htake _, by decide, by decide, hzeros _, hnatural _⟩
  · exact ⟨htake _, by decide, by decide, hzeros _, hnatural _⟩
  · exact ⟨htake _, by decide, hdrop _, by decide, by decide, hzeros _, hnatural _⟩
  · exact ⟨htake _, by decide, hdrop _, by decide, by decide, hzeros _, hnatural _⟩

theorem toLower_of_mem_ofBits (bits : UInt64) : ∀ c ∈ ofBits bits, c.toLower ≠ 'u' := by
  have hsign : ∀ c ∈ (if negative bits then ['-'] else []), c.toLower ≠ 'u' := by
    split
    · exact List.forall_mem_singleton.mpr (by decide)
    · exact List.forall_mem_nil _
  simp only [ofBits]
  split
  · exact List.all_iff_forall_prop.mp (by decide)
  · exact List.forall_mem_append.mpr ⟨hsign, List.all_iff_forall_prop.mp (by decide)⟩
  · split
    · exact List.forall_mem_append.mpr ⟨hsign, List.all_iff_forall_prop.mp (by decide)⟩
    · exact List.forall_mem_append.mpr ⟨hsign, Digits.toLower_of_mem_layout _⟩

end Decimal

/-! ### The words in what is shown -/

namespace Datum

variable {s after : Text} {c bracket : Char}

theorem names_leaf (hs : ∀ c ∈ s, c.toLower ≠ 'u') :
    Text.Names bracket (s ++ after) ↔ Betrays bracket [] ∨ Text.Names bracket after := by
  rw [or_iff_right not_betrays_nil, Text.names_append hs]

theorem names_true :
    Text.Names bracket (['T', 'r', 'u', 'e'] ++ after) ↔
      Betrays bracket [] ∨ Text.Names bracket after := by
  rw [or_iff_right not_betrays_nil]
  calc Text.Names bracket ('T' :: 'r' :: 'u' :: 'e' :: after)
    _ ↔ Text.Names bracket ('u' :: 'e' :: after) := Text.names_append (s := ['T', 'r'])
      (List.all_iff_forall_prop.mp (by decide))
    _ ↔ Text.Names bracket ('e' :: after) := Text.names_cons_cons (by decide)
    _ ↔ Text.Names bracket after := Text.names_cons (by decide)

theorem not_mem_take_cons (hc : c ≠ '\x27') (hafter : '\x27' ∉ after.take 2) :
    '\x27' ∉ (c :: after).take 2 := by
  rw [List.take_succ_cons, List.mem_cons, not_or]
  exact ⟨hc.symm, fun h => hafter (List.take_subset_take_left after (by decide) h)⟩

theorem not_mem_take_pair (hc : c ≠ '\x27') : '\x27' ∉ (c :: ' ' :: after).take 2 := by
  rw [List.take_succ_cons, List.take_succ_cons, List.take_zero, List.mem_cons, List.mem_singleton]
  exact not_or.mpr ⟨hc.symm, by decide⟩

mutual

/-- The words are found in what is shown of a value if a text inside it betrays them. What comes
after it must not complete them with a quote, or they could begin in a text and end behind it. -/
theorem names_spell (hb : bracket = '[' ∨ bracket = ']') :
    (d : Datum) → (after : Text) → '\x27' ∉ after.take 2 →
      (Text.Names bracket (d.spell ++ after) ↔
        Betrays bracket d.texts ∨ Text.Names bracket after)
  | .null, _, _ => names_leaf (List.all_iff_forall_prop.mp (by decide))
  | .truth true, _, _ => names_true
  | .truth false, _, _ => names_leaf (List.all_iff_forall_prop.mp (by decide))
  | .integer n, _, _ => by
    rw [spell, texts]
    exact names_leaf fun _ => Text.toLower_of_mem_integer
  | .real x, _, _ => by
    rw [spell, texts]
    exact names_leaf (Decimal.toLower_of_mem_ofBits _)
  | .text t, _, hafter => by
    rw [spell, texts, Text.names_quoted hb hafter, betrays_cons, or_iff_left not_betrays_nil]
  | .list items, after, hafter => by
    have hitems := names_spellItems hb items (']' :: after) (not_mem_take_cons (by decide) hafter)
    rw [Text.names_cons (by decide)] at hitems
    rw [spell, texts, List.append_assoc, List.cons_append, Text.names_cons (by decide),
      List.singleton_append, hitems]
  | .record fields, after, hafter => by
    have hfields :=
      names_spellFields hb fields ('\x7d' :: after) (not_mem_take_cons (by decide) hafter)
    rw [Text.names_cons (by decide)] at hfields
    rw [spell, texts, List.append_assoc, List.cons_append, Text.names_cons (by decide),
      List.singleton_append, hfields]

theorem names_spellItems (hb : bracket = '[' ∨ bracket = ']') :
    (items : List Datum) → (after : Text) → '\x27' ∉ after.take 2 →
      (Text.Names bracket (spellItems items ++ after) ↔
        Betrays bracket (textsOfItems items) ∨ Text.Names bracket after)
  | [], _, _ => by
    rw [spellItems, textsOfItems, or_iff_right not_betrays_nil]
    rfl
  | [d], after, hafter => by
    rw [spellItems, textsOfItems, textsOfItems, List.append_nil, names_spell hb d after hafter]
  | d :: e :: rest, after, hafter => by
    have hrest := names_spellItems hb (e :: rest) after hafter
    rw [spellItems, textsOfItems, List.append_assoc, List.cons_append, List.cons_append,
      names_spell hb d _ (not_mem_take_pair (by decide)), Text.names_cons (by decide),
      Text.names_cons (by decide), hrest, betrays_append, or_assoc]
    exact List.cons_ne_nil e rest

theorem names_spellFields (hb : bracket = '[' ∨ bracket = ']') :
    (fields : List (Text × Datum)) → (after : Text) → '\x27' ∉ after.take 2 →
      (Text.Names bracket (spellFields fields ++ after) ↔
        Betrays bracket (textsOfFields fields) ∨ Text.Names bracket after)
  | [], _, _ => by
    rw [spellFields, textsOfFields, or_iff_right not_betrays_nil]
    rfl
  | [(name, d)], after, hafter => by
    rw [spellFields, textsOfFields, textsOfFields, List.append_nil, List.append_assoc,
      List.cons_append, List.cons_append, Text.names_quoted hb (not_mem_take_pair (by decide)),
      Text.names_cons (by decide), Text.names_cons (by decide), names_spell hb d after hafter,
      betrays_cons, or_assoc]
  | (name, d) :: e :: rest, after, hafter => by
    have hrest := names_spellFields hb (e :: rest) after hafter
    rw [spellFields, textsOfFields]
    simp only [List.append_assoc, List.cons_append]
    rw [Text.names_quoted hb (not_mem_take_pair (by decide)), Text.names_cons (by decide),
      Text.names_cons (by decide), names_spell hb d _ (not_mem_take_pair (by decide)),
      Text.names_cons (by decide), Text.names_cons (by decide), hrest, betrays_cons,
      betrays_append, or_assoc, or_assoc]
    exact List.cons_ne_nil e rest

end

end Datum

/-! ### The message -/

namespace Failure

theorem memorySizeLine_eq (d : Datum) :
    memorySizeLine d =
      "Invalid memory size: ".toList ++ (d.spell ++ " (expected a positive integer)".toList) := by
  unfold memorySizeLine
  exact List.append_assoc ..

open Text in
theorem names_memorySizeLine {bracket : Char} (hb : bracket = '[' ∨ bracket = ']') (d : Datum) :
    Names bracket (memorySizeLine d) ↔ Datum.Betrays bracket d.texts := by
  have htail : ¬ Names bracket " (expected a positive integer)".toList :=
    not_names_of_forall (List.all_iff_forall_prop.mp (by decide +kernel))
  rw [memorySizeLine_eq, names_append (List.all_iff_forall_prop.mp (by decide +kernel)),
    Datum.names_spell hb d _ (by decide +kernel), or_iff_left htail]

theorem occurs_memorySize (d : Datum) :
    Text.occurs "memory size".toList ((memorySizeLine d).map Char.toLower) = true := by
  rw [Text.occurs_iff, memorySizeLine_eq, List.map_append]
  exact List.IsInfix.trans ⟨"invalid ".toList, ": ".toList, by decide +kernel⟩
    (List.prefix_append _ _).isInfix

theorem ofMessage?_memorySizeLine (d : Datum) :
    Hint.ofMessage? (memorySizeLine d) = some d.hint := by
  have hclosing : "unmatched ']'".toList = Hint.words ']' := by decide +kernel
  have hopening : "unmatched '['".toList = Hint.words '[' := by decide +kernel
  have hunopened := Text.occurs_iff.trans (names_memorySizeLine (.inr rfl) d)
  have hunclosed := Text.occurs_iff.trans (names_memorySizeLine (.inl rfl) d)
  rw [Hint.ofMessage?, Datum.hint, hclosing, hopening]
  simp only [hunopened, hunclosed, occurs_memorySize, if_true]
  split_ifs
  · rfl
  · rfl
  · rfl

theorem message_memorySize (d : Datum) :
    (Failure.memorySize d).message =
      memorySizeLine d ++ ("\nHint: ".toList ++ d.hint.text) := by
  have hsuffix : Hint.suffix (memorySizeLine d) = "\nHint: ".toList ++ d.hint.text := by
    unfold Hint.suffix
    rw [ofMessage?_memorySizeLine]
  exact congrArg (memorySizeLine d ++ ·) hsuffix

end Failure

theorem Datum.cellCount?_isSome_iff {d : Datum} :
    (∃ n, d.cellCount? = some n) ↔ ∃ n : Int, d = .integer n ∧ 1 ≤ n := by
  constructor
  · rintro ⟨n, h⟩
    unfold cellCount? at h
    split at h
    case h_1 k => exact ⟨k + 1, rfl, Int.le_add_of_nonneg_left (Int.natCast_nonneg k)⟩
    case h_2 => cases h
  · rintro ⟨n, rfl, hn⟩
    obtain ⟨k, rfl⟩ := Int.le.dest hn
    rw [Int.add_comm]
    exact ⟨k + 1, rfl⟩

theorem Datum.hint_eq_memorySize_iff {d : Datum} :
    d.hint = .memorySize ↔
      ∀ t ∈ d.texts, '"' ∉ t → ¬ Text.Names ']' t ∧ ¬ Text.Names '[' t := by
  have hnot : d.hint = .memorySize ↔ ¬ Betrays ']' d.texts ∧ ¬ Betrays '[' d.texts := by
    unfold hint
    split_ifs with hclosing hopening
    · exact iff_of_false (by decide) fun h => h.1 hclosing
    · exact iff_of_false (by decide) fun h => h.2 hopening
    · exact iff_of_true rfl ⟨hclosing, hopening⟩
  rw [hnot]
  constructor
  · exact fun ⟨hclosing, hopening⟩ t ht hplain =>
      ⟨fun h => hclosing ⟨t, ht, hplain, h⟩, fun h => hopening ⟨t, ht, hplain, h⟩⟩
  · exact fun h => ⟨fun ⟨t, ht, hplain, hnames⟩ => (h t ht hplain).1 hnames,
      fun ⟨t, ht, hplain, hnames⟩ => (h t ht hplain).2 hnames⟩

namespace Bench

theorem make_cases (b : Bench) (p : Program) (o : Options) :
    (∃ n made, o.memorySize.cellCount? = some n ∧ b.make p o = .ok made) ∨
      o.memorySize.cellCount? = none ∧ b.make p o = .error (.memorySize o.memorySize) := by
  unfold make
  split
  case h_1 h => exact .inr ⟨h, rfl⟩
  case h_2 n h => exact .inl ⟨n, _, h, rfl⟩

/-- A machine is made for a whole number of cells, at least one, and for nothing else. Any other
value is refused in a message that shows it, with a hint: on the least number of cells, unless a
text inside the value has the words for a bracket and goes between double quotes. -/
theorem make_memorySize (b : Bench) (p : Program) (o : Options) :
    ((∃ made, b.make p o = .ok made) ↔ ∃ n : Int, o.memorySize = .integer n ∧ 1 ≤ n) ∧
      ∀ e, b.make p o = .error e →
        e = .memorySize o.memorySize ∧
        e.message = "Invalid memory size: ".toList ++ o.memorySize.spell ++
          " (expected a positive integer)".toList ++
            ("\nHint: ".toList ++ o.memorySize.hint.text) ∧
        (o.memorySize.hint = .memorySize ↔
          ∀ t ∈ o.memorySize.texts, '"' ∉ t → ¬ Text.Names ']' t ∧ ¬ Text.Names '[' t) := by
  rcases make_cases b p o with ⟨n, made, hn, hmade⟩ | ⟨hnone, herror⟩
  · refine ⟨iff_of_true ⟨made, hmade⟩ (Datum.cellCount?_isSome_iff.mp ⟨n, hn⟩), fun e he => ?_⟩
    rw [hmade] at he
    cases he
  · refine ⟨iff_of_false ?_ ?_, fun e he => ?_⟩
    · rintro ⟨made, hmade⟩
      rw [herror] at hmade
      cases hmade
    · intro hsize
      obtain ⟨n, hn⟩ := Datum.cellCount?_isSome_iff.mpr hsize
      rw [hnone] at hn
      cases hn
    · rw [herror] at he
      cases he
      exact ⟨rfl, Failure.message_memorySize o.memorySize, Datum.hint_eq_memorySize_iff⟩

/-- A list is refused, and the words that it has stand in single quotes. -/
theorem make_memorySize_list :
    ∃ e, (Bench.make {} (.ofString "+")
        {memorySize := .list [.truth true, .text "\"unmatched ']'\"".toList]}) = .error e ∧
      e.message = ("Invalid memory size: [True, '\"unmatched \\']\\'\"'] " ++
        "(expected a positive integer)\n" ++
        "Hint: The tape needs at least one cell. The classic size is 30000.").toList := by
  refine ⟨_, rfl, ?_⟩
  have h := ((make_memorySize {} (.ofString "+")
    {memorySize := .list [.truth true, .text "\"unmatched ']'\"".toList]}).2 _ rfl).2.1
  rw [h]
  decide +kernel

/-- A text that has the words for a bracket and no double quote is refused with the hint on the
bracket. -/
theorem make_text_naming_bracket :
    ∃ e, (Bench.make {} (.ofString "+") {memorySize := .text "unmatched ']'".toList}) = .error e ∧
      e.message = ("Invalid memory size: \"unmatched ']'\" (expected a positive integer)\n" ++
        "Hint: A \"]\" with no open loop is ignored; remove it or add the missing \"[\".").toList ∧
      e.message ≠ Failure.memorySizeLine (.text "unmatched ']'".toList) ++
        ("\nHint: ".toList ++ Hint.memorySize.text) := by
  refine ⟨_, rfl, ?_, ?_⟩
  · decide +kernel
  · decide +kernel

end Bench
end TapeMachine
