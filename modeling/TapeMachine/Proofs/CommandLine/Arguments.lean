import TapeMachine.CommandLine.Invocation

/-! How a command line is taken apart.

Options with their values attached come to their settings one after the other, in
whatever order (`consume_setting`), and for a grammar whose operand takes the rest it does
not matter what the rest looks like (`read_takesRest`). What one grammar takes for an
operand although it begins with a hyphen stands for none of its names
(`matching_eq_nil_of_operand`), so it stands for none of these names in another grammar
either (`matching_eq_nil`). -/
namespace TapeMachine.CommandLine

variable {g : Grammar} {n : Nat} {r : Reading} {o : Choice} {name value argument : Text}
  {item : Item} {items : List (Text × Item)} {equals : Bool}

/-! ### Items from the front -/

/-- Nothing is left to take. -/
theorem consume_nil : consume g (n + 1) r [] = .ok r := by
  have hlength : operandLength g [] = 0 := rfl
  simp [consume, takeOperand, hlength]

/-- An operand with an option after it. -/
theorem consume_operand (hg : g.takesRest = false) (hr : r.operand = none)
    (ho : isOption item = true) :
    consume g (n + 1) r ((argument, .operand) :: (value, item) :: items) =
      consume g n {r with operand := some [argument]} ((value, item) :: items) := by
  have hoperand : isOption .operand = false := rfl
  have hlength : operandLength g ((argument, .operand) :: (value, item) :: items) = 1 := by
    cases item <;> simp_all [operandLength, isOption]
  simp [consume, takeOperand, hr, hg, ho, hoperand, hlength]

/-- An option in front, whatever it takes. -/
theorem consume_option (ho : isOption item = true) :
    consume g (n + 1) r ((argument, item) :: items) =
      (takeOption g r argument item items).bind fun taken => consume g n taken.1 taken.2 := by
  have hlength : operandLength g ((argument, item) :: items) = 0 := by
    cases item <;> simp_all [operandLength, isOption]
  simp [consume, takeOperand, ho, hlength]
  rfl

/-- An option with a value attached to it. -/
theorem consume_setting (ho : o.takes.value = true) :
    consume g (n + 1) r ((argument, .option o name equals (some value)) :: items) =
      match o.takes.read value with
      | .error m => .error (.misuse g (.badValue o m))
      | .ok setting => consume g n {r with settings := (o, setting) :: r.settings} items := by
  have hhelp : o.takes ≠ .help := fun h => by
    rw [h] at ho
    cases ho
  have htaken : takeAttached g items.head? o name equals value =
      .ok {options := [(o, some value)]} := by
    rw [takeAttached.eq_def, if_pos ho]
  rw [consume_option rfl]
  simp only [takeOption, htaken, applyOptions, if_neg hhelp, Option.getD_some]
  cases o.takes.read value with
  | error m => rfl
  | ok setting => simp [Except.bind, bind, pure, Except.pure]

/-- An option that takes nothing. -/
theorem consume_switch (ho : o.takes = .nothing) :
    consume g (n + 1) r ((argument, .option o name equals none) :: items) =
      consume g n {r with settings := (o, .on) :: r.settings} items := by
  rw [consume_option rfl]
  simp [takeOption, takeAlone, ho, Takes.value, applyOptions, Takes.read, Except.bind, bind, pure,
    Except.pure]

/-- A grammar whose operand takes the rest has nothing to do with the rest. -/
theorem consume_takesRest (hg : g.takesRest = true) :
    consume g (n + 2) {} ((argument, .operand) :: items) =
      .ok {operand := some (argument :: items.map (·.1))} := by
  have hoperand : isOption .operand = false := rfl
  have hlength : operandLength g ((argument, .operand) :: items) = items.length + 1 := by
    cases items with
    | nil => simp [operandLength, hg]
    | cons next items =>
      obtain ⟨next, item⟩ := next
      cases item <;> simp [operandLength, hg]
  have htake : takeOperand g {} ((argument, .operand) :: items) =
      ({operand := some (argument :: items.map (·.1))}, []) := by
    simp [takeOperand, hlength, hg]
  rw [consume]
  simp only [List.takeWhile_cons, hoperand, Bool.not_false, if_true, List.length_cons,
    List.drop_succ_cons]
  split
  · rw [htake]
    simp
  · rw [htake]
    simp [consume_nil]

/-! ### Arguments -/

theorem classifyAll_cons {arguments : List Text} (ha : argument ≠ ['-', '-'])
    (hitem : classify g argument = .ok item) (hitems : classifyAll g arguments = .ok items) :
    classifyAll g (argument :: arguments) = .ok ((argument, item) :: items) := by
  rw [classifyAll, if_neg ha, hitem, hitems]
  rfl

/-- What does not begin with a hyphen is an operand. -/
theorem classify_operand (h : argument.head? ≠ some '-') : classify g argument = .ok .operand :=
  if_pos (.inl h)

theorem read_of_classifyAll {arguments : List Text} (h : classifyAll g arguments = .ok items) :
    g.read arguments = (consume g (items.length + 1) {} items).bind fun r =>
      if r.operand.isNone then .error (.misuse g (.missing g.operand)) else .ok r := by
  rw [Grammar.read, h]
  rfl

/-- A grammar whose operand takes the rest reads a command with all that follows it. -/
theorem read_takesRest {arguments : List Text} (hg : g.takesRest = true)
    (hfirst : argument.head? ≠ some '-') (hitems : classifyAll g arguments = .ok items) :
    g.read (argument :: arguments) = .ok {operand := some (argument :: items.map (·.1))} := by
  have hhyphens : argument ≠ ['-', '-'] := by
    rintro rfl
    exact hfirst rfl
  rw [read_of_classifyAll (classifyAll_cons hhyphens (classify_operand hfirst) hitems),
    List.length_cons, consume_takesRest hg]
  rfl

theorem splitEquals?_append (h : '=' ∉ name) :
    splitEquals? (name ++ '=' :: value) = some (name, value) := by
  induction name with
  | nil => rfl
  | cons c name ih =>
    have hc : c ≠ '=' := fun he => h (he ▸ List.mem_cons_self)
    have hname := ih fun hm => h (List.mem_cons_of_mem c hm)
    rw [List.cons_append, splitEquals?, if_neg hc, hname]
    rfl

/-- No option of the grammar has an equals sign in its name. -/
def Grammar.Regular (g : Grammar) : Prop := ∀ entry ∈ g.names, '=' ∉ entry.1

instance (g : Grammar) : Decidable g.Regular :=
  inferInstanceAs (Decidable (∀ entry ∈ g.names, '=' ∉ entry.1))

theorem find?_attached (hg : g.Regular) : g.find? (name ++ '=' :: value) = none := by
  rw [Grammar.find?, Option.map_eq_none_iff, List.find?_eq_none]
  intro entry hentry heq
  have hno := hg entry hentry
  rw [eq_of_beq heq] at hno
  exact hno (by simp)

theorem fullName?_attached (hg : g.Regular) (hname : '=' ∉ name) :
    fullName? g (name ++ '=' :: value) =
      (g.find? name).map (fun o => .option o name true (some value)) := by
  simp only [fullName?, find?_attached hg, splitEquals?_append hname]

/-- An option by its full name, with a value after an equals sign. -/
theorem classify_attached (hg : g.Regular) (hname : '=' ∉ '-' :: name)
    (ho : g.find? ('-' :: name) = some o) :
    classify g ('-' :: name ++ '=' :: value) = .ok (.option o ('-' :: name) true (some value)) := by
  rw [classify, if_neg (by simp), fullName?_attached hg hname, ho]
  rfl

/-- The name of an option of another grammar, with a value after an equals sign, is not
ambiguous. -/
theorem classify_foreign (hg : g.Regular) (hname : '=' ∉ '-' :: '-' :: name)
    (hno : ∀ entry ∈ g.names, ¬ '-' :: '-' :: name <+: entry.1) :
    ∃ item, classify g ('-' :: '-' :: name ++ '=' :: value) = .ok item := by
  have hfind : g.find? ('-' :: '-' :: name) = none := by
    rw [Grammar.find?, Option.map_eq_none_iff, List.find?_eq_none]
    intro entry hentry heq
    have hprefix := hno entry hentry
    rw [eq_of_beq heq] at hprefix
    exact hprefix (List.prefix_refl _)
  have hmatching : matching g ('-' :: '-' :: name ++ '=' :: value) = [] := by
    have hsplit : splitEquals? ('-' :: '-' :: name ++ '=' :: value) =
        some ('-' :: '-' :: name, value) := splitEquals?_append hname
    have hnone : g.names.filter (fun entry => ('-' :: '-' :: name).isPrefixOf entry.1) = [] := by
      rw [List.filter_eq_nil_iff]
      intro entry hentry
      rw [List.isPrefixOf_iff_prefix]
      exact hno entry hentry
    simp only [List.cons_append] at hsplit ⊢
    simp only [matching, hsplit, hnone, List.map_nil]
  rw [classify, if_neg (by simp), fullName?_attached hg hname, hfind, hmatching]
  simp only [Option.map_none]
  split
  · exact ⟨_, rfl⟩
  · exact ⟨_, rfl⟩

/-! ### Operands -/

theorem isOption_of_fullName? (h : fullName? g argument = some item) : isOption item = true := by
  rw [fullName?] at h
  split at h
  · cases h
    rfl
  · split at h
    · obtain ⟨o, -, rfl⟩ := Option.map_eq_some_iff.mp h
      rfl
    · cases h

/-- A name that an argument may stand for counts in every grammar that has it. -/
theorem matching_eq_nil {g' : Grammar} (hg : ∀ entry ∈ g'.names, entry ∈ g.names)
    (h : matching g argument = []) : matching g' argument = [] := by
  rw [matching.eq_def] at h ⊢
  split at h
  · simp only [List.map_eq_nil_iff, List.filter_eq_nil_iff] at h ⊢
    exact fun entry hentry => h entry (hg entry hentry)
  · rw [List.filterMap_eq_nil_iff] at h ⊢
    exact fun entry hentry => h entry (hg entry hentry)

theorem matching_append {g₁ g₂ : Grammar} (hg : g.names = g₁.names ++ g₂.names) :
    matching g argument = matching g₁ argument ++ matching g₂ argument := by
  simp only [matching.eq_def, hg, List.filter_append, List.map_append, List.filterMap_append]
  split <;> rfl

theorem isOption_of_mem_matching {x : Text × Item} (h : x ∈ matching g argument) :
    isOption x.2 = true := by
  rw [matching.eq_def] at h
  split at h
  · obtain ⟨entry, -, rfl⟩ := List.mem_map.mp h
    rfl
  · obtain ⟨entry, -, hx⟩ := List.mem_filterMap.mp h
    split at hx
    · cases hx
      rfl
    · split at hx
      · cases hx
        rfl
      · cases hx

/-- An operand that begins with a hyphen stands for no name. -/
theorem matching_eq_nil_of_operand (h : classify g argument = .ok .operand)
    (hhyphen : ¬ (argument.head? ≠ some '-' ∨ argument = ['-'])) : matching g argument = [] := by
  rw [classify, if_neg hhyphen] at h
  split at h
  next item hfull =>
    cases h
    cases isOption_of_fullName? hfull
  next =>
    split at h
    next name item hmatching =>
      cases h
      have hmem : (name, Item.operand) ∈ matching g argument := by simp [hmatching]
      cases isOption_of_mem_matching hmem
    next hmatching => exact hmatching
    next => cases h

end TapeMachine.CommandLine
