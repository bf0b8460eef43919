import TapeMachine.CommandLine.Invocation

/-! The values that a command line sets.

However the arguments are taken apart, a value is on record for an option only if the option
reads it from some text (`Reading.Sound`). So a number that has to be positive is positive
(`TraceRequest.memorySize_pos`). -/
namespace TapeMachine.CommandLine

variable {g : Grammar} {n : Nat} {r r' : Reading} {o : Choice} {argument : Text} {item : Item}
  {items items' : List (Text × Item)} {arguments : List Text} {verbose : Bool}

/-- What comes first has come to something if all has. -/
theorem exists_of_bind {ε α β : Type} {x : Except ε α} {f : α → Except ε β} {b : β}
    (h : x >>= f = .ok b) : ∃ a, x = .ok a ∧ f a = .ok b := by
  cases x with
  | error e => cases h
  | ok a => exact ⟨a, rfl, h⟩

/-- Every value on record is one that its option reads from some text. -/
def Reading.Sound (r : Reading) : Prop :=
  ∀ entry ∈ r.settings, ∃ t, entry.1.takes.read t = .ok entry.2

/-! ### One argument after the other -/

theorem applyOptions_sound {options : List (Choice × Option Text)} (hr : r.Sound)
    (h : applyOptions g r options = .ok r') : r'.Sound := by
  induction options generalizing r with
  | nil =>
    cases h
    exact hr
  | cons option rest ih =>
    obtain ⟨o, value⟩ := option
    rw [applyOptions] at h
    split at h
    · cases h
    · split at h
      next => cases h
      next setting hsetting =>
        refine ih (fun entry hentry => ?_) h
        cases hentry with
        | head => exact ⟨_, hsetting⟩
        | tail _ hmem => exact hr entry hmem

theorem takeOption_sound (hr : r.Sound)
    (h : takeOption g r argument item items = .ok (r', items')) : r'.Sound := by
  rw [takeOption.eq_def] at h
  split at h
  next o name equals attached =>
    dsimp only at h
    split at h
    next => cases h
    next taken _ =>
      -- what is left of the argument goes to the extras
      have hextras : Reading.Sound {r with extras := r.extras ++ taken.leftover} := hr
      obtain ⟨read, hread, h⟩ := exists_of_bind h
      cases h
      exact applyOptions_sound hextras hread
  next =>
    cases h
    exact hr

theorem takeOperand_sound (hr : r.Sound) : (takeOperand g r items).1.Sound := by
  rw [takeOperand]
  split
  · exact hr
  · exact hr

theorem consume_sound (hr : r.Sound) (h : consume g n r items = .ok r') : r'.Sound := by
  induction n generalizing r items with
  | zero =>
    cases h
    exact hr
  | succ n ih =>
    rw [consume] at h
    dsimp only at h
    have hoperand : (takeOperand g r items).1.Sound := takeOperand_sound hr
    split at h
    next =>
      cases h
      exact hoperand
    next argument item rest _ =>
      split at h
      · exact ih hoperand h
      · obtain ⟨⟨read, left⟩, htaken, h⟩ := exists_of_bind h
        -- the items before the option go to the extras
        have hextras : Reading.Sound {r with extras := r.extras ++
            (items.takeWhile fun entry => !isOption entry.2).map (·.1)} := hr
        exact ih (takeOption_sound hextras htaken) h

/-- What a grammar reads is sound. -/
theorem Grammar.read_sound (h : g.read arguments = .ok r) : r.Sound := by
  rw [Grammar.read] at h
  split at h
  next => cases h
  next items _ =>
    obtain ⟨read, hread, h⟩ := exists_of_bind h
    split at h
    · cases h
    · cases h
      exact consume_sound (fun entry hentry => absurd hentry List.not_mem_nil) hread

/-! ### Numbers -/

/-- A number that has to be positive is positive, unless it is missing and what stands for it
is not. -/
theorem Reading.Sound.number_pos (hr : r.Sound) (ho : o.takes = .positive) {fallback : Int}
    (hfallback : 0 < fallback) : 0 < r.number o fallback := by
  rw [Reading.number]
  split
  next value hvalue =>
    obtain ⟨entry, hentry, hnumber⟩ := Option.map_eq_some_iff.mp hvalue
    obtain ⟨t, ht⟩ := hr entry (List.mem_of_find?_eq_some hentry)
    have hname : entry.1 = o := by simpa using List.find?_some hentry
    rw [hname, ho, hnumber, Takes.read, positiveInteger] at ht
    split at ht
    next => cases ht
    next =>
      split at ht
      · cases ht
      next hpos =>
        cases ht
        exact Int.lt_of_not_ge hpos
  next => exact hfallback

/-- The memory size of a trace is positive. -/
theorem TraceRequest.memorySize_pos {r : TraceRequest}
    (h : Invocation.ofArguments arguments = .ok ⟨verbose, .trace r⟩) : 0 < r.memorySize := by
  rw [Invocation.ofArguments] at h
  obtain ⟨whole, -, h⟩ := exists_of_bind h
  dsimp only at h
  split at h
  next => cases h
  next name grammar request hcommand =>
    obtain ⟨read, hread, h⟩ := exists_of_bind h
    split at h
    · have hrequest : request read = .trace r := (Invocation.mk.inj (Except.ok.inj h)).2
      have hmem := List.mem_of_find?_eq_some hcommand
      simp only [commands, List.mem_cons, Prod.mk.injEq, List.not_mem_nil, or_false] at hmem
      rcases hmem with ⟨-, -, rfl⟩ | ⟨-, -, rfl⟩ | ⟨-, -, rfl⟩
      · cases hrequest
      · cases hrequest
        exact (Grammar.read_sound hread).number_pos rfl (by decide)
      · cases hrequest
    · cases h

end TapeMachine.CommandLine
