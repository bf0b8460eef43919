import TapeMachine.CommandLine.Execution
import TapeMachine.Proofs.CommandLine.Arguments

/-! The command line of a run.

A file, a memory size and a fixed input, in batch or not, are what the command line of a
run asks for if the memory size is a positive number, and otherwise it is misused
(`ofArguments_run`). The file may be called whatever the command takes for an operand,
because the program as a whole, which sees it first, does not find it ambiguous
(`classify_whole`). -/
namespace TapeMachine.CommandLine

variable {g : Grammar} {path argument numeral input : Text} {batch : Bool}

/-! ### A file name before the command sees it -/

/-- A grammar with a single option. -/
def single (o : Choice) : Grammar := ⟨[], [], [], [o], [], false⟩

/-- No argument stands for both names of the option for verbosity: the short name has more
attached to it, the long one has not. -/
theorem length_matching_verbose (hhyphen : ¬ (argument.head? ≠ some '-' ∨ argument = ['-'])) :
    (matching (single verboseOption) argument).length ≤ 1 := by
  obtain ⟨c, rest, rfl⟩ : ∃ c rest, argument = '-' :: c :: rest := by
    match argument with
    | [] => simp at hhyphen
    | [c] => simp at hhyphen
    | d :: c :: rest => exact ⟨c, rest, by simp_all⟩
  have hnames : (single verboseOption).names =
      [("-v".toList, verboseOption), ("--verbose".toList, verboseOption)] := rfl
  by_cases hc : c = '-'
  · subst hc
    have hsplit : splitEquals? ('-' :: '-' :: rest) =
        (splitEquals? rest).map (fun p => ('-' :: '-' :: p.1, p.2)) := by
      cases hrest : splitEquals? rest <;> simp [splitEquals?, hrest]
    simp only [matching, hsplit, hnames]
    cases splitEquals? rest with
    | none => simp [List.filter_cons]; split <;> simp
    | some p => simp [List.filter_cons]; split <;> simp
  · have hshort : ¬ "--verbose".toList = ('-' :: c :: rest).take 2 := by simp
    have hlong : ('-' :: c :: rest).isPrefixOf "--verbose".toList = false := by
      simp [List.isPrefixOf, hc]
    have hfirst : ∀ f : Text × Choice → Option (Text × Item),
        f ("--verbose".toList, verboseOption) = none →
          ((single verboseOption).names.filterMap f).length ≤ 1 := by
      intro f hf
      rw [hnames, List.filterMap_cons, List.filterMap_cons, hf]
      split <;> simp
    rw [matching.eq_def]
    split
    next h => exact absurd (List.cons.inj (List.cons.inj h).2).1 hc
    next =>
      apply hfirst
      split
      next h => exact absurd h hshort
      next =>
        split
        next h => exact absurd (h.symm.trans hlong) (by decide)
        next => rfl

/-- An operand of a command with help is not ambiguous for the program as a whole: what
could be confused is a name of the command too, but for verbosity. -/
theorem classify_whole (hg : helpOption ∈ g.options) (h : classify g path = .ok .operand) :
    ∃ item, classify wholeGrammar path = .ok item := by
  by_cases hhyphen : path.head? ≠ some '-' ∨ path = ['-']
  · exact ⟨.operand, if_pos hhyphen⟩
  have hhelp : matching (single helpOption) path = [] := by
    refine matching_eq_nil (fun entry hentry => ?_) (matching_eq_nil_of_operand h hhyphen)
    obtain ⟨o, ho, hname⟩ := List.mem_flatMap.mp hentry
    cases List.mem_singleton.mp ho
    exact List.mem_flatMap.mpr ⟨helpOption, hg, hname⟩
  have hwhole : matching wholeGrammar path = matching (single verboseOption) path := by
    have happend : matching wholeGrammar path =
        matching (single helpOption) path ++ matching (single verboseOption) path :=
      matching_append rfl
    rw [happend, hhelp, List.nil_append]
  have hle := length_matching_verbose hhyphen
  rw [← hwhole] at hle
  rw [classify, if_neg hhyphen]
  split
  · exact ⟨_, rfl⟩
  · split
    next => exact ⟨_, rfl⟩
    next => split <;> exact ⟨_, rfl⟩
    next hone hnone =>
      have hlength : (matching wholeGrammar path).length = 1 :=
        Nat.le_antisymm hle (List.length_pos_iff.mpr hnone)
      obtain ⟨x, hx⟩ := List.length_eq_one_iff.mp hlength
      exact absurd hx (hone x.1 x.2)

/-! ### The arguments of a run -/

/-- The arguments that run a file on so many cells with a fixed input. -/
def runArguments (path numeral input : Text) (batch : Bool) : List Text :=
  "run".toList :: path :: ("--memory-size=".toList ++ numeral) :: ("--input=".toList ++ input) ::
    if batch then ["--batch".toList] else []

theorem regular_whole : wholeGrammar.Regular := by decide

theorem regular_run : runGrammar.Regular := by decide

/-- Two hyphens stand for every long name. -/
theorem ne_hyphens (hp : classify runGrammar path = .ok .operand) : path ≠ ['-', '-'] := by
  rintro rfl
  cases matching_eq_nil_of_operand hp (by decide)

/-- The program as a whole leaves the arguments of a command to the command. -/
theorem read_whole (hp : classify runGrammar path = .ok .operand) :
    wholeGrammar.read (runArguments path numeral input batch) =
      .ok {operand := some (runArguments path numeral input batch)} := by
  have hsize : ∃ item,
      classify wholeGrammar ('-' :: '-' :: "memory-size".toList ++ '=' :: numeral) = .ok item :=
    classify_foreign regular_whole (by decide) (by decide)
  have htext : ∃ item, classify wholeGrammar ('-' :: '-' :: "input".toList ++ '=' :: input) =
      .ok item := classify_foreign regular_whole (by decide) (by decide)
  obtain ⟨size, hsize⟩ := hsize
  obtain ⟨text, htext⟩ := htext
  have hbatch : ∃ items, classifyAll wholeGrammar (if batch then ["--batch".toList] else []) =
      .ok items ∧ items.map (·.1) = if batch then ["--batch".toList] else [] := by
    cases batch with
    | true => exact ⟨_, rfl, rfl⟩
    | false => exact ⟨_, rfl, rfl⟩
  obtain ⟨items, hitems, hmap⟩ := hbatch
  obtain ⟨file, hfile⟩ := classify_whole (by decide) hp
  have hall := classifyAll_cons (ne_hyphens hp) hfile
    (classifyAll_cons (by simp) hsize (classifyAll_cons (by simp) htext hitems))
  have hread : wholeGrammar.read ("run".toList :: _) = _ := read_takesRest rfl (by decide) hall
  rw [List.map_cons, List.map_cons, List.map_cons, hmap] at hread
  exact hread

/-- The options of a run, one after the other. -/
theorem read_run (hp : classify runGrammar path = .ok .operand) :
    runGrammar.read ((runArguments path numeral input batch).drop 1) =
      match positiveInteger numeral with
      | .error m => .error (.misuse runGrammar (.badValue memorySizeOption m))
      | .ok n => .ok {
          settings := (if batch then [(batchOption, .on)] else []) ++
            [(inputOption, .text input), (memorySizeOption, .number n)]
          operand := some [path]} := by
  have hsize : classify runGrammar ('-' :: "-memory-size".toList ++ '=' :: numeral) =
      .ok (.option memorySizeOption "--memory-size".toList true (some numeral)) :=
    classify_attached regular_run (by decide) (by decide)
  have htext : classify runGrammar ('-' :: "-input".toList ++ '=' :: input) =
      .ok (.option inputOption "--input".toList true (some input)) :=
    classify_attached regular_run (by decide) (by decide)
  have hbatch : classifyAll runGrammar (if batch then ["--batch".toList] else []) =
      .ok (if batch then [("--batch".toList, .option batchOption "--batch".toList false none)]
        else []) := by
    cases batch with
    | true => rfl
    | false => rfl
  have hall := classifyAll_cons (ne_hyphens hp) hp
    (classifyAll_cons (by simp) hsize (classifyAll_cons (by simp) htext hbatch))
  refine (read_of_classifyAll hall).trans ?_
  rw [List.length_cons, consume_operand rfl rfl rfl, List.length_cons, consume_setting rfl,
    Takes.read.eq_def]
  cases positiveInteger numeral with
  | error m => rfl
  | ok n =>
    simp only [memorySizeOption, Except.map]
    rw [List.length_cons, consume_setting rfl]
    cases batch with
    | true => exact congrArg (Except.bind · _) ((consume_switch rfl).trans consume_nil)
    | false => exact congrArg (Except.bind · _) consume_nil

/-- What the command line of a run asks for. -/
theorem ofArguments_run (hp : classify runGrammar path = .ok .operand) :
    Invocation.ofArguments (runArguments path numeral input batch) =
      match positiveInteger numeral with
      | .error m => .error (.misuse runGrammar (.badValue memorySizeOption m))
      | .ok n => .ok ⟨false, .run
          {file := path, memorySize := n, input := some input, batch := batch}⟩ := by
  rw [Invocation.ofArguments, read_whole hp]
  show (runGrammar.read ((runArguments path numeral input batch).drop 1)).bind _ = _
  rw [read_run hp]
  cases positiveInteger numeral with
  | error m => rfl
  | ok n =>
    cases batch with
    | true => rfl
    | false => rfl

end TapeMachine.CommandLine
