import TapeMachine.CommandLine.Grammar

/-! Reading arguments by a grammar.

First every argument is classified: as an option, by its full name or by the
beginning of exactly one name, with a value attached or not; as a separator,
which makes all arguments after it operands; or as an operand. Operands are also
what begins with no hyphen, a hyphen alone, negative numbers and whatever has a
blank in it. Then options are taken one after the other, and the operand as soon
as it comes; what is left over is handed back. -/
namespace TapeMachine.CommandLine

/-- What an argument was classified as. -/
inductive Item
  | operand
  | separator
  /-- An option by this name, with an attached value; `equals` tells whether an
  equals sign attaches it. -/
  | option (o : Choice) (name : Text) (equals : Bool) (attached : Option Text)
  | unknownOption
  deriving DecidableEq

/-- Why arguments do not follow a grammar. -/
inductive Misuse
  | ambiguous (argument : Text) (matching : List Text)
  | expectsValue (o : Choice)
  /-- The option takes no value, yet this one was attached. -/
  | ignoredValue (o : Choice) (attached : Text)
  | badValue (o : Choice) (m : Misfit)
  | missing (operand : Text)
  | badCommand (operand given : Text) (commands : List Text)
  | unrecognized (arguments : List Text)
  deriving DecidableEq

def Misuse.message : Misuse → Text
  | .ambiguous argument matching =>
    "ambiguous option: ".toList ++ argument ++ " could match ".toList ++
      Text.join ", ".toList matching
  | .expectsValue o => "argument ".toList ++ o.label ++ ": expected one argument".toList
  | .ignoredValue o attached =>
    "argument ".toList ++ o.label ++ ": ignored explicit argument ".toList ++ Text.quoted attached
  | .badValue o m => "argument ".toList ++ o.label ++ ": ".toList ++ m.message
  | .missing operand => "the following arguments are required: ".toList ++ operand
  | .badCommand operand given commands =>
    "argument ".toList ++ operand ++ ": invalid choice: ".toList ++ Text.quoted given ++
      " (choose from ".toList ++ Text.join ", ".toList (commands.map Text.quoted) ++ ")".toList
  | .unrecognized arguments =>
    "unrecognized arguments: ".toList ++ Text.join [' '] arguments

/-! ### Classification -/

/-- A text before and after its first equals sign, if it has one. -/
def splitEquals? : Text → Option (Text × Text)
  | [] => none
  | c :: rest =>
    if c = '=' then some ([], rest) else (splitEquals? rest).map (fun p => (c :: p.1, p.2))

def isDigit (c : Char) : Bool := (Text.digitValue? c).isSome

/-- A hyphen and digits, with a point among or before them if need be; a line end
may follow. -/
def isNegativeNumber (argument : Text) : Bool :=
  let body := if argument.getLast? = some '\n' then argument.dropLast else argument
  match body with
  | '-' :: digits =>
    let fraction := (digits.dropWhile isDigit).drop 1
    (!digits.isEmpty && digits.all isDigit) ||
      ((digits.dropWhile isDigit).head? = some '.' && !fraction.isEmpty && fraction.all isDigit)
  | _ => false

/-- The options that an argument beginning with a hyphen may stand for without being
a full name: by the beginning of a name, or as a one-letter name with more attached. -/
def matching (g : Grammar) (argument : Text) : List (Text × Item) :=
  match argument with
  | '-' :: '-' :: _ =>
    let (start, attached) :=
      match splitEquals? argument with
      | some (start, value) => (start, some value)
      | none => (argument, none)
    (g.names.filter (fun entry => start.isPrefixOf entry.1)).map
      (fun entry => (entry.1, .option entry.2 entry.1 attached.isSome attached))
  | _ =>
    g.names.filterMap fun entry =>
      if entry.1 = argument.take 2 then
        some (entry.1, .option entry.2 entry.1 false (some (argument.drop 2)))
      else if argument.isPrefixOf entry.1 then
        some (entry.1, .option entry.2 entry.1 false none)
      else none

/-- The option whose full name is the argument, or the argument up to an equals sign. -/
def fullName? (g : Grammar) (argument : Text) : Option Item :=
  match g.find? argument with
  | some o => some (.option o argument false none)
  | none =>
    match splitEquals? argument with
    | some (name, value) => (g.find? name).map (fun o => .option o name true (some value))
    | none => none

def classify (g : Grammar) (argument : Text) : Except Misuse Item :=
  if argument.head? ≠ some '-' ∨ argument = ['-'] then .ok .operand
  else
    match fullName? g argument with
    | some item => .ok item
    | none =>
      match matching g argument with
      | [(_, item)] => .ok item
      | [] =>
        if isNegativeNumber argument ∨ ' ' ∈ argument then .ok .operand else .ok .unknownOption
      | several => .error (.ambiguous argument (several.map (·.1)))

/-- All arguments with what they are. -/
def classifyAll (g : Grammar) : List Text → Except Misuse (List (Text × Item))
  | [] => .ok []
  | argument :: rest =>
    if argument = ['-', '-'] then
      .ok ((argument, .separator) :: rest.map (fun a => (a, .operand)))
    else do
      let item ← classify g argument
      return (argument, item) :: (← classifyAll g rest)

/-! ### Options -/

/-- Options taken from one argument: each with the text of its value, what was left
of the argument as another one, and whether the next argument was used up. -/
structure Taken where
  options : List (Choice × Option Text)
  leftover : List Text := []
  usesNext : Bool := false

/-- An option without an attached value takes the operand after it if it needs one. -/
def takeAlone (o : Choice) (next : Option (Text × Item)) : Except Misuse Taken :=
  if o.takes.value then
    match next with
    | some (value, .operand) => .ok {options := [(o, some value)], usesNext := true}
    | _ => .error (.expectsValue o)
  else .ok {options := [(o, none)]}

/-- An option with an attached value. If a one-letter option takes none, what is
attached without an equals sign is one-letter options in turn. -/
def takeAttached (g : Grammar) (next : Option (Text × Item)) (o : Choice) (name : Text)
    (equals : Bool) (attached : Text) : Except Misuse Taken :=
  if o.takes.value then .ok {options := [(o, some attached)]}
  else
    match attached with
    | [] => .error (.ignoredValue o attached)
    | c :: more =>
      if name.take 2 = ['-', '-'] ∨ equals ∨ c = '-' then .error (.ignoredValue o attached)
      else
        match g.find? ['-', c] with
        | none => .ok {options := [(o, none)], leftover := ['-' :: attached]}
        | some other => do
          let taken ←
            match more with
            | [] => takeAlone other next
            | '=' :: value => takeAttached g next other ['-', c] true value
            | d :: value => takeAttached g next other ['-', c] false (d :: value)
          return {taken with options := (o, none) :: taken.options}
termination_by attached.length

/-! ### The whole -/

/-- What was read so far: values by option, the operand, and what is left over. -/
structure Reading where
  settings : List (Choice × Setting) := []
  operand : Option (List Text) := none
  extras : List Text := []

/-- Reading ends early: with help, or with a misuse of the grammar. -/
inductive Stop
  | help (g : Grammar)
  | misuse (g : Grammar) (m : Misuse)

/-- Options take effect one after the other; help ends the reading. -/
def applyOptions (g : Grammar) (r : Reading) : List (Choice × Option Text) → Except Stop Reading
  | [] => .ok r
  | (o, value) :: rest =>
    if o.takes = .help then .error (.help g)
    else
      match o.takes.read (value.getD []) with
      | .error m => .error (.misuse g (.badValue o m))
      | .ok setting => applyOptions g {r with settings := (o, setting) :: r.settings} rest

/-- How many arguments at the front the operand takes: a separator before it and one
after it belong to it; a command takes all that follows. None if there is no operand. -/
def operandLength (g : Grammar) : List (Text × Item) → Nat
  | (_, .separator) :: (_, .operand) :: rest => if g.takesRest then rest.length + 2 else 2
  | (_, .operand) :: (_, .separator) :: rest => if g.takesRest then rest.length + 2 else 2
  | (_, .operand) :: rest => if g.takesRest then rest.length + 1 else 1
  | _ => 0

/-- The operand at the front, if it is still to come; with what is left after it. -/
def takeOperand (g : Grammar) (r : Reading) (items : List (Text × Item)) :
    Reading × List (Text × Item) :=
  match r.operand, operandLength g items with
  | none, n + 1 =>
    let taken := items.take (n + 1)
    let kept := if g.takesRest then taken else taken.filter (fun entry => entry.2 != .separator)
    ({r with operand := some (kept.map (·.1))}, items.drop (n + 1))
  | _, _ => (r, items)

def isOption : Item → Bool
  | .option .. | .unknownOption => true
  | _ => false

/-- The option at the front takes effect. -/
def takeOption (g : Grammar) (r : Reading) (argument : Text) (item : Item)
    (rest : List (Text × Item)) : Except Stop (Reading × List (Text × Item)) :=
  match item with
  | .option o name equals attached =>
    let taken :=
      match attached with
      | none => takeAlone o rest.head?
      | some value => takeAttached g rest.head? o name equals value
    match taken with
    | .error m => .error (.misuse g m)
    | .ok taken => do
      let read ← applyOptions g {r with extras := r.extras ++ taken.leftover} taken.options
      return (read, if taken.usesNext then rest.drop 1 else rest)
  | _ => .ok ({r with extras := r.extras ++ [argument]}, rest)

/-- Takes operands and options from the front until no option is left, and the
operand after the last option. `n` bounds the number of times. -/
def consume (g : Grammar) : (n : Nat) → Reading → List (Text × Item) → Except Stop Reading
  | 0, r, _ => .ok r
  | n + 1, r, items =>
    let before := items.takeWhile (fun entry => !isOption entry.2)
    match items.drop before.length with
    | [] =>
      let (read, rest) := takeOperand g r items
      .ok {read with extras := read.extras ++ rest.map (·.1)}
    | (argument, item) :: rest => do
      let (read, left) := takeOperand g r items
      if left.length < items.length && !before.isEmpty then consume g n read left
      else
        let (read, left) ←
          takeOption g {r with extras := r.extras ++ before.map (·.1)} argument item rest
        consume g n read left

/-- Reads all arguments; the operand has to be among them. -/
def Grammar.read (g : Grammar) (arguments : List Text) : Except Stop Reading :=
  match classifyAll g arguments with
  | .error m => .error (.misuse g m)
  | .ok items => do
    let read ← consume g (items.length + 1) {} items
    if read.operand.isNone then .error (.misuse g (.missing g.operand)) else return read

/-! ### How an early end shows -/

namespace Stop

def status : Stop → Nat
  | .help _ => 0
  | .misuse _ _ => 2

/-- Help goes to standard output. -/
def output : Stop → Text
  | .help g => g.usage ++ ['\n'] ++ g.help
  | .misuse _ _ => []

/-- A misuse goes to standard error, after the usage. -/
def errors : Stop → Text
  | .help _ => []
  | .misuse g m => g.usage ++ g.program ++ ": error: ".toList ++ m.message ++ ['\n']

end Stop
end TapeMachine.CommandLine
