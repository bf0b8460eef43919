import TapeMachine.Text.Numeral
import TapeMachine.Text.Quoted

/-! What a command line may look like.

A grammar lists the options of a program, each with its names and what it takes,
and names the one operand. The operand is either a single argument, or a command
that takes all arguments after it. -/
namespace TapeMachine.CommandLine

/-- What an option takes. -/
inductive Takes
  /-- Nothing: it asks for help. -/
  | help
  /-- Nothing: it is on when it is given. -/
  | nothing
  | text
  | integer
  | positive
  deriving DecidableEq

def Takes.value : Takes → Bool
  | .help | .nothing => false
  | _ => true

/-- An option with its names, short ones first. -/
structure Choice where
  names : List Text
  takes : Takes
  deriving DecidableEq

/-- The names of an option as messages give them. -/
def Choice.label (o : Choice) : Text := Text.join ['/'] o.names

structure Grammar where
  /-- The program as messages name it. -/
  program : Text
  usage : Text
  /-- What help shows after the usage. -/
  help : Text
  options : List Choice
  operand : Text
  /-- The operand is a command and takes all arguments after it. -/
  takesRest : Bool := false

namespace Grammar

/-- All option names with their options, in order. -/
def names (g : Grammar) : List (Text × Choice) :=
  g.options.flatMap (fun o => o.names.map (fun name => (name, o)))

def find? (g : Grammar) (name : Text) : Option Choice :=
  (g.names.find? (fun entry => entry.1 == name)).map (·.2)

end Grammar

/-! ### Values -/

/-- The value that an option was given. -/
inductive Setting
  | on
  | text (t : Text)
  | number (n : Int)
  deriving DecidableEq

/-- Why a text is no value for an option. -/
inductive Misfit
  | notInteger (t : Text)
  | notPositive (n : Int)
  /-- The text is no integer, where any integer would have done. -/
  | invalidInteger (t : Text)
  deriving DecidableEq

def Misfit.message : Misfit → Text
  | .notInteger t => "not an integer: ".toList ++ Text.quoted t
  | .notPositive n => "must be positive: ".toList ++ Text.integer n
  | .invalidInteger t => "invalid int value: ".toList ++ Text.quoted t

/-- A number of at least one. -/
def positiveInteger (t : Text) : Except Misfit Int :=
  match Text.readInteger? t with
  | none => .error (.notInteger t)
  | some n => if n ≤ 0 then .error (.notPositive n) else .ok n

/-- The value for an option that takes one. -/
def Takes.read (takes : Takes) (t : Text) : Except Misfit Setting :=
  match takes with
  | .help | .nothing => .ok .on
  | .text => .ok (.text t)
  | .integer =>
    match Text.readInteger? t with
    | none => .error (.invalidInteger t)
    | some n => .ok (.number n)
  | .positive => (positiveInteger t).map .number

end TapeMachine.CommandLine
