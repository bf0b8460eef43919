import TapeMachine.Encoding.Codec

/-! Files with programs.

A path is a root and names. Empty names and single points are left out; double
points stay, since they are found out only on the way. Exactly two slashes in
front are a root of their own.

To load a program, the file is found first, then the encoding, and then the bytes
are decoded and the line ends unified. -/
namespace TapeMachine

inductive Root
  | relative
  | absolute
  | double
  deriving DecidableEq

structure Path where
  root : Root
  names : List Text
  deriving DecidableEq

namespace Path

/-- The parts of a text between slashes. -/
def segments : Text → List Text
  | [] => [[]]
  | c :: rest =>
    if c = '/' then [] :: segments rest else
    match segments rest with
    | [] => [[c]]
    | first :: others => (c :: first) :: others

def rootOf : Text → Root
  | ['/', '/'] => .double
  | '/' :: '/' :: c :: _ => if c = '/' then .absolute else .double
  | '/' :: _ => .absolute
  | _ => .relative

def ofText (t : Text) : Path :=
  ⟨rootOf t, (segments t).filter (fun name => !name.isEmpty && name != ['.'])⟩

/-- The path written out; a relative path without names is a point. -/
def text (p : Path) : Text :=
  let names := Text.join ['/'] p.names
  match p.root with
  | .relative => if p.names.isEmpty then ['.'] else names
  | .absolute => '/' :: names
  | .double => '/' :: '/' :: names

end Path

/-! ### Loading -/

/-- Why a file cannot be had. -/
inductive Obstacle
  | missing
  | notDirectory
  | isDirectory
  | nameTooLong
  | denied
  deriving DecidableEq

namespace Obstacle

/-- The number and the text of the obstacle. -/
def text : Obstacle → Text
  | .missing => "[Errno 2] No such file or directory".toList
  | .notDirectory => "[Errno 20] Not a directory".toList
  | .isDirectory => "[Errno 21] Is a directory".toList
  | .nameTooLong => "[Errno 36] File name too long".toList
  | .denied => "[Errno 13] Permission denied".toList

end Obstacle

inductive LoadError
  /-- A path cannot have a null character in it. -/
  | nullInPath
  | unknownEncoding (name : Text)
  | unreadable (path : Path) (obstacle : Obstacle)
  | malformed (path : Path) (codec : Codec) (m : Malformed)
  deriving DecidableEq

namespace LoadError

/-- The file that cannot be read, where the error is about one. -/
def path? : LoadError → Option Path
  | .unreadable path _ | .malformed path _ _ => some path
  | _ => none

def cannotRead (path : Path) (cause : Text) : Text :=
  "Cannot read program ".toList ++ Text.quoted path.text ++ ": ".toList ++ cause

def message : LoadError → Text
  | .nullInPath => "embedded null byte".toList
  | .unknownEncoding name => "unknown encoding: ".toList ++ name
  | .unreadable path obstacle =>
    cannotRead path (obstacle.text ++ ": ".toList ++ Text.quoted path.text)
  | .malformed path codec m => cannotRead path (m.message codec)

end LoadError

/-- How the content of a file is had, or why it is not. -/
abbrev Files := Path → Except Obstacle Bytes

/-- The program text in the file at a path, read in an encoding. -/
def Files.load (files : Files) (path encoding : Text) : Except LoadError Text :=
  let p := Path.ofText path
  if '\x00' ∈ path then .error .nullInPath
  else
    match files p with
    | .error obstacle => .error (.unreadable p obstacle)
    | .ok bytes =>
      match Codec.ofName? encoding with
      | none => .error (.unknownEncoding encoding)
      | some codec =>
        match codec.decode bytes with
        | .error m => .error (.malformed p codec m)
        | .ok text => .ok (Text.unifyLineEnds text)

end TapeMachine
