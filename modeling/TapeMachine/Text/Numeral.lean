import TapeMachine.Text

/-! Decimal numerals.

Writing: the digits of a number, with a sign if it is negative, and digits in
groups of three. Reading: blanks around the number are ignored, a sign may stand
first, digits of any script count, and a single underscore may stand between two
digits. A numeral of more than 4300 digits is refused. -/
namespace TapeMachine.Text

/-! ### Writing -/

def natural (n : Nat) : Text := Nat.toDigits 10 n

def integer : Int → Text
  | .ofNat n => natural n
  | .negSucc n => '-' :: natural (n + 1)

/-- The digits of a number with a comma after every third from the right. -/
def grouped (n : Nat) : Text :=
  if n < 1000 then natural n
  else grouped (n / 1000) ++ ',' :: List.replicate (3 - (natural (n % 1000)).length) '0' ++
    natural (n % 1000)
termination_by n

/-! ### Digits

The decimal digits of all scripts come in runs of ten, zero to nine. The table
has the zero of each run; it follows version 14 of the character database. -/

/-- The zeros of the runs of decimal digits. -/
def digitZeros : List Nat :=
  [0x30, 0x660, 0x6f0, 0x7c0, 0x966, 0x9e6, 0xa66, 0xae6, 0xb66, 0xbe6, 0xc66, 0xce6, 0xd66, 0xde6,
    0xe50, 0xed0, 0xf20, 0x1040, 0x1090, 0x17e0, 0x1810, 0x1946, 0x19d0, 0x1a80, 0x1a90, 0x1b50,
    0x1bb0, 0x1c40, 0x1c50, 0xa620, 0xa8d0, 0xa900, 0xa9d0, 0xa9f0, 0xaa50, 0xabf0, 0xff10, 0x104a0,
    0x10d30, 0x11066, 0x110f0, 0x11136, 0x111d0, 0x112f0, 0x11450, 0x114d0, 0x11650, 0x116c0,
    0x11730, 0x118e0, 0x11950, 0x11c50, 0x11d50, 0x11da0, 0x16a60, 0x16ac0, 0x16b50, 0x1d7ce,
    0x1d7d8, 0x1d7e2, 0x1d7ec, 0x1d7f6, 0x1e140, 0x1e2f0, 0x1e950, 0x1fbf0]

/-- The value of a decimal digit of any script. -/
def digitValue? (c : Char) : Option Nat :=
  (digitZeros.find? (fun z => z ≤ c.toNat && c.toNat < z + 10)).map (c.toNat - ·)

theorem digitValue?_lt {c : Char} {d : Nat} (h : digitValue? c = some d) : d < 10 := by
  obtain ⟨z, found, rfl⟩ := Option.map_eq_some_iff.1 h
  have := List.find?_some found
  simp only [Bool.and_eq_true, decide_eq_true_eq] at this
  omega

/-- The most digits a numeral may have. -/
def digitLimit : Nat := 4300

/-- The digit values of a numeral: digits, with single underscores between them. -/
def digits? : Text → Option (List Nat)
  | [] => none
  | [c] => (digitValue? c).map ([·])
  | c :: '_' :: rest => do return (← digitValue? c) :: (← digits? rest)
  | c :: rest => do return (← digitValue? c) :: (← digits? rest)

/-- The number that a list of digit values stands for. -/
def ofDigits (ds : List Nat) : Nat := ds.foldl (fun n d => 10 * n + d) 0

def readNatural? (t : Text) : Option Nat := do
  let ds ← digits? t
  if ds.length ≤ digitLimit then some (ofDigits ds) else none

/-! ### Blanks

The blank, the five characters from tab to carriage return, the next-line control
and the separators of other scripts. The four information separators below the
blank are not among them. -/

def blanks : List Nat :=
  [0x9, 0xa, 0xb, 0xc, 0xd, 0x20, 0x85, 0xa0, 0x1680, 0x2000, 0x2001, 0x2002, 0x2003, 0x2004,
    0x2005, 0x2006, 0x2007, 0x2008, 0x2009, 0x200a, 0x2028, 0x2029, 0x202f, 0x205f, 0x3000]

def isBlank (c : Char) : Bool := blanks.contains c.toNat

theorem isBlank_of_isWhitespace {c : Char} (h : c.isWhitespace) : isBlank c := by
  simp only [Char.isWhitespace, Bool.or_eq_true, decide_eq_true_eq] at h
  rcases h with ((rfl | rfl) | rfl) | rfl <;> decide

/-- Without the blanks around it. -/
def trim (t : Text) : Text := dropTrailing isBlank (t.dropWhile isBlank)

def readInteger? (t : Text) : Option Int :=
  match trim t with
  | '-' :: rest => (readNatural? rest).map (fun n => -(n : Int))
  | '+' :: rest => (readNatural? rest).map (fun n => (n : Int))
  | rest => (readNatural? rest).map (fun n => (n : Int))

end TapeMachine.Text
