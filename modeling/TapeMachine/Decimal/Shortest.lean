import TapeMachine.Text.Numeral

/-! The shortest decimal that reads back.

A finite binary number `m * 2 ^ q` is what a decimal reads as when the decimal
lies between the points halfway to its two neighbours, ends included exactly
when `m` is even. For one digit, two digits and so on the two decimals next to
the number on the grid of that many digits are tried; the first grid with a hit
wins, of two hits the nearer, and of two equally near the even one. All of it is
exact arithmetic on naturals. -/
namespace TapeMachine.Decimal

/-- The size `m * 2 ^ q` of a finite binary number. -/
structure Binary where
  m : Nat
  q : Int
  /-- The neighbour below is half as far as the one above. -/
  narrowBelow : Bool

/-- A decimal `digits * 10 ^ exponent`. -/
structure Digits where
  digits : Nat
  exponent : Int
  deriving DecidableEq

/-- What the bits of a 64-bit floating-point number say, its sign apart. -/
inductive Magnitude
  | finite (b : Binary)
  | infinite
  | nan

/-- The fields of a 64-bit pattern: eleven bits of exponent, fifty-two of fraction. -/
def Magnitude.ofBits (bits : UInt64) : Magnitude :=
  let fraction : Nat := bits.toNat % Nat.pow 2 52
  let exponent : Nat := bits.toNat / Nat.pow 2 52 % Nat.pow 2 11
  if exponent = 2047 then if fraction = 0 then .infinite else .nan
  else if exponent = 0 then .finite ⟨fraction, -1074, false⟩
  else .finite ⟨Nat.pow 2 52 + fraction, (exponent : Int) - 1075, fraction = 0 && 1 < exponent⟩

def negative (bits : UInt64) : Bool := Nat.pow 2 63 ≤ bits.toNat

namespace Binary

/-- `x` quarters of the unit `2 ^ q` compared with a decimal: both brought to whole numbers. -/
def compareQuarters (b : Binary) (x : Nat) (d : Digits) : Ordering :=
  compare (x * Nat.pow 2 (b.q - 2).toNat * Nat.pow 10 (-d.exponent).toNat)
    (d.digits * Nat.pow 10 d.exponent.toNat * Nat.pow 2 (2 - b.q).toNat)

/-- The decimal lies in the interval of numbers that read as `b`. -/
def readsBack (b : Binary) (d : Digits) : Bool :=
  let below := b.compareQuarters (if b.narrowBelow then 4 * b.m - 1 else 4 * b.m - 2) d
  let above := b.compareQuarters (4 * b.m + 2) d
  (below == .lt || (below == .eq && b.m % 2 = 0)) && (above == .gt || (above == .eq && b.m % 2 = 0))

/-- The whole number of grid steps `10 ^ e` in the number. -/
def steps (b : Binary) (e : Int) : Nat :=
  b.m * Nat.pow 2 b.q.toNat * Nat.pow 10 (-e).toNat /
    (Nat.pow 2 (-b.q).toNat * Nat.pow 10 e.toNat)

/-- The least `k` with the number below `10 ^ k`, for a number other than zero. -/
def scale (b : Binary) : Int :=
  if 1 ≤ b.steps 0 then (Text.natural (b.steps 0)).length
  else -((List.range 400).find? (fun j => 1 ≤ b.steps (-(j + 1 : Nat)))).getD 400

/-- The better of the two decimals next to the number on the grid `10 ^ e`. -/
def onGrid? (b : Binary) (e : Int) : Option Digits :=
  let low : Digits := ⟨b.steps e, e⟩
  let high : Digits := ⟨b.steps e + 1, e⟩
  match b.readsBack low, b.readsBack high with
  | true, false => some low
  | false, true => some high
  | false, false => none
  | true, true =>
    match b.compareQuarters (8 * b.m) ⟨low.digits + high.digits, e⟩ with
    | .lt => some low
    | .gt => some high
    | .eq => some (if low.digits % 2 = 0 then low else high)

/-- The decimal with the fewest digits that reads back. -/
def shortest (b : Binary) : Digits :=
  ((List.range 17).findSome? (fun n => b.onGrid? (b.scale - (n + 1 : Nat)))).getD
    ⟨b.steps (b.scale - 17), b.scale - 17⟩

end Binary

/-- Without the zeros at the end of the digits. -/
def Digits.stripped (d : Digits) : Digits :=
  let ds := Text.natural d.digits
  let kept := Text.dropTrailing (· == '0') ds
  ⟨d.digits / Nat.pow 10 (ds.length - kept.length), d.exponent + (ds.length - kept.length : Nat)⟩

/-- Positional when the point falls at most four places before the first digit
or sixteen after it, and then always with a digit after the point; otherwise one
digit before the point and an exponent of at least two digits with its sign. -/
def Digits.layout (d : Digits) : Text :=
  let ds := Text.natural d.digits
  let point : Int := ds.length + d.exponent
  if -4 < point ∧ point ≤ 16 then
    if point ≤ 0 then '0' :: '.' :: List.replicate (-point).toNat '0' ++ ds
    else if d.exponent < 0 then ds.take point.toNat ++ '.' :: ds.drop point.toNat
    else ds ++ List.replicate d.exponent.toNat '0' ++ ['.', '0']
  else
    let power := Text.natural (point - 1).natAbs
    let sign := if point ≤ 0 then '-' else '+'
    let fraction := if ds.length = 1 then [] else '.' :: ds.drop 1
    ds.take 1 ++ fraction ++ 'e' :: sign :: List.replicate (2 - power.length) '0' ++ power

/-- The shortest text that reads back as the number with these bits. -/
def ofBits (bits : UInt64) : Text :=
  let sign := if negative bits then ['-'] else []
  match Magnitude.ofBits bits with
  | .nan => ['n', 'a', 'n']
  | .infinite => sign ++ ['i', 'n', 'f']
  | .finite b => if b.m = 0 then sign ++ ['0', '.', '0'] else sign ++ b.shortest.stripped.layout

end TapeMachine.Decimal
