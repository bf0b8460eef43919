/-! Text as a sequence of code points.

Everything that counts characters, cuts text or lays out columns works on lists
of characters; a character is one code point, so lengths and positions are in
code points. A line feed ends a line; where texts are read from outside, so does a
carriage return, alone or together with the line feed after it. -/
namespace TapeMachine

/-- A sequence of code points. -/
abbrev Text := List Char

namespace Text

/-- What stands between the line ends of a text: always at least one line. -/
def lines : Text → List Text
  | [] => [[]]
  | c :: rest =>
    if c = '\n' then [] :: lines rest else
    match lines rest with
    | [] => [[c]]
    | first :: others => (c :: first) :: others

theorem lines_ne_nil (t : Text) : t.lines ≠ [] := by
  cases t with
  | nil => simp [lines]
  | cons c rest =>
    simp only [lines]
    split
    · simp
    · split <;> simp

/-- The text with a line feed for every line end. -/
def unifyLineEnds : Text → Text
  | [] => []
  | '\r' :: '\n' :: rest => '\n' :: unifyLineEnds rest
  | '\r' :: rest => '\n' :: unifyLineEnds rest
  | c :: rest => c :: unifyLineEnds rest

/-- The texts one after the other with `sep` between them. -/
def join (sep : Text) : List Text → Text
  | [] => []
  | [t] => t
  | t :: rest => t ++ sep ++ join sep rest

/-- Lines put together again. -/
def unlines (ls : List Text) : Text := join ['\n'] ls

/-- Whether `part` stands somewhere in the text. -/
def occurs (part : Text) : Text → Bool
  | [] => part.isEmpty
  | c :: rest => part.isPrefixOf (c :: rest) || occurs part rest

/-- Blanks in front up to a width; a longer text stays as it is. -/
def padLeft (width : Nat) (t : Text) : Text := List.replicate (width - t.length) ' ' ++ t

/-- Blanks on both sides up to a width. Where they cannot be equal in number,
the smaller half comes first in an even width and the larger half in an odd one. -/
def center (width : Nat) (t : Text) : Text :=
  let room := width - t.length
  let before := room / 2 + (if room % 2 = 1 && width % 2 = 1 then 1 else 0)
  List.replicate before ' ' ++ t ++ List.replicate (room - before) ' '

/-- The text without the characters at its end that satisfy `p`. -/
def dropTrailing (p : Char → Bool) (t : Text) : Text := (t.reverse.dropWhile p).reverse

end Text
end TapeMachine
