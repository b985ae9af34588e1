/-!
# Text

All text in this library is a list of characters, so that every function on it is a recursion and
every position is a number of characters. This module holds what the other modules need of it:
decimal numbers, cutting at a separator, cutting into lines, and trimming.

## The model

* `natText` and `intText` write numbers, `readNat` reads one; no sign and no blank is read.
* `splitAt` cuts at every occurrence of a character and `joinWith` puts pieces together. Cutting
  an empty text leaves one empty piece, as paths and search paths need it.
* `linesOf` cuts a text into lines that keep their newline, so that nothing of the text is lost
  (`flatten_linesOf`).
* `trim` takes blanks of any kind from both ends, as settings are read.

Classes of characters that go beyond ASCII are kept as lists of ranges, in modules of their own.
-/

namespace LineShell

/-- A text: a list of characters. -/
abbrev Text := List Char

/-- Membership of a character in a list of ranges of code points, ends included. -/
def inRanges (ranges : List (Nat × Nat)) (c : Char) : Bool :=
  ranges.any fun (low, high) => low ≤ c.toNat && c.toNat ≤ high

/-- The decimal digits of a natural number. -/
def natText (n : Nat) : Text :=
  Nat.toDigits 10 n

/-- The decimal form of an integer, with a minus sign in front of a negative one. -/
def intText : Int → Text
  | .ofNat n => natText n
  | .negSucc n => '-' :: natText (n + 1)

/-- Reads a non-empty run of ASCII digits as a number. -/
def readNat (t : Text) : Option Nat :=
  if !t.isEmpty && t.all Char.isDigit then
    some (t.foldl (fun n d => 10 * n + (d.toNat - 48)) 0)
  else
    none

/-- The pieces between the occurrences of a separator: always one more than there are
separators. -/
def splitAt (separator : Char) : Text → List Text
  | [] => [[]]
  | c :: cs =>
    if c = separator then [] :: splitAt separator cs
    else
      match splitAt separator cs with
      | [] => [[c]]
      | piece :: pieces => (c :: piece) :: pieces

/-- The pieces joined again with a separator between them. -/
def joinWith (separator : Text) : List Text → Text
  | [] => []
  | [piece] => piece
  | piece :: pieces => piece ++ separator ++ joinWith separator pieces

/-- The lines of a text. A line keeps the newline that ends it; the last one may have none. -/
def linesOf : Text → List Text
  | [] => []
  | c :: cs =>
    if c = '\n' then [c] :: linesOf cs
    else
      match linesOf cs with
      | [] => [[c]]
      | line :: lines => (c :: line) :: lines

/-- The characters that count as blank at the ends of a setting. -/
def isBlank (c : Char) : Bool :=
  inRanges [(9, 13), (28, 32), (133, 133), (160, 160), (5760, 5760), (8192, 8202),
    (8232, 8233), (8239, 8239), (8287, 8287), (12288, 12288)] c

/-- A text without the blanks at its two ends. -/
def trim (t : Text) : Text :=
  ((t.dropWhile isBlank).reverse.dropWhile isBlank).reverse

/-! ### Small laws -/

@[simp] theorem splitAt_nil (s : Char) : splitAt s [] = [[]] := rfl

/-- Cutting always leaves a piece. -/
theorem splitAt_ne_nil (s : Char) (t : Text) : splitAt s t ≠ [] := by
  induction t with
  | nil => simp
  | cons c cs ih =>
    unfold splitAt
    split
    · simp
    · split <;> simp

/-- The lines of a text, put together again, are the text. -/
theorem flatten_linesOf (t : Text) : (linesOf t).flatten = t := by
  induction t with
  | nil => rfl
  | cons c cs ih =>
    unfold linesOf
    split
    · simp [ih]
    · cases hs : linesOf cs with
      | nil => simp_all
      | cons l ls => simp_all

end LineShell
