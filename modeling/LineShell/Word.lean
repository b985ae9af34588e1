import LineShell.Table

/-!
# Words

A word is a text with holes: literal pieces and names of variables, filled in when the word is
used and not before.

`Word.expand` fills the holes from a table, where a name that is not set vanishes. The result is
one text, however many blanks a value holds: a word is never cut into several. `Word.join` makes
neighbouring literals one, so that a word has one form whatever quotes it was written with, and
`Word.ofPieces` keeps a word of no pieces, as two quotes make it, as the empty literal.
-/

namespace LineShell

/-- One piece of a word. -/
inductive Part where
  /-- Text that stands for itself. -/
  | lit (text : Text)
  /-- A variable, to be replaced by its value. -/
  | var (name : Text)
  deriving DecidableEq, Repr

/-- The piece as it is shown: a variable as `${NAME}`. -/
def Part.shown : Part → Text
  | .lit text => text
  | .var name => ['$', '\x7b'] ++ name ++ ['\x7d']

/-- The text of the piece under a table. -/
def Part.expand (table : Table) : Part → Text
  | .lit text => text
  | .var name => table.expansion name

/-- A word: its pieces from left to right. -/
abbrev Word := List Part

namespace Word

/-- The word that stands for one text. -/
def literal (t : Text) : Word := [.lit t]

/-- The text of a word under a table; names that are not set vanish. -/
def expand (w : Word) (table : Table) : Text :=
  w.flatMap (Part.expand table)

/-- The word as it is shown. -/
def shown (w : Word) : Text :=
  w.flatMap Part.shown

/-- The pieces with neighbouring literals made one. -/
def join : List Part → Word
  | [] => []
  | .var name :: ps => .var name :: join ps
  | .lit a :: ps =>
    match join ps with
    | .lit b :: qs => .lit (a ++ b) :: qs
    | qs => .lit a :: qs

/-- The word that a run of pieces makes: the empty literal if there are none. -/
def ofPieces (ps : List Part) : Word :=
  match join ps with
  | [] => literal []
  | w => w

@[simp] theorem expand_nil (table : Table) : expand [] table = [] := rfl

@[simp] theorem expand_cons (p : Part) (w : Word) (table : Table) :
    expand (p :: w) table = p.expand table ++ expand w table := rfl

end Word

end LineShell
