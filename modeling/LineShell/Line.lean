import LineShell.Chain.Reader
import LineShell.Token.Lexer

/-!
# Lines

From the text of a line to the tree that it means: the line is cut into tokens, the tokens are
read as a chain of commands, and the chain is nested as its operators bind. A line without a
command has no tree. Each of the two steps can fail, with failures of its own (`LineError`), and
what is said of either is what that step says.
-/

namespace LineShell

/-- Why a line cannot be read. -/
inductive LineError where
  /-- It cannot be cut into tokens. -/
  | lexical (e : LexError)
  /-- Its tokens make no chain. -/
  | chain (e : ChainError)
  deriving DecidableEq, Repr

/-- What is said of a line that cannot be read. -/
def LineError.message : LineError → Text
  | .lexical e => e.message
  | .chain e => e.message

/-- The tree of a line, or none if the line holds no command. -/
def parseLine (line : Text) : Except LineError (Option Tree) :=
  match tokenize line with
  | .error e => .error (.lexical e)
  | .ok tokens =>
    match Tree.ofTokens tokens with
    | .error e => .error (.chain e)
    | .ok (tree, _) => .ok tree

end LineShell
