import LineShell.Command

/-!
# Tokens

The items of a command line: words, control operators, redirects, and the end.

A `Token` is a lexeme with the text that it was written as and the place where it starts. The
place serves messages alone; no reading depends on it. The text tells whether a redirect keeps
what its file holds (`Token.appends`), so that `>` and `>>` are one lexeme. A newline is a
separator like `;`, kept apart from it because messages name it differently.

`Lexeme.ofKindName` is for tokens that do not come from a line: tools may hand a list of tokens to
the reader, with kinds named by texts.
-/

namespace LineShell

/-- Which streams a redirect binds. -/
inductive Stream where
  /-- Standard input: `<`. -/
  | input
  /-- Standard output: `>` and `>>`. -/
  | output
  /-- Standard error: `2>` and `2>>`. -/
  | errors
  /-- Standard output and standard error: `&>` and `&>>`. -/
  | both
  deriving DecidableEq, Repr

/-- What a token is. -/
inductive Lexeme where
  /-- A command, an argument or a file name. -/
  | word (w : Word)
  /-- The symbol `;`. -/
  | semicolon
  /-- The end of a line, which separates commands like `;`. -/
  | newline
  /-- The symbol `&`. -/
  | parallel
  /-- The symbol `&&`. -/
  | and
  /-- The symbol `||`. -/
  | or
  /-- The symbol `|`. -/
  | pipe
  /-- A redirect; its target is the word behind it. -/
  | redirect (s : Stream)
  /-- The end of the input. -/
  | eof
  deriving DecidableEq, Repr

namespace Lexeme

/-- The name of the lexeme's kind. -/
def kindName : Lexeme → Text
  | .word _ => "WORD".toList
  | .semicolon => "SEMICOLON".toList
  | .newline => "NEWLINE".toList
  | .parallel => "PARALLEL".toList
  | .and => "AND".toList
  | .or => "OR".toList
  | .pipe => "PIPE".toList
  | .redirect .input => "REDIRECT_IN".toList
  | .redirect .output => "REDIRECT_OUT".toList
  | .redirect .errors => "REDIRECT_ERR".toList
  | .redirect .both => "REDIRECT_ALL".toList
  | .eof => "EOF".toList

/-- The lexeme of a kind given by name; the word is the one that a word token carries. -/
def ofKindName (name : Text) (w : Word) : Option Lexeme :=
  [.word w, .semicolon, .newline, .parallel, .and, .or, .pipe, .redirect .input,
    .redirect .output, .redirect .errors, .redirect .both, .eof].find? fun l =>
      l.kindName == name

/-- Whether the lexeme separates commands without joining them. -/
def isSeparator : Lexeme → Bool
  | .semicolon => true
  | .newline => true
  | _ => false

/-- The word that the lexeme carries. -/
def word? : Lexeme → Option Word
  | .word w => some w
  | _ => none

end Lexeme

/-- A token: what it is, how it is written, and where it starts. -/
structure Token where
  /-- What the token is. -/
  lexeme : Lexeme
  /-- The token as it is written. -/
  value : Text
  /-- Where it starts in its line, counted in characters. A token that comes from no line may
  name any place. -/
  pos : Int
  deriving DecidableEq, Repr

/-- The token as it is shown; the word that it carries is left out. -/
def Token.shown (t : Token) : Text :=
  "Token(".toList ++ t.lexeme.kindName ++ ", ".toList ++ quoted t.value ++ ", pos=".toList
    ++ intText t.pos ++ ")".toList

/-- Whether a redirect keeps what the file holds: it is written with a double `>` at its end. -/
def Token.appends (t : Token) : Bool :=
  ['>', '>'].isSuffixOf t.value

end LineShell
