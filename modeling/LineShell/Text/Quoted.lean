import LineShell.Text.Printable

/-!
# Quoted text

How a text is shown inside a message: between quotes, with every character that is not printable
written as an escape. Double quotes are used when the text holds a single quote and no double one,
single quotes otherwise, so that as few quotes as possible need a backslash.

An escape names its character by code point, in the shortest of three widths that holds it; the
tab and the two line ends have escapes of their own.
-/

namespace LineShell

/-- The last `width` hexadecimal digits of a number, in lower case. -/
def hexDigits (width : Nat) (n : Nat) : Text :=
  let digits := Nat.toDigits 16 n
  List.replicate (width - digits.length) '0' ++ digits

/-- An escape by code point, in the shortest of the three widths that holds it. -/
def codeEscape (c : Char) : Text :=
  if c.toNat < 256 then ['\\', 'x'] ++ hexDigits 2 c.toNat
  else if c.toNat < 65536 then ['\\', 'u'] ++ hexDigits 4 c.toNat
  else ['\\', 'U'] ++ hexDigits 8 c.toNat

/-- One character between quotes of the given kind. -/
def quoteChar (quote c : Char) : Text :=
  if c = quote || c = '\\' then ['\\', c]
  else if c = '\n' then ['\\', 'n']
  else if c = '\r' then ['\\', 'r']
  else if c = '\t' then ['\\', 't']
  else if isPrintable c then [c]
  else codeEscape c

/-- The quote that a text is shown between. -/
def quoteFor (t : Text) : Char :=
  if t.contains '\x27' && !t.contains '\x22' then '\x22' else '\x27'

/-- A text as a message shows it. -/
def quoted (t : Text) : Text :=
  let quote := quoteFor t
  quote :: t.flatMap (quoteChar quote) ++ [quote]

end LineShell
