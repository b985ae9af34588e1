import LineShell.Token
import LineShell.Text.Letters

/-!
# Reading tokens

Cuts a line into tokens. Blanks separate words and mean nothing else. Where an operator symbol
starts, the longest one is taken; everything else is a word, up to the next blank or operator
character that no quote and no backslash protects.

Inside a word single quotes protect everything, double quotes everything but `$` and a backslash
before a double quote, a backslash or a `$`; outside quotes a backslash protects the next
character. `$NAME` and `${NAME}` are variables; any other `$` is an ordinary character.

## The model

* `symbol?` finds the operator symbol at the front of a text: the list of symbols holds each one
  before those that it starts with, so the first that fits is the longest.
* `readVariable`, `readDouble` and `readWord` read from the front of a text. Each gives pieces and
  what it leaves, and each leaves an end of what it was given (`suffix_of_readWord`), which is why
  the scan comes to an end: a word that does not start at a break takes a character at least
  (`length_lt_of_readWord`).
* `scan` reads token after token, and `tokenize` a whole line; the last token is the end of the
  input.

Pieces are put together from the right (`addPiece`), so that a failure further on is the failure
of the word: an opening quote is blamed only if nothing behind it is to blame.
-/

namespace LineShell

/-- Why a line cannot be cut into tokens. -/
inductive LexError where
  /-- A single quote, at this place, is not closed. -/
  | openSingle (pos : Nat)
  /-- A double quote, at this place, is not closed. -/
  | openDouble (pos : Nat)
  /-- The brace of the `$` at this place is not closed. -/
  | openBrace (pos : Nat)
  /-- What stands between braces is no variable name. -/
  | badName (name : Text)
  deriving DecidableEq, Repr

/-- What is said of a line that cannot be cut into tokens. -/
def LexError.message : LexError → Text
  | .openSingle pos => "Unterminated single quote at pos ".toList ++ natText pos
  | .openDouble pos => "Unterminated double quote at pos ".toList ++ natText pos
  | .openBrace pos => "Unterminated $\x7b at pos ".toList ++ natText pos
  | .badName name => "Bad substitution: $\x7b".toList ++ name ++ "\x7d".toList

/-- The operator symbols, each before those that it starts with. -/
def symbols : List (Text × Lexeme) :=
  [(['&', '&'], .and),
   (['|', '|'], .or),
   (['&', '>', '>'], .redirect .both),
   (['&', '>'], .redirect .both),
   (['2', '>', '>'], .redirect .errors),
   (['2', '>'], .redirect .errors),
   (['>', '>'], .redirect .output),
   (['>'], .redirect .output),
   (['<'], .redirect .input),
   (['|'], .pipe),
   (['&'], .parallel),
   ([';'], .semicolon),
   (['\n'], .newline)]

/-- The operator symbol that a text starts with. -/
def symbol? (cs : Text) : Option (Text × Lexeme) :=
  symbols.find? fun e => e.1.isPrefixOf cs

/-- A character between tokens. -/
def isSpace (c : Char) : Bool :=
  c == ' ' || c == '\t'

/-- A character that ends a word unless it is protected. -/
def isBreak (c : Char) : Bool :=
  [' ', '\t', '\n', '|', ';', '&', '<', '>'].contains c

/-- Reads what follows a `$` that stands at `pos`: a name, a name between braces, or nothing,
in which case the `$` stands for itself. -/
def readVariable (pos : Nat) : Text → Except LexError (Part × Text)
  | [] => .ok (.lit ['$'], [])
  | c :: cs =>
    if c = '\x7b' then
      match cs.dropWhile (· ≠ '\x7d') with
      | [] => .error (.openBrace pos)
      | _ :: rest =>
        if isIdentifier (cs.takeWhile (· ≠ '\x7d')) then
          .ok (.var (cs.takeWhile (· ≠ '\x7d')), rest)
        else
          .error (.badName (cs.takeWhile (· ≠ '\x7d')))
    else if isNameStart c then
      .ok (.var (c :: cs.takeWhile isNameChar), cs.dropWhile isNameChar)
    else
      .ok (.lit ['$'], c :: cs)

/-- What is left behind a variable is an end of what was there. -/
theorem suffix_of_readVariable {pos : Nat} {cs rest : Text} {p : Part}
    (h : readVariable pos cs = .ok (p, rest)) : rest <:+ cs := by
  unfold readVariable at h
  split at h
  · simp_all
  · next c cs =>
    split at h
    · split at h
      · simp at h
      · next d ds hd =>
        have hs : d :: ds <:+ cs := hd ▸ List.dropWhile_suffix _
        split at h
        · obtain ⟨-, rfl⟩ : _ ∧ ds = rest := by simpa using h
          exact ((List.suffix_cons d ds).trans hs).trans (List.suffix_cons c cs)
        · simp at h
    · split at h
      · obtain ⟨-, rfl⟩ : _ ∧ cs.dropWhile isNameChar = rest := by simpa using h
        exact (List.dropWhile_suffix _).trans (List.suffix_cons c cs)
      · obtain ⟨-, rfl⟩ : _ ∧ c :: cs = rest := by simpa using h
        exact List.suffix_refl _

/-- A character that a backslash protects inside double quotes. -/
def isEscapable (c : Char) : Bool :=
  c == '\x22' || c == '\\' || c == '$'

/-- Puts a piece before those that were read further on. -/
def addPiece (p : Part) : Except LexError (List Part × Text) → Except LexError (List Part × Text)
  | .error e => .error e
  | .ok (ps, rest) => .ok (p :: ps, rest)

/-- Pieces come out of `addPiece` only if some were read further on. -/
theorem addPiece_eq_ok {p : Part} {r : Except LexError (List Part × Text)} {ps : List Part}
    {rest : Text} (h : addPiece p r = .ok (ps, rest)) :
    ∃ qs, ps = p :: qs ∧ r = .ok (qs, rest) := by
  cases r with
  | error e => simp [addPiece] at h
  | ok r =>
    obtain ⟨qs, tail⟩ := r
    simp_all [addPiece]

/-- Reads up to the double quote that closes the one at `opening`; `pos` is the place of the
first character. Gives the pieces and what is left behind the quote. -/
def readDouble (opening pos : Nat) : Text → Except LexError (List Part × Text)
  | [] => .error (.openDouble opening)
  | [c] => if c = '\x22' then .ok ([], []) else .error (.openDouble opening)
  | c :: d :: cs =>
    if c = '\x22' then .ok ([], d :: cs)
    else if c = '\\' && isEscapable d then
      addPiece (.lit [d]) (readDouble opening (pos + 2) cs)
    else if c = '$' then
      match h : readVariable pos (d :: cs) with
      | .error e => .error e
      | .ok (p, rest) =>
        have : rest.length < (d :: cs).length + 1 :=
          Nat.lt_succ_of_le (suffix_of_readVariable h).length_le
        addPiece p (readDouble opening (pos + 1 + ((d :: cs).length - rest.length)) rest)
    else
      addPiece (.lit [c]) (readDouble opening (pos + 1) (d :: cs))
termination_by cs => cs.length
decreasing_by all_goals grind

/-- What is left behind a double quote comes right behind one. -/
theorem quote_suffix_of_readDouble {opening pos : Nat} {cs rest : Text} {ps : List Part}
    (h : readDouble opening pos cs = .ok (ps, rest)) : '\x22' :: rest <:+ cs := by
  fun_induction readDouble opening pos cs generalizing ps rest with
  | case1 => simp at h
  | case2 => simp_all
  | case3 => simp at h
  | case4 => simp_all
  | case5 pos c d cs hc hd ih =>
    obtain ⟨qs, -, hr⟩ := addPiece_eq_ok h
    exact (ih hr).trans ((List.suffix_cons d cs).trans (List.suffix_cons c _))
  | case6 => simp at h
  | case7 pos d cs p tail hv _ _ _ ih =>
    obtain ⟨qs, -, hr⟩ := addPiece_eq_ok h
    exact (ih hr).trans ((suffix_of_readVariable hv).trans (List.suffix_cons _ _))
  | case8 pos c d cs hc hd hs ih =>
    obtain ⟨qs, -, hr⟩ := addPiece_eq_ok h
    exact (ih hr).trans (List.suffix_cons _ _)

/-- What is left behind a double quote is an end of what was there. -/
theorem suffix_of_readDouble {opening pos : Nat} {cs rest : Text} {ps : List Part}
    (h : readDouble opening pos cs = .ok (ps, rest)) : rest <:+ cs :=
  (List.suffix_cons _ rest).trans (quote_suffix_of_readDouble h)

/-- Reads a word whose first character is at `pos`. Gives its pieces, neighbouring literals not
yet joined, and what is left behind it. A backslash at the very end protects nothing and adds
nothing. -/
def readWord (pos : Nat) : Text → Except LexError (List Part × Text)
  | [] => .ok ([], [])
  | c :: cs =>
    if isBreak c then .ok ([], c :: cs)
    else if c = '\\' then
      match cs with
      | [] => .ok ([], [])
      | d :: ds => addPiece (.lit [d]) (readWord (pos + 2) ds)
    else if c = '\x27' then
      match h : cs.dropWhile (· ≠ '\x27') with
      | [] => .error (.openSingle pos)
      | q :: rest =>
        have : (q :: rest).length < (c :: cs).length :=
          Nat.lt_succ_of_le (h ▸ List.dropWhile_suffix _).length_le
        addPiece (.lit (cs.takeWhile (· ≠ '\x27')))
          (readWord (pos + 1 + (cs.length - rest.length)) rest)
    else if c = '\x22' then
      match h : readDouble pos (pos + 1) cs with
      | .error e => .error e
      | .ok (ps, rest) =>
        have : rest.length < (c :: cs).length :=
          Nat.lt_succ_of_le (suffix_of_readDouble h).length_le
        ps.foldr addPiece (readWord (pos + 1 + (cs.length - rest.length)) rest)
    else if c = '$' then
      match h : readVariable pos cs with
      | .error e => .error e
      | .ok (p, rest) =>
        have : rest.length < (c :: cs).length :=
          Nat.lt_succ_of_le (suffix_of_readVariable h).length_le
        addPiece p (readWord (pos + 1 + (cs.length - rest.length)) rest)
    else
      addPiece (.lit [c]) (readWord (pos + 1) cs)
termination_by cs => cs.length
decreasing_by all_goals grind

/-- Several pieces come out only if those further on do. -/
theorem foldr_addPiece_eq_ok {ps : List Part} {r : Except LexError (List Part × Text)}
    {qs : List Part} {rest : Text} (h : ps.foldr addPiece r = .ok (qs, rest)) :
    ∃ tail, qs = ps ++ tail ∧ r = .ok (tail, rest) := by
  induction ps generalizing qs with
  | nil => exact ⟨qs, rfl, h⟩
  | cons p ps ih =>
    obtain ⟨q, rfl, hq⟩ := addPiece_eq_ok h
    obtain ⟨tail, rfl, hr⟩ := ih hq
    exact ⟨tail, rfl, hr⟩

/-- What is left behind a word is an end of what was there. -/
theorem suffix_of_readWord {pos : Nat} {cs rest : Text} {ps : List Part}
    (h : readWord pos cs = .ok (ps, rest)) : rest <:+ cs := by
  fun_induction readWord pos cs generalizing ps rest with
  | case1 => simp_all
  | case2 => simp_all
  | case3 => simp_all
  | case4 pos d ds _ ih =>
    obtain ⟨qs, -, hr⟩ := addPiece_eq_ok h
    exact (ih hr).trans ((List.suffix_cons d ds).trans (List.suffix_cons _ _))
  | case5 => simp at h
  | case6 pos cs q tail hd _ _ _ ih =>
    obtain ⟨qs, -, hr⟩ := addPiece_eq_ok h
    have hs : q :: tail <:+ cs := hd ▸ List.dropWhile_suffix _
    exact (ih hr).trans ((List.suffix_cons q tail).trans (hs.trans (List.suffix_cons _ _)))
  | case7 => simp at h
  | case8 pos cs qs tail hd _ _ _ _ ih =>
    obtain ⟨_, -, hr⟩ := foldr_addPiece_eq_ok h
    exact (ih hr).trans ((suffix_of_readDouble hd).trans (List.suffix_cons _ _))
  | case9 => simp at h
  | case10 pos cs p tail hv _ _ _ _ _ ih =>
    obtain ⟨qs, -, hr⟩ := addPiece_eq_ok h
    exact (ih hr).trans ((suffix_of_readVariable hv).trans (List.suffix_cons _ _))
  | case11 pos c cs _ _ _ _ _ ih =>
    obtain ⟨qs, -, hr⟩ := addPiece_eq_ok h
    exact (ih hr).trans (List.suffix_cons _ _)

/-- A word that does not start at a break takes at least one character. -/
theorem length_lt_of_readWord {pos : Nat} {c : Char} {cs rest : Text} {ps : List Part}
    (hc : isBreak c = false) (h : readWord pos (c :: cs) = .ok (ps, rest)) :
    rest.length < (c :: cs).length := by
  rw [readWord.eq_def] at h
  simp only [hc, Bool.false_eq_true, if_false] at h
  have hs : rest <:+ cs → rest.length < (c :: cs).length := fun h => Nat.lt_succ_of_le h.length_le
  refine hs ?_
  split at h
  · split at h
    · simp_all
    · obtain ⟨qs, -, hr⟩ := addPiece_eq_ok h
      exact (suffix_of_readWord hr).trans (List.suffix_cons _ _)
  · split at h
    · split at h
      · simp at h
      · next q tail hd =>
        obtain ⟨qs, -, hr⟩ := addPiece_eq_ok h
        have hs : q :: tail <:+ cs := hd ▸ List.dropWhile_suffix _
        exact (suffix_of_readWord hr).trans ((List.suffix_cons q tail).trans hs)
    · split at h
      · split at h
        · simp at h
        · next hd =>
          obtain ⟨_, -, hr⟩ := foldr_addPiece_eq_ok h
          exact (suffix_of_readWord hr).trans (suffix_of_readDouble hd)
      · split at h
        · split at h
          · simp at h
          · next hv =>
            obtain ⟨qs, -, hr⟩ := addPiece_eq_ok h
            exact (suffix_of_readWord hr).trans (suffix_of_readVariable hv)
        · obtain ⟨qs, -, hr⟩ := addPiece_eq_ok h
          exact suffix_of_readWord hr

/-- Every character that ends a word, blanks apart, starts an operator symbol. -/
theorem isBreak_eq_false {c : Char} {cs : Text} (hs : isSpace c = false)
    (ho : symbol? (c :: cs) = none) : isBreak c = false := by
  refine Bool.eq_false_iff.2 fun hb => ?_
  have hm : c ∈ [' ', '\t', '\n', '|', ';', '&', '<', '>'] := by
    simpa [isBreak] using hb
  have hone : ∀ l, ([c], l) ∉ symbols := fun l hl => by
    simpa using List.find?_eq_none.1 ho _ hl
  simp only [List.mem_cons, List.not_mem_nil, or_false] at hm
  rcases hm with rfl | rfl | rfl | rfl | rfl | rfl | rfl | rfl
  · simp [isSpace] at hs
  · simp [isSpace] at hs
  · exact hone .newline (by decide)
  · exact hone .pipe (by decide)
  · exact hone .semicolon (by decide)
  · exact hone .parallel (by decide)
  · exact hone (.redirect .input) (by decide)
  · exact hone (.redirect .output) (by decide)

/-- An operator symbol has at least one character. -/
theorem length_pos_of_symbol {cs value : Text} {l : Lexeme} (h : symbol? cs = some (value, l)) :
    0 < value.length := by
  have hall : ∀ e ∈ symbols, 0 < e.1.length := by decide
  exact hall _ (List.mem_of_find?_eq_some h)

/-- The tokens of a text whose first character is at `pos`. -/
def scan (pos : Nat) : Text → Except LexError (List Token)
  | [] => .ok [⟨.eof, [], pos⟩]
  | c :: cs =>
    if hs : isSpace c then scan (pos + 1) cs
    else
      match _ho : symbol? (c :: cs) with
      | some (value, lexeme) =>
        (scan (pos + value.length) ((c :: cs).drop value.length)).map (⟨lexeme, value, pos⟩ :: ·)
      | none =>
        match _hw : readWord pos (c :: cs) with
        | .error e => .error e
        | .ok (ps, rest) =>
          (scan (pos + ((c :: cs).length - rest.length)) rest).map
            (⟨.word (Word.ofPieces ps), (c :: cs).take ((c :: cs).length - rest.length), pos⟩ :: ·)
termination_by cs => cs.length
decreasing_by
  · simp
  · have := length_pos_of_symbol _ho
    simp only [List.length_drop, List.length_cons]
    omega
  · exact length_lt_of_readWord (isBreak_eq_false (by simpa using hs) _ho) _hw

/-- The tokens of a line; the last one is the end of the input. -/
def tokenize (text : Text) : Except LexError (List Token) :=
  scan 0 text

end LineShell
