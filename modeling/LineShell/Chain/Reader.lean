import LineShell.Chain
import LineShell.Token

/-!
# Reading chains

Turns tokens into a chain of commands. A command is a run of words and redirects with at least
one word that is no target; redirects may stand anywhere in it. Commands are joined by `&`, `&&`,
`||` and `|`, or kept apart by runs of separators, which may also stand at both ends.

## The model

* `gather` takes the longest run of words and redirects into a `Draft`; a redirect replaces those
  before it on the same streams.
* `readCommand` asks of such a run that there be a word to be the verb.
* `nextOperator?` reads what joins two commands; a run of separators stands for `;` unless the input
  ends behind it.
* `readLinks` reads the further commands, each with the operator in front of it, and
  `Chain.readWith` the whole chain.
* `Tree.read` nests the chain as its operators bind, and tells how many tokens were read.

Every function answers with what is left of the list as well, so what one has read is known to the
next one, and each is seen to leave an end of the list that it was given.

## What is taken for granted

A list of tokens is taken to end with an end of the input, as every list does that comes from a
text. Reading stops at the first one, and what is behind it is never looked at. Of a list without
one the reader reads to the end of the list and no further: where a token is missing there, its
messages tell of the last token that there is. What such a list should mean is left open.
-/

namespace LineShell

/-- Why tokens do not make a chain of commands. -/
inductive ChainError where
  /-- There are no tokens, not even the end of the input. -/
  | noTokens
  /-- A command is wanted where another token stands. -/
  | noCommand (found : Token)
  /-- A redirect has no word behind it. -/
  | noTarget (redirect : Token)
  /-- Something is left behind the last command. -/
  | leftOver (found : Token)
  deriving DecidableEq, Repr

/-- What is said of tokens that make no chain. -/
def ChainError.message : ChainError → Text
  | .noTokens => "list index out of range".toList
  | .noCommand t =>
    "Expected command at pos ".toList ++ intText t.pos ++ ", got ".toList ++ t.lexeme.kindName
  | .noTarget t => "Missing target for ".toList ++ quoted t.value ++ " at pos ".toList
      ++ intText t.pos
  | .leftOver t => "Unexpected ".toList ++ quoted t.value ++ " at pos ".toList ++ intText t.pos

/-- A command while it is read. -/
structure Draft where
  /-- The words so far. -/
  words : List Word
  /-- The input file, if one was named. -/
  input : Option Word
  /-- Where output goes, if that was named. -/
  output : Option Redirect
  /-- Where errors go, if that was named. -/
  errors : Option Redirect

namespace Draft

/-- Nothing read yet. -/
def empty : Draft := ⟨[], none, none, none⟩

/-- A redirect replaces those before it on the same streams. -/
def bind (d : Draft) (s : Stream) (target : Word) (append : Bool) : Draft :=
  match s with
  | .input => { d with input := some target }
  | .output => { d with output := some ⟨target, append⟩ }
  | .errors => { d with errors := some ⟨target, append⟩ }
  | .both => { d with output := some ⟨target, append⟩, errors := some ⟨target, append⟩ }

/-- The command, if there is a word to be its verb. -/
def command? (d : Draft) : Option Command :=
  match d.words with
  | [] => none
  | verb :: args => some ⟨verb, args, d.input, d.output, d.errors⟩

end Draft

/-- The longest run of words and redirects, and what is left behind it. Where a redirect has no
word behind it, that is what is left. -/
def gather (d : Draft) : List Token → Except ChainError Draft × List Token
  | [] => (.ok d, [])
  | t :: ts =>
    match t.lexeme with
    | .word w => gather { d with words := d.words ++ [w] } ts
    | .redirect s =>
      match ts with
      | [] => (.error (.noTarget t), [])
      | target :: rest =>
        match target.lexeme with
        | .word w => gather (d.bind s w t.appends) rest
        | _ => (.error (.noTarget t), target :: rest)
    | _ => (.ok d, t :: ts)

/-- What is left behind a run is an end of what was there. -/
theorem suffix_of_gather (d : Draft) (ts : List Token) : (gather d ts).2 <:+ ts := by
  fun_induction gather d ts with
  | case1 => simp
  | case2 d t ts w _ ih => exact ih.trans (List.suffix_cons _ _)
  | case3 => simp
  | case4 d t s _ target rest w _ ih =>
    exact ih.trans ((List.suffix_cons _ _).trans (List.suffix_cons _ _))
  | case5 => simp
  | case6 => simp

/-- One command, and what is left behind it; `last` is the token that is told of where the list is
at its end. -/
def readCommand (last : Token) (ts : List Token) : Except ChainError Command × List Token :=
  match gather .empty ts with
  | (.error e, rest) => (.error e, rest)
  | (.ok d, rest) =>
    match d.command? with
    | some c => (.ok c, rest)
    | none => (.error (.noCommand (rest.headD last)), rest)

/-- What is left behind a command is an end of what was there. -/
theorem suffix_of_readCommand (last : Token) (ts : List Token) :
    (readCommand last ts).2 <:+ ts := by
  have h := suffix_of_gather .empty ts
  unfold readCommand
  split
  · next hg => rwa [hg] at h
  · next hg =>
    rw [hg] at h
    split <;> exact h

/-- The operator that a token joins two commands by. -/
def Lexeme.joins? : Lexeme → Option Operator
  | .parallel => some .parallel
  | .and => some .conditionalAnd
  | .or => some .conditionalOr
  | .pipe => some .pipe
  | _ => none

/-- The tokens behind a run of separators. -/
def skipSeparators (ts : List Token) : List Token :=
  ts.dropWhile fun t => t.lexeme.isSeparator

/-- Whether a list is at the end of the input. -/
def atEnd : List Token → Bool
  | [] => true
  | t :: _ => t.lexeme == .eof

/-- The operator behind a command, and the tokens behind that. A run of separators stands for
`;` unless the input ends behind it. -/
def nextOperator? : List Token → Option (Operator × List Token)
  | [] => none
  | t :: ts =>
    match t.lexeme.joins? with
    | some op => some (op, ts)
    | none =>
      if t.lexeme.isSeparator && !atEnd (skipSeparators ts) then
        some (.sequential, skipSeparators ts)
      else
        none

/-- An operator takes at least one token. -/
theorem length_lt_of_nextOperator? {ts rest : List Token} {op : Operator}
    (h : nextOperator? ts = some (op, rest)) : rest.length < ts.length := by
  unfold nextOperator? at h
  split at h
  · simp at h
  · next t ts =>
    have hl : (skipSeparators ts).length ≤ ts.length :=
      (List.dropWhile_suffix (l := ts) fun t => t.lexeme.isSeparator).length_le
    split at h
    · obtain ⟨-, rfl⟩ : _ ∧ ts = rest := by simpa using h
      simp
    · split at h
      · obtain ⟨-, rfl⟩ : _ ∧ skipSeparators ts = rest := by simpa using h
        exact Nat.lt_succ_of_le hl
      · simp at h

/-- Puts a link before those that were read further on. -/
def addLink (link : Operator × Command)
    (r : Except ChainError (List (Operator × Command)) × List Token) :
    Except ChainError (List (Operator × Command)) × List Token :=
  (r.1.map (link :: ·), r.2)

/-- Links come out of `addLink` only if some were read further on. -/
theorem addLink_eq_ok {link : Operator × Command} {ls : List (Operator × Command)}
    {r : Except ChainError (List (Operator × Command)) × List Token} {rest : List Token}
    (h : addLink link r = (.ok ls, rest)) : ∃ ks, ls = link :: ks ∧ r = (.ok ks, rest) := by
  obtain ⟨ks | ks, rest'⟩ := r <;> simp_all [addLink, Except.map]

/-- A failure comes out only if there was one further on. -/
theorem addLink_eq_error {link : Operator × Command} {e : ChainError}
    {r : Except ChainError (List (Operator × Command)) × List Token} {rest : List Token}
    (h : addLink link r = (.error e, rest)) : r = (.error e, rest) := by
  obtain ⟨ks | ks, rest'⟩ := r <;> simp_all [addLink, Except.map]

/-- The links of a chain behind a command, and what is left behind them. -/
def readLinks (last : Token) (ts : List Token) :
    Except ChainError (List (Operator × Command)) × List Token :=
  match _ho : nextOperator? ts with
  | none => (.ok [], skipSeparators ts)
  | some (op, behind) =>
    match _hc : readCommand last behind with
    | (.error e, rest) => (.error e, rest)
    | (.ok c, rest) => addLink (op, c) (readLinks last rest)
termination_by ts.length
decreasing_by
  all_goals
    have hs : rest <:+ behind := by
      have h := suffix_of_readCommand last behind
      rwa [_hc] at h
    exact Nat.lt_of_le_of_lt hs.length_le (length_lt_of_nextOperator? _ho)

/-- The chain that tokens make, if there is a command among them, and what is left behind it;
`last` is the token that is told of where the list is at its end. -/
def Chain.readWith (last : Token) (tokens : List Token) :
    Except ChainError (Option Chain) × List Token :=
  if atEnd (skipSeparators tokens) then (.ok none, skipSeparators tokens)
  else
    match readCommand last (skipSeparators tokens) with
    | (.error e, rest) => (.error e, rest)
    | (.ok first, rest) =>
      match readLinks last rest with
      | (.error e, rest) => (.error e, rest)
      | (.ok links, rest) =>
        if atEnd rest then (.ok (some ⟨first, links⟩), rest)
        else (.error (.leftOver (rest.headD last)), rest)

/-- The chain that tokens make, if there is a command among them, and what is left behind it. -/
def Chain.read (tokens : List Token) : Except ChainError (Option Chain) × List Token :=
  match tokens.getLast? with
  | none => (.error .noTokens, [])
  | some last => Chain.readWith last tokens

/-- The tree that tokens make, if there is a command among them, and how many tokens were read
when it was made or the reader gave up. -/
def Tree.read (tokens : List Token) : Except ChainError (Option Tree) × Nat :=
  let read := Chain.read tokens
  (read.1.map fun chain => chain.map Chain.toTree, tokens.length - read.2.length)

/-- The tree that tokens make, with the number of tokens read. -/
def Tree.ofTokens (tokens : List Token) : Except ChainError (Option Tree × Nat) :=
  let read := Tree.read tokens
  read.1.map fun tree => (tree, read.2)

end LineShell
