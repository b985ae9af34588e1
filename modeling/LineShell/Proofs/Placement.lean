import LineShell.Line
import LineShell.Proofs.Reading

/-!
# Where redirects stand

The words of a command and its redirects may be mixed in any way. What is read is the words in
their order and, for each stream, the last redirect that binds it, so of the order of the pieces
only the order of the words among themselves and of the redirects among themselves counts. A
redirect of both output streams is the same as one of each, at the place where it stands.

## The model

`ReadAs` says of pieces that tokens which spell them, with the end of the input behind them, are
read as one command. It is stated of all such tokens at once: how a redirect or a word is written
makes no difference.

## What is proved

* The reader and the rule for pieces agree (`readAs_of_ofPieces?`).
* The words and the redirects of some pieces, each in their order, tell the command
  (`ofPieces?_congr`), so two lists of pieces that have both in common are read as one command.
* Both output streams may be bound by one redirect, or one after the other (`ofPieces?_both`).

Whether two streams that go to one path share an open file is decided where the command is run.
-/

namespace LineShell

namespace Piece

/-! ### What counts of the order -/

/-- The redirect that the piece is: what it binds, to which word, and whether the file is kept. -/
def redirect? : Piece → Option (Stream × Word × Bool)
  | .word _ => none
  | .redirect s w append => some (s, w, append)

/-- What only redirects give depends on the redirects alone. -/
theorem filterMap_of_redirects {α : Type} {f : Piece → Option α} (hf : ∀ w, f (.word w) = none)
    (ps : List Piece) :
    ps.filterMap f
      = (ps.filterMap redirect?).filterMap fun (s, w, append) => f (.redirect s w append) := by
  rw [List.filterMap_filterMap]
  congr 1
  funext p
  cases p with
  | word w => exact hf w
  | redirect s w append => rfl

/-- Pieces that are read as a command: tokens that spell them, with the end of the input behind
them, give a tree with that command alone, and all of the tokens are read. -/
def ReadAs (ps : List Piece) (c : Command) : Prop :=
  ∀ (ts : List Token) (e : Token) (after : List Token), Grammar.Spells ts ps → e.lexeme = .eof →
    Tree.ofTokens (ts ++ e :: after) = .ok (some (.leaf none c), ts.length)

/-- The reader and the rule for pieces agree. -/
theorem readAs_of_ofPieces? {ps : List Piece} {c : Command} (h : Command.ofPieces? ps = some c) :
    ReadAs ps c := by
  intro ts e after hts he
  have hflat : Grammar.Flat ts ⟨c, []⟩ :=
    ⟨[], ts, [], by simp, by simp [Grammar.Blank], ⟨ts, [], by simp, ⟨ps, hts, h⟩, .nil⟩,
      by simp [Grammar.Blank]⟩
  unfold Tree.ofTokens
  rw [Tree.read_end he, Grammar.readWith_of_flat e hflat]
  rfl

end Piece

namespace Command

/-- The words and the redirects of some pieces, each in their order, tell the command. -/
theorem ofPieces?_congr {ps qs : List Piece}
    (hwords : qs.filterMap Piece.word? = ps.filterMap Piece.word?)
    (hredirects : qs.filterMap Piece.redirect? = ps.filterMap Piece.redirect?) :
    ofPieces? qs = ofPieces? ps := by
  have hstream {α : Type} {f : Piece → Option α} (hf : ∀ w, f (.word w) = none) :
      qs.filterMap f = ps.filterMap f := by
    rw [Piece.filterMap_of_redirects hf qs, Piece.filterMap_of_redirects hf ps, hredirects]
  unfold ofPieces?
  rw [hwords, hstream fun _ => (rfl : Piece.input? _ = none),
    hstream fun _ => (rfl : Piece.output? _ = none), hstream fun _ => (rfl : Piece.errors? _ = none)]

/-- Both output streams may be bound one after the other. -/
theorem ofPieces?_both (as bs : List Piece) (w : Word) (append : Bool) :
    ofPieces? (as ++ .redirect .output w append :: .redirect .errors w append :: bs)
      = ofPieces? (as ++ .redirect .both w append :: bs) := by
  unfold ofPieces?
  simp only [List.filterMap_append, List.filterMap_cons, Piece.word?, Piece.input?, Piece.output?,
    Piece.errors?]

end Command

/-- **Redirects are independent of where they stand.** Tokens that spell words and redirects in any
order, with a word among them, are read as one command: its argument vector is the words that are no
targets, in their order, and each stream is bound as the last redirect of that stream says, or not
at all if there is none. Pieces with the same words in their order and the same redirects in theirs
are read as the same command, and so are the pieces with a redirect of both output streams replaced
by one of each. -/
theorem command_of_pieces {ps : List Piece} (hwords : ps.filterMap Piece.word? ≠ []) :
    ∃ c : Command, Piece.ReadAs ps c ∧
      c.verb :: c.args = ps.filterMap Piece.word? ∧
      (∀ table, c.argv table = (ps.filterMap Piece.word?).map fun w => w.expand table) ∧
      c.input = (ps.filterMap Piece.input?).getLast? ∧
      c.output = (ps.filterMap Piece.output?).getLast? ∧
      c.errors = (ps.filterMap Piece.errors?).getLast? ∧
      (∀ qs, qs.filterMap Piece.word? = ps.filterMap Piece.word? →
        qs.filterMap Piece.redirect? = ps.filterMap Piece.redirect? → Piece.ReadAs qs c) ∧
      ∀ as bs w append, ps = as ++ .redirect .both w append :: bs →
        Piece.ReadAs (as ++ .redirect .output w append :: .redirect .errors w append :: bs) c := by
  obtain ⟨verb, args, hargv⟩ := List.exists_cons_of_ne_nil hwords
  let c : Command := ⟨verb, args, (ps.filterMap Piece.input?).getLast?,
    (ps.filterMap Piece.output?).getLast?, (ps.filterMap Piece.errors?).getLast?⟩
  have hc : Command.ofPieces? ps = some c := by
    unfold Command.ofPieces?
    rw [hargv]
  refine ⟨c, Piece.readAs_of_ofPieces? hc, hargv.symm, ?_, rfl, rfl, rfl, ?_, ?_⟩
  · intro table
    rw [hargv]
    rfl
  · intro qs hw hr
    apply Piece.readAs_of_ofPieces?
    rw [Command.ofPieces?_congr hw hr, hc]
  · intro as bs w append hps
    apply Piece.readAs_of_ofPieces?
    rw [Command.ofPieces?_both, ← hps, hc]

/-- The pieces of `&>> log a 2> err b`. -/
def scatteredPieces : List Piece :=
  [.redirect .both [.lit "log".toList] true, .word [.lit ['a']],
    .redirect .errors [.lit "err".toList] false, .word [.lit ['b']]]

/-- The tokens of `&>> log a 2> err b` and the end of the input. -/
def scatteredTokens : List Token :=
  [⟨.redirect .both, "&>>".toList, 0⟩, ⟨.word [.lit "log".toList], "log".toList, 4⟩,
    ⟨.word [.lit ['a']], ['a'], 8⟩, ⟨.redirect .errors, "2>".toList, 10⟩,
    ⟨.word [.lit "err".toList], "err".toList, 13⟩, ⟨.word [.lit ['b']], ['b'], 17⟩, ⟨.eof, [], 18⟩]

/-- Errors go where the second redirect says, wherever the words stand. -/
theorem command_of_pieces_scattered :
    scatteredPieces.filterMap Piece.word? ≠ [] ∧
    ∃ c : Command, Tree.ofTokens scatteredTokens = .ok (some (.leaf none c), 6) ∧
      c.verb = [.lit ['a']] ∧ c.args = [[.lit ['b']]] ∧ c.input = none ∧
      c.output = some ⟨[.lit "log".toList], true⟩ ∧ c.errors = some ⟨[.lit "err".toList], false⟩ ∧
      Piece.ReadAs [.word [.lit ['a']], .word [.lit ['b']], .redirect .both [.lit "log".toList] true,
        .redirect .errors [.lit "err".toList] false] c ∧
      Piece.ReadAs [.redirect .output [.lit "log".toList] true,
        .redirect .errors [.lit "log".toList] true, .word [.lit ['a']],
        .redirect .errors [.lit "err".toList] false, .word [.lit ['b']]] c := by
  have hwords : scatteredPieces.filterMap Piece.word? ≠ [] := by
    simp [scatteredPieces, Piece.word?]
  obtain ⟨c, hread, hargv, -, hinput, houtput, herrors, horder, hboth⟩ := command_of_pieces hwords
  obtain ⟨hverb, hargs⟩ := List.cons.inj hargv
  have hspells : Grammar.Spells (scatteredTokens.take 6) scatteredPieces :=
    .redirect rfl rfl (.word rfl (.redirect rfl rfl (.word rfl .nil)))
  exact ⟨hwords, c, hread _ ⟨.eof, [], 18⟩ [] hspells rfl, hverb, hargs, hinput, houtput, herrors,
    horder _ rfl rfl, hboth [] _ _ _ rfl⟩

example : (parseLine "&>> log a 2> err b < in".toList).toOption
    = (parseLine "a b >> log 2>> log 2> err < in".toList).toOption := by decide +kernel

end LineShell
