import LineShell.Proofs.Printing

/-!
# Quoting

A text can be written in a line so that all of it stands for itself: cut into pieces in any way,
and each piece between single quotes, between double quotes, behind backslashes or as it is, where
it has nothing in it that the way of writing gives a meaning to. Whatever the pieces, the words of
a line that is written like this are the texts that were meant, under every table and under none.

## The model

* A `Style` is a way to write a piece. `Style.Admits` says which texts it can write, which is
  decidable, and `Style.write` writes them.
* A `Fragment` is a piece of a text with its style and the proof that the style admits it. An
  `Encoding` is a list of fragments that leaves a mark even where the text is empty, so there is
  no text without one and none that is written as nothing.
* `Renders` says of a writing that wherever it stands in a word it is read as its text, in literal
  pieces.

## What is proved

* Every style renders what it admits (`Style.Admits.renders`), and pieces that are written one
  after the other are the pieces one after the other (`renders_fragments`).
* Literal pieces make the word that stands for their text (`ofPieces_literals`), so what is
  written of a text is one word that stands for it (`Encoding.lexes`). What is written starts like
  a word, and no operator symbol is seen in it (`startsWord_fragments`).
* Such words have their text under every table and under none (`Word.expandIn_literal`).

Styles are chosen piece by piece, so the result covers every mixture. A text that holds a NUL can
be written as well; that no program can be given one is another matter.
-/

namespace LineShell

/-! ### Ways of writing -/

/-- The ways to write a piece of a text. -/
inductive Style where
  /-- Between single quotes. -/
  | single
  /-- Between double quotes. -/
  | double
  /-- Each character behind a backslash. -/
  | escaped
  /-- As it is. -/
  | bare
  deriving DecidableEq, Repr

/-- The characters that mean something outside quotes. -/
def specials : List Char :=
  [' ', '\t', '\n', '|', ';', '&', '<', '>', '\\', '\x27', '\x22', '$']

/-- A character of a piece between double quotes. -/
def sheltered (c : Char) : Text :=
  if c = '\x22' ∨ c = '\\' ∨ c = '$' then ['\\', c] else [c]

namespace Style

/-- The texts that can be written in a style. -/
def Admits : Style → Text → Prop
  | .single, t => '\x27' ∉ t
  | .double, _ => True
  | .escaped, _ => True
  | .bare, t => ∀ c ∈ t, c ∉ specials

instance : (s : Style) → (t : Text) → Decidable (s.Admits t)
  | .single, t => inferInstanceAs (Decidable ('\x27' ∉ t))
  | .double, _ => inferInstanceAs (Decidable True)
  | .escaped, _ => inferInstanceAs (Decidable True)
  | .bare, t => List.decidableBAll (· ∉ specials) t

/-- A text as a style writes it. -/
def write : Style → Text → Text
  | .single, t => '\x27' :: (t ++ ['\x27'])
  | .double, t => '\x22' :: (t.flatMap sheltered ++ ['\x22'])
  | .escaped, t => t.flatMap fun c => ['\\', c]
  | .bare, t => t

/-- Whether a style leaves a mark where an empty text is written. -/
def marks : Style → Bool
  | .single | .double => true
  | .escaped | .bare => false

end Style

/-- A piece of a text and the style that it is written in. -/
structure Fragment where
  /-- How the piece is written. -/
  style : Style
  /-- The piece. -/
  text : Text
  /-- The style can write the piece. -/
  admitted : style.Admits text

/-- A piece as it is written. -/
def Fragment.written (f : Fragment) : Text := f.style.write f.text

/-- A text with a way to write it. -/
structure Encoding where
  /-- The pieces of the text in their order. -/
  fragments : List Fragment
  /-- An empty text is written as quotes. -/
  marked : fragments.flatMap Fragment.text = [] → ∃ f ∈ fragments, f.style.marks = true

namespace Encoding

/-- The text that is meant. -/
def text (e : Encoding) : Text := e.fragments.flatMap Fragment.text

/-- The text as it is written. -/
def written (e : Encoding) : Text := e.fragments.flatMap Fragment.written

end Encoding

/-! ### Words that stand for themselves -/

/-- A writing of a text: wherever it stands in a word, it is read as that text, in literal pieces. -/
def Renders (written text : Text) : Prop :=
  ∃ ts : List Text, ts.flatten = text ∧ ∀ {rest final : Text} {qs : List Part},
    (∀ pos, readWord pos rest = .ok (qs, final)) →
      ∀ pos, readWord pos (written ++ rest) = .ok (ts.map .lit ++ qs, final)

namespace Renders

theorem nil : Renders [] [] := ⟨[], rfl, fun h => h⟩

theorem append {v w s t : Text} (hv : Renders v s) (hw : Renders w t) :
    Renders (v ++ w) (s ++ t) := by
  obtain ⟨as, rfl, ha⟩ := hv
  obtain ⟨bs, rfl, hb⟩ := hw
  refine ⟨as ++ bs, List.flatten_append, fun h pos => ?_⟩
  rw [List.append_assoc, ha (hb h) pos, List.map_append, List.append_assoc]

/-- Characters that are written one by one. -/
theorem flatMap {f : Char → Text} {t : Text} (h : ∀ c ∈ t, Renders (f c) [c]) :
    Renders (t.flatMap f) t := by
  induction t with
  | nil => exact nil
  | cons c t ih =>
    obtain ⟨hc, ht⟩ := List.forall_mem_cons.1 h
    exact hc.append (ih ht)

end Renders

theorem isBreak_of_notMem_specials {c : Char} (hc : c ∉ specials) : isBreak c = false := by
  simp only [specials, List.mem_cons, List.not_mem_nil, or_false, not_or] at hc
  simp [isBreak, hc]

/-- Outside quotes, a character without a meaning of its own stands for itself. -/
theorem renders_plain {c : Char} (hc : c ∉ specials) : Renders [c] [c] := by
  refine ⟨[[c]], rfl, fun h pos => ?_⟩
  have hne (d : Char) (hd : d ∈ specials) : c ≠ d := fun h => hc (h ▸ hd)
  rw [List.singleton_append, readWord.eq_def]
  simp only [isBreak_of_notMem_specials hc, hne '\\' (by decide), hne '\x27' (by decide),
    hne '\x22' (by decide), hne '$' (by decide), Bool.false_eq_true, if_false, h]
  rfl

/-- What is sheltered stands for itself between double quotes. -/
theorem readDouble_sheltered (t : Text) (opening pos : Nat) (rest : Text) :
    readDouble opening pos (t.flatMap sheltered ++ '\x22' :: rest)
      = .ok (t.map fun c => .lit [c], rest) := by
  induction t generalizing pos with
  | nil => cases rest <;> simp [readDouble]
  | cons c t ih =>
    rw [List.flatMap_cons, List.append_assoc, sheltered]
    split
    · next hc =>
      have hescapable : isEscapable c = true := by simpa [isEscapable, or_assoc] using hc
      simp [readDouble, hescapable, ih, addPiece]
    · next hc =>
      simp only [not_or] at hc
      obtain ⟨d, ds, hd⟩ := List.exists_cons_of_ne_nil
        (List.append_ne_nil_of_right_ne_nil (t.flatMap sheltered) (List.cons_ne_nil '\x22' rest))
      rw [List.singleton_append, hd, readDouble, if_neg hc.1, if_neg (by simp [hc.2.1]),
        if_neg hc.2.2, ← hd, ih]
      rfl

/-- Every style writes what it admits as that text. -/
theorem Style.Admits.renders {s : Style} {t : Text} (h : s.Admits t) : Renders (s.write t) t := by
  cases s with
  | single =>
    refine ⟨[t], by simp, fun hrest pos => ?_⟩
    have := readWord_quoted h hrest pos
    simpa [write] using this
  | double =>
    refine ⟨t.map fun c => [c], by simp [← List.flatMap_def], fun {rest _ _} hrest pos => ?_⟩
    rw [write, List.cons_append, List.append_assoc, List.singleton_append,
      readWord_double pos (readDouble_sheltered t pos (pos + 1) rest), hrest, foldr_addPiece_ok,
      List.map_map]
    rfl
  | escaped =>
    refine Renders.flatMap fun c _ => ⟨[[c]], rfl, fun hrest pos => ?_⟩
    rw [List.cons_append, List.singleton_append, readWord_backslash, hrest]
    rfl
  | bare =>
    have := Renders.flatMap fun c hc => renders_plain (h c hc)
    simpa [write] using this

/-- Pieces written one after the other are the pieces one after the other. -/
theorem renders_fragments (fs : List Fragment) :
    Renders (fs.flatMap Fragment.written) (fs.flatMap Fragment.text) := by
  induction fs with
  | nil => exact .nil
  | cons f fs ih => exact f.admitted.renders.append ih

/-- Literal pieces in a row join to one. -/
theorem join_literals (t : Text) (ts : List Text) (qs : List Part) :
    Word.join ((t :: ts).map .lit ++ qs) = Word.join (.lit (t :: ts).flatten :: qs) := by
  induction ts generalizing t with
  | nil => simp
  | cons u us ih =>
    rw [List.map_cons, List.map_cons, List.cons_append, List.cons_append, Word.join_lit_lit,
      ← List.cons_append, ← List.map_cons, ih]
    simp

/-- Literal pieces make the word that stands for their text. -/
theorem ofPieces_literals (ts : List Text) :
    Word.ofPieces (ts.map Part.lit) = Word.literal ts.flatten := by
  cases ts with
  | nil => rfl
  | cons t ts =>
    have hjoin := join_literals t ts []
    rw [List.append_nil] at hjoin
    rw [Word.ofPieces, hjoin]
    rfl

/-- What is written of a text is one word, if it starts like one, and the word stands for the text. -/
theorem Renders.lexes {written text : Text} (h : Renders written text) (hne : written ≠ [])
    (hstart : StartsWord written) :
    Lexes written fun ts => ∃ t, ts = [t] ∧ t.lexeme = .word (.literal text) := by
  obtain ⟨ts, htext, hread⟩ := h
  refine lexes_of_readWord hne hstart fun rest hrest => ⟨ts.map .lit, ?_, fun pos => ?_⟩
  · rw [ofPieces_literals, htext]
  · have := hread (readWord_closes hrest) pos
    rwa [List.append_nil] at this

/-! ### Where written texts start -/

/-- What is written starts like a word. -/
theorem startsWord_fragments (fs : List Fragment) : StartsWord (fs.flatMap Fragment.written) := by
  induction fs with
  | nil => simp [StartsWord]
  | cons f fs ih =>
    obtain ⟨style, t, ht⟩ := f
    rw [List.flatMap_cons]
    intro c cs hcs
    -- the first piece decides, unless nothing is written for it
    cases style with
    | single | double =>
      obtain ⟨rfl, -⟩ := List.cons.inj hcs
      exact ⟨by decide, fun h => absurd h (by decide)⟩
    | escaped =>
      cases t with
      | nil => exact ih c cs hcs
      | cons a t =>
        obtain ⟨rfl, -⟩ := List.cons.inj hcs
        exact ⟨by decide, fun h => absurd h (by decide)⟩
    | bare =>
      have hbreak (a : Char) (ha : a ∈ t) : isBreak a = false :=
        isBreak_of_notMem_specials (ht a ha)
      cases t with
      | nil => exact ih c cs hcs
      | cons a t =>
        obtain ⟨rfl, rfl⟩ := List.cons.inj hcs
        refine ⟨hbreak a List.mem_cons_self, fun _ hd => ?_⟩
        cases t with
        | nil =>
          obtain ⟨ds, hds⟩ := List.head?_eq_some_iff.1 hd
          simpa [isBreak] using (ih _ ds hds).1
        | cons b t =>
          obtain rfl : b = '>' := by simpa using hd
          simpa [isBreak] using hbreak '>' (by simp)

theorem Fragment.eq_nil_of_written {f : Fragment} (h : f.written = []) :
    f.text = [] ∧ f.style.marks = false := by
  obtain ⟨style, t, ht⟩ := f
  cases style with
  | single | double => exact absurd h (List.cons_ne_nil _ _)
  | bare => exact ⟨h, rfl⟩
  | escaped =>
    cases t with
    | nil => exact ⟨rfl, rfl⟩
    | cons c t => exact absurd h (List.cons_ne_nil _ _)

namespace Encoding

/-- Something is written, whatever the text. -/
theorem written_ne_nil (e : Encoding) : e.written ≠ [] := by
  intro hnil
  have hnone : ∀ f ∈ e.fragments, f.text = [] ∧ f.style.marks = false := fun f hf =>
    Fragment.eq_nil_of_written (List.flatMap_eq_nil_iff.1 hnil f hf)
  obtain ⟨f, hf, hmarks⟩ := e.marked (List.flatMap_eq_nil_iff.2 fun f hf => (hnone f hf).1)
  simp [(hnone f hf).2] at hmarks

/-- A text that is written is one word, which stands for that text. -/
theorem lexes (e : Encoding) :
    Lexes e.written fun ts => ∃ t, ts = [t] ∧ t.lexeme = .word (.literal e.text) :=
  (renders_fragments e.fragments).lexes e.written_ne_nil (startsWord_fragments e.fragments)

end Encoding

/-! ### Lines -/

/-- The text of a word with a table, or with none: then variables vanish. -/
def Word.expandIn (w : Word) : Option Table → Text
  | some table => w.expand table
  | none => w.flatMap fun
    | .lit t => t
    | .var _ => []

/-- The argument vector with a table, or with none. -/
def Command.argvIn (c : Command) (table : Option Table) : List Text :=
  c.verb.expandIn table :: c.args.map (·.expandIn table)

theorem Word.expandIn_literal (t : Text) (table : Option Table) :
    (Word.literal t).expandIn table = t := by
  cases table <;> simp [Word.literal, Word.expandIn, Part.expand]

/-- The command whose words are some texts. -/
def Command.ofTexts (verb : Text) (args : List Text) : Command :=
  ⟨.literal verb, args.map .literal, none, none, none⟩

theorem Command.argvIn_ofTexts (verb : Text) (args : List Text) (table : Option Table) :
    (Command.ofTexts verb args).argvIn table = verb :: args := by
  simp [Command.ofTexts, Command.argvIn, Word.expandIn_literal, Function.comp_def]

/-- **Quoting is safe in every style.** Texts that are written in pieces, each piece in a style that
can write it, with a blank between any two texts, are read as one command without redirects; and its
argument vector is those texts, under every table and under none. -/
theorem parseLine_encoded (first : Encoding) (others : List Encoding) :
    ∃ c : Command, parseLine (joinWith [' '] ((first :: others).map Encoding.written))
        = .ok (some (.leaf none c)) ∧
      c.input = none ∧ c.output = none ∧ c.errors = none ∧
      ∀ table, c.argvIn table = (first :: others).map Encoding.text := by
  let c : Command := .ofTexts first.text (others.map Encoding.text)
  have hpieces : c.pieces = (first :: others).map fun e => .word (.literal e.text) := by
    simp [c, Command.pieces, Command.ofTexts, Function.comp_def]
  have hspells (e : Encoding) : Lexes e.written fun ts =>
      Grammar.Spells ts [.word (.literal e.text)] := by
    refine e.lexes.imp fun ts hts => ?_
    obtain ⟨t, rfl, ht⟩ := hts
    exact .word ht .nil
  have hlexes : Lexes (joinWith [' '] ((first :: others).map Encoding.written)) fun ts =>
      Grammar.Phrase 4 ts (.leaf none c) := by
    have hall := lexes_joinWith (List.cons_ne_nil first others) fun e _ => hspells e
    refine hall.imp fun ts hts => ?_
    exact .command ⟨c.pieces, hpieces ▸ hts, c.ofPieces?_pieces⟩
  exact ⟨c, parseLine_of_lexes hlexes, rfl, rfl, rfl, Command.argvIn_ofTexts _ _⟩

/-- A bare `2` in front of a quoted `>`, a quote behind a backslash, and an empty text. -/
def mixedTexts : Encoding × List Encoding :=
  (⟨[⟨.bare, ['2'], by decide⟩, ⟨.double, ['>'], trivial⟩], by decide⟩,
    [⟨[⟨.single, ['i', 't'], by decide⟩, ⟨.escaped, ['\x27'], trivial⟩, ⟨.bare, ['s'], by decide⟩],
        by decide⟩,
      ⟨[⟨.single, [], by decide⟩], by decide⟩])

theorem parseLine_encoded_mixedTexts :
    ∃ c : Command, parseLine "2\x22>\x22 'it'\\'s ''".toList = .ok (some (.leaf none c)) ∧
      c.output = none ∧ c.errors = none ∧
      ∀ table, c.argvIn table = [['2', '>'], "it's".toList, []] := by
  obtain ⟨c, hparse, -, houtput, herrors, hargv⟩ :=
    parseLine_encoded mixedTexts.1 mixedTexts.2
  exact ⟨c, hparse, houtput, herrors, hargv⟩

end LineShell
