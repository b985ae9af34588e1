import LineShell.Proofs.Lines
import LineShell.Proofs.Normal

/-!
# Printing trees

A normal tree written as a line: commands with their operators between them and no parentheses,
literals between single quotes, variables between braces, redirects behind the words. What is
written is read as the tree that was written, so the trees that lines can mean are exactly the
normal ones.

## The model

* `Part.written`, `Word.written`, `Command.written` and `Tree.written` are the printer, one
  function for each kind of thing. A single quote in a literal ends the quotes, stands behind a
  backslash, and lets them go on.
* `Part.ReadFrom` says of a text that it is a writing of a piece of a word, wherever it stands in
  a word.
* `Closes` is where a written word ends: at the end of the text, or at a blank. `StartsWord` is
  how a word may start so that no operator symbol is seen there.
* `Lexes` says of a text that it is cut into tokens of some kind wherever it stands and whatever
  closes it.

## What is proved

* Quoted and braced pieces are writings (`Part.readFrom_written`), and a word whose pieces are
  written one after the other is read up to its end (`readWord_flatMap`). The induction on the
  text between quotes carries along what the reader takes at once behind an escaped quote.
* Texts that are cut as something can be put side by side with a blank between them
  (`Lexes.append`), so words, signs, commands and trees are cut as what they are (`lexes_word`,
  `lexes_command`, `lexes_tree`).
* Tokens that are a phrase are read as its tree (`parseLine_of_lexes`). With the lemma that every
  tree of a line is normal this gives the image of reading, as an equivalence over all trees.

`Lexes` does not ask how a piece is written, so it also serves for other ways to write a line. A
bare node is written as nothing; no line means one.
-/

namespace LineShell

/-! ### The written form -/

/-- A character of a text that stands between single quotes: a single quote ends the text, stands
behind a backslash, and lets the text go on. -/
def escaped (c : Char) : Text :=
  if c = '\x27' then ['\x27', '\\', '\x27', '\x27'] else [c]

/-- A text between single quotes. -/
def singleQuoted (t : Text) : Text :=
  '\x27' :: (t.flatMap escaped ++ ['\x27'])

/-- A piece of a word as it is written. -/
def Part.written : Part → Text
  | .lit t => singleQuoted t
  | .var name => '$' :: '\x7b' :: (name ++ ['\x7d'])

/-- A word as it is written. -/
def Word.written (w : Word) : Text :=
  w.flatMap Part.written

namespace Piece

/-- The sign in front of a target. -/
def sign : Stream → Bool → Text
  | .input, _ => ['<']
  | .output, false => ['>']
  | .output, true => ['>', '>']
  | .errors, false => ['2', '>']
  | .errors, true => ['2', '>', '>']
  | .both, false => ['&', '>']
  | .both, true => ['&', '>', '>']

/-- A piece as it is written. -/
def written : Piece → Text
  | .word w => w.written
  | .redirect s target append => sign s append ++ ' ' :: target.written

end Piece

/-- The pieces of a command: its words, then its redirects. -/
def Command.pieces (c : Command) : List Piece :=
  (c.verb :: c.args).map .word
    ++ (c.input.map fun w => Piece.redirect .input w false).toList
    ++ (c.output.map fun r => Piece.redirect .output r.target r.append).toList
    ++ (c.errors.map fun r => Piece.redirect .errors r.target r.append).toList

/-- A command as it is written. -/
def Command.written (c : Command) : Text :=
  joinWith [' '] (c.pieces.map Piece.written)

/-- A tree as it is written. A bare node, which no line means, is written as nothing. -/
def Tree.written : Tree → Text
  | .leaf _ c => c.written
  | .binary _ op l r => written l ++ ' ' :: (op.symbol ++ ' ' :: written r)
  | .bare _ => []

/-! ### Words that are written -/

namespace Word

theorem join_cons_congr (p : Part) {ps qs : List Part} (h : join ps = join qs) :
    join (p :: ps) = join (p :: qs) := by
  cases p with
  | var name => rw [join, join, h]
  | lit a => rw [join_lit, join_lit, h]

/-- Two literals in a row are one. -/
theorem join_lit_lit (a b : Text) (ps : List Part) :
    join (.lit a :: .lit b :: ps) = join (.lit (a ++ b) :: ps) := by
  rw [join_lit, join_lit b, join_lit]
  split <;> split <;> simp_all

end Word

section Reading

variable {rest final : Text} {qs : List Part}

/-- Up to the next single quote everything stands for itself. -/
theorem readWord_quoted {a : Text} (ha : '\x27' ∉ a) (h : ∀ pos, readWord pos rest = .ok (qs, final))
    (pos : Nat) : readWord pos ('\x27' :: (a ++ '\x27' :: rest)) = .ok (.lit a :: qs, final) := by
  have hall : ∀ c ∈ a, decide (c ≠ '\x27') = true := by
    intro c hc
    exact decide_eq_true fun hq => ha (hq ▸ hc)
  have hdrop : (a ++ '\x27' :: rest).dropWhile (· ≠ '\x27') = '\x27' :: rest := by
    rw [List.dropWhile_append_of_pos hall]
    rfl
  have htake : (a ++ '\x27' :: rest).takeWhile (· ≠ '\x27') = a := by
    rw [List.takeWhile_append_of_pos hall]
    simp
  rw [readWord_single pos hdrop, htake, h]
  rfl

/-- A text between single quotes is read as that text, in one piece or in several. The induction
carries the part `a` behind the last quote, which the reader takes at once. -/
theorem readWord_singleQuoted (t : Text) : ∀ a : Text, '\x27' ∉ a →
    ∃ ps : List Part, (∀ qs, Word.join (ps ++ qs) = Word.join (.lit (a ++ t) :: qs)) ∧
      ∀ (rest final : Text) (qs : List Part), (∀ pos, readWord pos rest = .ok (qs, final)) →
        ∀ pos, readWord pos ('\x27' :: (a ++ (t.flatMap escaped ++ '\x27' :: rest)))
          = .ok (ps ++ qs, final) := by
  induction t with
  | nil =>
    intro a ha
    exact ⟨[.lit a], by simp, fun _ _ _ h pos => readWord_quoted ha h pos⟩
  | cons c t ih =>
    intro a ha
    by_cases hc : c = '\x27'
    · obtain ⟨ps, hjoin, hread⟩ := ih [] (by simp)
      refine ⟨.lit a :: .lit [c] :: ps, ?_, ?_⟩
      · intro qs
        rw [List.cons_append, List.cons_append, Word.join_cons_congr _ (Word.join_cons_congr _ (hjoin qs)),
          Word.join_cons_congr _ (Word.join_lit_lit _ _ _), Word.join_lit_lit]
        rfl
      · intro rest final qs h pos
        have hescape (pos : Nat) : readWord pos ('\\' :: c :: '\x27' ::
            (t.flatMap escaped ++ '\x27' :: rest)) = .ok (.lit [c] :: (ps ++ qs), final) := by
          rw [readWord_backslash, ← List.nil_append (t.flatMap escaped ++ _), hread _ _ _ h]
          rfl
        have := readWord_quoted ha hescape pos
        simpa [escaped, hc] using this
    · obtain ⟨ps, hjoin, hread⟩ := ih (a ++ [c]) (by simpa [ha] using Ne.symm hc)
      refine ⟨ps, by simpa using hjoin, ?_⟩
      intro rest final qs h pos
      simpa [escaped, hc] using hread rest final qs h pos

/-- No brace stands in a name. -/
theorem brace_not_mem {name : Text} (h : isIdentifier name = true) : '\x7d' ∉ name := by
  intro hm
  cases name with
  | nil => simp at hm
  | cons c cs =>
    have hall := (Bool.and_eq_true_iff.1 h).2
    exact absurd (List.all_eq_true.1 hall _ hm) (by decide)

/-- A variable between braces ends with its brace. -/
theorem readVariable_braced {name : Text} (hname : isIdentifier name = true) (pos : Nat) :
    readVariable pos ('\x7b' :: (name ++ '\x7d' :: rest)) = .ok (.var name, rest) := by
  have hall : ∀ c ∈ name, decide (c ≠ '\x7d') = true := by
    intro c hc
    exact decide_eq_true fun hq => brace_not_mem hname (hq ▸ hc)
  have hdrop : (name ++ '\x7d' :: rest).dropWhile (· ≠ '\x7d') = '\x7d' :: rest := by
    rw [List.dropWhile_append_of_pos hall]
    rfl
  have htake : (name ++ '\x7d' :: rest).takeWhile (· ≠ '\x7d') = name := by
    rw [List.takeWhile_append_of_pos hall]
    simp
  rw [readVariable, if_pos rfl, hdrop, htake]
  exact if_pos hname

/-- A variable between braces is read as that variable. -/
theorem readWord_braced {name : Text} (hname : isIdentifier name = true)
    (h : ∀ pos, readWord pos rest = .ok (qs, final)) (pos : Nat) :
    readWord pos ('$' :: '\x7b' :: (name ++ '\x7d' :: rest)) = .ok (.var name :: qs, final) := by
  rw [readWord_variable pos (readVariable_braced hname pos), h]
  rfl

end Reading

/-- A writing of a piece: wherever it stands in a word, it is read as pieces that join to it. -/
def Part.ReadFrom (p : Part) (text : Text) : Prop :=
  ∃ ps : List Part, (∀ qs, Word.join (ps ++ qs) = Word.join (p :: qs)) ∧
    ∀ {rest final : Text} {qs : List Part}, (∀ pos, readWord pos rest = .ok (qs, final)) →
      ∀ pos, readWord pos (text ++ rest) = .ok (ps ++ qs, final)

/-- Braces are a writing of a variable. -/
theorem Part.readFrom_braced {name : Text} (hname : isIdentifier name = true) :
    Part.ReadFrom (.var name) ('$' :: '\x7b' :: (name ++ ['\x7d'])) := by
  refine ⟨[.var name], fun _ => rfl, fun h pos => ?_⟩
  simpa using readWord_braced hname h pos

/-- So is what is written of a piece. -/
theorem Part.readFrom_written {p : Part} (hp : ∀ name, p = .var name → isIdentifier name = true) :
    p.ReadFrom p.written := by
  cases p with
  | lit t =>
    obtain ⟨ps, hjoin, hread⟩ := readWord_singleQuoted t [] (by simp)
    refine ⟨ps, hjoin, fun {rest final qs} h pos => ?_⟩
    simpa [Part.written, singleQuoted] using hread rest final qs h pos
  | var name => exact readFrom_braced (hp name rfl)

/-- The place where a written word ends: the end of the text, or a blank. -/
def Closes (rest : Text) : Prop := rest = [] ∨ ∃ cs, rest = ' ' :: cs

theorem readWord_closes {rest : Text} (h : Closes rest) (pos : Nat) :
    readWord pos rest = .ok ([], rest) := by
  rcases h with rfl | ⟨cs, rfl⟩
  · rw [readWord]
  · exact readWord_break pos rfl cs

/-- A word whose pieces are written one after the other is read up to its end, as pieces that join
to it. -/
theorem readWord_flatMap {f : Part → Text} {w : Word} {rest : Text} (hf : ∀ p ∈ w, p.ReadFrom (f p))
    (h : Closes rest) :
    ∃ ps, Word.join ps = Word.join w ∧ ∀ pos, readWord pos (w.flatMap f ++ rest) = .ok (ps, rest) := by
  induction w with
  | nil => exact ⟨[], rfl, readWord_closes h⟩
  | cons p w ih =>
    obtain ⟨hp, hw⟩ := List.forall_mem_cons.1 hf
    obtain ⟨qs, hjoin, hread⟩ := ih hw
    obtain ⟨ps, hjoin', hread'⟩ := hp
    refine ⟨ps ++ qs, (hjoin' qs).trans (Word.join_cons_congr p hjoin), fun pos => ?_⟩
    rw [List.flatMap_cons, List.append_assoc]
    exact hread' hread pos

/-! ### Where words start -/

/-- A text that starts at no break, and not with a `2` in front of a `>`, starts with no symbol. -/
theorem symbol?_eq_none_of_head {c : Char} {cs : Text} (hc : isBreak c = false)
    (htwo : c = '2' → cs.head? ≠ some '>') : symbol? (c :: cs) = none := by
  have hheads : ∀ e ∈ symbols, ∃ d ds, e.1 = d :: ds ∧
      (isBreak d = true ∨ d = '2' ∧ ds.head? = some '>') := by
    simp [symbols, isBreak]
  refine List.find?_eq_none.2 fun e he hprefix => ?_
  obtain ⟨d, ds, hd, hhead⟩ := hheads e he
  rw [hd, List.isPrefixOf_iff_prefix, List.cons_prefix_cons] at hprefix
  obtain ⟨rfl, more, rfl⟩ := hprefix
  rcases hhead with hbreak | ⟨rfl, hgreater⟩
  · simp [hc] at hbreak
  · exact htwo rfl (by rw [List.head?_append, hgreater]; rfl)

/-- What starts like a word: at no break, and not with a `2` in front of a `>`. -/
def StartsWord (t : Text) : Prop :=
  ∀ c cs, t = c :: cs → isBreak c = false ∧ (c = '2' → cs.head? ≠ some '>')

theorem isSpace_of_isBreak {c : Char} (h : isBreak c = false) : isSpace c = false := by
  simp only [isBreak, isSpace] at h ⊢
  simp_all

/-- What starts like a word starts with no symbol, whatever closes it. -/
theorem StartsWord.symbol?_eq_none {c : Char} {cs rest : Text} (h : StartsWord (c :: cs))
    (hrest : Closes rest) : symbol? (c :: (cs ++ rest)) = none := by
  obtain ⟨hbreak, htwo⟩ := h c cs rfl
  refine symbol?_eq_none_of_head hbreak fun hc hhead => ?_
  cases cs with
  | nil => rcases hrest with rfl | ⟨more, rfl⟩ <;> simp at hhead
  | cons d ds => exact htwo hc hhead

/-! ### Texts that are cut where they end -/

/-- A text that is cut into tokens of some kind, wherever it stands and whatever closes it. -/
def Lexes (text : Text) (P : List Token → Prop) : Prop :=
  ∀ pos rest, Closes rest →
    ∃ ts, P ts ∧ scan pos (text ++ rest) = (scan (pos + text.length) rest).map (ts ++ ·)

namespace Lexes

variable {a b : Text} {P Q : List Token → Prop}

theorem imp (h : Lexes a P) (hPQ : ∀ ts, P ts → Q ts) : Lexes a Q := by
  intro pos rest hrest
  obtain ⟨ts, hts, hscan⟩ := h pos rest hrest
  exact ⟨ts, hPQ ts hts, hscan⟩

/-- Two such texts with a blank between them are cut one after the other. -/
theorem append (ha : Lexes a P) (hb : Lexes b Q) :
    Lexes (a ++ ' ' :: b) fun ts => ∃ us vs, ts = us ++ vs ∧ P us ∧ Q vs := by
  intro pos rest hrest
  obtain ⟨us, hus, hscan⟩ := ha pos (' ' :: (b ++ rest)) (Or.inr ⟨_, rfl⟩)
  obtain ⟨vs, hvs, hscan'⟩ := hb (pos + a.length + 1) rest hrest
  refine ⟨us ++ vs, ⟨us, vs, rfl, hus, hvs⟩, ?_⟩
  have hlength : pos + a.length + 1 + b.length = pos + (a ++ ' ' :: b).length := by
    rw [List.length_append, List.length_cons]
    omega
  calc scan pos (a ++ ' ' :: b ++ rest)
      = (scan (pos + a.length) (' ' :: (b ++ rest))).map (us ++ ·) := by
        rw [← hscan, List.append_assoc, List.cons_append]
    _ = ((scan (pos + (a ++ ' ' :: b).length) rest).map (vs ++ ·)).map (us ++ ·) := by
        rw [scan_space rfl, hscan', hlength]
    _ = (scan (pos + (a ++ ' ' :: b).length) rest).map (us ++ vs ++ ·) := by
        cases scan (pos + (a ++ ' ' :: b).length) rest <;> simp [Except.map]

end Lexes

/-- A symbol that is found is cut off as it is. -/
theorem scan_of_mem_symbols {value rest : Text} {l : Lexeme} (h : (value, l) ∈ symbols)
    (hsymbol : symbol? (value ++ rest) = some (value, l)) (pos : Nat) :
    scan pos (value ++ rest) = (scan (pos + value.length) rest).map (⟨l, value, pos⟩ :: ·) := by
  have hspace : ∀ e ∈ symbols, e.1.all (fun c => !isSpace c) = true := by decide
  cases value with
  | nil => exact absurd (length_pos_of_symbol hsymbol) (Nat.lt_irrefl 0)
  | cons c value =>
    have hc : isSpace c = false := by
      simpa using List.all_eq_true.1 (hspace _ h) c List.mem_cons_self
    rw [List.cons_append] at hsymbol
    rw [List.cons_append, scan_symbol hc hsymbol, ← List.cons_append, List.drop_left]

/-- A symbol alone is found as itself. -/
theorem symbol?_of_mem : ∀ e ∈ symbols, symbol? e.1 = some e := by
  decide

/-- Operator symbols are cut as what they are. -/
theorem lexes_symbol {value : Text} {l : Lexeme} (h : (value, l) ∈ symbols) :
    Lexes value fun ts => ∃ t, ts = [t] ∧ t.lexeme = l ∧ t.value = value := by
  intro pos rest hrest
  have hblank : ∀ e ∈ symbols, symbol? (e.1 ++ [' ']) = some e := by decide
  have hsymbol : symbol? (value ++ rest) = some (value, l) := by
    rcases hrest with rfl | ⟨cs, rfl⟩
    · rw [List.append_nil]
      exact symbol?_of_mem _ h
    · have hmem : ' ' ∈ value ++ [' '] := by simp
      have := symbol?_append (Or.inl rfl) hmem cs
      rw [hblank _ h, List.append_assoc] at this
      exact this
  exact ⟨[⟨l, value, pos⟩], ⟨_, rfl, rfl, rfl⟩, scan_of_mem_symbols h hsymbol pos⟩

/-- A text that starts like a word, and is read as one up to its end, is cut as that word. -/
theorem lexes_of_readWord {text : Text} {w : Word} (hne : text ≠ []) (hstart : StartsWord text)
    (h : ∀ rest, Closes rest → ∃ ps, Word.ofPieces ps = w ∧
      ∀ pos, readWord pos (text ++ rest) = .ok (ps, rest)) :
    Lexes text fun ts => ∃ t, ts = [t] ∧ t.lexeme = .word w := by
  intro pos rest hrest
  obtain ⟨ps, rfl, hread⟩ := h rest hrest
  obtain ⟨c, cs, rfl⟩ := List.exists_cons_of_ne_nil hne
  have hspace : isSpace c = false := isSpace_of_isBreak (hstart c cs rfl).1
  have hlength : (c :: cs ++ rest).length - rest.length = (c :: cs).length := by
    rw [List.length_append, Nat.add_sub_cancel]
  refine ⟨[⟨.word (Word.ofPieces ps), c :: cs, pos⟩], ⟨_, rfl, rfl⟩, ?_⟩
  rw [List.cons_append] at hlength
  rw [List.cons_append, scan_word hspace (hstart.symbol?_eq_none hrest) (hread pos), hlength,
    ← List.cons_append, List.take_left]
  rfl

/-- A normal word is cut as what it is, however its pieces are written, where what is written
starts like a word. -/
theorem lexes_flatMap {f : Part → Text} {w : Word} (h : w.Normal) (hf : ∀ p ∈ w, p.ReadFrom (f p))
    (hne : w.flatMap f ≠ []) (hstart : StartsWord (w.flatMap f)) :
    Lexes (w.flatMap f) fun ts => ∃ t, ts = [t] ∧ t.lexeme = .word w := by
  refine lexes_of_readWord hne hstart fun rest hrest => ?_
  obtain ⟨ps, hjoin, hread⟩ := readWord_flatMap hf hrest
  rw [Word.join_eq_self h.joined] at hjoin
  refine ⟨ps, ?_, hread⟩
  unfold Word.ofPieces
  rw [hjoin]
  split
  · next hnil => exact absurd rfl h.ne_nil
  · rfl

/-- A word that is written starts with a quote or a dollar sign. -/
theorem exists_cons_written {w : Word} (h : w ≠ []) :
    ∃ c cs, w.written = c :: cs ∧ (c = '\x27' ∨ c = '$') := by
  cases w with
  | nil => exact absurd rfl h
  | cons p w =>
    cases p with
    | lit t => exact ⟨_, _, rfl, Or.inl rfl⟩
    | var name => exact ⟨_, _, rfl, Or.inr rfl⟩

/-- Normal words are cut as what they are. -/
theorem lexes_word {w : Word} (h : w.Normal) :
    Lexes w.written fun ts => ∃ t, ts = [t] ∧ t.lexeme = .word w := by
  obtain ⟨c, cs, hw, hc⟩ := exists_cons_written h.ne_nil
  have hne : w.written ≠ [] := by
    rw [hw]
    exact List.cons_ne_nil c cs
  refine lexes_flatMap h (fun p hp => ?_) hne ?_
  · exact Part.readFrom_written fun name hname => h.named name (hname ▸ hp)
  · intro d ds hd
    obtain ⟨rfl, -⟩ := List.cons.inj (hw.symm.trans hd)
    rcases hc with rfl | rfl
    · exact ⟨by decide, fun h => absurd h (by decide)⟩
    · exact ⟨by decide, fun h => absurd h (by decide)⟩

/-! ### Trees that are written -/

namespace Piece

/-- A piece that the printer writes: its word is normal, and input is never appended to. -/
def Normal : Piece → Prop
  | .word w => w.Normal
  | .redirect s target append => target.Normal ∧ (s = .input → append = false)

end Piece

/-- A sign is the symbol of its redirect. -/
theorem sign_mem_symbols (s : Stream) (append : Bool) :
    (Piece.sign s append, Lexeme.redirect s) ∈ symbols := by
  cases s <;> cases append <;> decide

/-- A sign tells whether the file is kept. -/
theorem appends_of_sign {s : Stream} {append : Bool} {t : Token} (h : s = .input → append = false)
    (ht : t.value = Piece.sign s append) : t.appends = append := by
  unfold Token.appends
  rw [ht]
  cases s <;> cases append <;> first | decide | exact absurd (h rfl) (by decide)

theorem lexes_sign (s : Stream) (append : Bool) (h : s = .input → append = false) :
    Lexes (Piece.sign s append) fun ts =>
      ∃ t, ts = [t] ∧ t.lexeme = .redirect s ∧ t.appends = append := by
  refine (lexes_symbol (sign_mem_symbols s append)).imp fun ts hts => ?_
  obtain ⟨t, rfl, hl, hv⟩ := hts
  exact ⟨t, rfl, hl, appends_of_sign h hv⟩

theorem lexes_piece {p : Piece} (h : p.Normal) :
    Lexes p.written fun ts => Grammar.Spells ts [p] := by
  cases p with
  | word w =>
    refine (lexes_word h).imp fun ts hts => ?_
    obtain ⟨t, rfl, hl⟩ := hts
    exact .word hl .nil
  | redirect s target append =>
    refine ((lexes_sign s append h.2).append (lexes_word h.1)).imp fun ts hts => ?_
    obtain ⟨_, _, rfl, ⟨t, rfl, hl, ha⟩, u, rfl, hw⟩ := hts
    exact ha ▸ .redirect hl hw .nil

/-- Texts that are cut as pieces of a command are cut as all of them, with a blank between any
two. -/
theorem lexes_joinWith {α : Type} {written : α → Text} {piece : α → Piece} {as : List α}
    (hne : as ≠ []) (h : ∀ a ∈ as, Lexes (written a) fun ts => Grammar.Spells ts [piece a]) :
    Lexes (joinWith [' '] (as.map written)) fun ts => Grammar.Spells ts (as.map piece) := by
  induction as with
  | nil => exact absurd rfl hne
  | cons a as ih =>
    obtain ⟨ha, has⟩ := List.forall_mem_cons.1 h
    cases as with
    | nil => exact ha
    | cons b as =>
      have := ha.append (ih (List.cons_ne_nil b as) has)
      simp only [List.map_cons, joinWith, List.append_assoc, List.singleton_append] at this ⊢
      refine this.imp fun ts hts => ?_
      obtain ⟨us, vs, rfl, hu, hv⟩ := hts
      exact hu.append hv

/-- Pieces with a blank between any two are cut as they are. -/
theorem lexes_pieces {ps : List Piece} (hne : ps ≠ []) (h : ∀ p ∈ ps, p.Normal) :
    Lexes (joinWith [' '] (ps.map Piece.written)) fun ts => Grammar.Spells ts ps := by
  have hid (p : Piece) (hp : p ∈ ps) : Lexes p.written fun ts => Grammar.Spells ts [id p] :=
    lexes_piece (h p hp)
  simpa using lexes_joinWith hne hid

namespace Command

/-- The pieces of a command make that command. -/
theorem ofPieces?_pieces (c : Command) : ofPieces? c.pieces = some c := by
  have hword (ws : List Word) : (ws.map Piece.word).filterMap Piece.word? = ws := by
    rw [List.filterMap_map]
    exact List.filterMap_some
  have hinput (ws : List Word) : (ws.map Piece.word).filterMap Piece.input? = [] := by
    simp [Piece.input?]
  have houtput (ws : List Word) : (ws.map Piece.word).filterMap Piece.output? = [] := by
    simp [Piece.output?]
  have herrors (ws : List Word) : (ws.map Piece.word).filterMap Piece.errors? = [] := by
    simp [Piece.errors?]
  obtain ⟨verb, args, input, output, errors⟩ := c
  unfold ofPieces? pieces
  simp only [List.filterMap_append, hword, hinput, houtput, herrors]
  cases input <;> cases output <;> cases errors <;>
    simp [List.filterMap_cons, Piece.word?, Piece.input?, Piece.output?, Piece.errors?]

/-- The pieces are the words of the command, some of them as targets. -/
theorem mem_pieces {c : Command} {p : Piece} (h : p ∈ c.pieces) :
    (∃ w ∈ c.words, p = .word w) ∨
      ∃ s append, ∃ w ∈ c.words, p = .redirect s w append ∧ (s = .input → append = false) := by
  have hwords {w : Word} : w ∈ c.words ↔ (((w = c.verb ∨ w ∈ c.args) ∨ c.input = some w) ∨
      ∃ r, c.output = some r ∧ r.target = w) ∨ ∃ r, c.errors = some r ∧ r.target = w := by
    simp only [words, List.mem_append, List.mem_cons, Option.mem_toList, Option.map_eq_some_iff]
  simp only [pieces, List.mem_append, List.mem_map, List.mem_cons, Option.mem_toList,
    Option.map_eq_some_iff] at h
  rcases h with ((⟨w, hw, rfl⟩ | ⟨w, hw, rfl⟩) | ⟨r, hr, rfl⟩) | ⟨r, hr, rfl⟩
  · exact Or.inl ⟨w, hwords.2 (Or.inl (Or.inl (Or.inl hw))), rfl⟩
  · exact Or.inr ⟨_, _, w, hwords.2 (Or.inl (Or.inl (Or.inr hw))), rfl, fun _ => rfl⟩
  · exact Or.inr ⟨_, _, r.target, hwords.2 (Or.inl (Or.inr ⟨r, hr, rfl⟩)), rfl, by simp⟩
  · exact Or.inr ⟨_, _, r.target, hwords.2 (Or.inr ⟨r, hr, rfl⟩), rfl, by simp⟩

theorem Normal.pieces {c : Command} (h : c.Normal) : ∀ p ∈ c.pieces, p.Normal := by
  intro p hp
  rcases mem_pieces hp with ⟨w, hw, rfl⟩ | ⟨s, append, w, hw, rfl, hs⟩
  · exact h w hw
  · exact ⟨h w hw, hs⟩

end Command

theorem lexes_command {c : Command} (h : c.Normal) :
    Lexes c.written fun ts => Grammar.Simple ts c := by
  have hne : c.pieces ≠ [] := by simp [Command.pieces]
  exact (lexes_pieces hne h.pieces).imp fun ts hts => ⟨c.pieces, hts, c.ofPieces?_pieces⟩

theorem lexes_operator (op : Operator) : Lexes op.symbol (Grammar.Joint op) := by
  have hjoint (l : Lexeme) (hl : l.joins? = some op) (hmem : (op.symbol, l) ∈ symbols) :
      Lexes op.symbol (Grammar.Joint op) :=
    (lexes_symbol hmem).imp fun ts ⟨t, hts, ht, _⟩ => hts ▸ .symbol (ht ▸ hl)
  cases op with
  | parallel => exact hjoint .parallel rfl (by decide)
  | conditionalAnd => exact hjoint .and rfl (by decide)
  | conditionalOr => exact hjoint .or rfl (by decide)
  | pipe => exact hjoint .pipe rfl (by decide)
  | sequential =>
    have hmem : ([';'], Lexeme.semicolon) ∈ symbols := by decide
    refine (lexes_symbol hmem).imp fun ts hts => ?_
    obtain ⟨t, rfl, hl, -⟩ := hts
    exact .separators (by simp) (by simp [Grammar.Blank, hl, Lexeme.isSeparator])

/-- A normal tree that is written is a phrase of its level, in tokens. -/
theorem lexes_tree {t : Tree} (h : t.Normal) :
    Lexes t.written fun ts => Grammar.Phrase t.level ts t.unmarked := by
  induction t with
  | bare m => exact h.elim
  | leaf m c => exact (lexes_command h).imp fun ts hts => .command hts
  | binary m op l r ihl ihr =>
    obtain ⟨hfits, hl, hr⟩ := h
    obtain ⟨hle, hlt⟩ := (Tree.fits_iff hl.ne_bare hr.ne_bare).1 hfits
    refine ((ihl hl).append ((lexes_operator op).append (ihr hr))).imp fun ts hts => ?_
    obtain ⟨us, _, rfl, hu, js, vs, rfl, hj, hv⟩ := hts
    rw [← List.append_assoc]
    exact .join (hu.of_le hle) hj (hv.of_le hlt)

/-! ### Lines -/

/-- A text that is cut as a phrase of some level is read as the tree of the phrase. -/
theorem parseLine_of_lexes {n : Nat} {text : Text} {t : Tree}
    (h : Lexes text fun ts => Grammar.Phrase n ts t) : parseLine text = .ok (some t) := by
  obtain ⟨ts, hphrase, hscan⟩ := h 0 [] (Or.inl rfl)
  rw [List.append_nil, scan_nil] at hscan
  refine parseLine_eq_some_iff.2 ⟨ts, _, hscan, rfl, [], ts, [], by simp, by simp [Grammar.Blank], ?_, ?_⟩
  · exact hphrase.of_le (Nat.zero_le _)
  · simp [Grammar.Blank]

theorem parseLine_written {t : Tree} (h : t.Normal) :
    parseLine t.written = .ok (some t.unmarked) :=
  parseLine_of_lexes (lexes_tree h)

theorem normal_of_parseLine {text : Text} {t : Tree} (h : parseLine text = .ok (some t)) :
    t.Normal ∧ t.unmarked = t := by
  obtain ⟨ts, e, hscan, -, hline⟩ := parseLine_eq_some_iff.1 h
  exact hline.normal (normalWords_of_scan hscan).of_append.1

/-- **Lines mean the normal trees.** The trees that are read from texts are the normal ones, without
marks; and every normal tree, written without parentheses, is read again as itself. -/
theorem parseLine_image :
    (∀ t, (∃ text, parseLine text = .ok (some t)) ↔ t.Normal ∧ t.unmarked = t) ∧
      ∀ t : Tree, t.Normal → parseLine t.written = .ok (some t.unmarked) := by
  refine ⟨fun t => ⟨?_, ?_⟩, fun t => parseLine_written⟩
  · rintro ⟨text, h⟩
    exact normal_of_parseLine h
  · rintro ⟨hnormal, hmarks⟩
    exact ⟨t.written, (parseLine_written hnormal).trans (by rw [hmarks])⟩

/-- A pipe in front of a separator, with a quote, a variable and a redirect in its left side. -/
def quotedPipe : Tree :=
  .binary none .sequential
    (.binary none .pipe
      (.leaf none
        ⟨[.lit ['i', 't', '\x27', 's'], .var ['A']], [], none, some ⟨[.lit ['f']], true⟩, none⟩)
      (.leaf none ⟨[.lit ['c']], [[.var ['A']]], none, none, none⟩))
    (.leaf none ⟨[.lit []], [], none, none, none⟩)

/-- Its quote is written as `'\''`, and the empty word as two quotes. -/
theorem parseLine_image_quotedPipe :
    quotedPipe.Normal ∧
      parseLine "'it'\\''s'$\x7bA\x7d >> 'f' | 'c' $\x7bA\x7d ; ''".toList = .ok (some quotedPipe) := by
  have hname : isIdentifier ['A'] = true := by decide
  have hlit (t : Text) : Word.Normal [.lit t] := ⟨by simp, .singleton _, by simp⟩
  have hvar : Word.Normal [.var ['A']] := ⟨by simp, .singleton _, by simp [hname]⟩
  have hboth : Word.Normal [.lit ['i', 't', '\x27', 's'], .var ['A']] :=
    ⟨by simp, .cons_cons (by simp [Part.isLiteral]) (.singleton _), by simp [hname]⟩
  have hnormal : quotedPipe.Normal := by
    simp [quotedPipe, Tree.Normal, Tree.Fits, Tree.root?, Tree.isLeaf, Command.Normal,
      Command.words, hlit, hvar, hboth]
  have hwritten : quotedPipe.written
      = "'it'\\''s'$\x7bA\x7d >> 'f' | 'c' $\x7bA\x7d ; ''".toList := by decide
  exact ⟨hnormal, hwritten ▸ parseLine_image.2 quotedPipe hnormal⟩

end LineShell
