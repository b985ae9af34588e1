import Mathlib.Data.List.Infix
import LineShell.Proofs.Lines

/-!
# Tokens cover their text

Each round of the lexer takes at least one character off the front of what is left: one blank, one
operator symbol or one word. A symbol is the longest one that starts where it stands; a word
starts where no symbol does and goes on until something ends it. Over a whole text the rounds
leave out nothing and take nothing twice, so a text that can be cut at all is its tokens with
blanks between them.

## The model

* `Token.IsSymbol` and `Token.IsWord` say what a token is in its text, given what follows it
  there: the longest symbol at its place, or a word that starts where no symbol does and that
  something ends.
* `Covers` says that tokens cover a text but for the blanks between them: each is a piece of the
  text at the place that it names, they come in order without overlapping, and every character in
  none of them is a blank.
* A `Round` takes a blank or a token off a text, and `Rounds` is a run of rounds over all of it.

## What is proved

* The symbol that is found is the longest one (`length_le_of_symbol?`); this rests on the order in
  which symbols are listed (`symbols_pairwise`), which is decided once.
* A word goes on until the text ends or something ends it (`ended_of_readWord`).
* While there is text left a round fails in a word, or takes something off the front and leaves
  the rest to the rounds to come (`scan_round`). So a text that can be cut is cut in rounds
  (`rounds_of_scan`), and rounds cover their text (`Rounds.pieces`, `Rounds.ordered`,
  `Rounds.blanks`).

What the text of a word stands for is not looked at here.
-/

namespace LineShell

/-! ### What a token is in its text -/

/-- A token that is the longest operator symbol at its place, where `behind` is what follows it. -/
structure Token.IsSymbol (t : Token) (behind : Text) : Prop where
  /-- The token is an operator symbol. -/
  known : (t.value, t.lexeme) ∈ symbols
  /-- No symbol that starts here is longer. -/
  longest : ∀ e ∈ symbols, e.1 <+: t.value ++ behind → e.1.length ≤ t.value.length

/-- A token that is a word at its place, where `behind` is what follows it. -/
structure Token.IsWord (t : Token) (behind : Text) : Prop where
  /-- The token is a word. -/
  word : ∃ w, t.lexeme = .word w
  /-- No operator symbol starts here. -/
  unsigned : ∀ e ∈ symbols, ¬ e.1 <+: t.value ++ behind
  /-- Something ends the word. -/
  ended : ∀ c ∈ behind.head?, c ∈ [' ', '\t', '\n', '|', ';', '&', '<', '>']

/-- The place behind the last character of a token. -/
def Token.stop (t : Token) : Int := t.pos + t.value.length

/-- Tokens that cover a text but for the blanks between them. -/
structure Covers (text : Text) (ts : List Token) : Prop where
  /-- Every token is a non-empty piece of the text, at the place that it names, and is a symbol or
  a word there. -/
  pieces : ∀ t ∈ ts, t.value ≠ [] ∧ ∃ before behind : Text,
    text = before ++ t.value ++ behind ∧ t.pos = before.length ∧
      (t.IsSymbol behind ∨ t.IsWord behind)
  /-- Tokens come in the order of their places, and none starts before the last one stops. -/
  ordered : ts.Pairwise fun t u => t.stop ≤ u.pos
  /-- A character in no token is a blank. -/
  blanks : ∀ (n : Nat) c, text[n]? = some c → (∀ t ∈ ts, ¬ (t.pos ≤ n ∧ n < t.stop)) →
    c = ' ' ∨ c = '\t'

/-! ### Symbols -/

/-- A symbol that goes on where another one ends stands before it in the table. -/
theorem symbols_pairwise : symbols.Pairwise fun e f => e.1 <+: f.1 → f.1.length ≤ e.1.length := by
  decide

/-- The symbol that is found is the longest one. -/
theorem length_le_of_symbol? {cs value : Text} {l : Lexeme} (h : symbol? cs = some (value, l)) :
    ∀ e ∈ symbols, e.1 <+: cs → e.1.length ≤ value.length := by
  intro e he hprefix
  obtain ⟨hvalue, before, behind, hsplit, hbefore⟩ := List.find?_eq_some_iff_append.1 h
  have hvalue : value <+: cs := List.isPrefixOf_iff_prefix.1 hvalue
  have hordered := symbols_pairwise
  rw [hsplit] at he hordered
  rcases List.mem_append.1 he with he | he
  · -- what stands before the symbol that was found does not start here
    have hnot : (!e.1.isPrefixOf cs) = true := hbefore e he
    simp [List.isPrefixOf_iff_prefix.2 hprefix] at hnot
  rcases List.mem_cons.1 he with rfl | he
  · exact Nat.le_refl _
  rcases List.prefix_or_prefix_of_prefix hprefix hvalue with hle | hle
  · exact hle.length_le
  · exact List.rel_of_pairwise_cons (List.pairwise_append.1 hordered).2.1 he hle

theorem isSymbol_of_symbol? {cs value : Text} {l : Lexeme} (pos : Int)
    (h : symbol? cs = some (value, l)) :
    Token.IsSymbol ⟨l, value, pos⟩ (cs.drop value.length) where
  known := List.mem_of_find?_eq_some h
  longest := by
    rw [← eq_append_of_symbol? h]
    exact length_le_of_symbol? h

/-! ### Words -/

/-- A word goes on until the text ends or something ends the word. -/
theorem ended_of_readWord {pos : Nat} {cs rest : Text} {ps : List Part}
    (h : readWord pos cs = .ok (ps, rest)) : ∀ c ∈ rest.head?, isBreak c = true := by
  fun_induction readWord pos cs generalizing ps rest with
  | case1 | case3 =>
    obtain ⟨-, rfl⟩ := Prod.mk.inj (Except.ok.inj h)
    simp
  | case2 pos c cs hc =>
    obtain ⟨-, rfl⟩ := Prod.mk.inj (Except.ok.inj h)
    simpa using hc
  | case4 _ _ _ _ ih | case6 _ _ _ _ _ _ _ _ ih | case10 _ _ _ _ _ _ _ _ _ _ ih
  | case11 _ _ _ _ _ _ _ _ ih =>
    obtain ⟨qs, -, hr⟩ := addPiece_eq_ok h
    exact ih hr
  | case8 _ _ _ _ _ _ _ _ _ ih =>
    obtain ⟨qs, -, hr⟩ := foldr_addPiece_eq_ok h
    exact ih hr
  | case5 | case7 | case9 => simp at h

theorem isWord_of_symbol?_eq_none {rest value : Text} {w : Word} (pos : Int)
    (ho : symbol? (value ++ rest) = none) (hrest : ∀ c ∈ rest.head?, isBreak c = true) :
    Token.IsWord ⟨.word w, value, pos⟩ rest where
  word := ⟨w, rfl⟩
  unsigned e he := by simpa using List.find?_eq_none.1 ho e he
  ended c hc := by simpa [isBreak] using hrest c hc

/-! ### Rounds -/

/-- What one round takes off a text at `pos`: a blank, which is no token, or one token. -/
inductive Round (pos : Nat) : Text → Text → List Token → Prop where
  /-- A blank is dropped. -/
  | blank {c : Char} {behind : Text} (hc : c = ' ' ∨ c = '\t') : Round pos [c] behind []
  /-- A token is taken. -/
  | token {t : Token} {behind : Text} (hpos : t.pos = pos) (hne : t.value ≠ [])
      (ht : t.IsSymbol behind ∨ t.IsWord behind) : Round pos t.value behind [t]

theorem Round.ne_nil {pos : Nat} {taken behind : Text} {ts : List Token}
    (h : Round pos taken behind ts) : taken ≠ [] := by
  cases h with
  | blank => exact List.cons_ne_nil _ _
  | token _ hne => exact hne

/-- A word that cannot be read ends the cut. -/
theorem scan_word_error {pos : Nat} {c : Char} {cs : Text} {e : LexError}
    (hs : isSpace c = false) (ho : symbol? (c :: cs) = none)
    (hw : readWord pos (c :: cs) = .error e) : scan pos (c :: cs) = .error e := by
  rw [scan.eq_def]
  simp only [hs, Bool.false_eq_true, dite_false]
  split
  · next h => simp [ho] at h
  · split
    · next h => exact congrArg Except.error (Except.error.inj (h.symm.trans hw))
    · next h => simp [hw] at h

/-- While there is text left a round fails in a word, or takes something off the front and leaves
the rest to the rounds to come. -/
theorem scan_round (pos : Nat) {cs : Text} (hne : cs ≠ []) :
    (∃ e, readWord pos cs = .error e ∧ scan pos cs = .error e) ∨
      ∃ taken behind ts, cs = taken ++ behind ∧ Round pos taken behind ts ∧
        scan pos cs = (scan (pos + taken.length) behind).map (ts ++ ·) := by
  obtain ⟨c, cs, rfl⟩ := List.exists_cons_of_ne_nil hne
  cases hs : isSpace c with
  | true =>
    refine .inr ⟨[c], cs, [], rfl, .blank (by simpa [isSpace] using hs), ?_⟩
    rw [scan_space hs, List.length_singleton]
    cases scan (pos + 1) cs <;> rfl
  | false =>
    cases ho : symbol? (c :: cs) with
    | some found =>
      obtain ⟨value, l⟩ := found
      have hvalue : value ≠ [] := List.ne_nil_of_length_pos (length_pos_of_symbol ho)
      exact .inr ⟨value, _, [⟨l, value, pos⟩], eq_append_of_symbol? ho,
        .token rfl hvalue (.inl (isSymbol_of_symbol? pos ho)), scan_symbol hs ho pos⟩
    | none =>
      cases hw : readWord pos (c :: cs) with
      | error e =>
        exact .inl ⟨e, rfl, scan_word_error hs ho hw⟩
      | ok result =>
        obtain ⟨ps, rest⟩ := result
        obtain ⟨value, hvalue⟩ := suffix_of_readWord hw
        have hlength : (c :: cs).length - rest.length = value.length := by
          rw [← hvalue, List.length_append, Nat.add_sub_cancel]
        have hlt := length_lt_of_readWord (isBreak_eq_false hs ho) hw
        have hne : value ≠ [] := List.ne_nil_of_length_pos (by omega)
        have htake : (c :: cs).take value.length = value := by
          rw [← hvalue, List.take_left]
        let t : Token := ⟨.word (Word.ofPieces ps), value, pos⟩
        have ht : t.IsWord rest :=
          isWord_of_symbol?_eq_none pos (hvalue ▸ ho) (ended_of_readWord hw)
        have hround : Round pos t.value rest [t] := .token rfl hne (.inr ht)
        refine .inr ⟨value, rest, [t], hvalue.symm, hround, ?_⟩
        rw [scan_word hs ho hw, hlength, htake]
        rfl

/-! ### Runs -/

/-- A run of rounds over all of a text at `pos`. -/
inductive Rounds : Nat → Text → List Token → Prop where
  /-- Nothing is left. -/
  | done (pos : Nat) : Rounds pos [] []
  /-- One more round. -/
  | next {pos : Nat} {taken behind : Text} {ts us : List Token} (h : Round pos taken behind ts) :
      Rounds (pos + taken.length) behind us → Rounds pos (taken ++ behind) (ts ++ us)

/-- A round that starts before the end of a text fails in a word, or goes on from a later place that is
still in the text. -/
theorem scan_goes_on {text : Text} {pos : Nat} (hpos : pos < text.length) :
    (∃ e, readWord pos (text.drop pos) = .error e ∧ scan pos (text.drop pos) = .error e) ∨
      ∃ next ts, pos < next ∧ next ≤ text.length ∧
        Round pos ((text.drop pos).take (next - pos)) (text.drop next) ts ∧
        scan pos (text.drop pos) = (scan next (text.drop next)).map (ts ++ ·) := by
  have hne : text.drop pos ≠ [] := by simpa using hpos
  rcases scan_round pos hne with hfails | ⟨taken, behind, ts, hsplit, hround, hscan⟩
  · exact .inl hfails
  have hbehind : text.drop (pos + taken.length) = behind := by
    rw [← List.drop_drop, hsplit, List.drop_left]
  have htaken : (text.drop pos).take (pos + taken.length - pos) = taken := by
    rw [hsplit, Nat.add_sub_cancel_left, List.take_left]
  have hlength := congrArg List.length hsplit
  rw [List.length_drop, List.length_append] at hlength
  have htake := List.length_pos_of_ne_nil hround.ne_nil
  refine .inr ⟨pos + taken.length, ts, by omega, by omega, ?_, ?_⟩
  · rwa [htaken, hbehind]
  · rw [hbehind, hscan]

/-- A text that can be cut is cut in rounds, and the end of the input stands where the text ends. -/
theorem rounds_of_scan {pos : Nat} {cs : Text} {ts : List Token} (h : scan pos cs = .ok ts) :
    ∃ us, Rounds pos cs us ∧ ts = us ++ [⟨.eof, [], (pos + cs.length : Nat)⟩] := by
  induction hn : cs.length using Nat.strong_induction_on generalizing pos cs ts with
  | _ n ih =>
  by_cases hne : cs = []
  · subst hne hn
    obtain rfl := Except.ok.inj ((scan_nil pos).symm.trans h)
    exact ⟨[], .done pos, by simp⟩
  rcases scan_round pos hne with ⟨e, -, he⟩ | ⟨taken, behind, vs, rfl, hround, hscan⟩
  · simp [he] at h
  obtain ⟨ws, hws, rfl⟩ := exists_of_map_eq_ok (hscan.symm.trans h)
  have hpos := List.length_pos_of_ne_nil hround.ne_nil
  have hlength : (taken ++ behind).length = taken.length + behind.length := List.length_append
  obtain ⟨us, hus, rfl⟩ := ih behind.length (by omega) hws rfl
  refine ⟨vs ++ us, .next hround hus, ?_⟩
  rw [← hn, hlength, ← Nat.add_assoc, List.append_assoc]

namespace Rounds

variable {pos : Nat} {cs : Text} {ts : List Token}

/-- Every token of a run is a non-empty piece of the text, at the place that it names. -/
theorem pieces (h : Rounds pos cs ts) : ∀ t ∈ ts, t.value ≠ [] ∧ ∃ before behind : Text,
    cs = before ++ t.value ++ behind ∧ t.pos = (pos + before.length : Nat) ∧
      (t.IsSymbol behind ∨ t.IsWord behind) := by
  induction h with
  | done => simp
  | @next pos taken behind ts us hround _ ih =>
    intro t ht
    rcases List.mem_append.1 ht with ht | ht
    · cases hround with
      | blank => simp at ht
      | token hpos hne hkind =>
        obtain rfl := List.mem_singleton.1 ht
        exact ⟨hne, [], behind, rfl, hpos, hkind⟩
    · obtain ⟨hne, before, rest, rfl, hpos, hkind⟩ := ih t ht
      refine ⟨hne, taken ++ before, rest, by simp, ?_, hkind⟩
      rw [hpos, List.length_append, Nat.add_assoc]

/-- Tokens come in order. -/
theorem ordered (h : Rounds pos cs ts) : ts.Pairwise fun t u => t.stop ≤ u.pos := by
  induction h with
  | done => exact .nil
  | @next pos taken behind ts us hround hrest ih =>
    cases hround with
    | blank => exact ih
    | @token t _ hpos _ _ =>
      refine List.pairwise_cons.2 ⟨fun u hu => ?_, ih⟩
      obtain ⟨-, before, -, -, hu, -⟩ := hrest.pieces u hu
      rw [Token.stop, hpos, hu]
      omega

/-- A character in no token of a run is a blank. -/
theorem blanks (h : Rounds pos cs ts) : ∀ (n : Nat) c, cs[n]? = some c →
    (∀ t ∈ ts, ¬ (t.pos ≤ (pos + n : Nat) ∧ (pos + n : Nat) < t.stop)) → c = ' ' ∨ c = '\t' := by
  induction h with
  | done => simp
  | @next pos taken behind ts us hround _ ih =>
    intro n c hc hout
    rcases Nat.lt_or_ge n taken.length with hn | hn
    · rw [List.getElem?_append_left hn] at hc
      cases hround with
      | blank hblank =>
        obtain rfl : n = 0 := by simpa using hn
        obtain rfl : _ = c := by simpa using hc
        exact hblank
      | @token t _ hpos _ _ =>
        -- the character is in the token that this round takes
        refine absurd ⟨?_, ?_⟩ (hout t List.mem_cons_self)
        · omega
        · rw [Token.stop]
          omega
    · rw [List.getElem?_append_right hn] at hc
      refine ih _ c hc fun t ht => ?_
      have hsame : pos + taken.length + (n - taken.length) = pos + n := by omega
      rw [hsame]
      exact hout t (List.mem_append_right _ ht)

end Rounds

/-! ### All of a text -/

/-- The end of the input is no part of the text. -/
theorem Covers.ne_eof {text : Text} {ts : List Token} (h : Covers text ts) :
    ∀ t ∈ ts, t.lexeme ≠ .eof := by
  intro t ht
  have hall : ∀ e ∈ symbols, e.2 ≠ .eof := by decide
  obtain ⟨-, _, _, -, -, hsymbol | hword⟩ := h.pieces t ht
  · exact hall _ hsymbol.known
  · obtain ⟨w, hw⟩ := hword.word
    simp [hw]

/-- **Cutting a text into tokens covers it.** Every round starts before the end of the text, fails
in a word or goes on from a later place that is still in the text; and the rounds together fail or
give tokens that cover the text, with the end of the input behind them where the text ends. -/
theorem tokenize_covers (text : Text) :
    (∀ pos < text.length,
      (∃ e, readWord pos (text.drop pos) = .error e ∧ scan pos (text.drop pos) = .error e) ∨
      ∃ next ts, pos < next ∧ next ≤ text.length ∧
        Round pos ((text.drop pos).take (next - pos)) (text.drop next) ts ∧
        scan pos (text.drop pos) = (scan next (text.drop next)).map (ts ++ ·)) ∧
    ((∃ e, tokenize text = .error e) ∨
      ∃ ts, tokenize text = .ok (ts ++ [⟨.eof, [], text.length⟩]) ∧
        (∀ t ∈ ts, t.lexeme ≠ .eof) ∧ Covers text ts) := by
  constructor
  · intro pos hpos
    exact scan_goes_on hpos
  · cases h : tokenize text with
    | error e => exact .inl ⟨e, rfl⟩
    | ok all =>
      obtain ⟨ts, hrounds, rfl⟩ := rounds_of_scan h
      rw [Nat.zero_add]
      have hcovers : Covers text ts :=
        ⟨by simpa using hrounds.pieces, hrounds.ordered, by simpa using hrounds.blanks⟩
      exact .inr ⟨ts, rfl, hcovers.ne_eof, hcovers⟩

/-- A `2` in a word is no part of a symbol, and `2>>` is one symbol. -/
theorem tokenize_covers_appendedErrors :
    (∃ next ts, 0 < next ∧
      Round 0 ("a2 2>>b".toList.take next) ("a2 2>>b".toList.drop next) ts) ∧
    ∃ ts, tokenize "a2 2>>b".toList = .ok (ts ++ [⟨.eof, [], 7⟩]) ∧ Covers "a2 2>>b".toList ts := by
  have hfirst : readWord 0 "a2 2>>b".toList = .ok ([.lit ['a'], .lit ['2']], " 2>>b".toList) := by
    decide +kernel
  have htokens : tokenize "a2 2>>b".toList = .ok
      [⟨.word [.lit ['a', '2']], ['a', '2'], 0⟩, ⟨.redirect .errors, ['2', '>', '>'], 3⟩,
        ⟨.word [.lit ['b']], ['b'], 6⟩, ⟨.eof, [], 7⟩] := by
    decide +kernel
  obtain ⟨hrounds, hall⟩ := tokenize_covers "a2 2>>b".toList
  constructor
  · rcases hrounds 0 (by decide) with ⟨e, he, -⟩ | ⟨next, ts, hnext, -, hround, -⟩
    · rw [List.drop_zero, hfirst] at he
      simp at he
    · exact ⟨next, ts, hnext, hround⟩
  · rcases hall with ⟨e, he⟩ | ⟨ts, hts, -, hcovers⟩
    · rw [htokens] at he
      simp at he
    · exact ⟨ts, hts, hcovers⟩

end LineShell
