import LineShell.Proofs.Separators

/-!
# Texts of several lines

A text is read as its lines are, one after the other: where a line ends with a token for its end,
the text is cut there. The commands of the lines make one sequence, and separators at the ends of
lines make no difference.

## The model

* `Tree.row` are the trees that the sequence of a tree runs one after the other, and `Tree.before`
  puts a tree in front of another one, as the very first operand of its sequence.
* `Grammar.Reads` relates the tokens of a text to the trees that the text runs one after the
  other, none of them where there is no command.
* `EndsLine` asks of a line that its last token be its end, so that the end is not a part of a
  word.

## What is proved

* What tokens mean does not depend on where they stand (`Line.moved`).
* A phrase with a tree in front of it is the phrase of the tree that is put together so
  (`Phrase.before`), by induction on the left edge of the sequence. So a text behind another one
  that ends with a separator adds its trees to the row (`Reads.append`).
* Lines that end as lines do are cut, put together, into the tokens of the lines (`scan_flatten`),
  and are read as the lines are (`exists_of_parseLine_lines`). All lines of a text but the last
  one end with a newline (`getLast?_of_mem_linesOf`).

A line whose end stands in quotes or behind a backslash goes on in the next line of the text. Such
lines are left out.
-/

namespace LineShell

/-! ### Sequences -/

namespace Tree

/-- The trees that the sequence of a tree runs one after the other. -/
def row : Tree → List Tree
  | .binary _ .sequential l r => row l ++ [r]
  | t => [t]

/-- The tree that runs a tree first and then another one: the first one becomes the very first
operand of the other one's sequence. -/
def before (t : Tree) : Tree → Tree
  | .binary m .sequential l r => .binary m .sequential (before t l) r
  | u => .binary none .sequential t u

theorem row_before (t u : Tree) : (t.before u).row = t.row ++ u.row := by
  fun_induction before t u with
  | case1 m l r ih => rw [row, row, ih, List.append_assoc]
  | case2 u hu =>
    rw [row]
    congr 1
    unfold row
    split
    · next m l r => exact absurd rfl (hu m l r)
    · rfl

theorem before_of_level {t u : Tree} (h : 0 < u.level) :
    t.before u = .binary none .sequential t u := by
  unfold before
  split
  · exact absurd h (Nat.lt_irrefl 0)
  · rfl

end Tree

namespace Grammar

section Moved

variable (d : Int)

theorem Spells.moved {ts : List Token} {ps : List Piece} (h : Spells ts ps) :
    Spells (ts.map (Token.moved d)) ps := by
  induction h with
  | nil => exact .nil
  | word ht _ ih => exact .word ht ih
  | redirect ht hw _ ih => exact .redirect ht hw ih

theorem Blank.moved {ts : List Token} (h : Blank ts) : Blank (ts.map (Token.moved d)) := by
  intro t ht
  obtain ⟨u, hu, rfl⟩ := List.mem_map.1 ht
  exact h u hu

theorem Joint.moved {op : Operator} {ts : List Token} (h : Joint op ts) :
    Joint op (ts.map (Token.moved d)) := by
  cases h with
  | symbol ht => exact .symbol ht
  | separators hne hs => exact .separators (by simpa using hne) (hs.moved d)

theorem Phrase.moved {n : Nat} {ts : List Token} {t : Tree} (h : Phrase n ts t) :
    Phrase n (ts.map (Token.moved d)) t := by
  induction h with
  | command hc =>
    obtain ⟨ps, hs, hps⟩ := hc
    exact .command ⟨ps, hs.moved d, hps⟩
  | lift _ ih => exact .lift ih
  | join _ hj _ ihl ihr =>
    rw [List.map_append, List.map_append]
    exact .join ihl (hj.moved d) ihr

/-- What tokens mean does not depend on where they stand. -/
theorem Line.moved {ts : List Token} {t : Tree} (h : Line ts t) :
    Line (ts.map (Token.moved d)) t := by
  obtain ⟨as, us, bs, rfl, ha, hp, hb⟩ := h
  exact ⟨_, _, _, by simp, ha.moved d, hp.moved d, hb.moved d⟩

end Moved

/-! ### One line after the other -/

theorem Spells.not_separator {ts : List Token} {ps : List Piece} (h : Spells ts ps) :
    ∀ t ∈ ts, t.lexeme.isSeparator = false := by
  induction h with
  | nil => simp
  | word ht _ ih => exact List.forall_mem_cons.2 ⟨by simp [ht, Lexeme.isSeparator], ih⟩
  | redirect ht hw _ ih =>
    refine List.forall_mem_cons.2 ⟨by simp [ht, Lexeme.isSeparator], ?_⟩
    exact List.forall_mem_cons.2 ⟨by simp [hw, Lexeme.isSeparator], ih⟩

/-- A phrase ends with a command. -/
theorem Phrase.exists_last {n : Nat} {ts : List Token} {t : Tree} (h : Phrase n ts t) :
    ∃ us u, ts = us ++ [u] ∧ u.lexeme.isSeparator = false := by
  induction h with
  | @command ts c hc =>
    obtain ⟨ps, hs, hps⟩ := hc
    have hts : ts ≠ [] := by
      rintro rfl
      cases hs
      simp [Command.ofPieces?] at hps
    refine ⟨ts.dropLast, ts.getLast hts, (List.dropLast_concat_getLast hts).symm, ?_⟩
    exact hs.not_separator _ (List.getLast_mem hts)
  | lift _ ih => exact ih
  | join _ _ _ _ ihr =>
    obtain ⟨us, u, rfl, hu⟩ := ihr
    exact ⟨_, u, (List.append_assoc _ us [u]).symm, hu⟩

/-- A sequence with a tree in front of it. The induction follows the left edge of the sequence. -/
theorem Phrase.before {ts js us : List Token} {t u : Tree} (ht : Phrase 0 ts t)
    (hj : Joint .sequential js) (hu : Phrase 0 us u) : Phrase 0 (ts ++ js ++ us) (t.before u) := by
  generalize hn : 0 = n at hu
  induction hu with
  | command => simp at hn
  | @lift n us u hu =>
    subst hn
    rw [Tree.before_of_level hu.le_level]
    show Phrase Operator.sequential.level _ _
    exact .join ht hj hu
  | @join op us ks vs l r hl hk hr ihl =>
    cases op with
    | sequential =>
      have hleft : Phrase Operator.sequential.level _ _ := ihl rfl
      have hjoin := hleft.join hk hr
      simpa [Tree.before, List.append_assoc] using hjoin
    | parallel => simp [Operator.level] at hn
    | conditionalAnd => simp [Operator.level] at hn
    | conditionalOr => simp [Operator.level] at hn
    | pipe => simp [Operator.level] at hn

/-- The tokens of a text, and the trees that the text runs one after the other. -/
def Reads (ts : List Token) (ps : List Tree) : Prop :=
  Blank ts ∧ ps = [] ∨ ∃ t, Line ts t ∧ t.row = ps

theorem Reads.moved {ts : List Token} {ps : List Tree} (d : Int) (h : Reads ts ps) :
    Reads (ts.map (Token.moved d)) ps := by
  rcases h with ⟨hb, rfl⟩ | ⟨t, ht, rfl⟩
  · exact Or.inl ⟨hb.moved d, rfl⟩
  · exact Or.inr ⟨t, ht.moved d, rfl⟩

theorem Blank.append {ts us : List Token} (h : Blank ts) (h' : Blank us) : Blank (ts ++ us) :=
  List.forall_mem_append.2 ⟨h, h'⟩

/-- The first text ends with a separator, so what follows it is a further part of its sequence. -/
theorem Reads.append {ts us : List Token} {nl : Token} {ps qs : List Tree}
    (h : Reads (ts ++ [nl]) ps) (hnl : nl.lexeme.isSeparator = true) (h' : Reads us qs) :
    Reads (ts ++ [nl] ++ us) (ps ++ qs) := by
  rcases h with ⟨hb, rfl⟩ | ⟨t, ⟨as, vs, bs, hts, ha, hp, hb⟩, rfl⟩
  · rcases h' with ⟨hb', rfl⟩ | ⟨u, ⟨as, vs, bs, rfl, ha, hp, hb'⟩, rfl⟩
    · exact Or.inl ⟨hb.append hb', rfl⟩
    · exact Or.inr ⟨u, ⟨_, vs, bs, by simp, hb.append ha, hp, hb'⟩, rfl⟩
  · rcases h' with ⟨hb', rfl⟩ | ⟨u, ⟨cs, ws, ds, rfl, hc, hp', hd⟩, rfl⟩
    · rw [hts, List.append_nil]
      exact Or.inr ⟨t, ⟨as, vs, bs ++ us, by simp, ha, hp, hb.append hb'⟩, rfl⟩
    · have hne : bs ≠ [] := by
        rintro rfl
        obtain ⟨xs, x, rfl, hx⟩ := hp.exists_last
        rw [List.append_nil, ← List.append_assoc] at hts
        obtain ⟨-, heq⟩ := List.append_inj' hts rfl
        obtain rfl := List.singleton_inj.1 heq
        simp [hnl] at hx
      have hjoint : Joint .sequential (bs ++ cs) := .separators (by simp [hne]) (hb.append hc)
      rw [hts, ← Tree.row_before]
      exact Or.inr ⟨_, ⟨as, _, ds, by simp, ha, hp.before hjoint hp', hd⟩, rfl⟩

end Grammar

/-! ### The lines of a text -/

/-- The trees that a text runs one after the other. -/
def rowOf : Option Tree → List Tree
  | none => []
  | some t => t.row

/-- The trees that a line runs; a line that cannot be read runs none. -/
def lineRow (line : Text) : List Tree :=
  match parseLine line with
  | .ok tree => rowOf tree
  | .error _ => []

/-- The last token of a line is its end, so that the end is not a part of a word. -/
def EndsLine (line : Text) : Prop :=
  ∃ ts nl e, tokenize line = .ok (ts ++ [nl, e]) ∧ nl.lexeme = .newline

theorem reads_of_parseLine {text : Text} {r : Option Tree} (h : parseLine text = .ok r) :
    ∃ ts e, tokenize text = .ok (ts ++ [e]) ∧ e.lexeme = .eof ∧ Grammar.Reads ts (rowOf r) := by
  cases r with
  | none =>
    obtain ⟨ts, e, htokens, he, hblank⟩ := parseLine_eq_none_iff.1 h
    exact ⟨ts, e, htokens, he, Or.inl ⟨hblank, rfl⟩⟩
  | some t =>
    obtain ⟨ts, e, htokens, he, hline⟩ := parseLine_eq_some_iff.1 h
    exact ⟨ts, e, htokens, he, Or.inr ⟨t, hline, rfl⟩⟩

theorem parseLine_of_reads {text : Text} {ts : List Token} {e : Token} {ps : List Tree}
    (h : tokenize text = .ok (ts ++ [e])) (he : e.lexeme = .eof) (hr : Grammar.Reads ts ps) :
    ∃ r, parseLine text = .ok r ∧ rowOf r = ps := by
  rcases hr with ⟨hblank, rfl⟩ | ⟨t, hline, rfl⟩
  · exact ⟨none, parseLine_eq_none_iff.2 ⟨ts, e, h, he, hblank⟩, rfl⟩
  · exact ⟨some t, parseLine_eq_some_iff.2 ⟨ts, e, h, he, hline⟩, rfl⟩

/-- Lines that end as lines do, put together, are cut into the tokens of the lines. -/
theorem scan_flatten {lines : List Text} (hparse : ∀ line ∈ lines, ∃ r, parseLine line = .ok r)
    (hends : ∀ line ∈ lines.dropLast, EndsLine line) (pos : Nat) :
    ∃ ts e, scan pos lines.flatten = .ok (ts ++ [e]) ∧ e.lexeme = .eof ∧
      Grammar.Reads ts (lines.flatMap lineRow) := by
  induction lines generalizing pos with
  | nil => exact ⟨[], _, scan_nil pos, rfl, Or.inl ⟨by simp [Grammar.Blank], rfl⟩⟩
  | cons line lines ih =>
    obtain ⟨⟨r, hr⟩, hparse⟩ := List.forall_mem_cons.1 hparse
    obtain ⟨ts, e, htokens, he, hreads⟩ := reads_of_parseLine hr
    have hrow : lineRow line = rowOf r := by rw [lineRow, hr]
    rw [List.flatMap_cons, List.flatten_cons, hrow]
    cases lines with
    | nil =>
      have hscan := scan_append htokens .nothing (Int.zero_add pos).symm rfl
      rw [scan_nil] at hscan
      refine ⟨_, _, hscan, rfl, ?_⟩
      simpa using hreads.moved pos
    | cons next lines =>
      obtain ⟨vs, nl, f, hvs, hnl⟩ := hends line (by simp)
      have hends' : ∀ line ∈ (next :: lines).dropLast, EndsLine line :=
        fun line hl => hends line (List.mem_cons_of_mem _ hl)
      obtain ⟨us, g, hus, hg, hreads'⟩ := ih hparse hends' (pos + line.length)
      have hsplit : (vs ++ [nl]) ++ [f] = ts ++ [e] := by
        rw [List.append_assoc]
        exact Except.ok.inj (hvs.symm.trans htokens)
      obtain ⟨rfl, -⟩ := List.append_inj' hsplit rfl
      have hclosing : Closing (vs ++ [nl]) (next :: lines).flatten := by
        intro _ t ht
        rw [List.getLast?_concat] at ht
        obtain rfl := Option.some.inj ht
        exact hnl
      have hscan := scan_append htokens (.line hclosing) (Int.zero_add pos).symm rfl
      rw [hus] at hscan
      have hsplit : (vs ++ [nl]).map (Token.moved pos) ++ (us ++ [g])
          = (vs ++ [nl]).map (Token.moved pos) ++ us ++ [g] := (List.append_assoc _ _ _).symm
      refine ⟨_, g, hscan.trans (congrArg _ hsplit), hg, ?_⟩
      have hmoved := hreads.moved pos
      rw [List.map_append] at hmoved ⊢
      exact hmoved.append (by simp [hnl, Lexeme.isSeparator]) hreads'

/-- A text is read as its lines are, one after the other. -/
theorem exists_of_parseLine_lines {lines : List Text}
    (hparse : ∀ line ∈ lines, ∃ r, parseLine line = .ok r)
    (hends : ∀ line ∈ lines.dropLast, EndsLine line) :
    ∃ r, parseLine lines.flatten = .ok r ∧ rowOf r = lines.flatMap lineRow := by
  obtain ⟨ts, e, hscan, he, hreads⟩ := scan_flatten hparse hends 0
  exact parseLine_of_reads hscan he hreads

/-- All lines of a text but the last one end with a newline. -/
theorem getLast?_of_mem_linesOf (text : Text) :
    ∀ line ∈ (linesOf text).dropLast, line.getLast? = some '\n' := by
  induction text with
  | nil => simp [linesOf]
  | cons c cs ih =>
    unfold linesOf
    by_cases hc : c = '\n'
    · subst hc
      rw [if_pos rfl]
      cases hcs : linesOf cs with
      | nil => simp
      | cons line lines =>
        rw [hcs] at ih
        rw [List.dropLast_cons_of_ne_nil (List.cons_ne_nil _ _)]
        exact List.forall_mem_cons.2 ⟨rfl, ih⟩
    · rw [if_neg hc]
      cases hcs : linesOf cs with
      | nil => simp
      | cons line lines =>
        rw [hcs] at ih
        cases lines with
        | nil => simp
        | cons next lines =>
          rw [List.dropLast_cons_of_ne_nil (List.cons_ne_nil _ _)] at ih ⊢
          obtain ⟨hline, hlines⟩ := List.forall_mem_cons.1 ih
          refine List.forall_mem_cons.2 ⟨?_, hlines⟩
          rw [List.getLast?_cons, hline]
          rfl

/-- A text whose lines can be read and end as lines do is read as its lines are. -/
theorem exists_of_parseLine_linesOf {text : Text}
    (hparse : ∀ line ∈ linesOf text, ∃ r, parseLine line = .ok r)
    (hends : ∀ line ∈ linesOf text, line.getLast? = some '\n' → EndsLine line) :
    ∃ r, parseLine text = .ok r ∧ rowOf r = (linesOf text).flatMap lineRow := by
  have hfront : ∀ line ∈ (linesOf text).dropLast, EndsLine line := by
    intro line hl
    apply hends line (List.dropLast_subset _ hl)
    exact getLast?_of_mem_linesOf text line hl
  have hread := exists_of_parseLine_lines hparse hfront
  rwa [flatten_linesOf] at hread

end LineShell
