import LineShell.Proofs.Quoting

/-!
# Commands as they are shown

A command is shown as a line of words with the signs of its redirects glued to their targets, for
a reader of logs and not for the reader of lines: nothing is quoted. Where nothing needs a quote
the line is read as the command that was shown, whatever words stand next to each other.

## The model

`Word.Plain` is a normal word whose literals need no quotes, and `Command.Plain` a command of such
words. A literal such as `2` needs none by itself, though in front of a `>` it would be taken for
a part of a symbol; what is shown has a blank in between. `Piece.shown` is a piece as it is shown.

## What is proved

* A command is shown as its pieces with a blank between any two (`Command.shown_eq`).
* A literal that needs no quotes is a writing of itself (`Part.readFrom_bare`), and what is shown
  of a word is cut as that word (`Word.Plain.lexes`).
* A symbol ends where a word starts (`symbol?_append_of_isBreak`), so a sign is cut from its
  target without a blank between them (`lexes_symbol_append`).
* So the pieces of a command are cut as what they are (`Command.Plain.lexes_pieces`).

For a command whose words do need quotes, what is shown may read as something else, or not at all.
-/

namespace LineShell

/-! ### What needs no quotes -/

/-- A normal word whose literals need no quotes: none is empty, and no character in them means
anything. -/
structure Word.Plain (w : Word) : Prop extends Word.Normal w where
  /-- There is text in each literal. -/
  filled : ∀ t, .lit t ∈ w → t ≠ []
  /-- The characters of literals stand for themselves. -/
  bare : ∀ t, .lit t ∈ w → ∀ c ∈ t, c ∉ specials

/-- A command whose words need no quotes. -/
def Command.Plain (c : Command) : Prop := ∀ w ∈ c.words, w.Plain

/-- A piece as it is shown. -/
def Piece.shown : Piece → Text
  | .word w => w.shown
  | .redirect s target append => sign s append ++ target.shown

/-- A command is shown as its pieces, with a blank between any two. -/
theorem Command.shown_eq (c : Command) : c.shown = joinWith [' '] (c.pieces.map Piece.shown) := by
  have hwords : Piece.shown ∘ Piece.word = Word.shown := rfl
  have hinput : (Piece.shown ∘ fun w => .redirect .input w false) = fun w => '<' :: w.shown := rfl
  have houtput : (Piece.shown ∘ fun r : Redirect => .redirect .output r.target r.append)
      = Redirect.shown := by
    funext ⟨target, append⟩
    cases append <;> rfl
  have herrors : (Piece.shown ∘ fun r : Redirect => .redirect .errors r.target r.append)
      = fun r => '2' :: r.shown := by
    funext ⟨target, append⟩
    cases append <;> rfl
  unfold shown pieces
  rw [List.map_append, List.map_append, List.map_append, List.map_map, hwords, ← Option.toList_map,
    ← Option.toList_map, ← Option.toList_map, Option.map_map, Option.map_map, Option.map_map, hinput,
    houtput, herrors, List.map_cons]

/-! ### Words that are shown -/

/-- A literal that needs no quotes is a writing of itself. -/
theorem Part.readFrom_bare {t : Text} (hne : t ≠ []) (ht : ∀ c ∈ t, c ∉ specials) :
    Part.ReadFrom (.lit t) t := by
  have hadmits : Style.bare.Admits t := ht
  obtain ⟨ts, rfl, hread⟩ := hadmits.renders
  refine ⟨ts.map .lit, fun qs => ?_, hread⟩
  cases ts with
  | nil => exact absurd rfl hne
  | cons u us => exact join_literals u us qs

namespace Word.Plain

variable {w : Word}

theorem readFrom (h : w.Plain) : ∀ p ∈ w, p.ReadFrom p.shown := by
  intro p hp
  cases p with
  | lit t => exact Part.readFrom_bare (h.filled t hp) (h.bare t hp)
  | var name => exact Part.readFrom_braced (h.named name hp)

/-- What is shown of a word starts like a word: no literal with a `2` goes on with a `>`. -/
theorem startsWord (h : w.Plain) : w.shown ≠ [] ∧ StartsWord w.shown := by
  cases w with
  | nil => exact absurd rfl h.ne_nil
  | cons p w =>
    cases p with
    | var name =>
      refine ⟨List.cons_ne_nil _ _, ?_⟩
      intro c cs hcs
      obtain ⟨rfl, -⟩ := List.cons.inj hcs
      exact ⟨by decide, fun h => absurd h (by decide)⟩
    | lit t =>
      have hfilled : t ≠ [] := h.filled t List.mem_cons_self
      have hplain : ∀ c ∈ t, c ∉ specials := h.bare t List.mem_cons_self
      obtain ⟨a, as, rfl⟩ := List.exists_cons_of_ne_nil hfilled
      refine ⟨List.cons_ne_nil _ _, ?_⟩
      intro c cs hcs
      obtain ⟨rfl, rfl⟩ := List.cons.inj hcs
      refine ⟨isBreak_of_notMem_specials (hplain a List.mem_cons_self), fun _ hhead => ?_⟩
      cases as with
      | cons b bs =>
        obtain rfl : b = '>' := by simpa using hhead
        exact hplain '>' (by simp) (by decide)
      | nil =>
        -- behind a literal of one character there is a variable, or nothing
        cases w with
        | nil => simp at hhead
        | cons q w =>
          cases q with
          | var name => simp [Part.shown] at hhead
          | lit u => exact absurd ⟨rfl, rfl⟩ (List.isChain_cons_cons.1 h.joined).1

/-- A word is cut as what it is where it is shown. -/
theorem lexes (h : w.Plain) : Lexes w.shown fun ts => ∃ t, ts = [t] ∧ t.lexeme = .word w :=
  lexes_flatMap h.toNormal h.readFrom h.startsWord.1 h.startsWord.2

end Word.Plain

/-! ### Signs in front of words -/

/-- No character but the first of a symbol can start a word. -/
theorem isBreak_of_mem_tail {e : Text × Lexeme} (he : e ∈ symbols) {c : Char} (hc : c ∈ e.1.tail) :
    isBreak c = true := by
  have hall : ∀ e ∈ symbols, e.1.tail.all isBreak = true := by decide
  exact List.all_eq_true.1 (hall e he) c hc

/-- A symbol ends where a word starts. -/
theorem symbol?_append_of_isBreak {value : Text} {c : Char} (hne : value ≠ [])
    (hc : isBreak c = false) (cs : Text) : symbol? (value ++ c :: cs) = symbol? value := by
  refine symbol?_append_cons hne (fun e he hmem => ?_) cs
  rw [isBreak_of_mem_tail he hmem] at hc
  cases hc

/-- A symbol is cut from a word behind it, without a blank between them. -/
theorem lexes_symbol_append {value text : Text} {l : Lexeme} {P : List Token → Prop}
    (h : (value, l) ∈ symbols) (hne : text ≠ []) (hstart : StartsWord text) (htext : Lexes text P) :
    Lexes (value ++ text) fun ts =>
      ∃ t us, ts = t :: us ∧ t.lexeme = l ∧ t.value = value ∧ P us := by
  intro pos rest hrest
  obtain ⟨c, cs, rfl⟩ := List.exists_cons_of_ne_nil hne
  obtain ⟨us, hus, hscan⟩ := htext (pos + value.length) rest hrest
  have hvalue : value ≠ [] := List.ne_nil_of_length_pos (length_pos_of_symbol (symbol?_of_mem _ h))
  have hsymbol : symbol? (value ++ (c :: cs ++ rest)) = some (value, l) := by
    rw [List.cons_append, symbol?_append_of_isBreak hvalue (hstart c cs rfl).1]
    exact symbol?_of_mem _ h
  have hlength : pos + value.length + (c :: cs).length = pos + (value ++ c :: cs).length := by
    rw [List.length_append]
    omega
  refine ⟨⟨l, value, pos⟩ :: us, ⟨_, us, rfl, rfl, rfl, hus⟩, ?_⟩
  calc scan pos (value ++ c :: cs ++ rest)
      = (scan (pos + value.length) (c :: cs ++ rest)).map (⟨l, value, pos⟩ :: ·) := by
        rw [List.append_assoc, scan_of_mem_symbols h hsymbol]
    _ = ((scan (pos + (value ++ c :: cs).length) rest).map (us ++ ·)).map (⟨l, value, pos⟩ :: ·) := by
        rw [hscan, hlength]
    _ = (scan (pos + (value ++ c :: cs).length) rest).map (⟨l, value, pos⟩ :: us ++ ·) := by
        cases scan (pos + (value ++ c :: cs).length) rest <;> simp [Except.map]

/-! ### Lines -/

/-- The pieces of a command that needs no quotes are cut as what they are where they are shown. -/
theorem Command.Plain.lexes_pieces {c : Command} (h : c.Plain) :
    ∀ p ∈ c.pieces, Lexes p.shown fun ts => Grammar.Spells ts [p] := by
  intro p hp
  rcases mem_pieces hp with ⟨w, hw, rfl⟩ | ⟨s, append, w, hw, rfl, hs⟩
  · refine (h w hw).lexes.imp fun ts hts => ?_
    obtain ⟨t, rfl, hl⟩ := hts
    exact .word hl .nil
  · obtain ⟨hne, hstart⟩ := (h w hw).startsWord
    refine (lexes_symbol_append (sign_mem_symbols s append) hne hstart (h w hw).lexes).imp
      fun ts hts => ?_
    obtain ⟨t, us, rfl, hl, hv, u, rfl, hu⟩ := hts
    exact appends_of_sign hs hv ▸ .redirect hl hu .nil

/-- **What is shown reads back.** A command whose words need no quotes is read from the line that it
is shown as: the same words, part by part, and the same redirects, flag by flag. -/
theorem parseLine_shown {c : Command} (h : c.Plain) :
    parseLine c.shown = .ok (some (.leaf none c)) := by
  have hne : c.pieces ≠ [] := by simp [Command.pieces]
  have hid (p : Piece) (hp : p ∈ c.pieces) : Lexes p.shown fun ts => Grammar.Spells ts [id p] :=
    h.lexes_pieces p hp
  have hlexes : Lexes c.shown fun ts => Grammar.Phrase 4 ts (.leaf none c) := by
    rw [Command.shown_eq]
    refine (lexes_joinWith hne hid).imp fun ts hts => ?_
    rw [List.map_id] at hts
    exact .command ⟨c.pieces, hts, c.ofPieces?_pieces⟩
  exact parseLine_of_lexes hlexes

/-- A `2` in front of redirects, and a variable glued to text in a target. -/
def crowdedCommand : Command :=
  ⟨[.lit ['2']], [[.lit ['a'], .var ['X'], .lit ['b']], [.lit ['2']]], some [.lit "2in".toList],
    some ⟨[.lit ['2']], true⟩, some ⟨[.var ['E'], .lit "rr".toList], false⟩⟩

theorem parseLine_shown_crowded :
    crowdedCommand.Plain ∧
      parseLine "2 a$\x7bX\x7db 2 <2in >>2 2>$\x7bE\x7drr".toList
        = .ok (some (.leaf none crowdedCommand)) := by
  have hlit (t : Text) (hne : t ≠ []) (ht : ∀ c ∈ t, c ∉ specials) : Word.Plain [.lit t] :=
    ⟨⟨by simp, .singleton _, by simp⟩, by simpa using hne, by simpa using ht⟩
  have hname : isIdentifier ['X'] = true ∧ isIdentifier ['E'] = true := by decide
  have hglued : Word.Plain [.lit ['a'], .var ['X'], .lit ['b']] :=
    ⟨⟨by simp, by simp [Part.isLiteral], by simp [hname]⟩, by simp, by simp [specials]⟩
  have htarget : Word.Plain [.var ['E'], .lit "rr".toList] :=
    ⟨⟨by simp, by simp [Part.isLiteral], by simp [hname]⟩, by simp, by simp [specials]⟩
  have htwo : Word.Plain [.lit ['2']] := hlit _ (by simp) (by simp [specials])
  have hinput : Word.Plain [.lit "2in".toList] := hlit _ (by simp) (by simp [specials])
  have hwords : crowdedCommand.words = [[.lit ['2']], [.lit ['a'], .var ['X'], .lit ['b']],
      [.lit ['2']], [.lit "2in".toList], [.lit ['2']], [.var ['E'], .lit "rr".toList]] := rfl
  have hplain : crowdedCommand.Plain := by
    unfold Command.Plain
    rw [hwords]
    simp only [List.forall_mem_cons]
    exact ⟨htwo, hglued, htwo, hinput, htwo, htarget, by simp⟩
  have hshown : crowdedCommand.shown = "2 a$\x7bX\x7db 2 <2in >>2 2>$\x7bE\x7drr".toList := by decide
  exact ⟨hplain, hshown ▸ parseLine_shown hplain⟩

end LineShell
