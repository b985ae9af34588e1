import LineShell.Proofs.Covering

/-!
# Texts cut at separators

What a text is cut into depends neither on where the text stands nor on what follows it, as long
as the two are parted: the last token of the text is the end of a line, or a separator follows
that no backslash at the end of the text protects. So a text that holds such a separator is cut
into what its two sides are cut into.

## The model

* `Token.moved` is a token at another place.
* `Closing` says that the last token of a text is the end of a line, unless nothing follows the
  text.
* `Parted` puts the two ways together in which a text and what follows it can be parted. It is
  stated of what is cut from the text, since an end of a line in quotes parts nothing.
* `separators` are the characters that part words and commands.

## What is proved

* Parted texts stay parted when a symbol or a word is cut off the front (`Parted.of_cons`), so the
  induction over the scan goes through: a text is cut alike wherever it stands and whatever
  follows that is parted from it (`scan_append`, `scan_moved`).
* A separator is cut from whatever follows it, and a blank is no token (`scan_separator`).
* Whether the last backslash of a text protects what follows is told by the text alone
  (`Hanging.of_readWord`), even where the text can be cut.

The main result is an equivalence: the whole can be cut exactly if what follows the separator can.
Where a backslash does protect the separator nothing is said.
-/

namespace LineShell

/-! ### Tokens that stand elsewhere -/

namespace Token

/-- A token at another place. -/
def moved (d : Int) (t : Token) : Token := { t with pos := t.pos + d }

@[simp] theorem lexeme_moved (d : Int) (t : Token) : (t.moved d).lexeme = t.lexeme := rfl

@[simp] theorem moved_zero (t : Token) : t.moved 0 = t := by
  simp only [moved, Int.add_zero]

theorem map_moved_zero (ts : List Token) : ts.map (moved 0) = ts :=
  List.map_id'' moved_zero ts

/-- A token that was moved is moved back. -/
theorem map_moved_neg (d : Int) (ts : List Token) : (ts.map (moved (-d))).map (moved d) = ts := by
  have hback (t : Token) : (t.moved (-d)).moved d = t := by
    simp only [moved, Int.neg_add_cancel_right]
  rw [List.map_map]
  exact List.map_id'' hback ts

end Token

/-- Only the end of a line is cut as such. -/
theorem eq_newline_of_symbol? {cs value : Text} {l : Lexeme} (h : symbol? cs = some (value, l))
    (hl : l = .newline) : value = ['\n'] := by
  have hall : ∀ e ∈ symbols, e.2 = .newline → e.1 = ['\n'] := by decide
  exact hall _ (List.mem_of_find?_eq_some h) hl

theorem mem_newline_of_scan {pos : Nat} {cs : Text} {ts : List Token} (h : scan pos cs = .ok ts)
    {t : Token} (ht : t ∈ ts) (hnl : t.lexeme = .newline) : '\n' ∈ cs := by
  fun_induction scan pos cs generalizing ts with
  | case1 pos =>
    obtain rfl := Except.ok.inj h
    obtain rfl := List.mem_singleton.1 ht
    simp at hnl
  | case2 pos c cs hs ih => exact List.mem_cons_of_mem _ (ih h ht)
  | case3 pos c cs hs value lexeme ho ih =>
    obtain ⟨vs, hv, rfl⟩ := exists_of_map_eq_ok h
    rcases List.mem_cons.1 ht with rfl | ht
    · rw [eq_append_of_symbol? ho, eq_newline_of_symbol? ho hnl]
      simp
    · exact List.mem_of_mem_drop (ih hv ht)
  | case4 => simp at h
  | case5 pos c cs hs ho ps rest hw ih =>
    obtain ⟨vs, hv, rfl⟩ := exists_of_map_eq_ok h
    rcases List.mem_cons.1 ht with rfl | ht
    · simp at hnl
    · exact (suffix_of_readWord hw).subset (ih hv ht)

/-! ### What parts two texts -/

/-- The last token of a text is the end of a line, unless nothing follows the text. -/
def Closing (ts : List Token) (behind : Text) : Prop :=
  behind ≠ [] → ∀ t, ts.getLast? = some t → t.lexeme = .newline

namespace Closing

variable {pos : Nat} {cs behind : Text} {t : Token} {ts us : List Token}

theorem of_cons (h : Closing (t :: ts) behind) : Closing ts behind := by
  intro hb u hu
  refine h hb u ?_
  rw [List.getLast?_cons, hu]
  rfl

/-- As long as the end of a line is still to come, there is one in the text. -/
theorem mem_newline (h : Closing ts behind) (hts : ts ≠ []) (hscan : scan pos cs = .ok (ts ++ us))
    (hb : behind ≠ []) : '\n' ∈ cs := by
  have hlast := h hb (ts.getLast hts) (List.getLast?_eq_some_getLast hts)
  exact mem_newline_of_scan hscan (List.mem_append_left us (List.getLast_mem hts)) hlast

/-- A word is not the end of a line, so that is still to come. -/
theorem eq_nil_of_word {w : Word} (h : Closing (t :: ts) behind) (ht : t.lexeme = .word w)
    (hscan : scan pos [] = .ok (ts ++ us)) : behind = [] := by
  by_contra hb
  have hts : ts ≠ [] := by
    rintro rfl
    simpa [ht] using h hb t rfl
  exact absurd (h.of_cons.mem_newline hts hscan hb) List.not_mem_nil

end Closing

/-- The characters that part words and commands: blanks, the end of a line, and `;`. -/
def separators : List Char := [' ', '\t', '\n', ';']

theorem isBreak_of_mem_separators {c : Char} (hc : c ∈ separators) : isBreak c = true := by
  have hall : separators.all isBreak = true := by decide
  exact List.all_eq_true.1 hall c hc

/-- No symbol goes on with a separator. -/
theorem notMem_tail_of_mem_separators {c : Char} (hc : c ∈ separators) :
    ∀ e ∈ symbols, c ∉ e.1.tail := by
  have hall : separators.all (fun c => symbols.all fun e => !e.1.tail.contains c) = true := by decide
  have hsymbols := List.all_eq_true.1 (List.all_eq_true.1 hall c hc)
  intro e he hmem
  simpa [hmem] using hsymbols e he

/-- What is cut from a text and what follows the text are parted: the last token is the end of a
line, or a separator follows that no backslash protects. -/
inductive Parted (cs : Text) (ts : List Token) : Text → Prop where
  /-- A line ends. -/
  | line {behind : Text} (h : Closing ts behind) : Parted cs ts behind
  /-- A separator follows. -/
  | separator {c : Char} {behind : Text} (hc : c ∈ separators) (h : ¬ Hanging cs) :
    Parted cs ts (c :: behind)

namespace Parted

variable {cs rest behind : Text} {t : Token} {ts us : List Token}

/-- Nothing follows. -/
theorem nothing : Parted cs ts [] := .line fun h => absurd rfl h

/-- What parts two texts parts the end of the first one from the second one too. -/
theorem of_hanging (h : Parted cs ts behind) (himp : Hanging rest → Hanging cs) :
    Parted rest ts behind := by
  cases h with
  | line h => exact .line h
  | separator hc h => exact .separator hc fun hr => h (himp hr)

theorem of_cons (h : Parted cs (t :: ts) behind) : Parted cs ts behind := by
  cases h with
  | line h => exact .line h.of_cons
  | separator hc h => exact .separator hc h

/-- Nothing behind such a text has a part in its first symbol. -/
theorem symbol? {pos : Nat} (h : Parted cs (t :: ts) behind) (hne : cs ≠ [])
    (hscan : scan pos cs = .ok (t :: ts ++ us)) :
    LineShell.symbol? (cs ++ behind) = LineShell.symbol? cs := by
  cases h with
  | line h =>
    by_cases hb : behind = []
    · rw [hb, List.append_nil]
    · exact symbol?_append (Or.inr rfl) (h.mem_newline (List.cons_ne_nil t ts) hscan hb) behind
  | @separator c behind hc =>
    exact symbol?_append_cons hne (notMem_tail_of_mem_separators hc) behind

/-- A word at the end of such a text ends there. -/
theorem endsWord {pos : Nat} {w : Word} (h : Parted cs (t :: ts) behind) (ht : t.lexeme = .word w)
    (hscan : scan pos [] = .ok (ts ++ us)) : EndsWord cs behind := by
  cases h with
  | line h => exact h.eq_nil_of_word ht hscan ▸ EndsWord.nil
  | separator hc h =>
    intro d hd
    obtain rfl := Option.some.inj hd
    exact ⟨isBreak_of_mem_separators hc, h⟩

end Parted

/-! ### Cutting parted texts -/

theorem map_nil_append (r : Except LexError (List Token)) : r.map ([] ++ ·) = r := by
  cases r <;> rfl

theorem map_append_map (as bs : List Token) (r : Except LexError (List Token)) :
    (r.map (bs ++ ·)).map (as ++ ·) = r.map (as ++ bs ++ ·) := by
  cases r <;> simp [Except.map]

/-- Symbols have no backslashes. -/
theorem Hanging.of_symbol {cs value : Text} {l : Lexeme} (h : symbol? cs = some (value, l))
    (hrest : Hanging (cs.drop value.length)) : Hanging cs := by
  have hall : ∀ e ∈ symbols, e.1.all (· ≠ '\\') = true := by decide
  have hvalue := List.all_eq_true.1 (hall _ (List.mem_of_find?_eq_some h))
  rw [eq_append_of_symbol? h]
  generalize cs.drop value.length = rest at hrest
  clear h hall
  induction value with
  | nil => exact hrest
  | cons c value ih =>
    obtain ⟨hc, hvalue⟩ := List.forall_mem_cons.1 hvalue
    exact (ih hvalue).cons (by simpa using hc)

/-- A word goes up to its break, whatever stands behind that. -/
theorem Hanging.of_readWord {pos : Nat} {cs rest : Text} {ps : List Part}
    (h : readWord pos cs = .ok (ps, rest)) (hrest : Hanging rest) : Hanging cs := by
  cases rest with
  | nil => exact absurd hrest (by decide)
  | cons c rest =>
    have hc : c ≠ '\\' := by
      rintro rfl
      exact absurd (ended_of_readWord h _ rfl) (by decide)
    exact (hanging_iff_of_suffix hc (suffix_of_readWord h)).2 ((hanging_cons_iff hc rest).1 hrest)

/-- The end of the input is never the first of two tokens. -/
theorem exists_of_map_scan {pos : Nat} {cs : Text} {t e : Token} {ts : List Token}
    (h : (scan pos cs).map (t :: ·) = .ok (ts ++ [e])) :
    ∃ ws, ts = t :: ws ∧ scan pos cs = .ok (ws ++ [e]) := by
  obtain ⟨vs, hv, hvs⟩ := exists_of_map_eq_ok h
  obtain ⟨ws, f, rfl, -⟩ := exists_end_of_scan hv
  have hsplit : (t :: ws) ++ [f] = ts ++ [e] := hvs
  obtain ⟨rfl, hf⟩ := List.append_inj' hsplit rfl
  obtain rfl := List.singleton_inj.1 hf
  exact ⟨ws, rfl, hv⟩

/-- A text is cut alike wherever it stands and whatever follows that is parted from it. -/
theorem scan_append {pos start stop : Nat} {d : Int} {cs behind : Text} {ts : List Token}
    {e : Token} (h : scan pos cs = .ok (ts ++ [e])) (hparted : Parted cs ts behind)
    (hstart : (start : Int) = pos + d) (hstop : stop = start + cs.length) :
    scan start (cs ++ behind) = (scan stop behind).map (ts.map (Token.moved d) ++ ·) := by
  fun_induction scan pos cs generalizing ts start with
  | case1 pos =>
    have hts : ts = [] := by
      have := congrArg List.length (Except.ok.inj h)
      simpa using this.symm
    subst hts hstop
    exact (map_nil_append _).symm
  | case2 pos c cs hs ih =>
    have hc : c ≠ '\\' := by
      rintro rfl
      exact absurd hs (by decide)
    rw [List.cons_append, scan_space hs]
    rw [List.length_cons] at hstop
    exact ih h (hparted.of_hanging (Hanging.cons hc)) (by omega) (by omega)
  | case3 pos c cs hs value lexeme ho ih =>
    obtain ⟨ws, rfl, hv⟩ := exists_of_map_scan h
    have hs' : isSpace c = false := by simpa using hs
    have hsymbol := hparted.symbol? (List.cons_ne_nil _ _) ((scan_symbol hs' ho pos).trans h)
    rw [ho, List.cons_append] at hsymbol
    have hlength : value.length ≤ (c :: cs).length := by
      have := congrArg List.length (eq_append_of_symbol? ho)
      rw [List.length_append] at this
      omega
    have hrest : scan (start + value.length) ((c :: cs).drop value.length ++ behind) = _ :=
      ih hv (hparted.of_cons.of_hanging (Hanging.of_symbol ho)) (by omega)
        (by rw [List.length_drop]; omega)
    rw [List.cons_append, scan_symbol hs' hsymbol, ← List.cons_append,
      List.drop_append_of_le_length hlength, hrest]
    cases scan stop behind <;> simp [Except.map, Token.moved, hstart]
  | case4 => simp at h
  | case5 pos c cs hs ho ps rest hw ih =>
    obtain ⟨ws, rfl, hv⟩ := exists_of_map_scan h
    have hs' : isSpace c = false := by simpa using hs
    have hsymbol := hparted.symbol? (List.cons_ne_nil _ _) ((scan_word hs' ho hw).trans h)
    have hends : rest = [] → EndsWord (c :: cs) behind := fun hr =>
      hparted.endsWord rfl (hr ▸ hv)
    have hword := readWord_append start behind hw hends
    have hlength : rest.length ≤ (c :: cs).length := (suffix_of_readWord hw).length_le
    have htaken : (c :: cs ++ behind).length - (rest ++ behind).length
        = (c :: cs).length - rest.length := by
      rw [List.length_append, List.length_append]
      omega
    have hrest : scan (start + ((c :: cs).length - rest.length)) (rest ++ behind) = _ :=
      ih hv (hparted.of_cons.of_hanging (Hanging.of_readWord hw)) (by omega) (by omega)
    rw [ho, List.cons_append] at hsymbol
    rw [List.cons_append] at hword htaken
    rw [List.cons_append, scan_word hs' hsymbol hword, htaken, hrest, ← List.cons_append,
      List.take_append_of_le_length (Nat.sub_le _ _)]
    cases scan stop behind <;> simp [Except.map, Token.moved, hstart]

/-- A text that can be cut somewhere is cut alike wherever it stands. -/
theorem scan_moved {pos start : Nat} {d : Int} {cs : Text} {ts : List Token}
    (h : scan pos cs = .ok ts) (hstart : (start : Int) = pos + d) :
    scan start cs = .ok (ts.map (Token.moved d)) := by
  obtain ⟨us, -, rfl⟩ := rounds_of_scan h
  have hscan := scan_append h .nothing hstart rfl
  rw [List.append_nil, scan_nil] at hscan
  rw [hscan, List.map_append]
  simp only [Except.map, List.map_cons, List.map_nil, Token.moved]
  congr 5
  omega

/-! ### Cutting at a separator -/

/-- What a separator at `pos` is cut into: a blank is no token. -/
def separatorTokens (c : Char) (pos : Int) : List Token :=
  if isSpace c then [] else [⟨if c = ';' then .semicolon else .newline, [c], pos⟩]

/-- A separator is cut from whatever follows it. -/
theorem scan_separator {c : Char} (hc : c ∈ separators) (pos : Nat) (cs : Text) :
    scan pos (c :: cs) = (scan (pos + 1) cs).map (separatorTokens c pos ++ ·) := by
  simp only [separators, List.mem_cons, List.not_mem_nil, or_false] at hc
  rcases hc with rfl | rfl | rfl | rfl
  · exact (scan_space rfl pos cs).trans (map_nil_append _).symm
  · exact (scan_space rfl pos cs).trans (map_nil_append _).symm
  · exact scan_symbol rfl rfl pos
  · exact scan_symbol rfl rfl pos

/-- **A text is cut at its separators.** Where a text can be cut, and no backslash at its end
protects the separator behind it, the whole can be cut exactly if what follows the separator can.
Its tokens are those of the first side without the end of its input, that of the separator, and
those of the other side, as they are but for the places where they stand now. -/
theorem tokenize_separator {a : Text} {ts : List Token} (ha : tokenize a = .ok ts)
    (hend : ¬ Hanging a) {c : Char} (hc : c ∈ separators) (b : Text) :
    ∃ as, ts = as ++ [⟨.eof, [], a.length⟩] ∧
      ∀ us, tokenize (a ++ c :: b) = .ok us ↔
        ∃ bs, tokenize b = .ok bs ∧
          us = as ++ separatorTokens c a.length ++ bs.map (Token.moved (a.length + 1)) := by
  obtain ⟨as, -, rfl⟩ := rounds_of_scan ha
  have hparted : Parted a as (c :: b) := .separator hc hend
  have hfirst := scan_append ha hparted (Int.add_zero _).symm rfl
  rw [scan_separator hc, map_append_map] at hfirst
  rw [Nat.zero_add, Token.map_moved_zero] at hfirst
  rw [Nat.zero_add]
  refine ⟨as, rfl, fun us => ?_⟩
  rw [tokenize, hfirst]
  constructor
  · intro h
    obtain ⟨vs, hvs, rfl⟩ := exists_of_map_eq_ok h
    have hback : scan 0 b = .ok (vs.map (Token.moved (-(a.length + 1)))) :=
      scan_moved hvs (by omega)
    exact ⟨_, hback, by rw [Token.map_moved_neg]⟩
  · rintro ⟨bs, hbs, rfl⟩
    have hmoved : scan (a.length + 1) b = .ok (bs.map (Token.moved (a.length + 1))) :=
      scan_moved hbs (by omega)
    rw [hmoved]
    rfl

/-- A quoted backslash and one that another one protects protect nothing, and the `2` behind the
separator starts a symbol. -/
theorem tokenize_separator_backslashes :
    let a := "x\x27\\\x27\\\\".toList
    let word : Token := ⟨.word [.lit "x\\\\".toList], a, 0⟩
    let errors : Token := ⟨.redirect .errors, "2>".toList, 0⟩
    let target : Token := ⟨.word [.lit ['f']], ['f'], 2⟩
    tokenize a = .ok [word, ⟨.eof, [], 6⟩] ∧ ¬ Hanging a ∧ ';' ∈ separators ∧
      tokenize "2>f".toList = .ok [errors, target, ⟨.eof, [], 3⟩] ∧
      tokenize (a ++ ';' :: "2>f".toList)
        = .ok [word, ⟨.semicolon, [';'], 6⟩, errors.moved 7, target.moved 7, ⟨.eof, [], 10⟩] := by
  intro a word errors target
  have ha : tokenize a = .ok [word, ⟨.eof, [], 6⟩] := by decide +kernel
  have hend : ¬ Hanging a := by decide +kernel
  have hb : tokenize "2>f".toList = .ok [errors, target, ⟨.eof, [], 3⟩] := by decide +kernel
  refine ⟨ha, hend, by decide, hb, ?_⟩
  obtain ⟨as, has, hall⟩ := tokenize_separator ha hend (show ';' ∈ separators by decide) "2>f".toList
  have hsplit : as ++ [⟨.eof, [], 6⟩] = [word] ++ [⟨.eof, [], 6⟩] := has.symm
  obtain ⟨rfl, -⟩ := List.append_inj' hsplit rfl
  exact (hall _).2 ⟨_, hb, rfl⟩

/-- A separator that a backslash protects is a part of a word. -/
example : tokenize ['\\', ';'] = .ok [⟨.word [.lit [';']], ['\\', ';'], 0⟩, ⟨.eof, [], 2⟩] := by
  decide +kernel

end LineShell
