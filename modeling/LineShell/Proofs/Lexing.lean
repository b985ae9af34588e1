import Mathlib.Data.List.Find
import Mathlib.Data.List.TakeWhile
import LineShell.Token.Lexer

/-!
# Cutting texts into tokens

One step of the lexer for each kind of token, and what a step owes to the text behind it: nothing
further on can change a symbol or a word that a blank or the end of a line closes. So a text that
ends with the end of a line gives its tokens whatever follows, and tokens do not depend on the
place where the text starts but for the places that they name.

## The model

* `Hanging` says of a text that it ends in a backslash which no backslash before it protects. It
  is decidable: the backslashes at the end are counted.
* `EndsWord` says what ends a word behind a text: a break, which no backslash at the end of the
  text protects.

## What is proved

* `scan_space`, `scan_symbol` and `scan_word` are the steps of the scan, and `readWord_backslash`,
  `readWord_single`, `readWord_double` and `readWord_variable` those of a word.
* What closes a symbol stands in no symbol of two characters, so nothing behind it has a part in
  the symbol (`symbol?_append`).
* Whether a text hangs is told by its end, and reading a word or a variable leaves that end as it
  is (`hanging_iff_of_suffix`, `Hanging.of_readVariable`).
* A variable, a double-quoted part and a word are the same wherever they stand and with more
  behind them (`readVariable_append`, `readDouble_append`, `readWord_append`). The induction is
  that of the reader, with one case for each way in which a word goes on.
-/

namespace LineShell

/-! ### Steps -/

/-- What a successful result was made of. -/
theorem exists_of_map_eq_ok {ε α β : Type} {f : α → β} {r : Except ε α} {b : β}
    (h : r.map f = .ok b) : ∃ a, r = .ok a ∧ f a = b := by
  cases r with
  | error e => simp [Except.map] at h
  | ok a => exact ⟨a, rfl, Except.ok.inj h⟩

theorem scan_nil (pos : Nat) : scan pos [] = .ok [⟨.eof, [], pos⟩] := by
  rw [scan.eq_def]

theorem scan_space {c : Char} (hs : isSpace c = true) (pos : Nat) (cs : Text) :
    scan pos (c :: cs) = scan (pos + 1) cs := by
  rw [scan.eq_def]
  simp only [hs, dite_true]

theorem scan_symbol {c : Char} {cs value : Text} {l : Lexeme} (hs : isSpace c = false)
    (ho : symbol? (c :: cs) = some (value, l)) (pos : Nat) :
    scan pos (c :: cs) = (scan (pos + value.length) ((c :: cs).drop value.length)).map
      (⟨l, value, pos⟩ :: ·) := by
  rw [scan.eq_def]
  simp only [hs, Bool.false_eq_true, dite_false]
  split
  · next h =>
    obtain ⟨rfl, rfl⟩ : value = _ ∧ l = _ := by simpa using ho.symm.trans h
    rfl
  · next h => simp [ho] at h

theorem scan_word {c : Char} {cs rest : Text} {ps : List Part} (hs : isSpace c = false)
    (ho : symbol? (c :: cs) = none) {pos : Nat} (hw : readWord pos (c :: cs) = .ok (ps, rest)) :
    scan pos (c :: cs) = (scan (pos + ((c :: cs).length - rest.length)) rest).map
      (⟨.word (Word.ofPieces ps), (c :: cs).take ((c :: cs).length - rest.length), pos⟩ :: ·) := by
  rw [scan.eq_def]
  simp only [hs, Bool.false_eq_true, dite_false]
  split
  · next h => simp [ho] at h
  · split
    · next h => simp [hw] at h
    · next h =>
      obtain ⟨rfl, rfl⟩ : ps = _ ∧ rest = _ := by simpa using hw.symm.trans h
      rfl

/-! ### Symbols -/

/-- What closes a symbol: a blank or the end of a line stands in no symbol of two characters. -/
theorem length_of_mem_symbols {c : Char} (hc : c = ' ' ∨ c = '\n') :
    ∀ e ∈ symbols, c ∈ e.1 → e.1.length = 1 := by
  rcases hc with rfl | rfl <;> decide

/-- Behind a blank or the end of a line, nothing has a part in the first symbol. -/
theorem symbol?_append {c : Char} {cs : Text} (hc : c = ' ' ∨ c = '\n') (hcs : c ∈ cs)
    (rest : Text) : symbol? (cs ++ rest) = symbol? cs := by
  unfold symbol?
  refine List.find?_congr fun e he => ?_
  rw [Bool.eq_iff_iff, List.isPrefixOf_iff_prefix, List.isPrefixOf_iff_prefix]
  refine ⟨fun h => ?_, fun h => h.trans (List.prefix_append cs rest)⟩
  rcases List.prefix_or_prefix_of_prefix h (List.prefix_append cs rest) with h' | h'
  · exact h'
  -- a symbol that reaches further holds `c`, so `c` is all of it and it reaches no further
  have hlength := length_of_mem_symbols hc e he (h'.subset hcs)
  have hpos := List.length_pos_of_mem hcs
  exact List.prefix_of_prefix_length_le h (List.prefix_append cs rest) (by omega)

/-- A symbol ends where a character follows that stands in no symbol behind another one. -/
theorem symbol?_append_cons {value : Text} {c : Char} (hne : value ≠ [])
    (hc : ∀ e ∈ symbols, c ∉ e.1.tail) (cs : Text) : symbol? (value ++ c :: cs) = symbol? value := by
  unfold symbol?
  refine List.find?_congr fun e he => ?_
  rw [Bool.eq_iff_iff, List.isPrefixOf_iff_prefix, List.isPrefixOf_iff_prefix]
  refine ⟨fun h => ?_, fun h => h.trans (List.prefix_append value (c :: cs))⟩
  by_cases hlength : e.1.length ≤ value.length
  · exact List.prefix_of_prefix_length_le h (List.prefix_append value (c :: cs)) hlength
  -- a symbol that reaches further has `c` behind its first character
  · have hprefix : value ++ [c] <+: e.1 := by
      refine List.prefix_of_prefix_length_le ⟨cs, by simp⟩ h ?_
      rw [List.length_append, List.length_singleton]
      omega
    obtain ⟨more, hmore⟩ := hprefix
    have hmem : c ∈ e.1.tail := by
      obtain ⟨d, ds, rfl⟩ := List.exists_cons_of_ne_nil hne
      rw [← hmore]
      simp
    exact absurd hmem (hc e he)

/-- A symbol takes what it says off the front. -/
theorem eq_append_of_symbol? {cs value : Text} {l : Lexeme} (h : symbol? cs = some (value, l)) :
    cs = value ++ cs.drop value.length := by
  have hprefix : value.isPrefixOf cs = true := by simpa using List.find?_some h
  exact (List.prefix_iff_eq_append.1 (List.isPrefixOf_iff_prefix.1 hprefix)).symm

/-! ### Words, step by step -/

section Steps

variable (pos : Nat) {cs rest : Text}

theorem readWord_break {c : Char} (hc : isBreak c = true) (cs : Text) :
    readWord pos (c :: cs) = .ok ([], c :: cs) := by
  rw [readWord.eq_def]
  exact if_pos hc

theorem readWord_backslash (d : Char) (cs : Text) :
    readWord pos ('\\' :: d :: cs) = addPiece (.lit [d]) (readWord (pos + 2) cs) := by
  rw [readWord.eq_def]
  rfl

theorem readWord_single {q : Char} (hd : cs.dropWhile (· ≠ '\x27') = q :: rest) :
    readWord pos ('\x27' :: cs) = addPiece (.lit (cs.takeWhile (· ≠ '\x27')))
      (readWord (pos + 1 + (cs.length - rest.length)) rest) := by
  rw [readWord.eq_def]
  simp only [show isBreak '\x27' = false by decide, show '\x27' ≠ '\\' by decide,
    Bool.false_eq_true, ↓reduceIte]
  split
  · next h => exact absurd (hd.symm.trans h) (List.cons_ne_nil _ _)
  · next h =>
    obtain ⟨rfl, rfl⟩ := List.cons.inj (hd.symm.trans h)
    rfl

theorem readWord_double {ps : List Part} (hd : readDouble pos (pos + 1) cs = .ok (ps, rest)) :
    readWord pos ('\x22' :: cs)
      = ps.foldr addPiece (readWord (pos + 1 + (cs.length - rest.length)) rest) := by
  rw [readWord.eq_def]
  simp only [show isBreak '\x22' = false by decide, show '\x22' ≠ '\\' by decide,
    show '\x22' ≠ '\x27' by decide, Bool.false_eq_true, ↓reduceIte]
  split
  · next h => simp [hd] at h
  · next h =>
    obtain ⟨rfl, rfl⟩ := Prod.mk.inj (Except.ok.inj (hd.symm.trans h))
    rfl

theorem readWord_variable {p : Part} (hv : readVariable pos cs = .ok (p, rest)) :
    readWord pos ('$' :: cs)
      = addPiece p (readWord (pos + 1 + (cs.length - rest.length)) rest) := by
  rw [readWord.eq_def]
  simp only [show isBreak '$' = false by decide, show '$' ≠ '\\' by decide,
    show '$' ≠ '\x27' by decide, show '$' ≠ '\x22' by decide, Bool.false_eq_true, ↓reduceIte]
  split
  · next h => simp [hv] at h
  · next h =>
    obtain ⟨rfl, rfl⟩ := Prod.mk.inj (Except.ok.inj (hv.symm.trans h))
    rfl

theorem readDouble_variable (opening : Nat) {d : Char} {p : Part}
    (hv : readVariable pos (d :: cs) = .ok (p, rest)) :
    readDouble opening pos ('$' :: d :: cs) = addPiece p
      (readDouble opening (pos + 1 + ((d :: cs).length - rest.length)) rest) := by
  rw [readDouble, if_neg (by decide), if_neg (by simp), if_pos rfl]
  split
  · next h => simp [hv] at h
  · next h =>
    obtain ⟨rfl, rfl⟩ := Prod.mk.inj (Except.ok.inj (hv.symm.trans h))
    rfl

end Steps

/-- Pieces that come before others come out before them. -/
theorem foldr_addPiece_ok (ps qs : List Part) (rest : Text) :
    ps.foldr addPiece (.ok (qs, rest)) = .ok (ps ++ qs, rest) := by
  induction ps with
  | nil => rfl
  | cons p ps ih => rw [List.foldr_cons, ih]; rfl

/-! ### Backslashes at the end -/

/-- A text that ends in a backslash which no backslash before it protects: those at its end are odd
in number. In a word such a backslash protects whatever comes behind the text. -/
def Hanging (cs : Text) : Prop := (cs.reverse.takeWhile (· == '\\')).length % 2 = 1

instance : DecidablePred Hanging := fun _ => inferInstanceAs (Decidable (_ = _))

/-- Backslashes are counted back to the last other character. -/
theorem hanging_iff_of_suffix {q : Char} {tail cs : Text} (hq : q ≠ '\\') (hs : q :: tail <:+ cs) :
    Hanging cs ↔ Hanging tail := by
  obtain ⟨before, rfl⟩ := hs
  have hnone : (q :: before.reverse).takeWhile (· == '\\') = [] := by simp [hq]
  unfold Hanging
  rw [List.reverse_append, List.reverse_cons, List.append_assoc, List.singleton_append,
    List.takeWhile_append, hnone, List.append_nil]
  split
  · next hall => rw [← hall]
  · rfl

theorem hanging_cons_iff {c : Char} (hc : c ≠ '\\') (cs : Text) :
    Hanging (c :: cs) ↔ Hanging cs :=
  hanging_iff_of_suffix hc (List.suffix_refl _)

namespace Hanging

theorem cons {c : Char} {cs : Text} (hc : c ≠ '\\') (h : Hanging cs) : Hanging (c :: cs) :=
  (hanging_cons_iff hc cs).2 h

/-- A backslash and the character that it protects change nothing. -/
theorem escape {ds : Text} (d : Char) (h : Hanging ds) : Hanging ('\\' :: d :: ds) := by
  by_cases hd : d = '\\'
  · subst hd
    unfold Hanging at h ⊢
    rw [List.reverse_cons, List.reverse_cons, List.append_assoc, List.takeWhile_append]
    split
    · next hall =>
      rw [hall] at h
      simpa using h
    · exact h
  · exact (hanging_iff_of_suffix hd (List.suffix_cons _ _)).2 h

/-- A search for a character that is no backslash. -/
theorem of_search {q d : Char} {cs ds : Text} (hq : q ≠ '\\')
    (hd : cs.dropWhile (· ≠ q) = d :: ds) (h : Hanging ds) : Hanging cs := by
  have hfound : d = q := by
    have hhead := List.head?_dropWhile_not (· ≠ q) cs
    rw [hd] at hhead
    simpa using hhead
  exact (hanging_iff_of_suffix (hfound ▸ hq) (hd ▸ List.dropWhile_suffix _)).2 h

/-- A run of characters none of which is a backslash. -/
theorem of_dropWhile {p : Char → Bool} (hp : p '\\' = false) {cs : Text}
    (h : Hanging (cs.dropWhile p)) : Hanging cs := by
  induction cs with
  | nil => exact h
  | cons c cs ih =>
    rw [List.dropWhile_cons] at h
    split at h
    · next hc =>
      have hne : c ≠ '\\' := by
        rintro rfl
        simp [hp] at hc
      exact (ih h).cons hne
    · exact h

/-- Neither a `$` nor what is read as its variable ends in a backslash. -/
theorem of_readVariable {pos : Nat} {cs rest : Text} {p : Part}
    (hv : readVariable pos cs = .ok (p, rest)) (h : Hanging rest) : Hanging ('$' :: cs) := by
  unfold readVariable at hv
  split at hv
  · obtain ⟨-, rfl⟩ := Prod.mk.inj (Except.ok.inj hv)
    exact h.cons (by decide)
  · next c cs =>
    split at hv
    · next hc =>
      split at hv
      · simp at hv
      · next d ds hd =>
        split at hv
        · obtain ⟨-, rfl⟩ := Prod.mk.inj (Except.ok.inj hv)
          exact ((h.of_search (by decide) hd).cons (hc ▸ by decide)).cons (by decide)
        · simp at hv
    · split at hv
      · next hstart =>
        have hbackslash : isNameChar '\\' = false := by decide +kernel
        obtain ⟨-, rfl⟩ := Prod.mk.inj (Except.ok.inj hv)
        have hc : c ≠ '\\' := by
          rintro rfl
          simp [isNameChar_of_isNameStart _ hstart] at hbackslash
        exact ((h.of_dropWhile hbackslash).cons hc).cons (by decide)
      · obtain ⟨-, rfl⟩ := Prod.mk.inj (Except.ok.inj hv)
        exact h.cons (by decide)

end Hanging

/-! ### Words with something behind -/

/-- What ends a word behind a text: a break, which no backslash at the end of the text protects. -/
def EndsWord (cs behind : Text) : Prop := ∀ c ∈ behind.head?, isBreak c = true ∧ ¬ Hanging cs

namespace EndsWord

variable {cs behind : Text}

/-- Nothing needs no end. -/
theorem nil : EndsWord cs [] := by simp [EndsWord]

theorem isBreak (h : EndsWord cs behind) : ∀ c ∈ behind.head?, isBreak c = true :=
  fun c hc => (h c hc).1

theorem eq_nil (h : EndsWord cs behind) (hcs : Hanging cs) : behind = [] := by
  cases behind with
  | nil => rfl
  | cons c behind => exact absurd hcs (h c rfl).2

theorem of_hanging {ds : Text} (h : EndsWord cs behind) (himp : Hanging ds → Hanging cs) :
    EndsWord ds behind :=
  fun c hc => ⟨(h c hc).1, fun hd => (h c hc).2 (himp hd)⟩

end EndsWord

/-- No break is a part of a variable. -/
theorem not_variable_of_isBreak {c : Char} (h : isBreak c = true) :
    isNameChar c = false ∧ c ≠ '\x7b' := by
  have hall : [' ', '\t', '\n', '|', ';', '&', '<', '>'].all
      (fun c => !isNameChar c && c != '\x7b') = true := by decide +kernel
  simpa using List.all_eq_true.1 hall c (by simpa [isBreak] using h)

section Behind

variable {pos : Nat} {cs rest : Text} (pos' : Nat) (behind : Text)

/-- A search that ended at a character ends there with more behind. -/
theorem dropWhile_append_of_eq_cons {p : Char → Bool} {d : Char} {ds : Text}
    (h : cs.dropWhile p = d :: ds) :
    (cs ++ behind).dropWhile p = d :: (ds ++ behind) ∧
      (cs ++ behind).takeWhile p = cs.takeWhile p := by
  have hlength : (cs.takeWhile p).length ≠ cs.length := by
    have := congrArg List.length (List.takeWhile_append_dropWhile (p := p) (l := cs))
    rw [h, List.length_append, List.length_cons] at this
    omega
  rw [List.dropWhile_append, List.takeWhile_append, h, if_neg hlength]
  exact ⟨rfl, rfl⟩

/-- A search that did not end there stops at once where something else follows. -/
theorem dropWhile_append_of_eq_nil {p : Char → Bool} (h : cs.dropWhile p = [])
    (hb : ∀ c ∈ behind.head?, p c = false) :
    (cs ++ behind).dropWhile p = behind ∧ (cs ++ behind).takeWhile p = cs := by
  have hall : ∀ c ∈ cs, p c = true := List.dropWhile_eq_nil_iff.1 h
  rw [List.dropWhile_append_of_pos hall, List.takeWhile_append_of_pos hall]
  cases behind with
  | nil => simp
  | cons c behind =>
    have hc : p c = false := hb c rfl
    simp [hc]

/-- A variable is the same wherever it stands, and with more behind it if something was there or a
break follows. -/
theorem readVariable_append {p : Part} (h : readVariable pos cs = .ok (p, rest))
    (hb : rest = [] → ∀ c ∈ behind.head?, isBreak c = true) :
    readVariable pos' (cs ++ behind) = .ok (p, rest ++ behind) := by
  unfold readVariable at h
  split at h
  · obtain ⟨rfl, rfl⟩ : _ = p ∧ [] = rest := by simpa using h
    cases behind with
    | nil => rfl
    | cons c behind =>
      obtain ⟨hname, hbrace⟩ := not_variable_of_isBreak (hb rfl c rfl)
      have hstart : ¬ isNameStart c = true := fun hs => by
        simp [isNameChar_of_isNameStart c hs] at hname
      rw [List.nil_append, readVariable, if_neg hbrace, if_neg hstart]
  · next c cs =>
    rw [List.cons_append]
    unfold readVariable
    simp only
    split at h
    · next hc =>
      rw [if_pos hc]
      split at h
      · simp at h
      · next d ds hd =>
        obtain ⟨hdrop, htake⟩ := dropWhile_append_of_eq_cons behind hd
        split at h
        · next hname =>
          simp only [hdrop, htake, if_pos hname]
          obtain ⟨rfl, rfl⟩ := Prod.mk.inj (Except.ok.inj h)
          rfl
        · simp at h
    · next hc =>
      rw [if_neg hc]
      split at h
      · next hstart =>
        rw [if_pos hstart]
        obtain ⟨rfl, rfl⟩ := Prod.mk.inj (Except.ok.inj h)
        cases hd : cs.dropWhile isNameChar with
        | nil =>
          have hnone : ∀ c ∈ behind.head?, isNameChar c = false := fun c hc =>
            (not_variable_of_isBreak (hb hd c hc)).1
          obtain ⟨hdrop, htake⟩ := dropWhile_append_of_eq_nil behind hd hnone
          have hwhole : cs.takeWhile isNameChar = cs :=
            List.takeWhile_eq_self_iff.2 (List.dropWhile_eq_nil_iff.1 hd)
          rw [hdrop, htake, hwhole]
          rfl
        | cons d ds =>
          obtain ⟨hdrop, htake⟩ := dropWhile_append_of_eq_cons behind hd
          rw [hdrop, htake]
          rfl
      · next hstart =>
        rw [if_neg hstart]
        obtain ⟨rfl, rfl⟩ := Prod.mk.inj (Except.ok.inj h)
        rfl

/-- What stands between double quotes is read alike wherever it stands, whatever follows. -/
theorem readDouble_append {opening : Nat} (opening' : Nat) {ps : List Part}
    (h : readDouble opening pos cs = .ok (ps, rest)) :
    readDouble opening' pos' (cs ++ behind) = .ok (ps, rest ++ behind) := by
  fun_induction readDouble opening pos cs generalizing ps rest pos' with
  | case1 => simp at h
  | case2 =>
    obtain ⟨rfl, rfl⟩ := Prod.mk.inj (Except.ok.inj h)
    cases behind <;> simp [readDouble]
  | case3 => simp at h
  | case4 pos d cs =>
    obtain ⟨rfl, rfl⟩ := Prod.mk.inj (Except.ok.inj h)
    simp [readDouble]
  | case5 pos c d cs hc hd ih =>
    obtain ⟨qs, rfl, hq⟩ := addPiece_eq_ok h
    rw [List.cons_append, List.cons_append, readDouble, if_neg hc, if_pos hd, ih _ hq]
    rfl
  | case6 => simp at h
  | case7 pos d cs p tail hv _ hc hd ih =>
    obtain ⟨qs, rfl, hq⟩ := addPiece_eq_ok h
    have htail : tail ≠ [] := by
      rintro rfl
      simp [readDouble] at hq
    have hv' := readVariable_append pos' behind hv fun h => absurd h htail
    rw [List.cons_append] at hv'
    rw [List.cons_append, List.cons_append, readDouble_variable _ _ hv', ih _ hq]
    rfl
  | case8 pos c d cs hc hd hs ih =>
    obtain ⟨qs, rfl, hq⟩ := addPiece_eq_ok h
    rw [List.cons_append, List.cons_append, readDouble, if_neg hc, if_neg hd, if_neg hs]
    have := ih (pos' + 1) hq
    rw [List.cons_append] at this
    rw [this]
    rfl

/-- Where a word is over at once. -/
theorem readWord_of_head (hb : ∀ c ∈ behind.head?, isBreak c = true) :
    readWord pos behind = .ok ([], behind) := by
  cases behind with
  | nil => simp [readWord]
  | cons c behind => exact readWord_break pos (hb c rfl) behind

/-- A word is the same wherever it stands, and with more behind it if something closed it or what
follows ends it. -/
theorem readWord_append {ps : List Part} (h : readWord pos cs = .ok (ps, rest))
    (hb : rest = [] → EndsWord cs behind) :
    readWord pos' (cs ++ behind) = .ok (ps, rest ++ behind) := by
  fun_induction readWord pos cs generalizing ps rest pos' with
  | case1 pos =>
    obtain ⟨rfl, rfl⟩ := Prod.mk.inj (Except.ok.inj h)
    exact readWord_of_head behind (hb rfl).isBreak
  | case2 pos c cs hc =>
    obtain ⟨rfl, rfl⟩ := Prod.mk.inj (Except.ok.inj h)
    exact readWord_break pos' hc _
  | case3 pos =>
    obtain ⟨rfl, rfl⟩ := Prod.mk.inj (Except.ok.inj h)
    obtain rfl : behind = [] := (hb rfl).eq_nil (by decide)
    simp [readWord, isBreak]
  | case4 pos d ds hc ih =>
    obtain ⟨qs, rfl, hq⟩ := addPiece_eq_ok h
    have hends : rest = [] → EndsWord ds behind := fun hr => (hb hr).of_hanging (Hanging.escape d)
    rw [List.cons_append, List.cons_append, readWord_backslash, ih _ hq hends]
    rfl
  | case5 => simp at h
  | case6 pos cs q tail hd _ _ _ ih =>
    obtain ⟨qs, rfl, hq⟩ := addPiece_eq_ok h
    obtain ⟨hdrop, htake⟩ := dropWhile_append_of_eq_cons behind hd
    have hends : rest = [] → EndsWord tail behind := fun hr =>
      (hb hr).of_hanging fun ht => (ht.of_search (by decide) hd).cons (by decide)
    rw [List.cons_append, readWord_single _ hdrop, htake, ih _ hq hends]
    rfl
  | case7 => simp at h
  | case8 pos cs qs tail hd _ _ _ _ ih =>
    obtain ⟨us, rfl, hu⟩ := foldr_addPiece_eq_ok h
    have hends : rest = [] → EndsWord tail behind := fun hr => (hb hr).of_hanging fun ht =>
      ((hanging_iff_of_suffix (by decide) (quote_suffix_of_readDouble hd)).2 ht).cons (by decide)
    rw [List.cons_append, readWord_double _ (readDouble_append _ behind _ hd), ih _ hu hends,
      foldr_addPiece_ok]
  | case9 => simp at h
  | case10 pos cs p tail hv _ _ _ _ _ ih =>
    obtain ⟨qs, rfl, hq⟩ := addPiece_eq_ok h
    have hends : rest = [] → EndsWord tail behind := fun hr =>
      (hb hr).of_hanging fun ht => ht.of_readVariable hv
    have hbreak : tail = [] → ∀ c ∈ behind.head?, isBreak c = true := by
      rintro rfl
      obtain ⟨-, hrest⟩ : [] = qs ∧ [] = rest := by simpa [readWord] using hq
      exact (hb hrest.symm).isBreak
    rw [List.cons_append, readWord_variable _ (readVariable_append pos' behind hv hbreak),
      ih _ hq hends]
    rfl
  | case11 pos c cs hc h1 h2 h3 h4 ih =>
    obtain ⟨qs, rfl, hq⟩ := addPiece_eq_ok h
    have hends : rest = [] → EndsWord cs behind := fun hr => (hb hr).of_hanging (Hanging.cons h1)
    rw [List.cons_append, readWord.eq_def]
    simp only [hc, h1, h2, h3, h4, if_false, Bool.false_eq_true]
    rw [ih _ hq hends]
    rfl

end Behind

end LineShell
