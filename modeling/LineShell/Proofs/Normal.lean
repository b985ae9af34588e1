import Mathlib.Data.List.Chain
import LineShell.Proofs.Lexing
import LineShell.Proofs.Reading

/-!
# Normal trees

Which trees a line can mean. Operators that bind alike lean to the left and nothing that binds
loosely stands under what binds tightly, since a line has no parentheses; and of the words in a
normal tree every one has a piece, no two literal pieces side by side, and only identifiers as the
names of its variables. Every tree that is read is normal, and no node of it carries a mark.

## The model

* `Word.Normal` is a word in the form in which it is read. It has a piece at least, which may be
  the empty literal.
* `Tree.Fits` says which sides an operator may have, case by case, and `Tree.Normal` asks it of
  every pair. Put by levels, the left side binds at least as tightly as the operator and the right
  one more tightly (`Tree.fits_iff`).
* `Tree.unmarked` is a tree without its marks.

## What is proved

* Joining leaves no two literals side by side, keeps the variables, and leaves a joined word as it
  is (`Word.isChain_join`, `Word.var_mem_join`, `Word.join_eq_self`). Variables that are read have
  names, in quotes or not (`isIdentifier_of_readWord`). So the words of all tokens of a line are
  normal (`normalWords_of_scan`).
* The tree of a phrase with normal words is normal and unmarked (`Phrase.normal`), by induction on
  the phrase.

That every normal tree is the tree of some line is proved where trees are printed.
-/

namespace LineShell

/-! ### Normal words -/

/-- Whether a piece is a literal. -/
def Part.isLiteral : Part → Bool
  | .lit _ => true
  | .var _ => false

/-- A word in the form in which it is read. -/
structure Word.Normal (w : Word) : Prop where
  /-- There is a piece. -/
  ne_nil : w ≠ []
  /-- Literals that touch are one literal. -/
  joined : w.IsChain fun p q => ¬(p.isLiteral = true ∧ q.isLiteral = true)
  /-- Variables have names. -/
  named : ∀ name, .var name ∈ w → isIdentifier name = true

/-- The words of a command: verb, arguments and targets. -/
def Command.words (c : Command) : List Word :=
  c.verb :: c.args ++ c.input.toList ++ (c.output.map Redirect.target).toList
    ++ (c.errors.map Redirect.target).toList

/-- A command whose words are normal. -/
def Command.Normal (c : Command) : Prop := ∀ w ∈ c.words, w.Normal

namespace Tree

/-! ### Normal shapes -/

/-- The operator of a pair. -/
def root? : Tree → Option Operator
  | .binary _ op _ _ => some op
  | _ => none

/-- Whether a tree is a single command. -/
def isLeaf : Tree → Bool
  | .leaf _ _ => true
  | _ => false

/-- Which sides an operator may have in a tree that comes from a line. -/
def Fits : Operator → Tree → Tree → Prop
  | .sequential, _, r => r.root? ≠ some .sequential
  | .parallel, l, r =>
    l.root? ≠ some .sequential ∧ r.root? ≠ some .sequential ∧ r.root? ≠ some .parallel
  | .conditionalAnd, l, r | .conditionalOr, l, r =>
    (l.root? ≠ some .sequential ∧ l.root? ≠ some .parallel) ∧
      (r.root? ≠ some .sequential ∧ r.root? ≠ some .parallel) ∧
      r.root? ≠ some .conditionalAnd ∧ r.root? ≠ some .conditionalOr
  | .pipe, l, r => (l.root? = some .pipe ∨ l.isLeaf = true) ∧ r.isLeaf = true

/-- A tree that a line can mean. -/
def Normal : Tree → Prop
  | .leaf _ c => c.Normal
  | .binary _ op l r => Fits op l r ∧ Normal l ∧ Normal r
  | .bare _ => False

/-- The tree without its marks. -/
def unmarked : Tree → Tree
  | .leaf _ c => .leaf none c
  | .binary _ op l r => .binary none op (unmarked l) (unmarked r)
  | .bare _ => .bare none

/-- Whether sides fit says how tightly they bind: the left one at least as tightly as the
operator, the right one more tightly. -/
theorem fits_iff {op : Operator} {l r : Tree} (hl : ∀ m, l ≠ .bare m) (hr : ∀ m, r ≠ .bare m) :
    Fits op l r ↔ op.level ≤ l.level ∧ op.level < r.level := by
  cases l with
  | bare m => exact absurd rfl (hl m)
  | leaf =>
    cases r with
    | bare m => exact absurd rfl (hr m)
    | leaf => cases op <;> simp [Fits, root?, isLeaf, level, Operator.level]
    | binary _ o _ _ =>
      cases op <;> cases o <;> simp [Fits, root?, isLeaf, level, Operator.level]
  | binary _ k _ _ =>
    cases r with
    | bare m => exact absurd rfl (hr m)
    | leaf => cases op <;> cases k <;> simp [Fits, root?, isLeaf, level, Operator.level]
    | binary _ o _ _ =>
      cases op <;> cases k <;> cases o <;> simp [Fits, root?, isLeaf, level, Operator.level]

theorem Normal.ne_bare {t : Tree} (h : t.Normal) (m : Option Nat) : t ≠ .bare m := by
  rintro rfl
  exact h

end Tree

/-! ### Words that are read -/

namespace Word

theorem join_lit (a : Text) (ps : List Part) :
    join (.lit a :: ps) = (match join ps with
      | .lit b :: qs => .lit (a ++ b) :: qs
      | qs => .lit a :: qs) := rfl

/-- Joining leaves no two literals side by side. -/
theorem isChain_join (ps : List Part) :
    (join ps).IsChain fun p q => ¬(p.isLiteral = true ∧ q.isLiteral = true) := by
  induction ps with
  | nil => exact .nil
  | cons p ps ih =>
    cases p with
    | var name => exact List.isChain_cons.2 ⟨by simp [Part.isLiteral], ih⟩
    | lit a =>
      rw [join_lit]
      split
      · next b qs h =>
        rw [h, List.isChain_cons] at ih
        exact List.isChain_cons.2 ih
      · next qs hqs =>
        refine List.isChain_cons.2 ⟨fun q hq => ?_, ih⟩
        cases q with
        | var name => simp [Part.isLiteral]
        | lit b =>
          cases hj : join ps with
          | nil => simp [hj] at hq
          | cons q qs =>
            obtain rfl : q = .lit b := by simpa [hj] using hq
            exact absurd hj (hqs b qs)

/-- Joining keeps the variables. -/
theorem var_mem_join {name : Text} {ps : List Part} : .var name ∈ join ps ↔ .var name ∈ ps := by
  induction ps with
  | nil => rfl
  | cons p ps ih =>
    cases p with
    | var n => simp only [join, List.mem_cons, ih]
    | lit a =>
      rw [join_lit, List.mem_cons, ← ih]
      split
      · next b qs h => simp [h]
      · simp

/-- A word whose literals are joined already stays as it is. -/
theorem join_eq_self {w : Word}
    (h : w.IsChain fun p q => ¬(p.isLiteral = true ∧ q.isLiteral = true)) : join w = w := by
  induction w with
  | nil => rfl
  | cons p w ih =>
    obtain ⟨hp, hw⟩ := List.isChain_cons.1 h
    cases p with
    | var name => rw [join, ih hw]
    | lit a =>
      rw [join_lit, ih hw]
      split
      · next b qs => exact absurd ⟨rfl, rfl⟩ (hp (.lit b) rfl)
      · rfl

/-- A word made of pieces whose variables have names is normal. -/
theorem normal_ofPieces {ps : List Part} (h : ∀ name, .var name ∈ ps → isIdentifier name = true) :
    (ofPieces ps).Normal := by
  unfold ofPieces
  split
  · exact ⟨by simp [literal], .singleton _, by simp [literal]⟩
  · next hne => exact ⟨hne, isChain_join ps, fun name hm => h name (var_mem_join.1 hm)⟩

end Word

/-- A variable that is read has a name. -/
theorem isIdentifier_of_readVariable {pos : Nat} {cs rest : Text} {name : Text}
    (h : readVariable pos cs = .ok (.var name, rest)) : isIdentifier name = true := by
  unfold readVariable at h
  split at h
  · simp at h
  · next c cs =>
    split at h
    · split at h
      · simp at h
      · split at h
        · next hname =>
          obtain ⟨hn, -⟩ := Prod.mk.inj (Except.ok.inj h)
          exact Part.var.inj hn ▸ hname
        · simp at h
    · split at h
      · next hc =>
        obtain ⟨rfl, -⟩ : _ = name ∧ _ = rest := by simpa using h
        simp only [isIdentifier, hc, Bool.true_and, List.all_cons, Bool.and_eq_true]
        exact ⟨isNameChar_of_isNameStart c hc, List.all_takeWhile⟩
      · simp at h

/-- So have those between double quotes. -/
theorem isIdentifier_of_readDouble {opening pos : Nat} {cs rest : Text} {ps : List Part}
    (h : readDouble opening pos cs = .ok (ps, rest)) :
    ∀ name, .var name ∈ ps → isIdentifier name = true := by
  fun_induction readDouble opening pos cs generalizing ps rest with
  | case1 => simp at h
  | case2 => simp_all
  | case3 => simp at h
  | case4 => simp_all
  | case5 pos c d cs hc hd ih =>
    obtain ⟨qs, rfl, hq⟩ := addPiece_eq_ok h
    simpa using ih hq
  | case6 => simp at h
  | case7 pos d cs p tail hv _ _ _ ih =>
    obtain ⟨qs, rfl, hq⟩ := addPiece_eq_ok h
    intro name hm
    rcases List.mem_cons.1 hm with rfl | hm
    · exact isIdentifier_of_readVariable hv
    · exact ih hq name hm
  | case8 pos c d cs hc hd hs ih =>
    obtain ⟨qs, rfl, hq⟩ := addPiece_eq_ok h
    simpa using ih hq

/-- And those of a whole word. -/
theorem isIdentifier_of_readWord {pos : Nat} {cs rest : Text} {ps : List Part}
    (h : readWord pos cs = .ok (ps, rest)) : ∀ name, .var name ∈ ps → isIdentifier name = true := by
  fun_induction readWord pos cs generalizing ps rest with
  | case1 => simp_all
  | case2 => simp_all
  | case3 => simp_all
  | case4 pos d ds _ ih =>
    obtain ⟨qs, rfl, hq⟩ := addPiece_eq_ok h
    simpa using ih hq
  | case5 => simp at h
  | case6 pos cs q tail hd _ _ _ ih =>
    obtain ⟨qs, rfl, hq⟩ := addPiece_eq_ok h
    simpa using ih hq
  | case7 => simp at h
  | case8 pos cs qs tail hd _ _ _ _ ih =>
    obtain ⟨us, rfl, hu⟩ := foldr_addPiece_eq_ok h
    intro name hm
    rcases List.mem_append.1 hm with hm | hm
    · exact isIdentifier_of_readDouble hd name hm
    · exact ih hu name hm
  | case9 => simp at h
  | case10 pos cs p tail hv _ _ _ _ _ ih =>
    obtain ⟨qs, rfl, hq⟩ := addPiece_eq_ok h
    intro name hm
    rcases List.mem_cons.1 hm with rfl | hm
    · exact isIdentifier_of_readVariable hv
    · exact ih hq name hm
  | case11 pos c cs _ _ _ _ _ ih =>
    obtain ⟨qs, rfl, hq⟩ := addPiece_eq_ok h
    simpa using ih hq

/-- Tokens whose words are normal. -/
def NormalWords (ts : List Token) : Prop := ∀ t ∈ ts, ∀ w, t.lexeme = .word w → w.Normal

theorem normalWords_cons {t : Token} {ts : List Token} :
    NormalWords (t :: ts) ↔ (∀ w, t.lexeme = .word w → w.Normal) ∧ NormalWords ts := by
  simp [NormalWords]

theorem NormalWords.of_append {ts us : List Token} (h : NormalWords (ts ++ us)) :
    NormalWords ts ∧ NormalWords us :=
  List.forall_mem_append.1 h

/-- No operator symbol is a word. -/
theorem ne_word_of_symbol? {cs value : Text} {l : Lexeme} (h : symbol? cs = some (value, l))
    (w : Word) : l ≠ .word w := by
  have hall : ∀ e ∈ symbols, e.2.word? = none := by decide
  rintro rfl
  exact Option.some_ne_none w (hall _ (List.mem_of_find?_eq_some h))

theorem normalWords_of_scan {pos : Nat} {cs : Text} {ts : List Token} (h : scan pos cs = .ok ts) :
    NormalWords ts := by
  fun_induction scan pos cs generalizing ts with
  | case1 pos =>
    obtain rfl : _ = ts := by simpa using h
    simp [NormalWords]
  | case2 pos c cs hs ih => exact ih h
  | case3 pos c cs hs value lexeme ho ih =>
    obtain ⟨us, hu, rfl⟩ := exists_of_map_eq_ok h
    exact normalWords_cons.2 ⟨fun w hw => absurd hw (ne_word_of_symbol? ho w), ih hu⟩
  | case4 => simp at h
  | case5 pos c cs hs ho ps rest hw ih =>
    obtain ⟨us, hu, rfl⟩ := exists_of_map_eq_ok h
    refine normalWords_cons.2 ⟨fun w hw' => ?_, ih hu⟩
    obtain rfl : Word.ofPieces ps = w := by simpa using hw'
    exact Word.normal_ofPieces (isIdentifier_of_readWord hw)

/-! ### Trees that are read -/

namespace Grammar

/-- The words of a piece. -/
theorem Spells.normal {ts : List Token} {ps : List Piece} (h : Spells ts ps) (hts : NormalWords ts) :
    (∀ w ∈ ps.filterMap Piece.word?, w.Normal) ∧ (∀ w ∈ ps.filterMap Piece.input?, w.Normal) ∧
      (∀ r ∈ ps.filterMap Piece.output?, r.target.Normal) ∧
      ∀ r ∈ ps.filterMap Piece.errors?, r.target.Normal := by
  induction h with
  | nil => simp
  | word ht _ ih =>
    obtain ⟨hw, hts⟩ := normalWords_cons.1 hts
    obtain ⟨hwords, hrest⟩ := ih hts
    exact ⟨List.forall_mem_cons.2 ⟨hw _ ht, hwords⟩, hrest⟩
  | @redirect t target s w ts ps ht hw _ ih =>
    obtain ⟨-, hts⟩ := normalWords_cons.1 hts
    obtain ⟨htarget, hts⟩ := normalWords_cons.1 hts
    have hn := htarget w hw
    obtain ⟨hwords, hin, hout, herr⟩ := ih hts
    cases s with
    | input => exact ⟨hwords, List.forall_mem_cons.2 ⟨hn, hin⟩, hout, herr⟩
    | output => exact ⟨hwords, hin, List.forall_mem_cons.2 ⟨hn, hout⟩, herr⟩
    | errors => exact ⟨hwords, hin, hout, List.forall_mem_cons.2 ⟨hn, herr⟩⟩
    | both =>
      exact ⟨hwords, hin, List.forall_mem_cons.2 ⟨hn, hout⟩, List.forall_mem_cons.2 ⟨hn, herr⟩⟩

/-- A command spelled with normal words is normal. -/
theorem Simple.normal {ts : List Token} {c : Command} (h : Simple ts c) (hts : NormalWords ts) :
    c.Normal := by
  obtain ⟨ps, hs, hc⟩ := h
  obtain ⟨hwords, hin, hout, herr⟩ := hs.normal hts
  unfold Command.ofPieces? at hc
  split at hc
  · simp at hc
  · next verb args hps =>
    rw [hps] at hwords
    obtain rfl := Option.some.inj hc
    intro w hw
    simp only [Command.words, List.mem_append, List.mem_cons, Option.mem_toList,
      Option.map_eq_some_iff] at hw
    rcases hw with ((hw | hw) | ⟨r, hr, rfl⟩) | ⟨r, hr, rfl⟩
    · exact hwords w (List.mem_cons.2 hw)
    · exact hin w (List.mem_of_getLast? hw)
    · exact hout r (List.mem_of_getLast? hr)
    · exact herr r (List.mem_of_getLast? hr)

/-- The tree of a phrase with normal words is normal, and its nodes carry no marks. -/
theorem Phrase.normal {n : Nat} {ts : List Token} {t : Tree} (h : Phrase n ts t)
    (hts : NormalWords ts) : t.Normal ∧ t.unmarked = t := by
  induction h with
  | command hc => exact ⟨hc.normal hts, rfl⟩
  | lift _ ih => exact ih hts
  | @join op ts js us l r hl hj hr ihl ihr =>
    obtain ⟨hts, hus⟩ := hts.of_append
    obtain ⟨hln, hlu⟩ := ihl hts.of_append.1
    obtain ⟨hrn, hru⟩ := ihr hus
    refine ⟨⟨?_, hln, hrn⟩, by rw [Tree.unmarked, hlu, hru]⟩
    exact (Tree.fits_iff hln.ne_bare hrn.ne_bare).2 ⟨hl.le_level, hr.le_level⟩

theorem Line.normal {ts : List Token} {t : Tree} (h : Line ts t) (hts : NormalWords ts) :
    t.Normal ∧ t.unmarked = t := by
  obtain ⟨as, us, bs, rfl, -, hp, -⟩ := h
  exact hp.normal hts.of_append.1.of_append.2

end Grammar

end LineShell
