import LineShell.Chain.Reader

/-!
# The grammar of lines

Which tokens make a line, and which tree the line means, stated without a reader. With `s` for a
separator the rules are

    line      → s* sequence s*
    sequence  → parallel (s+ parallel)*
    parallel  → and_or ('&' and_or)*
    and_or    → pipeline (('&&' | '||') pipeline)*
    pipeline  → simple ('|' simple)*
    simple    → (WORD | redirect)+
    redirect  → ('<' | '>' | '>>' | '2>' | '2>>' | '&>' | '&>>') WORD

and every repetition groups to the left. The four rules in the middle are one rule with a level,
since they differ in their operators alone. The same tokens also have a flat reading, a row of
commands with an operator between any two; the two readings agree, and the flat one is what the
reader of chains follows.

## The model

* A `Piece` is a word or a redirect with its target. `Command.ofPieces?` is the command that
  pieces make, and `Spells` relates pieces to the tokens that spell them.
* `Phrase` is the rule with a level: the tokens of a phrase of some level, with the tree that it
  means. A phrase of a tighter level may stand by itself, and one more phrase may be joined to it
  on the right.
* `Joint` are the tokens that stand for an operator, a run of separators among them. `Line` is a
  phrase with separators around it.
* `Links` and `Row` are the flat reading, which knows nothing of levels.

## What is proved

* An operator that binds no more tightly than a tree takes all of it as its left side, any other
  one takes the right side alone (`Tree.attach_of_le`, `Tree.attach_of_lt`).
* A phrase is a row whose operators are of its level or bind more tightly, and its tree is that of
  the row (`Phrase.exists_row`); a row is the phrase of its tree (`Row.phrase`), where the
  induction puts one command after the other at the right end (`Phrase.attach`). So a line means a
  tree exactly if the tree is that of the row which it spells (`line_iff_flat`).

How the characters of a line make tokens is no matter of this grammar.
-/

namespace LineShell

/-! ### Commands -/

/-- A piece of a command. -/
inductive Piece where
  /-- A word that is no target. -/
  | word (w : Word)
  /-- A redirect with its target. -/
  | redirect (s : Stream) (target : Word) (append : Bool)

namespace Piece

/-- The word that the piece adds to the command. -/
def word? : Piece → Option Word
  | .word w => some w
  | .redirect _ _ _ => none

/-- Where the piece takes standard input from. -/
def input? : Piece → Option Word
  | .redirect .input w _ => some w
  | _ => none

/-- Where the piece sends standard output. -/
def output? : Piece → Option Redirect
  | .redirect .output w append => some ⟨w, append⟩
  | .redirect .both w append => some ⟨w, append⟩
  | _ => none

/-- Where the piece sends standard error. -/
def errors? : Piece → Option Redirect
  | .redirect .errors w append => some ⟨w, append⟩
  | .redirect .both w append => some ⟨w, append⟩
  | _ => none

end Piece

/-- The command that pieces make: the words in their order, the first one as the verb, and each
stream bound as the last redirect of that stream says. -/
def Command.ofPieces? (ps : List Piece) : Option Command :=
  match ps.filterMap Piece.word? with
  | [] => none
  | verb :: args =>
    some ⟨verb, args, (ps.filterMap Piece.input?).getLast?, (ps.filterMap Piece.output?).getLast?,
      (ps.filterMap Piece.errors?).getLast?⟩

namespace Grammar

/-- The tokens that spell some pieces. -/
inductive Spells : List Token → List Piece → Prop where
  /-- No tokens spell no pieces. -/
  | nil : Spells [] []
  /-- A word. -/
  | word {t : Token} {w : Word} {ts : List Token} {ps : List Piece} (ht : t.lexeme = .word w) :
      Spells ts ps → Spells (t :: ts) (.word w :: ps)
  /-- A redirect and its target. -/
  | redirect {t target : Token} {s : Stream} {w : Word} {ts : List Token} {ps : List Piece}
      (ht : t.lexeme = .redirect s) (hw : target.lexeme = .word w) :
      Spells ts ps → Spells (t :: target :: ts) (.redirect s w t.appends :: ps)

theorem Spells.append {ts us : List Token} {ps qs : List Piece} (h : Spells ts ps)
    (h' : Spells us qs) : Spells (ts ++ us) (ps ++ qs) := by
  induction h with
  | nil => exact h'
  | word ht _ ih => exact .word ht ih
  | redirect ht hw _ ih => exact .redirect ht hw ih

/-- The tokens of one command: words and redirects, with at least one word that is no target. -/
def Simple (ts : List Token) (c : Command) : Prop :=
  ∃ ps, Spells ts ps ∧ Command.ofPieces? ps = some c

/-! ### Lines -/

/-- Separators and nothing else. -/
def Blank (ts : List Token) : Prop := ∀ t ∈ ts, t.lexeme.isSeparator = true

/-- The tokens between two commands that stand for an operator. -/
inductive Joint : Operator → List Token → Prop where
  /-- The symbol of the operator. -/
  | symbol {op : Operator} {t : Token} (ht : t.lexeme.joins? = some op) : Joint op [t]
  /-- A run of separators, however long, is one `;`. -/
  | separators {ts : List Token} (hne : ts ≠ []) (hs : Blank ts) : Joint .sequential ts

/-- The tokens of a tree whose operators are of some level or bind more tightly: sequences at
level 0, parallel pairs at 1, conditionals at 2, pipelines at 3, single commands at 4. -/
inductive Phrase : Nat → List Token → Tree → Prop where
  /-- One command. -/
  | command {ts : List Token} {c : Command} (h : Simple ts c) : Phrase 4 ts (.leaf none c)
  /-- What binds more tightly may stand by itself. -/
  | lift {n : Nat} {ts : List Token} {t : Tree} : Phrase (n + 1) ts t → Phrase n ts t
  /-- One more operand to the right of what there is. -/
  | join {op : Operator} {ts js us : List Token} {l r : Tree} : Phrase op.level ts l → Joint op js →
      Phrase (op.level + 1) us r → Phrase op.level (ts ++ js ++ us) (.binary none op l r)

/-- The tokens of a line with at least one command. -/
def Line (ts : List Token) (t : Tree) : Prop :=
  ∃ as us bs, ts = as ++ us ++ bs ∧ Blank as ∧ Phrase 0 us t ∧ Blank bs

/-! ### The flat reading -/

/-- The tokens behind the first command of a row. -/
inductive Links : List Token → List (Operator × Command) → Prop where
  /-- Nothing follows. -/
  | nil : Links [] []
  /-- An operator and a command follow. -/
  | cons {op : Operator} {c : Command} {js us vs : List Token} {ls : List (Operator × Command)} :
      Joint op js → Simple us c → Links vs ls → Links (js ++ us ++ vs) ((op, c) :: ls)

/-- The tokens of commands in a row. -/
def Row (ts : List Token) (chain : Chain) : Prop :=
  ∃ us vs, ts = us ++ vs ∧ Simple us chain.first ∧ Links vs chain.links

/-- The tokens of a line, read as commands in a row. -/
def Flat (ts : List Token) (chain : Chain) : Prop :=
  ∃ as us bs, ts = as ++ us ++ bs ∧ Blank as ∧ Row us chain ∧ Blank bs

theorem Links.append {ts us : List Token} {ks ls : List (Operator × Command)} (h : Links ts ks)
    (h' : Links us ls) : Links (ts ++ us) (ks ++ ls) := by
  induction h with
  | nil => exact h'
  | cons hj hc _ ih =>
    have := Links.cons hj hc ih
    simpa [List.append_assoc] using this

/-- Two rows with an operator between them are one row. -/
theorem Row.append {op : Operator} {ts js us : List Token} {a b : Chain} (ha : Row ts a)
    (hj : Joint op js) (hb : Row us b) :
    Row (ts ++ js ++ us) ⟨a.first, a.links ++ (op, b.first) :: b.links⟩ := by
  obtain ⟨t₁, t₂, rfl, hf, hl⟩ := ha
  obtain ⟨u₁, u₂, rfl, hf', hl'⟩ := hb
  refine ⟨t₁, t₂ ++ (js ++ u₁ ++ u₂), by simp [List.append_assoc], hf, ?_⟩
  exact hl.append (Links.cons hj hf' hl')

end Grammar

/-! ### The tree of a row -/

/-- How tightly the root of a tree binds; a node without sides binds most tightly. -/
def Tree.level : Tree → Nat
  | .binary _ op _ _ => op.level
  | _ => 4

theorem Operator.level_lt (op : Operator) : op.level < 4 := by
  cases op <;> decide

namespace Tree

/-- An operator that binds no more tightly than a tree takes all of it as its left side. -/
theorem attach_of_le {op : Operator} {t : Tree} (c : Command) (h : op.level ≤ t.level) :
    t.attach op c = .binary none op t (.leaf none c) := by
  cases t with
  | leaf => rfl
  | bare => rfl
  | binary m o l r => exact if_neg (Nat.not_lt.2 h)

/-- One that binds more tightly takes the right side alone. -/
theorem attach_of_lt {op o : Operator} (m : Option Nat) (l r : Tree) (c : Command)
    (h : o.level < op.level) : (Tree.binary m o l r).attach op c = .binary m o l (r.attach op c) :=
  if_pos h

/-- Attaching makes no tree looser than the operator attached. -/
theorem le_level_attach {n : Nat} {op : Operator} {t : Tree} (c : Command) (ht : n ≤ t.level)
    (hop : n ≤ op.level) : n ≤ (t.attach op c).level := by
  cases t with
  | leaf => exact hop
  | bare => exact hop
  | binary m o l r =>
    unfold attach
    split
    · exact ht
    · exact hop

/-- Adds links to a tree, one after the other. -/
def attachAll (t : Tree) (ls : List (Operator × Command)) : Tree :=
  ls.foldl (fun t (op, command) => t.attach op command) t

theorem le_level_attachAll {n : Nat} {t : Tree} {ls : List (Operator × Command)} (ht : n ≤ t.level)
    (hls : ∀ l ∈ ls, n ≤ l.1.level) : n ≤ (t.attachAll ls).level := by
  induction ls generalizing t with
  | nil => exact ht
  | cons l ls ih =>
    refine ih (le_level_attach l.2 ht (hls l List.mem_cons_self)) fun k hk => ?_
    exact hls k (List.mem_cons_of_mem _ hk)

/-- Links that bind more tightly than the root all go to its right side. -/
theorem attachAll_binary {op : Operator} (l r : Tree) {ls : List (Operator × Command)}
    (hls : ∀ k ∈ ls, op.level < k.1.level) :
    (Tree.binary none op l r).attachAll ls = .binary none op l (r.attachAll ls) := by
  induction ls generalizing r with
  | nil => rfl
  | cons k ls ih =>
    have hk : (Tree.binary none op l r).attach k.1 k.2 = .binary none op l (r.attach k.1 k.2) :=
      attach_of_lt none l r k.2 (hls k List.mem_cons_self)
    have := ih (r.attach k.1 k.2) fun j hj => hls j (List.mem_cons_of_mem _ hj)
    simpa [attachAll, hk] using this

end Tree

namespace Chain

theorem toTree_eq (a : Chain) : a.toTree = (Tree.leaf none a.first).attachAll a.links := rfl

/-- Two chains with a loose operator between them make one tree with that operator at its root. -/
theorem toTree_append {op : Operator} {a b : Chain} (ha : ∀ l ∈ a.links, op.level ≤ l.1.level)
    (hb : ∀ l ∈ b.links, op.level < l.1.level) :
    (Chain.mk a.first (a.links ++ (op, b.first) :: b.links)).toTree
      = .binary none op a.toTree b.toTree := by
  have hlevel : op.level ≤ a.toTree.level :=
    Tree.le_level_attachAll (Nat.le_of_lt op.level_lt) ha
  have hop : a.toTree.attach op b.first = .binary none op a.toTree (.leaf none b.first) :=
    Tree.attach_of_le b.first hlevel
  calc (Chain.mk a.first (a.links ++ (op, b.first) :: b.links)).toTree
      = (a.toTree.attach op b.first).attachAll b.links := by
        simp [toTree_eq, Tree.attachAll]
    _ = .binary none op a.toTree b.toTree := by
        rw [hop, Tree.attachAll_binary _ _ hb, toTree_eq b]

end Chain

namespace Grammar

/-! ### Both readings agree -/

theorem Phrase.le_level {n : Nat} {ts : List Token} {t : Tree} (h : Phrase n ts t) :
    n ≤ t.level := by
  induction h with
  | command => exact Nat.le_refl 4
  | lift _ ih => exact Nat.le_of_succ_le ih
  | join => exact Nat.le_refl _

/-- A phrase of some level is one of every lower level. -/
theorem Phrase.of_le {m n : Nat} {ts : List Token} {t : Tree} (h : Phrase n ts t) (hmn : m ≤ n) :
    Phrase m ts t := by
  induction hmn with
  | refl => exact h
  | step _ ih => exact ih (.lift h)

/-- A command may stand for a phrase of any level. -/
theorem Phrase.of_simple {n : Nat} {ts : List Token} {c : Command} (h : Simple ts c) (hn : n ≤ 4) :
    Phrase n ts (.leaf none c) :=
  (Phrase.command h).of_le hn

/-- A phrase is a row whose operators are of its level or bind more tightly, and its tree is the
tree of the row. -/
theorem Phrase.exists_row {n : Nat} {ts : List Token} {t : Tree} (h : Phrase n ts t) :
    ∃ chain, Row ts chain ∧ chain.toTree = t ∧ ∀ l ∈ chain.links, n ≤ l.1.level := by
  induction h with
  | @command ts c h => exact ⟨⟨c, []⟩, ⟨ts, [], by simp, h, .nil⟩, rfl, by simp⟩
  | lift _ ih =>
    obtain ⟨chain, hr, ht, hl⟩ := ih
    exact ⟨chain, hr, ht, fun l h => Nat.le_of_succ_le (hl l h)⟩
  | join _ hj _ ihl ihr =>
    obtain ⟨a, ha, rfl, hal⟩ := ihl
    obtain ⟨b, hb, rfl, hbl⟩ := ihr
    refine ⟨_, ha.append hj hb, Chain.toTree_append hal hbl, fun l hl => ?_⟩
    rcases List.mem_append.1 hl with hl | hl
    · exact hal l hl
    rcases List.mem_cons.1 hl with rfl | hl
    · exact Nat.le_refl _
    · exact Nat.le_of_succ_le (hbl l hl)

/-- A phrase with one more command behind it is the phrase of the tree with that command
attached. The induction follows the right edge of the tree, as attaching does. -/
theorem Phrase.attach {n : Nat} {op : Operator} {ts js us : List Token} {t : Tree} {c : Command}
    (h : Phrase n ts t) (hj : Joint op js) (hc : Simple us c) (hn : n ≤ op.level) :
    Phrase n (ts ++ js ++ us) (t.attach op c) := by
  have hright : Phrase (op.level + 1) us (.leaf none c) := .of_simple hc op.level_lt
  induction h with
  | command => exact absurd op.level_lt (Nat.not_lt.2 hn)
  | @lift n ts t h ih =>
    rcases Nat.eq_or_lt_of_le hn with rfl | hlt
    · rw [Tree.attach_of_le c (Nat.le_of_succ_le h.le_level)]
      exact .join (.lift h) hj hright
    · exact .lift (ih hlt)
  | @join o ts ks vs l r hl hk hr _ ihr =>
    rcases Nat.eq_or_lt_of_le hn with heq | hlt
    · rw [Tree.attach_of_le (t := .binary none o l r) c (Nat.le_of_eq heq.symm)]
      have hleft := Phrase.join hl hk hr
      rw [heq] at hleft ⊢
      exact .join hleft hj hright
    · rw [Tree.attach_of_lt none l r c hlt]
      have := Phrase.join hl hk (ihr hlt)
      simpa [List.append_assoc] using this

theorem Phrase.attachAll {ts us : List Token} {t : Tree} {ls : List (Operator × Command)}
    (h : Phrase 0 ts t) (hl : Links us ls) : Phrase 0 (ts ++ us) (t.attachAll ls) := by
  induction hl generalizing ts t with
  | nil => simpa [Tree.attachAll] using h
  | cons hj hc _ ih =>
    have := ih (h.attach hj hc (Nat.zero_le _))
    simpa [Tree.attachAll, List.append_assoc] using this

/-- A row is the phrase of its tree. -/
theorem Row.phrase {ts : List Token} {chain : Chain} (h : Row ts chain) :
    Phrase 0 ts chain.toTree := by
  obtain ⟨us, vs, rfl, hc, hl⟩ := h
  exact (Phrase.of_simple hc (Nat.zero_le 4)).attachAll hl

/-- A line means the tree of the row that it spells. -/
theorem line_iff_flat {ts : List Token} {t : Tree} :
    Line ts t ↔ ∃ chain, Flat ts chain ∧ chain.toTree = t := by
  constructor
  · rintro ⟨as, us, bs, hts, ha, hp, hb⟩
    obtain ⟨chain, hr, ht, -⟩ := hp.exists_row
    exact ⟨chain, ⟨as, us, bs, hts, ha, hr, hb⟩, ht⟩
  · rintro ⟨chain, ⟨as, us, bs, hts, ha, hr, hb⟩, rfl⟩
    exact ⟨as, us, bs, hts, ha, hr.phrase, hb⟩

end Grammar

end LineShell
