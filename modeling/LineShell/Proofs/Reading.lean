import LineShell.Proofs.Grammar

/-!
# What the reader of chains reads

The reader accepts exactly the lines of the grammar, gives each the tree that the grammar gives
it, and looks at nothing behind the first end of the input: neither its answer nor the place at
which it stops depends on what stands there, and it never moves past that end, even when it gives
up.

## The model

* `Stops` is a place in a list of tokens at which a command cannot go on.
* `Refusal` lists the two ways in which the reader gives up: a redirect has no target, or a token
  stands where a command is wanted.
* `beforeEnd` and `upToEnd` are the tokens before the first end of the input, without and with
  that end. `EndsInput` says of a list that its last token is an end of the input, which is what
  is asked of a list.

## What is proved

* Each function of the reader is matched with its rule, in both directions. What is spelled in
  front of a place where it stops is read (`gather_append`, `readCommand_append`,
  `nextOperator?_joint`, `readLinks_of_links`), and what is read is spelled there
  (`spells_of_gather`, `simple_of_readCommand`, `joint_of_nextOperator?`, `links_of_readLinks`).
* Where the reader gives up, it is in one of the two ways, and it tells of the token at which it
  did (`refusal_of_readWith`).
* Nothing behind an end of the input is looked at (`gather_end` and the lemmas behind it), so the
  reader of a list is the reader of the tokens before its first end (`readWith_end`,
  `Tree.read_end`).
* Put together: the reader finds no command exactly in separators (`readWith_eq_none_iff`), and a
  chain exactly in the row that spells it (`readWith_eq_some_iff`). The main result says so of
  trees and of the grammar with levels, with the number of tokens that were read.

## What is left out

Lists that do not end with an end of the input come from no line. Nothing is said of them.
-/

namespace LineShell

/-! ### Commands -/

/-- Whether the lexeme belongs to a command. -/
def Lexeme.isPiece : Lexeme → Bool
  | .word _ => true
  | .redirect _ => true
  | _ => false

namespace Draft

/-- Adds a piece to a command that is being read. -/
def add (d : Draft) : Piece → Draft
  | .word w => { d with words := d.words ++ [w] }
  | .redirect s w append => d.bind s w append

/-- What a draft holds after some pieces: all their words, and on each stream the last redirect. -/
theorem foldl_add (d : Draft) (ps : List Piece) :
    ps.foldl add d = ⟨d.words ++ ps.filterMap Piece.word?,
      (ps.filterMap Piece.input?).getLast?.or d.input,
      (ps.filterMap Piece.output?).getLast?.or d.output,
      (ps.filterMap Piece.errors?).getLast?.or d.errors⟩ := by
  induction ps generalizing d with
  | nil => simp
  | cons p ps ih =>
    rw [List.foldl_cons, ih]
    cases p with
    | word w => simp [add, Piece.word?, Piece.input?, Piece.output?, Piece.errors?]
    | redirect s w append =>
      cases s <;>
        simp [add, bind, List.filterMap_cons, Piece.word?, Piece.input?, Piece.output?,
          Piece.errors?, List.getLast?_cons]

theorem command?_foldl_add (ps : List Piece) :
    (ps.foldl add empty).command? = Command.ofPieces? ps := by
  rw [foldl_add]
  simp only [empty, List.nil_append, Option.or_none]
  rfl

end Draft

namespace Grammar

/-- A place where a command cannot go on. -/
def Stops (ts : List Token) : Prop := ∀ t ∈ ts.head?, t.lexeme.isPiece = false

theorem stops_cons {t : Token} {ts : List Token} : Stops (t :: ts) ↔ t.lexeme.isPiece = false := by
  simp [Stops]

/-- The reader collects pieces as far as they go. -/
theorem gather_append {us rest : List Token} {ps : List Piece} (d : Draft) (h : Spells us ps)
    (hr : Stops rest) : gather d (us ++ rest) = (.ok (ps.foldl Draft.add d), rest) := by
  induction h generalizing d with
  | nil =>
    cases rest with
    | nil => rfl
    | cons t ts =>
      have ht := stops_cons.1 hr
      rw [List.nil_append, gather.eq_def]
      cases hl : t.lexeme <;> simp_all [Lexeme.isPiece]
  | word ht _ ih =>
    rw [List.cons_append, gather.eq_def]
    simp only [ht]
    exact ih _
  | redirect ht hw _ ih =>
    rw [List.cons_append, List.cons_append, gather.eq_def]
    simp only [ht, hw]
    exact ih _

/-- What the reader collects are pieces, and it stops where none follows. -/
theorem spells_of_gather {d e : Draft} {ts rest : List Token} (h : gather d ts = (.ok e, rest)) :
    ∃ us ps, ts = us ++ rest ∧ Spells us ps ∧ ps.foldl Draft.add d = e ∧ Stops rest := by
  fun_induction gather d ts with
  | case1 d =>
    obtain ⟨rfl, rfl⟩ : d = e ∧ [] = rest := by simpa using h
    exact ⟨[], [], rfl, .nil, rfl, by simp [Stops]⟩
  | case2 d t ts w ht ih =>
    obtain ⟨us, ps, rfl, hs, hf, hr⟩ := ih h
    exact ⟨t :: us, .word w :: ps, rfl, .word ht hs, hf, hr⟩
  | case3 => simp at h
  | case4 d t s ht target rest' w hw ih =>
    obtain ⟨us, ps, rfl, hs, hf, hr⟩ := ih h
    exact ⟨t :: target :: us, .redirect s w t.appends :: ps, rfl, .redirect ht hw hs, hf, hr⟩
  | case5 => simp at h
  | case6 d t ts hword hredirect =>
    obtain ⟨rfl, rfl⟩ : d = e ∧ t :: ts = rest := by simpa using h
    refine ⟨[], [], rfl, .nil, rfl, stops_cons.2 ?_⟩
    cases hl : t.lexeme with
    | word w => exact absurd hl (hword w)
    | redirect s => exact absurd hl (hredirect s)
    | _ => rfl

/-- Collecting fails only where a redirect has no target. -/
theorem noTarget_of_gather {d : Draft} {ts rest : List Token} {e : ChainError}
    (h : gather d ts = (.error e, rest)) : ∃ t, e = .noTarget t := by
  fun_induction gather d ts with
  | case1 => simp at h
  | case2 _ _ _ _ _ ih => exact ih h
  | case3 d t => exact ⟨t, by simp_all⟩
  | case4 _ _ _ _ _ _ _ _ ih => exact ih h
  | case5 d t => exact ⟨t, by simp_all⟩
  | case6 => simp at h

/-- The reader reads a command where one is spelled. -/
theorem readCommand_append {us rest : List Token} {c : Command} (last : Token) (h : Simple us c)
    (hr : Stops rest) : readCommand last (us ++ rest) = (.ok c, rest) := by
  obtain ⟨ps, hs, hc⟩ := h
  simp only [readCommand, gather_append .empty hs hr, Draft.command?_foldl_add, hc]

/-- What the reader reads as a command is spelled as one. -/
theorem simple_of_readCommand {last : Token} {ts rest : List Token} {c : Command}
    (h : readCommand last ts = (.ok c, rest)) : ∃ us, ts = us ++ rest ∧ Simple us c ∧ Stops rest := by
  unfold readCommand at h
  split at h
  · simp at h
  · next d rest' hg =>
    obtain ⟨us, ps, rfl, hs, rfl, hr⟩ := spells_of_gather hg
    rw [Draft.command?_foldl_add] at h
    split at h
    · next hc =>
      obtain ⟨rfl, rfl⟩ : _ = c ∧ rest' = rest := by simpa using h
      exact ⟨us, rfl, ⟨ps, hs, hc⟩, hr⟩
    · simp at h

/-- The two ways in which the reader gives up. -/
def Refusal (e : ChainError) : Prop := (∃ t, e = .noCommand t) ∨ ∃ t, e = .noTarget t

theorem refusal_of_readCommand {last : Token} {ts rest : List Token} {e : ChainError}
    (h : readCommand last ts = (.error e, rest)) : Refusal e := by
  unfold readCommand at h
  split at h
  · next hg =>
    obtain ⟨rfl, -⟩ : _ = e ∧ _ = rest := by simpa using h
    exact Or.inr (noTarget_of_gather hg)
  · split at h
    · simp at h
    · exact Or.inl ⟨_, (by simpa using h.symm : e = _ ∧ _).1⟩

/-! ### Operators and separators -/

theorem Simple.exists_cons {ts : List Token} {c : Command} (h : Simple ts c) :
    ∃ t us, ts = t :: us ∧ t.lexeme.isPiece = true := by
  obtain ⟨ps, hs, hc⟩ := h
  cases hs with
  | nil => simp [Command.ofPieces?] at hc
  | word ht _ => exact ⟨_, _, rfl, by rw [ht]; rfl⟩
  | redirect ht _ _ => exact ⟨_, _, rfl, by rw [ht]; rfl⟩

theorem isSeparator_of_isPiece {l : Lexeme} (h : l.isPiece = true) : l.isSeparator = false := by
  cases l <;> simp_all [Lexeme.isPiece, Lexeme.isSeparator]

theorem joins?_of_isSeparator {l : Lexeme} (h : l.isSeparator = true) : l.joins? = none := by
  cases l <;> simp_all [Lexeme.joins?, Lexeme.isSeparator]

theorem skipSeparators_append {bs : List Token} (hb : Blank bs) (rest : List Token) :
    skipSeparators (bs ++ rest) = skipSeparators rest := by
  induction bs with
  | nil => rfl
  | cons b bs ih =>
    have hb' : b.lexeme.isSeparator = true := hb b List.mem_cons_self
    have hcons : skipSeparators (b :: (bs ++ rest)) = skipSeparators (bs ++ rest) :=
      List.dropWhile_cons_of_pos hb'
    rw [List.cons_append, hcons]
    exact ih fun t ht => hb t (List.mem_cons_of_mem _ ht)

theorem skipSeparators_of_head {t : Token} (ts : List Token) (h : t.lexeme.isSeparator = false) :
    skipSeparators (t :: ts) = t :: ts :=
  List.dropWhile_cons_of_neg (by simp [h])

/-- What is skipped is a run of separators. -/
theorem exists_blank (ts : List Token) : ∃ bs, ts = bs ++ skipSeparators ts ∧ Blank bs :=
  ⟨ts.takeWhile fun t => t.lexeme.isSeparator, (List.takeWhile_append_dropWhile).symm,
    List.all_eq_true.1 List.all_takeWhile⟩

/-- A joint in front of a command is read as its operator. -/
theorem nextOperator?_joint {op : Operator} {js us : List Token} {c : Command} (rest : List Token)
    (hj : Joint op js) (hc : Simple us c) :
    nextOperator? (js ++ us ++ rest) = some (op, us ++ rest) := by
  cases hj with
  | symbol ht => simp [nextOperator?, ht]
  | separators hne hs =>
    obtain ⟨j, js, rfl⟩ := List.exists_cons_of_ne_nil hne
    obtain ⟨t, us, rfl, ht⟩ := hc.exists_cons
    have hj : j.lexeme.isSeparator = true := hs j List.mem_cons_self
    have hskip : skipSeparators (js ++ t :: (us ++ rest)) = t :: (us ++ rest) := by
      rw [skipSeparators_append fun k hk => hs k (List.mem_cons_of_mem _ hk)]
      exact skipSeparators_of_head _ (isSeparator_of_isPiece ht)
    have hend : atEnd (t :: (us ++ rest)) = false := by
      cases hl : t.lexeme <;> simp_all [atEnd, Lexeme.isPiece]
    simp [nextOperator?, joins?_of_isSeparator hj, hj, hskip, hend]

/-- An operator is read only from a joint. -/
theorem joint_of_nextOperator? {op : Operator} {ts rest : List Token}
    (h : nextOperator? ts = some (op, rest)) : ∃ js, ts = js ++ rest ∧ Joint op js := by
  unfold nextOperator? at h
  split at h
  · simp at h
  · next t ts =>
    split at h
    · next hop =>
      obtain ⟨rfl, rfl⟩ : _ = op ∧ ts = rest := by simpa using h
      exact ⟨[t], rfl, .symbol hop⟩
    · split at h
      · next hs =>
        obtain ⟨rfl, rfl⟩ : .sequential = op ∧ skipSeparators ts = rest := by simpa using h
        obtain ⟨bs, hts, hb⟩ := exists_blank ts
        refine ⟨t :: bs, by rw [List.cons_append, ← hts], .separators (by simp) fun u hu => ?_⟩
        rcases List.mem_cons.1 hu with rfl | hu
        · exact (Bool.and_eq_true_iff.1 hs).1
        · exact hb u hu
      · simp at h

/-- Behind a command there is an operator, or nothing but separators up to the end. -/
theorem atEnd_of_nextOperator? {ts : List Token} (hs : Stops ts) (h : nextOperator? ts = none) :
    atEnd (skipSeparators ts) = true := by
  cases ts with
  | nil => rfl
  | cons t ts =>
    have ht := stops_cons.1 hs
    unfold nextOperator? at h
    cases hl : t.lexeme <;>
      simp_all [Lexeme.joins?, Lexeme.isSeparator, Lexeme.isPiece, skipSeparators, atEnd]

theorem nextOperator?_of_blank {bs : List Token} (hb : Blank bs) : nextOperator? bs = none := by
  cases bs with
  | nil => rfl
  | cons b bs =>
    have hskip : skipSeparators bs = [] := by
      simpa [skipSeparators] using
        skipSeparators_append (fun t ht => hb t (List.mem_cons_of_mem _ ht)) []
    simp [nextOperator?, joins?_of_isSeparator (hb b List.mem_cons_self), hskip, atEnd]

/-! ### Rows -/

theorem Joint.stops {op : Operator} {js : List Token} (hj : Joint op js) (rest : List Token) :
    Stops (js ++ rest) := by
  cases hj with
  | @symbol op t ht =>
    refine stops_cons.2 ?_
    cases hl : t.lexeme <;> simp_all [Lexeme.joins?, Lexeme.isPiece]
  | separators hne hs =>
    obtain ⟨j, js, rfl⟩ := List.exists_cons_of_ne_nil hne
    have := hs j List.mem_cons_self
    refine stops_cons.2 ?_
    cases hl : j.lexeme <;> simp_all [Lexeme.isSeparator, Lexeme.isPiece]

theorem Blank.stops {bs : List Token} (hb : Blank bs) : Stops bs := by
  cases bs with
  | nil => simp [Stops]
  | cons b bs =>
    have := hb b List.mem_cons_self
    refine stops_cons.2 ?_
    cases hl : b.lexeme <;> simp_all [Lexeme.isSeparator, Lexeme.isPiece]

theorem Links.stops {vs bs : List Token} {ls : List (Operator × Command)} (h : Links vs ls)
    (hb : Blank bs) : Stops (vs ++ bs) := by
  cases h with
  | nil => exact hb.stops
  | @cons op c js us vs ls hj hc hl =>
    have := hj.stops (us ++ (vs ++ bs))
    simpa [List.append_assoc] using this

theorem readLinks_of_none {last : Token} {ts : List Token} (h : nextOperator? ts = none) :
    readLinks last ts = (.ok [], skipSeparators ts) := by
  rw [readLinks.eq_def]
  split
  · rfl
  · next h' => simp [h] at h'

/-- Behind an operator a command is read, and then more links. -/
theorem readLinks_of_some {last : Token} {ts behind : List Token} {op : Operator}
    (h : nextOperator? ts = some (op, behind)) :
    readLinks last ts = match readCommand last behind with
      | (.error err, rest) => (.error err, rest)
      | (.ok c, rest) => addLink (op, c) (readLinks last rest) := by
  rw [readLinks.eq_def]
  split
  · next h' => simp [h] at h'
  · next h' =>
    obtain ⟨rfl, rfl⟩ : op = _ ∧ behind = _ := by simpa using h.symm.trans h'
    split
    · next hc => rw [hc]
    · next hc => rw [hc]

theorem readLinks_of_links {vs bs : List Token} {ls : List (Operator × Command)} (last : Token)
    (h : Links vs ls) (hb : Blank bs) : readLinks last (vs ++ bs) = (.ok ls, []) := by
  induction h with
  | nil =>
    have hskip : skipSeparators bs = [] := by
      simpa [skipSeparators] using skipSeparators_append hb []
    rw [List.nil_append, readLinks_of_none (nextOperator?_of_blank hb), hskip]
  | @cons op c js us vs ls hj hc hl ih =>
    have hop : nextOperator? (js ++ us ++ vs ++ bs) = some (op, us ++ (vs ++ bs)) := by
      simpa [List.append_assoc] using nextOperator?_joint (vs ++ bs) hj hc
    rw [readLinks_of_some hop, readCommand_append last hc (hl.stops hb)]
    dsimp only
    rw [ih]
    rfl

theorem links_of_readLinks {last : Token} {ts rest : List Token} {ls : List (Operator × Command)}
    (hs : Stops ts) (h : readLinks last ts = (.ok ls, rest)) :
    ∃ vs bs, ts = vs ++ bs ++ rest ∧ Links vs ls ∧ Blank bs ∧ atEnd rest = true := by
  fun_induction readLinks last ts generalizing ls rest with
  | case1 ts hop =>
    obtain ⟨rfl, rfl⟩ : [] = ls ∧ skipSeparators ts = rest := by simpa using h
    obtain ⟨bs, hts, hb⟩ := exists_blank ts
    exact ⟨[], bs, hts, .nil, hb, atEnd_of_nextOperator? hs hop⟩
  | case2 => simp at h
  | case3 ts op behind hop c rest' hc ih =>
    obtain ⟨js, rfl, hj⟩ := joint_of_nextOperator? hop
    obtain ⟨us, rfl, hsimple, hstops⟩ := simple_of_readCommand hc
    obtain ⟨ks, rfl, hks⟩ := addLink_eq_ok h
    obtain ⟨vs, bs, hrest, hl, hb, hend⟩ := ih hstops hks
    refine ⟨js ++ us ++ vs, bs, ?_, .cons hj hsimple hl, hb, hend⟩
    rw [hrest]
    simp [List.append_assoc]

theorem refusal_of_readLinks {last : Token} {ts rest : List Token} {e : ChainError}
    (h : readLinks last ts = (.error e, rest)) : Refusal e := by
  fun_induction readLinks last ts generalizing rest with
  | case1 => simp at h
  | case2 ts op behind hop e' rest' hc =>
    obtain ⟨rfl, -⟩ : e' = e ∧ rest' = rest := by simpa using h
    exact refusal_of_readCommand hc
  | case3 ts op behind hop c rest' hc ih => exact ih (addLink_eq_error h)

/-! ### The end of the input -/

section End

variable {e : Token} (he : e.lexeme = .eof)
include he

/-- Nothing behind an end of the input is looked at. -/
theorem gather_end (d : Draft) (us after : List Token) :
    gather d (us ++ e :: after) = ((gather d us).1, (gather d us).2 ++ e :: after) := by
  fun_induction gather d us with
  | case1 d => simp [gather, he]
  | case2 d t ts w ht ih =>
    rw [List.cons_append, gather.eq_def]
    simpa only [ht] using ih
  | case3 d t s ht =>
    rw [List.singleton_append, gather.eq_def]
    simp only [ht, he, List.nil_append]
  | case4 d t s ht target rest w hw ih =>
    rw [List.cons_append, List.cons_append, gather.eq_def]
    simpa only [ht, hw] using ih
  | case5 d t s ht target rest hw =>
    rw [List.cons_append, List.cons_append, gather.eq_def]
    simp only [ht]
  | case6 d t ts hword hredirect =>
    rw [List.cons_append, gather.eq_def]
    simp only

theorem readCommand_end (last : Token) (us after : List Token) :
    readCommand last (us ++ e :: after)
      = ((readCommand e us).1, (readCommand e us).2 ++ e :: after) := by
  unfold readCommand
  rw [gather_end he]
  obtain ⟨r, rest⟩ := gather .empty us
  cases r with
  | error err => rfl
  | ok d =>
    have hhead : (rest ++ e :: after).headD last = rest.headD e := by
      cases rest <;> rfl
    simp only
    cases d.command? with
    | none => simp only [hhead]
    | some c => rfl

theorem skipSeparators_end (us after : List Token) :
    skipSeparators (us ++ e :: after) = skipSeparators us ++ e :: after := by
  induction us with
  | nil => exact skipSeparators_of_head after (by rw [he]; rfl)
  | cons t us ih =>
    cases ht : t.lexeme.isSeparator with
    | true =>
      have hcons (ts : List Token) : skipSeparators (t :: ts) = skipSeparators ts :=
        List.dropWhile_cons_of_pos ht
      rw [List.cons_append, hcons, hcons, ih]
    | false => rw [List.cons_append, skipSeparators_of_head _ ht, skipSeparators_of_head _ ht]; rfl

theorem atEnd_end (us after : List Token) : atEnd (us ++ e :: after) = atEnd us := by
  cases us with
  | nil => simp [atEnd, he]
  | cons t ts => rfl

theorem nextOperator?_end (us after : List Token) :
    nextOperator? (us ++ e :: after)
      = (nextOperator? us).map fun (op, rest) => (op, rest ++ e :: after) := by
  cases us with
  | nil => simp [nextOperator?, he, Lexeme.joins?, Lexeme.isSeparator]
  | cons t ts =>
    simp only [nextOperator?, List.cons_append, skipSeparators_end he, atEnd_end he]
    cases t.lexeme.joins? with
    | some op => rfl
    | none =>
      simp only
      split <;> rfl

theorem readLinks_end (last : Token) (us after : List Token) :
    readLinks last (us ++ e :: after)
      = ((readLinks e us).1, (readLinks e us).2 ++ e :: after) := by
  fun_induction readLinks e us with
  | case1 us hop =>
    have hop' : nextOperator? (us ++ e :: after) = none := by rw [nextOperator?_end he, hop]; rfl
    rw [readLinks_of_none hop', skipSeparators_end he]
  | case2 us op behind hop err rest hc =>
    have hop' : nextOperator? (us ++ e :: after) = some (op, behind ++ e :: after) := by
      rw [nextOperator?_end he, hop]; rfl
    rw [readLinks_of_some hop', readCommand_end he, hc]
  | case3 us op behind hop c rest hc ih =>
    have hop' : nextOperator? (us ++ e :: after) = some (op, behind ++ e :: after) := by
      rw [nextOperator?_end he, hop]; rfl
    rw [readLinks_of_some hop', readCommand_end he, hc]
    dsimp only
    rw [ih]
    rfl

/-- The reader of a list that holds an end of the input is the reader of the tokens before it. -/
theorem readWith_end (last : Token) (us after : List Token) :
    Chain.readWith last (us ++ e :: after)
      = ((Chain.readWith e us).1, (Chain.readWith e us).2 ++ e :: after) := by
  unfold Chain.readWith
  rw [skipSeparators_end he, atEnd_end he]
  split
  · rfl
  rw [readCommand_end he]
  obtain ⟨r, rest⟩ := readCommand e (skipSeparators us)
  cases r with
  | error err => rfl
  | ok first =>
    simp only
    rw [readLinks_end he]
    obtain ⟨r, rest⟩ := readLinks e rest
    cases r with
    | error err => rfl
    | ok links =>
      simp only
      rw [atEnd_end he]
      have hhead : (rest ++ e :: after).headD last = rest.headD e := by
        cases rest <;> rfl
      split
      · rfl
      · simp only [hhead]

end End

/-! ### Lines -/

theorem readWith_of_blank (last : Token) {ts : List Token} (h : Blank ts) :
    Chain.readWith last ts = (.ok none, []) := by
  have hskip : skipSeparators ts = [] := by
    simpa [skipSeparators] using skipSeparators_append h []
  simp [Chain.readWith, hskip, atEnd]

/-- Completeness: the reader reads every line of the grammar. -/
theorem readWith_of_flat (last : Token) {ts : List Token} {chain : Chain} (h : Flat ts chain) :
    Chain.readWith last ts = (.ok (some chain), []) := by
  obtain ⟨as, _, bs, rfl, ha, ⟨us, vs, rfl, hc, hl⟩, hb⟩ := h
  obtain ⟨t, us', hus, ht⟩ := hc.exists_cons
  have hskip : skipSeparators (as ++ (us ++ vs) ++ bs) = us ++ (vs ++ bs) := by
    rw [List.append_assoc, skipSeparators_append ha, hus]
    simpa using skipSeparators_of_head _ (isSeparator_of_isPiece ht)
  have hend : atEnd (us ++ (vs ++ bs)) = false := by
    rw [hus]
    cases hl : t.lexeme <;> simp_all [atEnd, Lexeme.isPiece]
  unfold Chain.readWith
  rw [hskip, hend]
  simp only [readCommand_append last hc (hl.stops hb), readLinks_of_links last hl hb]
  rfl

/-- Soundness: of tokens without an end of the input the reader reads all or none, and what it
reads is a line of the grammar. -/
theorem readWith_cases (last : Token) {ts : List Token} (hts : ∀ t ∈ ts, t.lexeme ≠ .eof) :
    Blank ts ∨ (∃ chain, Flat ts chain) ∨
      ∃ err rest, Chain.readWith last ts = (.error err, rest) ∧ Refusal err := by
  have hnil {rest : List Token} (hs : rest <:+ ts) (hend : atEnd rest = true) : rest = [] := by
    cases rest with
    | nil => rfl
    | cons t rest => exact absurd (by simpa [atEnd] using hend) (hts t (hs.subset List.mem_cons_self))
  obtain ⟨as, has, ha⟩ := exists_blank ts
  have hskip : skipSeparators ts <:+ ts := List.dropWhile_suffix _
  unfold Chain.readWith
  split
  · next hend =>
    rw [hnil hskip hend, List.append_nil] at has
    exact Or.inl (has ▸ ha)
  split
  · next hc => exact Or.inr (Or.inr ⟨_, _, rfl, refusal_of_readCommand hc⟩)
  · next first rest hc =>
    obtain ⟨us, hus, hsimple, hstops⟩ := simple_of_readCommand hc
    split
    · next hl => exact Or.inr (Or.inr ⟨_, _, rfl, refusal_of_readLinks hl⟩)
    · next links rest' hl =>
      obtain ⟨vs, bs, rfl, hlinks, hb, hend⟩ := links_of_readLinks hstops hl
      have hsuffix : rest' <:+ ts := by
        rw [has, hus]
        exact ⟨as ++ us ++ vs ++ bs, by simp [List.append_assoc]⟩
      rw [hnil hsuffix hend] at hus
      refine Or.inr (Or.inl ⟨⟨first, links⟩, as, us ++ vs, bs, ?_, ha, ⟨us, vs, rfl, hsimple, hlinks⟩, hb⟩)
      rw [has, hus]
      simp [List.append_assoc]

section Before

variable {ts : List Token} (hts : ∀ t ∈ ts, t.lexeme ≠ .eof) (last : Token)
include hts

theorem readWith_eq_none_iff : (Chain.readWith last ts).1 = .ok none ↔ Blank ts := by
  constructor
  · intro h
    rcases readWith_cases last hts with hb | ⟨chain, hf⟩ | ⟨err, rest, he, -⟩
    · exact hb
    · simp [readWith_of_flat last hf] at h
    · simp [he] at h
  · intro hb
    rw [readWith_of_blank last hb]

theorem readWith_eq_some_iff (chain : Chain) :
    (Chain.readWith last ts).1 = .ok (some chain) ↔ Flat ts chain := by
  constructor
  · intro h
    rcases readWith_cases last hts with hb | ⟨chain', hf⟩ | ⟨err, rest, he, -⟩
    · simp [readWith_of_blank last hb] at h
    · obtain rfl : chain' = chain := by simpa [readWith_of_flat last hf] using h
      exact hf
    · simp [he] at h
  · intro hf
    rw [readWith_of_flat last hf]

theorem refusal_of_readWith {err : ChainError} (h : (Chain.readWith last ts).1 = .error err) :
    Refusal err := by
  rcases readWith_cases last hts with hb | ⟨chain, hf⟩ | ⟨err', rest, he, hr⟩
  · simp [readWith_of_blank last hb] at h
  · simp [readWith_of_flat last hf] at h
  · obtain rfl : err' = err := by simpa [he] using h
    exact hr

/-- Where the reader finds no fault it leaves nothing. -/
theorem rest_of_readWith {r : Option Chain} (h : (Chain.readWith last ts).1 = .ok r) :
    (Chain.readWith last ts).2 = [] := by
  rcases readWith_cases last hts with hb | ⟨chain, hf⟩ | ⟨err, rest, he, -⟩
  · rw [readWith_of_blank last hb]
  · rw [readWith_of_flat last hf]
  · simp [he] at h

end Before

end Grammar

/-- The tokens before the first end of the input. -/
def beforeEnd (tokens : List Token) : List Token :=
  tokens.takeWhile fun t => t.lexeme != .eof

/-- The tokens up to the first end of the input, that end included. -/
def upToEnd (tokens : List Token) : List Token :=
  beforeEnd tokens ++ (tokens.dropWhile fun t => t.lexeme != .eof).take 1

/-- A list that ends with an end of the input. -/
def EndsInput (tokens : List Token) : Prop := ∃ t, tokens.getLast? = some t ∧ t.lexeme = .eof

theorem beforeEnd_append (tokens : List Token) :
    beforeEnd tokens ++ tokens.dropWhile (fun t => t.lexeme != .eof) = tokens :=
  List.takeWhile_append_dropWhile

theorem ne_eof_of_mem_beforeEnd {tokens : List Token} : ∀ t ∈ beforeEnd tokens, t.lexeme ≠ .eof := by
  intro t ht
  have hall : (beforeEnd tokens).all (fun t => t.lexeme != .eof) = true := List.all_takeWhile
  simpa using List.all_eq_true.1 hall t ht

/-- What follows the tokens before the first end is that end, if there is one. -/
theorem eof_of_dropWhile {tokens after : List Token} {e : Token}
    (h : tokens.dropWhile (fun t => t.lexeme != .eof) = e :: after) : e.lexeme = .eof := by
  have := List.head?_dropWhile_not (fun t : Token => t.lexeme != .eof) tokens
  rw [h] at this
  simpa using this

theorem EndsInput.exists_end {tokens : List Token} (h : EndsInput tokens) :
    ∃ e after, e.lexeme = .eof ∧ tokens = beforeEnd tokens ++ e :: after ∧
      upToEnd tokens = beforeEnd tokens ++ [e] := by
  obtain ⟨last, hlast, heof⟩ := h
  have hts := beforeEnd_append tokens
  cases hd : tokens.dropWhile (fun t => t.lexeme != .eof) with
  | nil =>
    rw [hd, List.append_nil] at hts
    have hmem : last ∈ beforeEnd tokens := hts.symm ▸ List.mem_of_getLast? hlast
    exact absurd heof (ne_eof_of_mem_beforeEnd last hmem)
  | cons e after =>
    rw [hd] at hts
    exact ⟨e, after, eof_of_dropWhile hd, hts.symm, by simp [upToEnd, hd]⟩

/-- The tokens up to the first end tell where a list goes on. -/
theorem exists_after_of_upToEnd {tokens us : List Token} {e : Token} (he : e.lexeme = .eof)
    (h : upToEnd tokens = us ++ [e]) : ∃ after, tokens = us ++ e :: after := by
  have hts := beforeEnd_append tokens
  unfold upToEnd at h
  cases hd : tokens.dropWhile (fun t => t.lexeme != .eof) with
  | nil =>
    rw [hd, List.take_nil, List.append_nil] at h
    exact absurd he (ne_eof_of_mem_beforeEnd e (by rw [h]; simp))
  | cons e' after =>
    rw [hd, List.take_succ_cons, List.take_zero] at h
    obtain ⟨hus, hee⟩ := List.append_inj' h rfl
    obtain rfl : e' = e := by simpa using hee
    exact ⟨after, by rw [← hus, ← hd, hts]⟩

/-- The reader reads the tokens before an end of the input, however the list goes on. -/
theorem Tree.read_end {e : Token} (he : e.lexeme = .eof) (us after : List Token) :
    Tree.read (us ++ e :: after)
      = ((Chain.readWith e us).1.map fun chain => chain.map Chain.toTree,
        us.length - (Chain.readWith e us).2.length) := by
  obtain ⟨last, hlast⟩ : ∃ last, (us ++ e :: after).getLast? = some last :=
    Option.isSome_iff_exists.1 (by simp)
  have hread : Chain.read (us ++ e :: after) = Chain.readWith last (us ++ e :: after) := by
    unfold Chain.read
    rw [hlast]
  have hlen : (us ++ e :: after).length - ((Chain.readWith e us).2 ++ e :: after).length
      = us.length - (Chain.readWith e us).2.length := by
    simp only [List.length_append, List.length_cons]
    omega
  simp only [Tree.read, hread, Grammar.readWith_end he, hlen]

/-- **The reader and the grammar agree.** For tokens with the end of the input at their end, the
reader looks no further than the first such end; it finds no command exactly in separators; it
finds a tree exactly in a line of the grammar, and it is the tree of the grammar, whose commands
and operators are those of the line in their order; otherwise a command is missing, or the target
of a redirect. Having read something it stands at the first end, and it is never beyond. -/
theorem tree_read_iff_grammar {tokens : List Token} (h : EndsInput tokens) :
    (∀ others, upToEnd others = upToEnd tokens → Tree.read others = Tree.read tokens) ∧
    ((Tree.read tokens).1 = .ok none ↔ Grammar.Blank (beforeEnd tokens)) ∧
    (∀ t, (Tree.read tokens).1 = .ok (some t) ↔ Grammar.Line (beforeEnd tokens) t) ∧
    (∀ t, (Tree.read tokens).1 = .ok (some t) →
      ∃ chain, t.toChain? = some chain ∧ Grammar.Flat (beforeEnd tokens) chain) ∧
    (∀ err, (Tree.read tokens).1 = .error err →
      (∃ t, err = .noCommand t) ∨ ∃ t, err = .noTarget t) ∧
    (∀ r, (Tree.read tokens).1 = .ok r → (Tree.read tokens).2 = (beforeEnd tokens).length) ∧
    (Tree.read tokens).2 ≤ (beforeEnd tokens).length := by
  obtain ⟨e, after, he, htokens, hupTo⟩ := h.exists_end
  have hts : ∀ t ∈ beforeEnd tokens, t.lexeme ≠ .eof := ne_eof_of_mem_beforeEnd
  have hread : Tree.read tokens = _ := (congrArg Tree.read htokens).trans (Tree.read_end he _ after)
  generalize beforeEnd tokens = us at *
  have htree (t : Tree) : (Tree.read tokens).1 = .ok (some t) ↔
      ∃ chain, Grammar.Flat us chain ∧ chain.toTree = t := by
    simp only [hread, ← Grammar.readWith_eq_some_iff hts e]
    cases (Chain.readWith e us).1 <;> simp [Except.map]
  refine ⟨?_, ?_, ?_, ?_, ?_, ?_, ?_⟩
  · intro others ho
    obtain ⟨after', rfl⟩ := exists_after_of_upToEnd he (ho.trans hupTo)
    rw [hread, Tree.read_end he us after']
  · rw [← Grammar.readWith_eq_none_iff hts e, hread]
    cases (Chain.readWith e us).1 <;> simp [Except.map]
  · intro t
    rw [htree, Grammar.line_iff_flat]
  · intro t ht
    obtain ⟨chain, hflat, rfl⟩ := (htree t).1 ht
    exact ⟨chain, chain.toChain?_toTree, hflat⟩
  · intro err herr
    refine Grammar.refusal_of_readWith hts e ?_
    rw [hread] at herr
    cases hr : (Chain.readWith e us).1 <;> simp_all [Except.map]
  · intro r hr
    rw [hread] at hr ⊢
    obtain ⟨r', hr'⟩ : ∃ r', (Chain.readWith e us).1 = .ok r' := by
      cases hc : (Chain.readWith e us).1 <;> simp_all [Except.map]
    simp [Grammar.rest_of_readWith hts e hr']
  · rw [hread]
    exact Nat.sub_le _ _

/-- The tokens of `a & b ;`, with a pipe behind their end. -/
def pairBeforeEnd : List Token :=
  [⟨.word [.lit ['a']], ['a'], 0⟩, ⟨.parallel, ['&'], 2⟩, ⟨.word [.lit ['b']], ['b'], 4⟩,
    ⟨.semicolon, [';'], 6⟩, ⟨.eof, [], 7⟩, ⟨.pipe, ['|'], 7⟩, ⟨.eof, [], 8⟩]

/-- The reader sees what stands before the first end, where the last separator joins nothing. -/
theorem tree_read_iff_grammar_pair :
    EndsInput pairBeforeEnd ∧ Tree.read pairBeforeEnd =
      (.ok (some (.binary none .parallel (.leaf none ⟨[.lit ['a']], [], none, none, none⟩)
        (.leaf none ⟨[.lit ['b']], [], none, none, none⟩))), 4) := by
  have hend : EndsInput pairBeforeEnd := ⟨⟨.eof, [], 8⟩, rfl, rfl⟩
  obtain ⟨-, -, htree, -, -, hpos, -⟩ := tree_read_iff_grammar hend
  have ha : Grammar.Simple [⟨.word [.lit ['a']], ['a'], 0⟩] ⟨[.lit ['a']], [], none, none, none⟩ :=
    ⟨[.word [.lit ['a']]], .word rfl .nil, rfl⟩
  have hb : Grammar.Simple [⟨.word [.lit ['b']], ['b'], 4⟩] ⟨[.lit ['b']], [], none, none, none⟩ :=
    ⟨[.word [.lit ['b']]], .word rfl .nil, rfl⟩
  have hjoint : Grammar.Joint .parallel [⟨.parallel, ['&'], 2⟩] := .symbol rfl
  have hpair := Grammar.Phrase.join (.of_simple ha (by decide)) hjoint (.of_simple hb (by decide))
  have hblank : Grammar.Blank [⟨.semicolon, [';'], 6⟩] := by
    simp [Grammar.Blank, Lexeme.isSeparator]
  have hline := (htree _).2 ⟨[], _, _, rfl, by simp [Grammar.Blank], .lift hpair, hblank⟩
  have hlength : (beforeEnd pairBeforeEnd).length = 4 := rfl
  exact ⟨hend, Prod.ext hline ((hpos _ hline).trans hlength)⟩

end LineShell
