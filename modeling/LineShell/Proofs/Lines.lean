import LineShell.Line
import LineShell.Proofs.Lexing
import LineShell.Proofs.Reading

/-!
# What lines mean

The tokens of a text end with the end of the input and hold no other, so the tree of a line is
what the grammar says of the tokens before that end.

No operator symbol is the end of the input, so the scan makes one such token and puts it last
(`exists_end_of_scan`). With that, reading a line is reading the tokens before the end
(`parseLine_of_tokenize`), and what is known of the reader of chains is known of lines: a text is
read as a tree exactly if its tokens are a line of the grammar with that tree
(`parseLine_eq_some_iff`), and as no command exactly if they are separators
(`parseLine_eq_none_iff`). A text that cannot be cut cannot be read.
-/

namespace LineShell

/-- No operator symbol is the end of the input. -/
theorem ne_eof_of_symbol? {cs value : Text} {l : Lexeme} (h : symbol? cs = some (value, l)) :
    l ≠ .eof := by
  have hall : ∀ e ∈ symbols, e.2 ≠ .eof := by decide
  exact hall _ (List.mem_of_find?_eq_some h)

/-- The end of the input is the last token of a text, and no other. -/
theorem exists_end_of_scan {pos : Nat} {cs : Text} {ts : List Token} (h : scan pos cs = .ok ts) :
    ∃ us e, ts = us ++ [e] ∧ e.lexeme = .eof ∧ ∀ t ∈ us, t.lexeme ≠ .eof := by
  fun_induction scan pos cs generalizing ts with
  | case1 pos =>
    obtain rfl := Except.ok.inj h
    exact ⟨[], _, rfl, rfl, by simp⟩
  | case2 pos c cs hs ih => exact ih h
  | case3 pos c cs hs value lexeme ho ih =>
    obtain ⟨vs, hv, rfl⟩ := exists_of_map_eq_ok h
    obtain ⟨us, e, rfl, he, hus⟩ := ih hv
    exact ⟨_ :: us, e, rfl, he, List.forall_mem_cons.2 ⟨ne_eof_of_symbol? ho, hus⟩⟩
  | case4 => simp at h
  | case5 pos c cs hs ho ps rest hw ih =>
    obtain ⟨vs, hv, rfl⟩ := exists_of_map_eq_ok h
    obtain ⟨us, e, rfl, he, hus⟩ := ih hv
    exact ⟨_ :: us, e, rfl, he, List.forall_mem_cons.2 ⟨by simp, hus⟩⟩

/-- Reading the tokens of a text reads those before the end. -/
theorem parseLine_of_tokenize {text : Text} {ts : List Token} {e : Token}
    (h : tokenize text = .ok (ts ++ [e])) (he : e.lexeme = .eof) :
    parseLine text = match (Chain.readWith e ts).1 with
      | .error err => .error (.chain err)
      | .ok chain => .ok (chain.map Chain.toTree) := by
  unfold parseLine
  rw [h]
  simp only [Tree.ofTokens, Tree.read_end he]
  cases (Chain.readWith e ts).1 <;> rfl

/-- What cannot be cut cannot be read. -/
theorem exists_tokens_of_parseLine {text : Text} {r : Option Tree} (h : parseLine text = .ok r) :
    ∃ ts e, tokenize text = .ok (ts ++ [e]) ∧ e.lexeme = .eof ∧ ∀ t ∈ ts, t.lexeme ≠ .eof := by
  cases htokens : tokenize text with
  | error err => simp [parseLine, htokens] at h
  | ok tokens =>
    obtain ⟨ts, e, rfl, he, hts⟩ := exists_end_of_scan htokens
    exact ⟨ts, e, rfl, he, hts⟩

/-- A text is read as a tree if its tokens are a line of the grammar with that tree. -/
theorem parseLine_eq_some_iff {text : Text} {t : Tree} :
    parseLine text = .ok (some t) ↔
      ∃ ts e, tokenize text = .ok (ts ++ [e]) ∧ e.lexeme = .eof ∧ Grammar.Line ts t := by
  constructor
  · intro h
    obtain ⟨ts, e, htokens, he, hts⟩ := exists_tokens_of_parseLine h
    refine ⟨ts, e, htokens, he, Grammar.line_iff_flat.2 ?_⟩
    rw [parseLine_of_tokenize htokens he] at h
    cases hr : (Chain.readWith e ts).1 with
    | error err => simp [hr] at h
    | ok chain =>
      cases chain with
      | none => simp [hr] at h
      | some chain =>
        refine ⟨chain, (Grammar.readWith_eq_some_iff hts e chain).1 hr, ?_⟩
        simpa [hr] using h
  · rintro ⟨ts, e, htokens, he, hline⟩
    obtain ⟨chain, hflat, rfl⟩ := Grammar.line_iff_flat.1 hline
    rw [parseLine_of_tokenize htokens he, Grammar.readWith_of_flat e hflat]
    rfl

/-- A text is read as no command if its tokens are separators. -/
theorem parseLine_eq_none_iff {text : Text} :
    parseLine text = .ok none ↔
      ∃ ts e, tokenize text = .ok (ts ++ [e]) ∧ e.lexeme = .eof ∧ Grammar.Blank ts := by
  constructor
  · intro h
    obtain ⟨ts, e, htokens, he, hts⟩ := exists_tokens_of_parseLine h
    refine ⟨ts, e, htokens, he, (Grammar.readWith_eq_none_iff hts e).1 ?_⟩
    rw [parseLine_of_tokenize htokens he] at h
    cases hr : (Chain.readWith e ts).1 with
    | error err => simp [hr] at h
    | ok chain => simpa [hr] using h
  · rintro ⟨ts, e, htokens, he, hblank⟩
    rw [parseLine_of_tokenize htokens he, Grammar.readWith_of_blank e hblank]
    rfl

end LineShell
