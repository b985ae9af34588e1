import LineShell.Proofs.Exports
import LineShell.Proofs.Quoting
import LineShell.Proofs.Reports
import LineShell.Proofs.Strays

/-!
# Assignments read back

An assignment is recognized by one rule, split by another, written to the line in quotes, and read
back by way of a variable. All of these agree: the strict rule takes the texts of one pattern, and
is the narrower one; whatever either rule takes can be split; and a value that is assigned in any
quotes is what the name, in any of the ways to refer to it, stands for afterwards.

## The model

* `AssignmentPattern` is the pattern of strict assignments with its two groups, a name and a
  value.
* `Quotes` are the ways to put a whole value in quotes: between single quotes, between double
  quotes, or each character behind a backslash. `Quotes.assignment` is the line that assigns it.
* `reference` is a word that refers to a variable, with braces or without, in double quotes or
  bare.
* `Uncalled` is the frame of runs that make no system call.

## What is proved

* A text is split at its first equals sign (`splitAssignment_eq_some`), the strict rule takes what
  matches the pattern (`isAssignment_strict_iff`), and the loose one whatever can be split
  (`isAssignment_loose_iff`).
* A value in quotes stands for itself (`Quotes.renders`), so the line of an assignment is one word
  for the name, the equals sign and the value (`Quotes.lexes_assignment`).
* A line that is one assignment sets a variable, keeps its success as the last number, and does
  nothing else but tell of it (`Shell.runLine_assignment`), in every session and machine.
* Each reference is one word for the variable (`lexes_reference`), which is expanded to what the
  table holds.

A value is what a line can hold: it is written on one line, though it may hold the end of a line
between quotes.
-/

namespace LineShell

open Act

/-! ### The pattern -/

/-- A letter of the ASCII alphabet, or an underscore. -/
def NameLetter (c : Char) : Prop :=
  'A' ≤ c ∧ c ≤ 'Z' ∨ 'a' ≤ c ∧ c ≤ 'z' ∨ c = '_'

/-- An ASCII letter, digit or underscore. -/
def NameSign (c : Char) : Prop := NameLetter c ∨ '0' ≤ c ∧ c ≤ '9'

/-- A name of a letter and further signs. -/
def PlainName (name : Text) : Prop :=
  ∃ c cs, name = c :: cs ∧ NameLetter c ∧ ∀ d ∈ cs, NameSign d

/-- The pattern of strict assignments: a name, an equals sign, and any value, line ends in it or
not. -/
structure AssignmentPattern (verb name value : Text) : Prop where
  /-- What is matched. -/
  matched : verb = name ++ '=' :: value
  /-- The first group is a name. -/
  named : PlainName name

theorem isAlpha_iff {c : Char} :
    c.isAlpha = true ↔ 'A' ≤ c ∧ c ≤ 'Z' ∨ 'a' ≤ c ∧ c ≤ 'z' := by
  show (decide ('A'.val ≤ c.val ∧ c.val ≤ 'Z'.val) ||
    (decide ('a'.val ≤ c.val) && decide (c.val ≤ 'z'.val))) = true ↔ _
  simp [Char.le_def]

theorem isPlainStart_iff {c : Char} : isPlainStart c = true ↔ NameLetter c := by
  simp [isPlainStart, NameLetter, isAlpha_iff, or_assoc]

theorem isPlainChar_iff {c : Char} : isPlainChar c = true ↔ NameSign c := by
  simp [isPlainChar, NameSign, NameLetter, Char.isAlphanum, isAlpha_iff, Char.isDigit,
    Char.le_def]
  tauto

theorem isPlainName_iff {name : Text} : isPlainName name = true ↔ PlainName name := by
  cases name with
  | nil => simp [isPlainName, PlainName]
  | cons c cs => simp [isPlainName, PlainName, isPlainStart_iff, isPlainChar_iff]

theorem NameLetter.sign {c : Char} (h : NameLetter c) : NameSign c := Or.inl h

theorem PlainName.signs {name : Text} (h : PlainName name) : ∀ c ∈ name, NameSign c := by
  obtain ⟨c, cs, rfl, hc, hcs⟩ := h
  exact List.forall_mem_cons.2 ⟨hc.sign, hcs⟩

/-- Nothing that means something outside quotes is a sign of a name, nor is an equals sign. -/
theorem NameSign.notMem {c : Char} (h : NameSign c) : c ∉ '=' :: specials := by
  have hall : ('=' :: specials).all (fun d => !isPlainChar d) = true := by decide
  intro hc
  have hplain := List.all_eq_true.1 hall c hc
  rw [isPlainChar_iff.2 h] at hplain
  exact Bool.noConfusion hplain

theorem NameSign.lt {c : Char} (h : NameSign c) : c.toNat < 128 := by
  simp only [NameSign, NameLetter, Char.le_def, UInt32.le_iff_toNat_le] at h
  change ((65 ≤ c.toNat ∧ c.toNat ≤ 90 ∨ 97 ≤ c.toNat ∧ c.toNat ≤ 122 ∨ c = '_') ∨
    48 ≤ c.toNat ∧ c.toNat ≤ 57) at h
  rcases h with (h | h | rfl) | h
  · omega
  · omega
  · decide
  · omega

/-- What is a name in an assignment is one behind a dollar sign. -/
theorem PlainName.identifier {name : Text} (h : PlainName name) : isIdentifier name = true := by
  have hsigns := h.signs
  obtain ⟨c, cs, rfl, hc, -⟩ := h
  have hstart : isNameStart c = true := by
    have hplain : isPlainStart c = true := isPlainStart_iff.2 hc
    rwa [isNameStart, isLetter, if_pos hc.sign.lt]
  have hall : ∀ d ∈ c :: cs, isNameChar d = true := fun d hd => by
    have hplain : isPlainChar d = true := isPlainChar_iff.2 (hsigns d hd)
    rwa [isNameChar, isLetterOrNumber, if_pos (hsigns d hd).lt]
  simp only [isIdentifier, hstart, Bool.true_and, List.all_eq_true]
  exact hall

/-! ### Recognized and split -/

/-- A text is split at its first equals sign. -/
theorem splitAssignment_eq_some {verb name value : Text} :
    splitAssignment verb = some (name, value) ↔ verb = name ++ '=' :: value ∧ '=' ∉ name := by
  constructor
  · intro h
    refine ⟨?_, sign_not_mem_of_splitAssignment h⟩
    unfold splitAssignment at h
    split at h
    · simp at h
    · next c cs hdrop =>
      obtain ⟨rfl, rfl⟩ := Prod.mk.inj (Option.some.inj h)
      have hc : c = '=' := by
        have hhead := List.head?_dropWhile_not (fun d : Char => decide (d ≠ '=')) verb
        rw [hdrop] at hhead
        simpa using hhead
      have hcut := List.takeWhile_append_dropWhile (p := fun d : Char => decide (d ≠ '=')) (l := verb)
      rw [hdrop, hc] at hcut
      exact hcut.symm
  · rintro ⟨rfl, hname⟩
    unfold splitAssignment
    have hall : ∀ c ∈ name, decide (c ≠ '=') = true := fun c hc =>
      decide_eq_true fun h => hname (h ▸ hc)
    rw [List.dropWhile_append_of_pos hall, List.takeWhile_append_of_pos hall]
    simp

theorem PlainName.equals_notMem {name : Text} (h : PlainName name) : '=' ∉ name :=
  fun hmem => (h.signs _ hmem).notMem List.mem_cons_self

/-- The strict rule takes what matches the pattern. -/
theorem isAssignment_strict_iff {verb : Text} :
    isAssignment true verb = true ↔ ∃ name value, AssignmentPattern verb name value := by
  unfold isAssignment
  constructor
  · intro h
    cases hsplit : splitAssignment verb with
    | none => simp [hsplit] at h
    | some groups =>
      obtain ⟨name, value⟩ := groups
      have hname : isPlainName name = true := by simpa [hsplit] using h
      exact ⟨name, value, (splitAssignment_eq_some.1 hsplit).1, isPlainName_iff.1 hname⟩
  · rintro ⟨name, value, rfl, hname⟩
    rw [splitAssignment_eq_some.2 ⟨rfl, hname.equals_notMem⟩]
    simpa using isPlainName_iff.2 hname

/-- The loose rule takes whatever can be split, and the strict rule nothing else. -/
theorem isAssignment_loose_iff {verb : Text} :
    isAssignment false verb = true ↔ ∃ name value, splitAssignment verb = some (name, value) := by
  unfold isAssignment
  cases splitAssignment verb with
  | none => simp
  | some groups => exact ⟨fun _ => ⟨groups.1, groups.2, rfl⟩, fun _ => rfl⟩

theorem isAssignment_loose_of {strict : Bool} {verb : Text} (h : isAssignment strict verb = true) :
    isAssignment false verb = true := by
  unfold isAssignment at h ⊢
  cases hsplit : splitAssignment verb with
  | none => simp [hsplit] at h
  | some groups => rfl

theorem Table.assign_of_split (table : Table) {verb name value : Text}
    (h : splitAssignment verb = some (name, value)) :
    table.assign verb = .ok (table.set name value, name, value) := by
  rw [assign, h]

/-- Where a name is bound to a value, either rule takes it. -/
theorem kind_of_pattern (rules : Rules) {verb name value : Text}
    (h : AssignmentPattern verb name value) : rules.kind verb = .assignment name value := by
  obtain ⟨rfl, hname⟩ := h
  have hsplit : splitAssignment (name ++ '=' :: value) = some (name, value) :=
    splitAssignment_eq_some.2 ⟨rfl, hname.equals_notMem⟩
  unfold Rules.kind isAssignment
  rw [hsplit]
  simp [isPlainName_iff.2 hname]

/-! ### Quotes -/

/-- The ways to put a whole value in quotes. -/
inductive Quotes where
  /-- Between single quotes; one in the value ends them, stands behind a backslash, and lets them
  begin again. -/
  | single
  /-- Between double quotes, with a backslash before a double quote, a backslash or a dollar sign. -/
  | double
  /-- A backslash before each character. -/
  | escaped
  deriving DecidableEq, Repr

/-- A value in quotes. -/
def Quotes.write : Quotes → Text → Text
  | .single, t => singleQuoted t
  | .double, t => Style.double.write t
  | .escaped, t => Style.escaped.write t

/-- A text between single quotes stands for itself. The induction carries the part `a` behind the
last quote. -/
theorem renders_singleQuoted (t : Text) : ∀ a : Text, '\x27' ∉ a →
    Renders ('\x27' :: (a ++ (t.flatMap escaped ++ ['\x27']))) (a ++ t) := by
  have hquoted {a : Text} (ha : '\x27' ∉ a) : Renders ('\x27' :: (a ++ ['\x27'])) a :=
    Style.Admits.renders (s := .single) ha
  induction t with
  | nil =>
    intro a ha
    simpa using hquoted ha
  | cons c t ih =>
    intro a ha
    by_cases hc : c = '\x27'
    · have hsign : Renders ['\\', c] [c] := Style.Admits.renders (s := .escaped) (t := [c]) trivial
      have := (hquoted ha).append (hsign.append (ih [] (by simp)))
      simpa [escaped, hc] using this
    · have := ih (a ++ [c]) (by simpa [ha] using Ne.symm hc)
      simpa [escaped, hc] using this

/-- A value in quotes stands for itself. -/
theorem Quotes.renders (q : Quotes) (t : Text) : Renders (q.write t) t := by
  cases q with
  | single => exact renders_singleQuoted t [] (by simp)
  | double => exact Style.Admits.renders (s := .double) trivial
  | escaped => exact Style.Admits.renders (s := .escaped) trivial

/-- The assignment of a value in quotes, as a line. -/
def Quotes.assignment (q : Quotes) (name value : Text) : Text := name ++ '=' :: q.write value

/-- That line is one word, which stands for the name, the equals sign and the value. -/
theorem Quotes.lexes_assignment (q : Quotes) {name : Text} (h : PlainName name) (value : Text) :
    Lexes (q.assignment name value) fun ts =>
      ∃ t, ts = [t] ∧ t.lexeme = .word (.literal (name ++ '=' :: value)) := by
  have hbare : Style.bare.Admits (name ++ ['=']) := by
    intro c hc
    rcases List.mem_append.1 hc with hc | hc
    · exact fun hmem => (h.signs c hc).notMem (List.mem_cons_of_mem _ hmem)
    · obtain rfl := List.mem_singleton.1 hc
      decide
  have hrenders : Renders (q.assignment name value) (name ++ '=' :: value) := by
    have := hbare.renders.append (q.renders value)
    simpa [Quotes.assignment, Style.write] using this
  obtain ⟨c, cs, rfl, hc, -⟩ := h
  refine hrenders.lexes (List.cons_ne_nil _ _) fun d ds hds => ?_
  obtain ⟨rfl, -⟩ := List.cons.inj hds
  have hplain := hc.sign.notMem
  refine ⟨isBreak_of_notMem_specials fun hmem => hplain (List.mem_cons_of_mem _ hmem), ?_⟩
  rintro rfl
  exact absurd (isPlainStart_iff.2 hc) (by decide)

theorem Quotes.parseLine_assignment (q : Quotes) {name : Text} (h : PlainName name) (value : Text) :
    parseLine (q.assignment name value)
      = .ok (some (.leaf none (.ofTexts (name ++ '=' :: value) []))) := by
  let c : Command := .ofTexts (name ++ '=' :: value) []
  have hlexes : Lexes (q.assignment name value) fun ts => Grammar.Phrase 4 ts (.leaf none c) := by
    refine (q.lexes_assignment h value).imp fun ts hts => ?_
    obtain ⟨t, rfl, ht⟩ := hts
    have hpieces : c.pieces = [.word (.literal (name ++ '=' :: value))] := rfl
    exact .command ⟨c.pieces, hpieces ▸ .word ht .nil, c.ofPieces?_pieces⟩
  exact parseLine_of_lexes hlexes

/-! ### Runs of assignments -/

/-- No system call was made. -/
def Uncalled : Machine → Machine → Prop := Adds fun e => ¬e.IsCall

instance : Mild Uncalled where
  refl m := .of_eq rfl
  trans := Frame.trans (R := Adds fun e => ¬e.IsCall)
  mute h := .of_eq h.journal
  utter {m e} he := by
    refine .note ?_ m
    rintro ⟨pid, event, rfl⟩
    exact he.elim

/-- A variable that is set is told of in the log, and nothing else is done. -/
theorem setVariable_eq (name value : Text) (m : Machine) :
    ∃ n, setVariable name value m = .ok .success n ∧
      n.proc = { m.proc with table := m.proc.table.set name value } ∧ Uncalled m n := by
  let set : Machine := { m with proc.table := m.proc.table.set name value }
  let message := "Set variable: ".toList ++ name ++ ['='] ++ value
  obtain ⟨_, n, hlog⟩ := Answers.debug runner message set
  have hset : Uncalled m set := .of_eq rfl
  have hlogged : Uncalled set n := (Keeps.debug (R := Uncalled) runner message).of_ok hlog
  refine ⟨n, ?_, debug_idle hlog, Frame.trans hset hlogged⟩
  show (debug runner message >>= fun _ => pure Status.success) set = _
  rw [bind_eq, hlog]
  rfl

/-- A line that is one assignment sets a variable, keeps its success as the last number, and does
nothing else but tell of it. -/
theorem Shell.runLine_assignment (shell : Shell) {line : Text} {c : Command}
    (hp : parseLine line = .ok (some (.leaf none c))) (m : Machine) {name value : Text}
    (hkind : shell.rules.kind (c.verb.expand m.proc.table) = .assignment name value) :
    ∃ n, shell.runLine line m = .ok .success n ∧ Uncalled m n ∧
      n.proc = { m.proc with
        table := m.proc.table.set name value, commandLast := 0, sessionLast := 0 } := by
  obtain ⟨_, a, hdebug⟩ := Answers.debug logger ("Command tree:\n".toList ++ (Tree.leaf none c).outline 0) m
  have haproc : a.proc = m.proc := debug_idle hdebug
  have ha : Uncalled m a := (Keeps.debug (R := Uncalled) logger _).of_ok hdebug
  let b : Machine := { a with proc.commandLast := a.proc.sessionLast }
  have hb : Uncalled a b := .of_eq rfl
  let d : Machine := (Tree.leaf none c).told 0 b
  have hdproc : d.proc = b.proc := Tree.told_idle _ 0 b
  have hd : Uncalled b d :=
    Tree.told_of (R := Uncalled) (fun m _ _ => Adds.note (by rintro ⟨_, _, h⟩; cases h) m) _ 0 b
  obtain ⟨e, hset, heproc, he⟩ := setVariable_eq name value d
  have hleaf : runLeaf shell.rules none c 0 b = .ok .success e := by
    have hverb : c.verb.expand b.proc.table = c.verb.expand m.proc.table := by
      show c.verb.expand a.proc.table = _
      rw [haproc]
    rw [runLeaf_eq, Rules.perform, hverb, hkind]
    exact hset
  have hkept : Uncalled e { e with proc := { e.proc with commandLast := 0, sessionLast := 0 } } :=
    .of_eq rfl
  refine ⟨_, ?_, Frame.trans ha (Frame.trans hb (Frame.trans hd (Frame.trans he hkept))), ?_⟩
  · unfold runLine
    rw [hp]
    show (debug _ _ >>= _ : Act Status) m = _
    rw [bind_eq, hdebug]
    show ((runLeaf shell.rules none c 0 >>= remember) >>= _ : Act Status) b = _
    rw [bind_eq, bind_eq, hleaf]
    rfl
  · rw [heproc, hdproc]
    show ({ a.proc with table := a.proc.table.set name value, commandLast := 0, sessionLast := 0 } : Proc) = _
    rw [haproc]

/-! ### References -/

/-- A variable as it is written behind the dollar sign, with braces or without. -/
def braces (braced : Bool) (name : Text) : Text :=
  if braced then '\x7b' :: (name ++ ['\x7d']) else name

/-- A word that refers to a variable, with braces or without, in double quotes or bare. -/
def reference (braced quoted : Bool) (name : Text) : Text :=
  if quoted then '\x22' :: '$' :: (braces braced name ++ ['\x22']) else '$' :: braces braced name

section References

variable {name : Text} (h : isIdentifier name = true)
include h

/-- A variable ends with its brace, or in front of what is no sign of a name. -/
theorem readVariable_braces (braced : Bool) {rest : Text}
    (hrest : ∀ c ∈ rest.head?, isNameChar c = false) (pos : Nat) :
    readVariable pos (braces braced name ++ rest) = .ok (.var name, rest) := by
  cases braced with
  | true => simpa [braces] using readVariable_braced h pos
  | false =>
    obtain ⟨c, cs, rfl⟩ : ∃ c cs, name = c :: cs := by
      cases name with
      | nil => exact absurd h (by decide)
      | cons c cs => exact ⟨c, cs, rfl⟩
    simp only [isIdentifier, Bool.and_eq_true, List.all_cons, List.all_eq_true] at h
    obtain ⟨hstart, -, hall⟩ := h
    have hbrace : c ≠ '\x7b' := by
      rintro rfl
      exact absurd hstart (by decide)
    have htail : rest.dropWhile isNameChar = rest ∧ rest.takeWhile isNameChar = [] := by
      cases rest with
      | nil => exact ⟨rfl, rfl⟩
      | cons d ds =>
        have hd : isNameChar d = false := hrest d rfl
        simp [hd]
    show readVariable pos (c :: (cs ++ rest)) = _
    rw [readVariable, if_neg hbrace, if_pos hstart, List.takeWhile_append_of_pos hall,
      List.dropWhile_append_of_pos hall, htail.1, htail.2, List.append_nil]

theorem readDouble_braces (braced : Bool) (opening pos : Nat) (rest : Text) :
    readDouble opening pos ('$' :: (braces braced name ++ '\x22' :: rest))
      = .ok ([.var name], rest) := by
  have hquote : ∀ c ∈ ('\x22' :: rest).head?, isNameChar c = false := by
    simp only [List.head?_cons, Option.mem_some_iff, forall_eq']
    decide
  have hv (pos : Nat) := readVariable_braces h braced hquote pos
  obtain ⟨d, ds, hd⟩ : ∃ d ds, braces braced name ++ '\x22' :: rest = d :: ds :=
    List.exists_cons_of_ne_nil (by simp)
  rw [hd] at hv ⊢
  rw [readDouble_variable pos opening (hv pos)]
  cases rest <;> simp [readDouble, addPiece]

/-- Each reference is one word, which stands for the variable. -/
theorem lexes_reference (braced quoted : Bool) :
    Lexes (reference braced quoted name) fun ts => ∃ t, ts = [t] ∧ t.lexeme = .word [.var name] := by
  have hne : reference braced quoted name ≠ [] := by cases quoted <;> simp [reference]
  have hstart : StartsWord (reference braced quoted name) := by
    intro c cs hcs
    have hc : c = '\x22' ∨ c = '$' := by
      cases quoted with
      | true => exact Or.inl (List.cons.inj hcs).1.symm
      | false => exact Or.inr (List.cons.inj hcs).1.symm
    rcases hc with rfl | rfl
    · exact ⟨by decide, fun h => absurd h (by decide)⟩
    · exact ⟨by decide, fun h => absurd h (by decide)⟩
  refine lexes_of_readWord hne hstart fun rest hrest => ⟨[.var name], rfl, fun pos => ?_⟩
  cases quoted with
  | true =>
    have hd := readDouble_braces h braced pos (pos + 1) rest
    have := readWord_double pos hd
    rw [readWord_closes hrest] at this
    simpa [reference, addPiece] using this
  | false =>
    have hhead : ∀ c ∈ rest.head?, isNameChar c = false := by
      rcases hrest with rfl | ⟨cs, rfl⟩
      · simp
      · simp; decide
    have := readWord_variable pos (readVariable_braces h braced hhead pos)
    rw [readWord_closes hrest] at this
    simpa [reference, addPiece] using this

/-- A reference alone is cut as one token before the end of the input. -/
theorem tokenize_reference (braced quoted : Bool) :
    ∃ t e, tokenize (reference braced quoted name) = .ok [t, e] ∧ t.lexeme = .word [.var name] ∧
      e.lexeme = .eof := by
  obtain ⟨ts, ⟨t, rfl, ht⟩, hscan⟩ := lexes_reference h braced quoted 0 [] (Or.inl rfl)
  rw [List.append_nil, scan_nil] at hscan
  exact ⟨t, _, hscan, ht, rfl⟩

end References

/-! ### What is assigned and what is read -/

/-- **Assignments agree, and values read back.** The strict rule takes the texts of the pattern and no
others; what it takes the loose rule takes; what either takes can be split; and for a text of the
pattern the first group is bound to the second one.

A line that assigns a value to a name of the pattern, in any of the three kinds of quotes, succeeds
in every session and every machine, whichever rule is in force. No system call is made, so nothing is
forked, and of the process only the value of the name and the last numbers change. Afterwards each of the
four references to the name is one word, which stands for the value as it was. -/
theorem assignment_reads_back :
    (∀ verb : Text,
      (isAssignment true verb = true → isAssignment false verb = true) ∧
      (∀ strict (table : Table), isAssignment strict verb = true →
        ∃ stored, table.assign verb = .ok stored) ∧
      (isAssignment true verb = true ↔ ∃ name value, AssignmentPattern verb name value) ∧
      ∀ (table : Table) (name value : Text), AssignmentPattern verb name value →
        table.assign verb = .ok (table.set name value, name, value)) ∧
    ∀ (name value : Text), PlainName name → ∀ (q : Quotes) (shell : Shell) (m : Machine),
      ∃ n, shell.runLine (q.assignment name value) m = .ok .success n ∧
        (∀ e ∈ m.since n, ¬e.IsCall) ∧
        n.proc = { m.proc with
          table := m.proc.table.set name value, commandLast := 0, sessionLast := 0 } ∧
        (∀ other, other ≠ name → n.proc.table.get? other = m.proc.table.get? other) ∧
        ∀ braced quoted, ∃ t e word, tokenize (reference braced quoted name) = .ok [t, e] ∧
          t.lexeme = .word word ∧ e.lexeme = .eof ∧ word.expand n.proc.table = value := by
  refine ⟨fun verb => ⟨isAssignment_loose_of, ?_, isAssignment_strict_iff, ?_⟩, ?_⟩
  · intro strict table h
    obtain ⟨name, value, hsplit⟩ := isAssignment_loose_iff.1 (isAssignment_loose_of h)
    exact ⟨_, table.assign_of_split hsplit⟩
  · rintro table name value ⟨rfl, hname⟩
    exact table.assign_of_split (splitAssignment_eq_some.2 ⟨rfl, hname.equals_notMem⟩)
  · intro name value hname q shell m
    have hverb : (Command.ofTexts (name ++ '=' :: value) []).verb.expand m.proc.table
        = name ++ '=' :: value := Word.expandIn_literal _ (some m.proc.table)
    have hkind := kind_of_pattern shell.rules ⟨hverb, hname⟩
    obtain ⟨n, hrun, hcalls, hproc⟩ :=
      shell.runLine_assignment (q.parseLine_assignment hname value) m hkind
    refine ⟨n, hrun, fun e he => hcalls.of_mem_since he, hproc, fun other hother => ?_,
      fun braced quoted => ?_⟩
    · rw [hproc]
      exact Table.get?_set_of_ne _ _ hother
    · obtain ⟨t, e, htokens, ht, he⟩ := tokenize_reference hname.identifier braced quoted
      refine ⟨t, e, _, htokens, ht, he, ?_⟩
      rw [hproc]
      simp [Word.expand, Part.expand, Table.expansion]

/-- A value with quotes of both kinds, a reference, a backslash, an equals sign and the end of a
line. -/
def crowdedValue : Text := "it's \"$b\" = \\\n".toList

/-- That value between single quotes, assigned under the strict rule where the table has an older
one, and read back by way of braces between double quotes. -/
theorem assignment_reads_back_crowdedValue :
    let name := "n_1".toList
    let m := Machine.boot .standard FileTree.home [] [] [] [(name, ['0']), (['b'], ['1'])]
    PlainName name ∧ isAssignment true (name ++ '=' :: crowdedValue) = true ∧
      ∃ n, (Shell.ofSettings .standard).runLine "n_1='it'\\''s \"$b\" = \\\n'".toList m = .ok .success n ∧
        n.proc.table = [(name, crowdedValue), (['b'], ['1'])] ∧
        ∃ t e word, tokenize ['\x22', '$', '\x7b', 'n', '_', '1', '\x7d', '\x22'] = .ok [t, e] ∧
          t.lexeme = .word word ∧ e.lexeme = .eof ∧ word.expand n.proc.table = crowdedValue := by
  intro name m
  have hname : PlainName name := isPlainName_iff.1 (by decide)
  obtain ⟨hrules, hlines⟩ := assignment_reads_back
  obtain ⟨n, hrun, -, hproc, -, hread⟩ :=
    hlines name crowdedValue hname .single (Shell.ofSettings .standard) m
  refine ⟨hname, (hrules _).2.2.1.2 ⟨name, crowdedValue, rfl, hname⟩, n, hrun, ?_, hread true true⟩
  rw [hproc]
  rfl

end LineShell
