import LineShell.Proofs.Levels
import LineShell.Proofs.Scan

/-!
# Regrouping

Trees in a row that one serial operator joins can be bracketed in many ways. However they are,
they are gone through from left to right: each one runs if the operator admits the number that was
left by what ran before it, and what is skipped leaves that number as it is. So the brackets show
in the log alone, where every pair tells that it begins and how it ended.

## The model

* `Groups` says of a tree that it joins trees in a row by one operator, with some brackets. The
  trees of the row may be any, pairs of that operator among them, so a tree has many rows.
* `scanRow` goes through a row, and is what every bracketing is compared with.
* `OneShape` is the frame of actions that leave the shape as it was.

## What is proved

* A row is gone through up to a place and from there on (`scanRow_append`); where the operator
  does not admit a number, all that is behind it is skipped (`scanRest_skipped`).
* However a row is bracketed, it runs as its trees are gone through: but for the log, where that
  is discreet (`Groups.agrees`), and but for bytes and records in any machine (`Groups.shaped`).
  Both are inductions on the brackets and stand on one lemma about pairs, since under either
  relation a record may stand on one side alone (`AgreesFrom.debug_left`, `Shaped.debug_left`).
* Two bracketings of a row come to the same as the row, and so to the same. Where the operator is
  not registered, a row of several trees is run in no bracketing (`Groups.eq_of_unregistered`).

A row that a concurrent operator joins is another matter: there brackets decide which process
makes which child.
-/

namespace LineShell

open Act

/-- A tree that joins trees in a row by one operator, with some brackets. The trees of the row may be
any, pairs of that operator among them. -/
inductive Groups (op : Operator) : Tree → List Tree → Prop where
  /-- A tree by itself. -/
  | one (t : Tree) : Groups op t [t]
  /-- Two such trees with the operator between them. -/
  | pair (mark : Option Nat) {l r : Tree} {xs ys : List Tree} (hl : Groups op l xs)
    (hr : Groups op r ys) : Groups op (.binary mark op l r) (xs ++ ys)

theorem Groups.ne_nil {op : Operator} {t : Tree} {ts : List Tree} (h : Groups op t ts) : ts ≠ [] := by
  induction h with
  | one t => simp
  | pair mark _ _ ihl _ => exact List.append_ne_nil_of_left_ne_nil ihl _

/-- A row of one tree has no brackets; every other one has an outermost pair. -/
theorem Groups.cases_length {op : Operator} {t : Tree} {ts : List Tree} (h : Groups op t ts) :
    ts = [t] ∨ 1 < ts.length ∧ ∃ mark l r, t = .binary mark op l r := by
  cases h with
  | one t => exact Or.inl rfl
  | @pair mark l r xs ys hl hr =>
    have hx := List.length_pos_iff.2 hl.ne_nil
    have hy := List.length_pos_iff.2 hr.ne_nil
    exact Or.inr ⟨by rw [List.length_append]; omega, mark, l, r, rfl⟩

/-! ### Rows -/

/-- Trees in a row as units, one operator in front of each but the first. -/
def Units.ofRow (op : Operator) (t : Tree) (ts : List Tree) : Units := ⟨t, ts.map (op, ·)⟩

/-- Goes through trees in a row that an operator joins. -/
def scanRow (rules : Rules) (op : Operator) : List Tree → Act Status
  | [] => return .success
  | t :: ts => Units.scan rules (.ofRow op t ts)

/-- Where an operator does not admit a number, all that is behind it is skipped. -/
theorem scanRest_skipped (rules : Rules) {op : Operator} {n : Int} (h : op.admits n = false)
    (ts : List Tree) : scanRest rules (.code n) (ts.map (op, ·)) = return .code n := by
  induction ts with
  | nil => rfl
  | cons t ts ih =>
    rw [List.map_cons, scanRest, if_neg (by simp [h]), ih]

/-- A row is gone through up to a place, and from there on. -/
theorem scanRow_append (rules : Rules) (op : Operator) {xs ys : List Tree} (hx : xs ≠ [])
    (hy : ys ≠ []) :
    scanRow rules op (xs ++ ys) = scanRow rules op xs >>= fun status =>
      match status with
      | .terminate => return .terminate
      | .code n => if op.admits n then scanRow rules op ys else return .code n := by
  obtain ⟨x, xs, rfl⟩ := List.exists_cons_of_ne_nil hx
  obtain ⟨y, ys, rfl⟩ := List.exists_cons_of_ne_nil hy
  have hjoin : Units.ofRow op x (xs ++ y :: ys) = .join op (.ofRow op x xs) (.ofRow op y ys) := by
    simp [Units.ofRow, Units.join]
  show Units.scan rules (.ofRow op x (xs ++ y :: ys)) = _
  rw [hjoin, Units.scan_join]
  congr 1
  funext status
  cases status with
  | terminate => rfl
  | code n =>
    rw [scanRest]
    dsimp only
    split
    · rfl
    · next hskip => exact scanRest_skipped rules (Bool.eq_false_iff.2 hskip) ys

theorem scanRow_singleton (rules : Rules) (op : Operator) (t : Tree) :
    scanRow rules op [t] = execute rules t 0 := bind_pure _

/-! ### Brackets -/

/-- However a row is bracketed, it runs as its trees are gone through, where the log is discreet. The
induction follows the brackets: the number that a pair keeps is the one that its last tree has
kept already. -/
theorem Groups.agrees (rules : Rules) {op : Operator} (hop : op.forks = false)
    (hmem : op ∈ rules.operators) {t : Tree} {ts : List Tree} (h : Groups op t ts)
    (ht : t.firstShared = none) (level : Int) (s : Descriptors) :
    AgreesFrom s (s.get? 2) (execute rules t level) (scanRow rules op ts) := by
  induction h generalizing level with
  | one t =>
    rw [scanRow_singleton]
    exact (execute_twins rules ht level 0).agrees s
  | @pair mark l r xs ys hl hr ihl ihr =>
    obtain ⟨hlt, hrt⟩ := Tree.firstShared_sides ht
    have hruns := (execute_runs rules l (level + 1)).combine (execute_runs rules r (level + 1)) op
    have hfollowed := Keeps.combine_followed (execute_followed rules l (level + 1))
      (execute_followed rules r (level + 1)) op
    rw [execute_pair rules ht, scanRow_append rules op hl.ne_nil hr.ne_nil]
    have hleft := Outset.stays (s := s) (x := s.get? 2) (execute_runs rules l (level + 1)).restores
      (execute_followed rules l _).grows
    refine runPair_left (AgreesFrom.debug_left s) hmem ?_ (Outset.stays hruns.restores hfollowed.grows)
      (.combine hop (execute_settles rules l _) (execute_settles rules r _))
    exact .serial_of hop (ihl hlt _) hleft (ihr hrt _) fun n => pass_left (AgreesFrom.debug_left s)

/-! ### Brackets in any machine -/

/-- The machines have one shape. -/
def OneShape (m m' : Machine) : Prop := m'.shape = m.shape

instance : Frame OneShape := ⟨fun _ => rfl, fun hab hbc => hbc.trans hab⟩

/-- What tells of nothing but a record is no part of the shape. -/
theorem OneShape.note (m : Machine) {e : Entry} (he : e.shape? = none) : OneShape m (m.note e) := by
  refine Machine.shape_eq_of ?_ rfl
  rw [Machine.note, World.shape_note, he]
  simp

/-- A record is no part of the shape, nor is what is written for it. -/
instance : Logs OneShape := by
  refine .of_echo (fun m r => OneShape.note m rfl) fun {m m' bs} h => ?_
  obtain ⟨file, w, -, hw, rfl⟩ := Machine.write_eq_ok h
  have hworld : OneShape m { m with world := w } := Machine.shape_eq_of (World.shape_of_write hw) rfl
  exact Frame.trans hworld (OneShape.note _ rfl)

/-- A record may be logged on one side alone. -/
theorem Shaped.debug_left (logger message : Text) : Shaped (debug logger message) (pure ()) := by
  intro m m' hm
  obtain ⟨_, n, hlog⟩ := Answers.debug logger message m
  have hshape : OneShape m n := (Keeps.debug logger message).of_ok hlog
  rw [hlog]
  exact .ok (hshape.trans hm)

/-- However a row is bracketed, it comes to what its trees come to, but for bytes and records. -/
theorem Groups.shaped (rules : Rules) {op : Operator} (hop : op.forks = false)
    (hmem : op ∈ rules.operators) {t : Tree} {ts : List Tree} (h : Groups op t ts)
    (ht : t.firstShared = none) (level : Int) :
    Shaped (execute rules t level) (scanRow rules op ts) := by
  induction h generalizing level with
  | one t =>
    rw [scanRow_singleton]
    exact execute_shaped rules ht level 0
  | @pair mark l r xs ys hl hr ihl ihr =>
    obtain ⟨hlt, hrt⟩ := Tree.firstShared_sides ht
    rw [execute_pair rules ht, scanRow_append rules op hl.ne_nil hr.ne_nil]
    refine runPair_left Shaped.debug_left hmem ?_ (.self _)
      (.combine hop (execute_settles rules l _) (execute_settles rules r _))
    exact InStep.serial_of hop (ihl hlt _) (.self _) (ihr hrt _) fun n => pass_left Shaped.debug_left

/-! ### Two ways to bracket a row -/

/-- A pair whose operator is not registered fails at once. -/
theorem execute_unregistered {rules : Rules} {op : Operator} (hmem : op ∉ rules.operators)
    {mark : Option Nat} {l r : Tree} (h : (Tree.binary mark op l r).firstShared = none)
    (level : Int) (m : Machine) :
    execute rules (.binary mark op l r) level m = .error (.noCombinator op) m := by
  rw [execute_pair rules h]
  unfold Rules.runPair Rules.refuseMissing
  rw [if_neg hmem]
  rfl

/-- Where the operator of a row of several trees is not registered, no bracketing is run. -/
theorem Groups.eq_of_unregistered {rules : Rules} {op : Operator} (hmem : op ∉ rules.operators)
    {t u : Tree} {ts : List Tree} (ht : Groups op t ts) (hu : Groups op u ts)
    (hvt : t.firstShared = none) (hvu : u.firstShared = none) :
    t = u ∨ ∀ (i j : Int) (m : Machine), execute rules t i m = .error (.noCombinator op) m ∧
      execute rules u j m = .error (.noCombinator op) m := by
  rcases ht.cases_length with rfl | ⟨hlong, mark, l, r, rfl⟩
  · rcases hu.cases_length with h | ⟨hlong, -⟩
    · exact Or.inl (List.cons.inj h).1
    · simp at hlong
  · rcases hu.cases_length with rfl | ⟨-, mark', l', r', rfl⟩
    · simp at hlong
    · exact Or.inr fun i j m =>
        ⟨execute_unregistered hmem hvt i m, execute_unregistered hmem hvu j m⟩

/-- **Brackets around one serial operator change nothing.** Two accepted trees that join the same
trees in a row by `;`, by `&&` or by `||`, however they are bracketed, answer with one status, or
fail with one failure. In any machine both leave one process, with one table, directory, set of
descriptors, set of counts and last number, and one shape of the world, with the calls made. Where
the log reaches nothing that a program can read again they also leave the same files, channels and
outputs, but for records in the error output that tell of no failure; and where such records are not
echoed at all, they leave the same world but for the records of the journal.

The machines that a session comes to are discreet: it starts in one
(`CommandLine.discreet_of_start`) and its lines lead to such machines (`Shell.runLine_discreet`). -/
theorem execute_regrouped (rules : Rules) {op : Operator} (hop : op.forks = false) {t u : Tree}
    {ts : List Tree} (ht : Groups op t ts) (hu : Groups op u ts)
    (hvt : (Offered.node t).validate = .ok t) (hvu : (Offered.node u).validate = .ok u)
    (i j : Int) (m : Machine) :
    Alike (execute rules t i m) (execute rules u j m) ∧
      (m.Discreet → Agree (execute rules t i m) (execute rules u j m)) ∧
      ((∀ n, m.world.echoFrom = some n → Level.info.number < n) →
        ((execute rules u j).after m).world
          = { ((execute rules t i).after m).world with
              journal := ((execute rules u j).after m).world.journal }) := by
  have hat : t.firstShared = none := (Offered.eq_of_validate hvt).2
  have hau : u.firstShared = none := (Offered.eq_of_validate hvu).2
  have hboth : Alike (execute rules t i m) (execute rules u j m) ∧
      (m.Discreet → Agree (execute rules t i m) (execute rules u j m)) := by
    by_cases hmem : op ∈ rules.operators
    · refine ⟨(ht.shaped rules hop hmem hat i m m rfl).through (fun hn hn' => hn.trans hn'.symm)
        (hu.shaped rules hop hmem hau j m m rfl), fun hd => ?_⟩
      have hm : Outset m.proc.fds (m.proc.fds.get? 2) m m := ⟨rfl, hd, .refl m⟩
      exact (ht.agrees rules hop hmem hat i _ m m hm).through (fun hn hn' => hn.trans hn'.symm)
        (hu.agrees rules hop hmem hau j _ m m hm)
    · rcases ht.eq_of_unregistered hmem hu hat hau with rfl | hfails
      · exact ⟨execute_shaped rules hat i j m m rfl,
          fun hd => (execute_twins rules hat i j).agrees m.proc.fds m m ⟨rfl, hd, .refl m⟩⟩
      · obtain ⟨hft, hfu⟩ := hfails i j m
        rw [hft, hfu]
        exact ⟨.error rfl, fun _ => .error (.refl m)⟩
  refine ⟨hboth.1, hboth.2, fun hquiet => ?_⟩
  have hecho : ((execute rules t i).after m).world.echoFrom = m.world.echoFrom :=
    (execute_followed rules t i m).grows.echoFrom
  refine (hboth.2 (Or.inl hquiet)).after.world_eq fun n hn => hquiet n ?_
  rw [← hecho, hn]

/-- A leaf that runs a command without redirections. -/
def plainLeaf (mark : Nat) (words : Text × List Text) : Tree :=
  .leaf (some mark) ⟨[.lit words.1], words.2.map fun a => [.lit a], none, none, none⟩

/-- The row of `false`, `cd none`, `A=1` and `exit`. -/
def fallbacks : List Tree :=
  [plainLeaf 1 ("false".toList, []), plainLeaf 2 ("cd".toList, ["none".toList]),
    plainLeaf 3 ("A=1".toList, []), plainLeaf 4 ("exit".toList, [])]

/-- That row under `||`, bracketed from the right and, with marks on its pairs, from the left: two
failures, an assignment, and an end of the session that both skip, one of them in three steps. -/
theorem execute_regrouped_fallbacks :
    let a := plainLeaf 1 ("false".toList, [])
    let b := plainLeaf 2 ("cd".toList, ["none".toList])
    let c := plainLeaf 3 ("A=1".toList, [])
    let d := plainLeaf 4 ("exit".toList, [])
    let t : Tree := .binary none .conditionalOr a
      (.binary none .conditionalOr b (.binary none .conditionalOr c d))
    let u : Tree := .binary (some 7) .conditionalOr
      (.binary (some 6) .conditionalOr (.binary (some 5) .conditionalOr a b) c) d
    let m := Machine.boot .standard FileTree.home [] [] [] []
    Operator.conditionalOr.forks = false ∧ Groups .conditionalOr t fallbacks ∧
      Groups .conditionalOr u fallbacks ∧ (Offered.node t).validate = .ok t ∧
      (Offered.node u).validate = .ok u ∧
      ∃ n n', execute allRules t 0 m = .ok .success n ∧ execute allRules u 0 m = .ok .success n' ∧
        n.proc.table.get? ['A'] = some ['1'] ∧ n.Akin n' ∧ n'.proc = n.proc ∧
        n'.world = { n.world with journal := n'.world.journal } := by
  intro a b c d t u m
  have ht : Groups .conditionalOr t fallbacks :=
    .pair none (.one a) (.pair none (.one b) (.pair none (.one c) (.one d)))
  have hu : Groups .conditionalOr u fallbacks :=
    .pair _ (.pair _ (.pair _ (.one a) (.one b)) (.one c)) (.one d)
  have hvt : (Offered.node t).validate = .ok t := by decide +kernel
  have hvu : (Offered.node u).validate = .ok u := by decide +kernel
  have hquiet : ∀ n, m.world.echoFrom = some n → Level.info.number < n := nofun
  obtain ⟨halike, hagree, hworld⟩ := execute_regrouped allRules rfl ht hu hvt hvu 0 0 m
  have hrun : (answer? (execute allRules t 0 m)).any (fun x =>
      x.1 = .success ∧ x.2.proc.table.get? ['A'] = some ['1']) = true := by decide +kernel
  obtain ⟨⟨status, n⟩, hanswer, hends⟩ := (Option.any_eq_true _ _).1 hrun
  obtain ⟨rfl, hvar⟩ := of_decide_eq_true hends
  have hn := eq_ok_of_answer? hanswer
  obtain ⟨n', hn', hakin⟩ := (hagree (Or.inl hquiet)).exists_right hn
  have hproc : n'.proc = n.proc := by
    rw [hn, hn'] at halike
    cases halike with
    | ok hshape => exact (Machine.proc_of_shape hshape).symm
  rw [after_of_ok hn, after_of_ok hn'] at hworld
  exact ⟨rfl, ht, hu, hvt, hvu, n, n', hn, hn', hvar, hakin, hproc, hworld hquiet⟩

end LineShell
