import LineShell.Proofs.Depth
import LineShell.Proofs.Shapes

/-!
# Levels

A tree is run at a level that tells how deep it stands. Nothing but the log tells of the level, so
an accepted tree does the same at every one, and where a check for nodes reached twice falls
inside the tree, as it does below a negative level, it passes. In any machine the runs answer or
fail alike, make the same calls and leave the same process. Only where the log is echoed to
something that a program can read again may bytes differ, and then by what the log says of levels.

## What is proved

Three grades of sameness are put together, each under its own condition. In every machine the runs
are `Alike`: they have one shape (`execute_shaped`). Where the log is discreet they `Agree`: they
differ in the log alone. Where records that tell of no failure are not echoed at all, the error
outputs are the same too, so nothing but the records of the journal is left to differ
(`Machine.Akin.world_eq`).

Trees that are not accepted are left out: at level 0 such a tree is refused, and at other levels
it may run.
-/

namespace LineShell

open Act

/-- Accepted trees come to the same at every level, but for bytes and records. -/
theorem execute_shaped (rules : Rules) {t : Tree} (ht : t.firstShared = none) (i j : Int) :
    Shaped (execute rules t i) (execute rules t j) := by
  induction t generalizing i j with
  | leaf mark c => exact .bind (Shaped.runLeaf rules mark c i j) fun s => .remember s
  | bare mark => exact .throw _
  | binary mark op l r ihl ihr =>
    obtain ⟨hl, hr⟩ := Tree.firstShared_sides ht
    rw [execute_pair rules ht, execute_pair rules ht]
    exact .runPair (ihl hl _ _) (ihr hr _ _) rules op _ i j

/-- Where the log is echoed from above `INFO` only, machines that differ in the log alone have one
error output. -/
theorem Machine.Akin.world_eq {m m' : Machine} (h : m.Akin m')
    (hq : ∀ n, m.world.echoFrom = some n → Level.info.number < n) :
    m'.world = { m.world with journal := m'.world.journal } := by
  obtain ⟨errors, journal, last, rfl, haside, -⟩ := h
  have herrors : errors = m.world.errors := (haside.eq hq).symm
  rw [herrors]
  rfl

/-- What is accepted is a tree in which no node is reached twice. -/
theorem Offered.eq_of_validate {offered : Offered} {t : Tree} (h : offered.validate = .ok t) :
    offered = .node t ∧ t.firstShared = none := by
  cases offered with
  | node u =>
    cases hshared : u.firstShared with
    | none =>
      simp only [validate, hshared] at h
      obtain rfl := Except.ok.inj h
      exact ⟨rfl, hshared⟩
    | some shared => simp [validate, hshared] at h
  | text _ => simp [validate] at h
  | nothing => simp [validate] at h

/-- **The level never decides how a tree runs.** At any two levels an accepted tree answers with one
status, or fails with one failure. Both runs leave one process, with one table, directory, set of
descriptors, set of counts and pair of last numbers, and one shape of the world, with the calls made.
Where the log reaches nothing that a program can read again they also leave the same files,
channels and outputs, but for records in the error output that tell of no failure; and where such
records are not echoed at all, they leave the same world but for the records of the journal. -/
theorem executeOffered_level (rules : Rules) {offered : Offered} {t : Tree}
    (h : offered.validate = .ok t) (i j : Int) (m : Machine) :
    Alike (executeOffered rules offered i m) (executeOffered rules offered j m) ∧
      (m.Discreet → Agree (executeOffered rules offered i m) (executeOffered rules offered j m)) ∧
      ((∀ n, m.world.echoFrom = some n → Level.info.number < n) →
        ((executeOffered rules offered j).after m).world
          = { ((executeOffered rules offered i).after m).world with
              journal := ((executeOffered rules offered j).after m).world.journal }) := by
  obtain ⟨rfl, ht⟩ := Offered.eq_of_validate h
  let first := executeOffered rules (.node t) i
  let second := executeOffered rules (.node t) j
  have hagree (hd : m.Discreet) : Agree (first m) (second m) :=
    (execute_twins rules ht i j).agrees m.proc.fds m m ⟨rfl, hd, .refl m⟩
  refine ⟨execute_shaped rules ht i j m m rfl, hagree, fun hquiet => ?_⟩
  have hakin : (first.after m).Akin (second.after m) := (hagree (Or.inl hquiet)).after
  have hecho : (first.after m).world.echoFrom = m.world.echoFrom :=
    (execute_followed rules t i m).grows.echoFrom
  refine hakin.world_eq fun n hn => hquiet n ?_
  rw [← hecho, hn]

/-- The tree of `(pwd | cat) && false`, every node with a mark of its own. -/
def markedPipe : Tree :=
  let leaf (mark : Nat) (verb : Text) : Tree := .leaf (some mark) ⟨[.lit verb], [], none, none, none⟩
  .binary (some 1) .conditionalAnd
    (.binary (some 2) .pipe (leaf 3 "pwd".toList) (leaf 4 "cat".toList)) (leaf 5 "false".toList)

/-- At level -1 the pipe inside that tree stands at level 0, where it is checked; at level 7 nothing
is. The second child cannot be made, and both runs say so. -/
theorem executeOffered_level_markedPipe :
    let rules : Rules := ⟨true, [.pipe, .conditionalAnd]⟩
    let m := Machine.boot .standard FileTree.home [] [0] [⟨.fork, 2, .tryAgain⟩] []
    (Offered.node markedPipe).validate = .ok markedPipe ∧
      Alike (executeOffered rules (.node markedPipe) (-1) m)
        (executeOffered rules (.node markedPipe) 7 m) ∧
      Agree (executeOffered rules (.node markedPipe) (-1) m)
        (executeOffered rules (.node markedPipe) 7 m) ∧
      ((executeOffered rules (.node markedPipe) 7).after m).world
        = { ((executeOffered rules (.node markedPipe) (-1)).after m).world with
            journal := ((executeOffered rules (.node markedPipe) 7).after m).world.journal } := by
  intro rules m
  have hvalid : (Offered.node markedPipe).validate = .ok markedPipe := by decide
  have hquiet : ∀ n, m.world.echoFrom = some n → Level.info.number < n := nofun
  obtain ⟨halike, hagree, hworld⟩ := executeOffered_level rules hvalid (-1) 7 m
  exact ⟨hvalid, halike, hagree (Or.inl hquiet), hworld hquiet⟩

end LineShell
