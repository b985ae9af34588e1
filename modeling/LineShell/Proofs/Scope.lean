import Mathlib.Data.List.Infix
import LineShell.Proofs.Growth

/-!
# How far assignments reach

An assignment and a change of directory are seen by what runs later in the same process, and by
the children that this process makes later. They are not seen outside of a pipe or a parallel pair
under which they stand, and not on its other side.

What a leaf finds is told by the journal, which has an entry for its start. So a run is read off
its journal as the list of the leaves that ran, each with what is told of it, and what each of
them finds is computed from those before it.

## The model

* A `Scope` is what the words and paths of a process depend on, its variables and its directory.
  An `Update` is what a leaf can do to it: set a variable, or move, which sets two variables as
  well.
* A `Branch` is the list of pipes and parallel pairs above a leaf, each with the side on which the
  leaf stands. `Tree.spots` lists the leaves of a tree with their branches.
* `Landmark` is what the journal tells of scopes: that a leaf started, where its process was or
  went, and which program was entered with which process. `Ran` is a leaf that ran, with what is
  told of it.
* `scopeOn` computes the scope on a branch behind some leaves that ran: of their updates exactly
  those count that were made on the branch or above it.
* `Scoped` says that a list of entries is a run of leaves: they are leaves of the tree in their
  order, each starts with the scope that the ones before it leave on its branch, and its program
  is given that scope and the words expanded from it.

## What is proved

* `Scoped` goes through runs that follow one another (`Scoped.append`) and through pairs, where an
  operator that makes children keeps what its sides do from its process (`Scoped.under`).
* A command is told of by its start and by what it comes to (`runLeaf_scopes`), and nothing is
  told of the child of a command but that it became a program with the scope and words of that
  command (`Lived.told`).
* Whatever a tree does, its journal is such a run (`execute_scopes`), by induction on the tree.
  The main result reads it off for the whole run.
* The program of a command is given the variables with which the command starts
  (`runExternal_eq`).

## What is left out

A directory that is asked for in vain breaks a leaf off in the middle of its update, so runs are
taken in which that does not happen.
-/

namespace LineShell

open Act

/-! ### Scopes -/

/-- What the words and paths of a process depend on. -/
structure Scope where
  /-- The variables. -/
  table : Table
  /-- The working directory. -/
  cwd : Place
  deriving DecidableEq, Repr

/-- The scope of a process. -/
def Proc.scope (p : Proc) : Scope := ⟨p.table, p.cwd⟩

/-- What a leaf can do to the scope of its process. -/
inductive Update where
  /-- It sets a variable. -/
  | assign (name value : Text)
  /-- It moves to a directory. -/
  | move (place : Place)
  deriving DecidableEq, Repr

/-- The scope after an update. A move is also kept in two variables. -/
def Update.apply : Update → Scope → Scope
  | .assign name value, s => { s with table := s.table.set name value }
  | .move place, s =>
    ⟨(s.table.set "OLDPWD".toList s.cwd.path).set "PWD".toList place.path, place⟩

/-! ### Branches -/

/-- The pipes and parallel pairs above a leaf, outermost first: the way to each, and the side of it
on which the leaf stands. -/
abbrev Branch := List (Way × Bool)

/-- A place in a tree where a leaf stands. -/
structure Spot where
  /-- The mark of the leaf. -/
  mark : Option Nat
  /-- The command of the leaf. -/
  command : Command
  /-- The branch of the leaf. -/
  branch : Branch
  deriving DecidableEq, Repr

/-- The same branch, seen from a pair that has its tree on one side. -/
def Branch.under (op : Operator) (side : Bool) (branch : Branch) : Branch :=
  (if op.forks then [([], side)] else []) ++ branch.map fun b => (side :: b.1, b.2)

/-- The same place, seen from a pair that has its tree on one side. -/
def Spot.under (op : Operator) (side : Bool) (s : Spot) : Spot :=
  { s with branch := s.branch.under op side }

/-- The places of a pair whose sides have certain places. -/
def joinSpots (op : Operator) (left right : List Spot) : List Spot :=
  left.map (Spot.under op false) ++ right.map (Spot.under op true)

/-- The places of a tree's leaves from left to right. -/
def Tree.spots : Tree → List Spot
  | .leaf mark c => [⟨mark, c, []⟩]
  | .binary _ op l r => joinSpots op (spots l) (spots r)
  | .bare _ => []

namespace Branch

theorem under_prefix_iff (op : Operator) (side : Bool) (b c : Branch) :
    b.under op side <+: c.under op side ↔ b <+: c := by
  have hinj : Function.Injective fun b : Way × Bool => (side :: b.1, b.2) := by
    intro b c h
    obtain ⟨h₁, h₂⟩ := Prod.mk.inj h
    exact Prod.ext (List.cons.inj h₁).2 h₂
  rw [under, under, List.prefix_append_right_inj, List.prefix_map_iff_of_injective hinj]

/-- Of two branches on different sides, one stands in front of the other only if it is none. -/
theorem under_apart_iff (op : Operator) (b c : Branch) :
    b.under op false <+: c.under op true ↔ b.under op false = [] := by
  constructor
  · intro h
    cases hop : op.forks with
    | true => simp [under, hop] at h
    | false =>
      cases b with
      | nil => simp [under, hop]
      | cons b bs => cases c <;> simp [under, hop] at h
  · intro h
    rw [h]
    exact List.nil_prefix

@[simp] theorem under_ne_nil {op : Operator} (hop : op.forks = true) (side : Bool) (b : Branch) :
    b.under op side ≠ [] := by
  simp [under, hop]

@[simp] theorem under_nil {op : Operator} (hop : op.forks = false) (side : Bool) :
    Branch.under op side [] = [] := by
  simp [under, hop]

end Branch

/-! ### Runs, read off the journal -/

/-- What the journal tells of a leaf after its start. -/
inductive Told where
  /-- A working directory was asked for. -/
  | here (place : Place)
  /-- A working directory was changed. -/
  | moved
  /-- A program was entered. -/
  | entered (proc : Proc) (argv : List Text)

/-- An entry of the journal that concerns scopes. -/
inductive Landmark where
  /-- A leaf started. -/
  | began (proc : Proc) (mark : Option Nat) (command : Command)
  /-- Something is told of the leaf that started last. -/
  | told (t : Told)

/-- What a journal entry tells of scopes. -/
def Entry.landmark? : Entry → Option Landmark
  | .began p mark c => some (.began p mark c)
  | .entered p argv => some (.told (.entered p argv))
  | .called _ (.getcwd (.ok place)) => some (.told (.here place))
  | .called _ (.chdir _ (.ok ())) => some (.told .moved)
  | _ => none

/-- A leaf that ran. -/
structure Ran where
  /-- Where it stands. -/
  spot : Spot
  /-- The process in which it started. -/
  proc : Proc
  /-- What is told of it. -/
  told : List Told

/-- The entries that tell of a leaf that ran. -/
def Ran.landmarks (x : Ran) : List Landmark :=
  .began x.proc x.spot.mark x.spot.command :: x.told.map .told

/-- The directory that was reached after a change. -/
def reached? : List Told → Option Place
  | .moved :: .here place :: _ => some place
  | _ :: told => reached? told
  | [] => none

/-- What a command does to the scope of its process: its verb, expanded from the variables, says
whether it is an assignment or a change of directory, and what is told of it where it went. -/
def Command.update? (rules : Rules) (c : Command) (table : Table) (told : List Told) :
    Option Update :=
  match rules.kind (c.verb.expand table) with
  | .assignment name value => some (.assign name value)
  | .change => (reached? told).map .move
  | .finish => none
  | .external => none

/-- What a leaf that ran did to the scope of its process. -/
def Ran.update? (rules : Rules) (x : Ran) : Option Update :=
  x.spot.command.update? rules x.proc.table x.told

/-- The scope on a branch after some leaves ran: of their updates exactly those count that were
made on the branch or above it. -/
def scopeOn (rules : Rules) (branch : Branch) (ran : List Ran) (s : Scope) : Scope :=
  ((ran.filter fun x => decide (x.spot.branch <+: branch)).filterMap (Ran.update? rules)).foldl
    (fun s u => u.apply s) s

/-- What a run comes to whose entries are `es`, in a process with scope `s` at first and scope `s'`
in the end, if the leaves that ran are `ran`. -/
structure Scoped (rules : Rules) (spots : List Spot) (s : Scope) (es : List Entry) (s' : Scope)
    (ran : List Ran) : Prop where
  /-- They are all that the journal tells of. -/
  landmarks : es.filterMap Entry.landmark? = ran.flatMap Ran.landmarks
  /-- They are leaves of the tree, each run once at most, from left to right. -/
  spots : (ran.map Ran.spot).Sublist spots
  /-- Each starts with what those before it did on its branch and above it. -/
  seen : ∀ before x after, ran = before ++ x :: after →
    x.proc.scope = scopeOn rules x.spot.branch before s
  /-- A program has the scope in which its leaf started, and the words of its leaf. -/
  entered : ∀ x ∈ ran, ∀ p argv, .entered p argv ∈ x.told →
    p.scope = x.proc.scope ∧ argv = x.spot.command.argv x.proc.table
  /-- The process is left with what was done on no branch. -/
  left : s' = scopeOn rules [] ran s

/-! ### Runs put together -/

section ScopeOn

variable {rules : Rules}

theorem scopeOn_append (branch : Branch) (ran ran' : List Ran) (s : Scope) :
    scopeOn rules branch (ran ++ ran') s
      = scopeOn rules branch ran' (scopeOn rules branch ran s) := by
  simp [scopeOn]

/-- What leaves do whose branches lead elsewhere is not seen. -/
theorem scopeOn_of_elsewhere {branch : Branch} {ran : List Ran}
    (h : ∀ x ∈ ran, ¬ x.spot.branch <+: branch) (s : Scope) : scopeOn rules branch ran s = s := by
  have hnone : (ran.filter fun x => decide (x.spot.branch <+: branch)) = [] :=
    List.filter_eq_nil_iff.2 fun x hx => by simpa using h x hx
  rw [scopeOn, hnone]
  rfl

/-- Two branches see the same of leaves whose own branches stand in front of both or neither. -/
theorem scopeOn_congr {branch branch' : Branch} {ran : List Ran}
    (h : ∀ x ∈ ran, x.spot.branch <+: branch ↔ x.spot.branch <+: branch') (s : Scope) :
    scopeOn rules branch ran s = scopeOn rules branch' ran s := by
  have hfilter : (ran.filter fun x => decide (x.spot.branch <+: branch))
      = ran.filter fun x => decide (x.spot.branch <+: branch') :=
    List.filter_congr fun x hx => decide_eq_decide.2 (h x hx)
  rw [scopeOn, scopeOn, hfilter]

end ScopeOn

/-- The same leaf, seen from a pair that has its tree on one side. -/
def Ran.under (op : Operator) (side : Bool) (x : Ran) : Ran :=
  { x with spot := x.spot.under op side }

theorem scopeOn_under {rules : Rules} (op : Operator) (side : Bool) (branch : Branch)
    (ran : List Ran) (s : Scope) :
    scopeOn rules (branch.under op side) (ran.map (Ran.under op side)) s
      = scopeOn rules branch ran s := by
  have hupdate : Ran.update? rules ∘ Ran.under op side = Ran.update? rules := rfl
  have hprefix : (fun x : Ran => decide (x.spot.branch <+: branch.under op side)) ∘
      Ran.under op side = fun x => decide (x.spot.branch <+: branch) :=
    funext fun x => decide_eq_decide.2 (Branch.under_prefix_iff op side x.spot.branch branch)
  rw [scopeOn, scopeOn, List.filter_map, List.filterMap_map, hupdate, hprefix]

namespace Scoped

variable {rules : Rules} {spots left right : List Spot} {s s₁ s₂ : Scope} {es fs : List Entry}
  {ran ran' : List Ran}

theorem nil (h : es.filterMap Entry.landmark? = []) : Scoped rules spots s es s [] where
  landmarks := h
  spots := List.nil_sublist _
  seen before x after h := by simp at h
  entered x hx := by simp at hx
  left := rfl

theorem of_landmarks (h : Scoped rules spots s es s₁ ran)
    (hes : fs.filterMap Entry.landmark? = es.filterMap Entry.landmark?) :
    Scoped rules spots s fs s₁ ran :=
  { h with landmarks := hes.trans h.landmarks }

/-- One run after the other, where none of the first leaves is on a branch of the second ones,
but for those on no branch at all. -/
theorem append (h : Scoped rules left s es s₁ ran) (h' : Scoped rules right s₁ fs s₂ ran')
    (hapart : ∀ a ∈ left, ∀ b ∈ right, a.branch <+: b.branch ↔ a.branch = []) :
    Scoped rules (left ++ right) s (es ++ fs) s₂ (ran ++ ran') where
  landmarks := by rw [List.filterMap_append, List.flatMap_append, h.landmarks, h'.landmarks]
  spots := by
    rw [List.map_append]
    exact h.spots.append h'.spots
  seen before x after heq := by
    -- a leaf of the second run sees what the first one left, as far as it is on no branch
    have hleft : ∀ y ∈ ran', scopeOn rules y.spot.branch ran s = s₁ := by
      intro y hy
      rw [h.left]
      refine scopeOn_congr (fun z hz => ?_) s
      rw [List.prefix_nil]
      refine hapart z.spot ?_ y.spot ?_
      · exact h.spots.subset (List.mem_map_of_mem hz)
      · exact h'.spots.subset (List.mem_map_of_mem hy)
    rcases List.append_eq_append_iff.1 heq with ⟨mid, rfl, hran⟩ | ⟨mid, hran, hrest⟩
    · rw [scopeOn_append, hleft x (by simp [hran])]
      exact h'.seen mid x after hran
    · cases mid with
      | nil =>
        obtain rfl : ran = before := by simpa using hran
        have hran' : ran' = [] ++ x :: after := by simpa using hrest.symm
        rw [hleft x (by simp [hran'])]
        exact h'.seen [] x after hran'
      | cons y mid =>
        obtain ⟨rfl, rfl⟩ := List.cons.inj hrest
        exact h.seen before x mid hran
  entered x hx := by
    rcases List.mem_append.1 hx with hx | hx
    · exact h.entered x hx
    · exact h'.entered x hx
  left := by
    rw [scopeOn_append, ← h.left]
    exact h'.left

/-- A run seen from a pair that has its tree on one side: where the operator makes children, the
process of the pair keeps its scope. -/
theorem under (op : Operator) (side : Bool) (h : Scoped rules spots s es s₁ ran) :
    Scoped rules (spots.map (Spot.under op side)) s es (if op.forks then s else s₁)
      (ran.map (Ran.under op side)) where
  landmarks := by
    rw [h.landmarks, List.flatMap_map]
    rfl
  spots := by
    rw [List.map_map]
    show (ran.map (Spot.under op side ∘ Ran.spot)).Sublist _
    rw [← List.map_map]
    exact h.spots.map _
  seen before x after heq := by
    obtain ⟨before, rest, rfl, rfl, hrest⟩ := List.map_eq_append_iff.1 heq
    obtain ⟨x, after, rfl, rfl, rfl⟩ := List.map_eq_cons_iff.1 hrest
    exact (h.seen before x after rfl).trans (scopeOn_under op side x.spot.branch before s).symm
  entered x hx := by
    obtain ⟨y, hy, rfl⟩ := List.mem_map.1 hx
    exact h.entered y hy
  left := by
    cases hop : op.forks with
    | true =>
      refine (scopeOn_of_elsewhere (fun x hx hp => ?_) s).symm
      obtain ⟨x, -, rfl⟩ := List.mem_map.1 hx
      exact Branch.under_ne_nil hop side _ (List.prefix_nil.1 hp)
    | false =>
      have hunder : scopeOn rules (Branch.under op side []) (ran.map (Ran.under op side)) s
          = scopeOn rules [] ran s := scopeOn_under op side [] ran s
      rw [Branch.under_nil hop] at hunder
      exact h.left.trans hunder.symm

end Scoped

/-! ### From machine to machine -/

/-- The journal has certain landmarks between two machines. -/
def Trail (ts : List Landmark) (m m' : Machine) : Prop :=
  ∃ es, m'.world.journal = m.world.journal ++ es ∧ es.filterMap Entry.landmark? = ts

/-- Nothing is told of scopes, and the scope is as it was. -/
structure Silent (m m' : Machine) : Prop where
  /-- Nothing is told. -/
  trail : Trail [] m m'
  /-- The scope is as it was. -/
  scope : m'.proc.scope = m.proc.scope

theorem Trail.trans {ts us : List Landmark} {m m₁ m' : Machine} (h : Trail ts m m₁)
    (h' : Trail us m₁ m') : Trail (ts ++ us) m m' := by
  obtain ⟨es, hes, hts⟩ := h
  obtain ⟨fs, hfs, hus⟩ := h'
  exact ⟨es ++ fs, by rw [hfs, hes, List.append_assoc], by rw [List.filterMap_append, hts, hus]⟩

theorem Trail.refl (m : Machine) : Trail [] m m := ⟨[], by simp, rfl⟩

theorem Entry.landmark?_of_isPlain {e : Entry} (h : e.isPlain = true) : e.landmark? = none := by
  unfold landmark?
  split
  · simp [isPlain] at h
  · simp [isPlain] at h
  · simp [isPlain, Event.isPlain] at h
  · simp [isPlain, Event.isPlain] at h
  · rfl

theorem World.Plain.trail {m m' : Machine} (h : m.world.Plain m'.world) : Trail [] m m' := by
  obtain ⟨es, hes, hplain⟩ := h.journal
  exact ⟨es, hes, List.filterMap_eq_nil_iff.2 fun e he => Entry.landmark?_of_isPlain (hplain e he)⟩

instance : Frame Silent where
  refl m := ⟨.refl m, rfl⟩
  trans hab hbc := ⟨hab.trail.trans hbc.trail, hbc.scope.trans hab.scope⟩

instance : Lenient Silent where
  plain {m w} h := by
    have htrail : Trail [] m { m with world := w } := World.Plain.trail h
    exact ⟨htrail, rfl⟩

instance : Forgetful Silent where
  same {m p} h := ⟨.refl _, by rw [Proc.scope, Proc.scope, h.table, h.cwd]⟩

theorem Rebound.silent {m m' : Machine} (h : Rebound m m') : Silent m m' :=
  ⟨h.plain.trail, by rw [Proc.scope, Proc.scope, h.table, h.cwd]⟩

theorem silent_note (m : Machine) {e : Entry} (h : e.landmark? = none) : Silent m (m.note e) :=
  ⟨⟨[e], rfl, by simp [h]⟩, rfl⟩

/-- What a run between two machines comes to, unless it asked for a directory in vain. -/
def Scopes (rules : Rules) (spots : List Spot) (m m' : Machine) : Prop :=
  ∃ es, m'.world.journal = m.world.journal ++ es ∧
    ((∀ e ∈ es, e.failed? ≠ some .getcwd) →
      ∃ ran, Scoped rules spots m.proc.scope es m'.proc.scope ran)

namespace Scopes

variable {rules : Rules} {spots left right : List Spot} {m m₁ m' : Machine}

theorem of_silent (h : Silent m m') : Scopes rules spots m m' := by
  obtain ⟨⟨es, hes, hnone⟩, hscope⟩ := h
  refine ⟨es, hes, fun _ => ⟨[], ?_⟩⟩
  rw [hscope]
  exact .nil hnone

theorem silent_trans (h : Silent m m₁) (h' : Scopes rules spots m₁ m') :
    Scopes rules spots m m' := by
  obtain ⟨⟨es, hes, hnone⟩, hscope⟩ := h
  obtain ⟨fs, hfs, hran⟩ := h'
  refine ⟨es ++ fs, by rw [hfs, hes, List.append_assoc], fun hspared => ?_⟩
  obtain ⟨ran, hscoped⟩ := hran fun e he => hspared e (List.mem_append_right _ he)
  rw [hscope] at hscoped
  exact ⟨ran, hscoped.of_landmarks (by rw [List.filterMap_append, hnone, List.nil_append])⟩

theorem trans_silent (h : Scopes rules spots m m₁) (h' : Silent m₁ m') :
    Scopes rules spots m m' := by
  obtain ⟨es, hes, hran⟩ := h
  obtain ⟨⟨fs, hfs, hnone⟩, hscope⟩ := h'
  refine ⟨es ++ fs, by rw [hfs, hes, List.append_assoc], fun hspared => ?_⟩
  obtain ⟨ran, hscoped⟩ := hran fun e he => hspared e (List.mem_append_left _ he)
  rw [hscope]
  exact ⟨ran, hscoped.of_landmarks (by rw [List.filterMap_append, hnone, List.append_nil])⟩

/-- The sides of a pair, one after the other. -/
theorem pair {op : Operator}
    (h : Scopes rules (left.map (Spot.under op false)) m m₁)
    (h' : Scopes rules (right.map (Spot.under op true)) m₁ m') :
    Scopes rules (joinSpots op left right) m m' := by
  obtain ⟨es, hes, hran⟩ := h
  obtain ⟨fs, hfs, hran'⟩ := h'
  refine ⟨es ++ fs, by rw [hfs, hes, List.append_assoc], fun hspared => ?_⟩
  obtain ⟨ran, hscoped⟩ := hran fun e he => hspared e (List.mem_append_left _ he)
  obtain ⟨ran', hscoped'⟩ := hran' fun e he => hspared e (List.mem_append_right _ he)
  refine ⟨ran ++ ran', hscoped.append hscoped' fun a ha b hb => ?_⟩
  obtain ⟨a, -, rfl⟩ := List.mem_map.1 ha
  obtain ⟨b, -, rfl⟩ := List.mem_map.1 hb
  exact Branch.under_apart_iff op a.branch b.branch

/-- A side that runs in the process of its pair. -/
theorem serial {op : Operator} (hop : op.forks = false) (side : Bool)
    (h : Scopes rules spots m m') : Scopes rules (spots.map (Spot.under op side)) m m' := by
  obtain ⟨es, hes, hran⟩ := h
  refine ⟨es, hes, fun hspared => ?_⟩
  obtain ⟨ran, hscoped⟩ := hran hspared
  have hunder := hscoped.under op side
  rw [hop] at hunder
  exact ⟨_, hunder⟩

/-- A side that runs in a child of the process of its pair. -/
theorem birth {op : Operator} (hop : op.forks = true) (side : Bool) {work : Act ChildEnd}
    (hwork : ∀ m, Scopes rules spots m (work.after m)) {raw : Nat} (h : Birth work raw m m') :
    Scopes rules (spots.map (Spot.under op side)) m m' := by
  obtain ⟨dead, hlived, hq⟩ := h
  have hlife : Scopes rules spots m.born dead :=
    (hwork m.born).trans_silent (hlived.after fun n _ => silent_note n rfl)
  have hborn : Silent m m.born := ⟨⟨[_, _], List.append_assoc .., rfl⟩, rfl⟩
  obtain ⟨es, hes, hran⟩ := silent_trans hborn hlife
  obtain ⟨fs, hfs, hnone⟩ := hq.plain.trail
  have hjournal : m'.world.journal = m.world.journal ++ (es ++ fs) := by
    rw [hfs, ← List.append_assoc, ← hes]
    rfl
  have hscope : m'.proc.scope = m.proc.scope := (Forgetful.quiet (R := Silent) hq).scope
  refine ⟨es ++ fs, hjournal, fun hspared => ?_⟩
  obtain ⟨ran, hscoped⟩ := hran fun e he => hspared e (List.mem_append_left _ he)
  have hunder := hscoped.under op side
  rw [if_pos hop] at hunder
  rw [hscope]
  exact ⟨_, hunder.of_landmarks (by rw [List.filterMap_append, hnone, List.append_nil])⟩

end Scopes

/-! ### Leaves -/

/-- What a command comes to after its start, unless it asked for a directory in vain. -/
def Acts (rules : Rules) (c : Command) (m m' : Machine) : Prop :=
  ∃ es, m'.world.journal = m.world.journal ++ es ∧
    ((∀ e ∈ es, e.failed? ≠ some .getcwd) →
      ∃ told, es.filterMap Entry.landmark? = told.map .told ∧
        (∀ p argv, .entered p argv ∈ told →
          p.scope = m.proc.scope ∧ argv = c.argv m.proc.table) ∧
        m'.proc.scope =
          (c.update? rules m.proc.table told).elim m.proc.scope (·.apply m.proc.scope))

namespace Acts

variable {rules : Rules} {c : Command} {m m' : Machine}

/-- A command of which no program and no move is told. -/
theorem of_trail (told : List Told) (h : Trail (told.map .told) m m')
    (hentered : ∀ p argv, .entered p argv ∈ told →
      p.scope = m.proc.scope ∧ argv = c.argv m.proc.table)
    (hscope : m'.proc.scope =
      (c.update? rules m.proc.table told).elim m.proc.scope (·.apply m.proc.scope)) :
    Acts rules c m m' := by
  obtain ⟨es, hes, htold⟩ := h
  exact ⟨es, hes, fun _ => ⟨told, htold, hentered, hscope⟩⟩

theorem of_silent (h : Silent m m') (hupdate : c.update? rules m.proc.table [] = none) :
    Acts rules c m m' := by
  refine of_trail [] h.trail (by simp) ?_
  rw [hupdate]
  exact h.scope

/-- A directory was asked for in vain. -/
theorem of_failed {m₁ : Machine} {ts : List Landmark} (h : Trail ts m m₁) {pid : Nat} {e : Errno}
    (hm' : m'.world.journal = m₁.world.journal ++ [.called pid (.getcwd (.error e))]) :
    Acts rules c m m' := by
  obtain ⟨es, hes, -⟩ := h
  refine ⟨es ++ [.called pid (.getcwd (.error e))], by rw [hm', hes, List.append_assoc], ?_⟩
  intro hspared
  exact absurd rfl (hspared _ (List.mem_append_right _ (List.mem_singleton_self _)))

end Acts

theorem located_trail (m : Machine) : Trail [.told (.here m.proc.cwd)] m m.located :=
  ⟨[_], rfl, rfl⟩

theorem moved_trail (m : Machine) (path : Text) (place : Place) :
    Trail [.told .moved] m (m.moved path place) :=
  ⟨[_], rfl, rfl⟩

theorem changeDirectory_acts {rules : Rules} {c : Command} {m : Machine}
    (h : rules.kind (c.verb.expand m.proc.table) = .change) :
    Acts rules c m ((changeDirectory c).after m) := by
  have hupdate (told : List Told) :
      c.update? rules m.proc.table told = (reached? told).map .move := by
    rw [Command.update?, h]
  have hleft (target : Text) (place : Place) :
      Trail [.told (.here m.proc.cwd), .told .moved] m (m.left target place) :=
    (located_trail m).trans (moved_trail m.located target place)
  have harrived (target : Text) (place : Place) :
      Trail [.told (.here m.proc.cwd), .told .moved, .told (.here place)] m (m.arrived target place) :=
    (hleft target place).trans (located_trail (m.left target place))
  have hchanges := changeDirectory_changes c m
  unfold after
  generalize changeDirectory c m = r at hchanges
  cases hchanges with
  | nowhere hd hlog => exact .of_silent ((Keeps.debug _ _).of_ok hlog) (hupdate [])
  | lost e => exact .of_failed (.refl m) rfl
  | illegible hd hnul =>
    refine .of_trail [.here m.proc.cwd] (located_trail m) (by simp) ?_
    rw [hupdate]
    rfl
  | @refused target message e n hd hnul hlog =>
    have hrefused : Silent m.located (m.located.unmoved target e) :=
      Frame.trans (b := m.located.counted .chdir) (Lenient.plain (.counted m.located .chdir))
        (silent_note _ rfl)
    have hsilent : Silent m.located n := Frame.trans hrefused ((Keeps.debug _ _).of_ok hlog)
    refine .of_trail [.here m.proc.cwd] ((located_trail m).trans hsilent.trail) (by simp) ?_
    rw [hupdate]
    exact hsilent.scope
  | astray hd hnul henters e => exact .of_failed (hleft _ _) rfl
  | untold hd hnul henters e => exact .of_failed (harrived _ _) rfl
  | @arrived target message place n hd hnul henters hlog =>
    have hlogged : Silent (m.arrived target place).located n := (Keeps.debug _ _).of_ok hlog
    have htrail := (harrived target place).trans (located_trail (m.arrived target place))
    refine .of_trail [.here m.proc.cwd, .moved, .here place, .here place]
      (htrail.trans hlogged.trail) (by simp) ?_
    rw [hupdate]
    exact hlogged.scope

theorem Keeps.await_silent (pid : Nat) : Keeps Silent (await pid) :=
  .await_of (.wait_of (fun m _ => silent_note m rfl) fun m _ => ⟨Trail.refl m, rfl⟩)

/-- Of a child that runs a command, nothing is told but that it became a program with the scope
and the words of the command. -/
theorem Lived.told {c : Command} {m m' : Machine} {raw : Nat} (h : Lived (runChild c) m raw m') :
    ∃ told : List Told, Trail (told.map .told) m m' ∧ ∀ p argv, .entered p argv ∈ told →
      p.scope = m.proc.scope ∧ argv = c.argv m.proc.table := by
  have hfate := runChild_fate c m
  cases h with
  | program h =>
    rw [h] at hfate
    cases hfate with
    | @program raw n m' hre hb =>
      obtain ⟨n', hq, rfl⟩ := hb
      refine ⟨[.entered n.proc (c.argv m.proc.table)], ?_, ?_⟩
      · have hentered : Trail [.told (.entered n.proc (c.argv m.proc.table))] n
            (n.note (.entered n.proc (c.argv m.proc.table))) := ⟨[_], rfl, rfl⟩
        exact hre.silent.trail.trans ((hentered.trans hq.plain.trail).trans
          (silent_note n' rfl).trail)
      · intro p argv hp
        obtain ⟨rfl, rfl⟩ := Told.entered.inj (List.mem_singleton.1 hp)
        exact ⟨hre.silent.scope, rfl⟩
  | exit h =>
    rw [h] at hfate
    cases hfate with
    | exit hre => exact ⟨[], hre.silent.trail.trans (silent_note _ rfl).trail, by simp⟩
  | error h hq =>
    rw [h] at hfate
    cases hfate with
    | error hre =>
      exact ⟨[], (hre.silent.trail.trans hq.plain.trail).trans (silent_note _ rfl).trail, by simp⟩

theorem runExternal_acts {rules : Rules} {c : Command} {m : Machine}
    (h : rules.kind (c.verb.expand m.proc.table) = .external) :
    Acts rules c m ((runExternal c).after m) := by
  have hupdate (told : List Told) : c.update? rules m.proc.table told = none := by
    rw [Command.update?, h]
  rcases runExternal_cases c m with ⟨e, hr⟩ | ⟨raw, m₁, ⟨dead, hlived, hq⟩, hr⟩
  · rw [after_eq_of_eq hr]
    have hs : Silent m ((withoutChild c e).after (m.barren e)) :=
      Frame.trans (Forgetful.quiet (m.barren_quiet e)) (Keeps.withoutChild c e _)
    exact .of_silent hs (hupdate [])
  · rw [after_eq_of_eq hr]
    have hborn : Trail [] m m.born := ⟨[_, _], List.append_assoc .., rfl⟩
    obtain ⟨told, htold, hentered⟩ := hlived.told
    obtain ⟨es, hes, hnone⟩ := hq.plain.trail
    have hm₁ : Trail (told.map .told) m m₁ := by
      obtain ⟨fs, hfs, hmarks⟩ := hborn.trans htold
      refine ⟨fs ++ es, ?_, by rw [List.filterMap_append, hnone, hmarks]; simp⟩
      rw [hes, ← List.append_assoc, ← hfs]
      rfl
    have hscope : m₁.proc.scope = m.proc.scope := (Forgetful.quiet (R := Silent) hq).scope
    have hawait := Keeps.await_silent m.world.nextPid m₁
    have htrail := hm₁.trans hawait.trail
    rw [List.append_nil] at htrail
    refine .of_trail _ htrail hentered ?_
    rw [hupdate]
    exact hawait.scope.trans hscope

/-- A leaf is told of by its start, and then by what its command comes to. -/
theorem Scopes.of_acts {rules : Rules} {mark : Option Nat} {c : Command} {m n m' : Machine}
    (hs : Silent (m.note (.began m.proc mark c)) n)
    (h : Acts rules c n m') : Scopes rules [⟨mark, c, []⟩] m m' := by
  obtain ⟨⟨es, hes, hnone⟩, hscope⟩ := hs
  obtain ⟨fs, hfs, htold⟩ := h
  have hn : n.proc.scope = m.proc.scope := hscope
  have htable : n.proc.table = m.proc.table := congrArg Scope.table hn
  refine ⟨.began m.proc mark c :: es ++ fs, ?_, fun hspared => ?_⟩
  · rw [hfs, hes]
    simp [Machine.note, World.note]
  · obtain ⟨told, hmarks, hentered, hleft⟩ := htold fun e he => hspared e (by simp [he])
    rw [hn, htable] at hentered
    rw [hn, htable] at hleft
    let x : Ran := ⟨⟨mark, c, []⟩, m.proc, told⟩
    refine ⟨[x], ?_, ?_, ?_, ?_, ?_⟩
    · have hbegan : Entry.landmark? (.began m.proc mark c) = some (.began m.proc mark c) := rfl
      simp [hbegan, hnone, hmarks, x, Ran.landmarks]
    · exact List.Sublist.refl _
    · intro before y after heq
      obtain ⟨rfl, rfl, -⟩ : before = [] ∧ y = x ∧ after = [] := by
        cases before with
        | nil => simpa [eq_comm] using heq
        | cons z zs => simp at heq
      rfl
    · intro y hy
      obtain rfl := List.mem_singleton.1 hy
      exact hentered
    · rw [hleft]
      have hx : Ran.update? rules x = c.update? rules m.proc.table told := rfl
      cases hu : c.update? rules m.proc.table told with
      | none => simp [scopeOn, x, hx, hu]
      | some u => simp [scopeOn, x, hx, hu]

theorem runLeaf_scopes (rules : Rules) (mark : Option Nat) (c : Command) (level : Int)
    (m : Machine) : Scopes rules [⟨mark, c, []⟩] m ((runLeaf rules mark c level).after m) := by
  let began := m.note (.began m.proc mark c)
  obtain ⟨n, hlog, hq⟩ := debug_quiet runner (levelText level ++ "Simple command: ".toList ++ c.shown)
    began
  have htable : n.proc.table = m.proc.table := hq.same.table
  have hrun : (runLeaf rules mark c level).after m =
      (match rules.kind (c.verb.expand n.proc.table) with
      | .assignment name value => do
        modifyProc fun p => { p with table := p.table.set name value }
        debug runner ("Set variable: ".toList ++ name ++ ['='] ++ value)
        return .success
      | .change => changeDirectory c
      | .finish => do
        info runner (['\x27'] ++ c.verb.expand n.proc.table
          ++ "' requested session termination".toList)
        return .terminate
      | .external => runExternal c : Act Status).after n := by
    rw [htable]
    refine (after_bind (debug runner _) _ began).trans ?_
    exact hlog ▸ rfl
  rw [hrun]
  refine .of_acts (Forgetful.quiet hq) ?_
  cases hkind : rules.kind (c.verb.expand n.proc.table) with
  | assignment name value =>
    let set : Machine := { n with proc.table := n.proc.table.set name value }
    have hs : Keeps Silent (do
        debug runner ("Set variable: ".toList ++ name ++ ['='] ++ value)
        return Status.success) := .bind (.debug _ _) fun _ => .pure _
    refine .of_trail [] (hs set).trail (by simp) ?_
    rw [Command.update?, hkind]
    exact (hs set).scope
  | change => exact changeDirectory_acts hkind
  | finish =>
    have hs : Keeps Silent (do
        info runner (['\x27'] ++ c.verb.expand n.proc.table
          ++ "' requested session termination".toList)
        return Status.terminate) := .bind (.info _ _) fun _ => .pure _
    exact .of_silent (hs n) (by rw [Command.update?, hkind])
  | external => exact runExternal_acts hkind

/-! ### Trees -/

section Pairs

variable {rules : Rules} {left right : List Spot} {a b : Act Status}

theorem Scopes.bind_silent {α β : Type} {spots : List Spot} {a : Act α} {f : α → Act β}
    {m : Machine} (h : Scopes rules spots m (a.after m)) (hf : ∀ x, Keeps Silent (f x)) :
    Scopes rules spots m ((a >>= f).after m) := by
  rcases after_bind_cases a f m with ⟨x, -, hb⟩ | ⟨e, -, hb⟩
  · rw [hb]
    exact h.trans_silent (hf x _)
  · rwa [hb]

theorem Scopes.silent_bind {α β : Type} {spots : List Spot} {a : Act α} {f : α → Act β}
    (ha : Keeps Silent a) (hf : ∀ x m, Scopes rules spots m ((f x).after m)) (m : Machine) :
    Scopes rules spots m ((a >>= f).after m) := by
  have h := ha m
  rcases after_bind_cases a f m with ⟨x, -, hb⟩ | ⟨e, -, hb⟩
  · rw [hb]
    exact .silent_trans h (hf x _)
  · rw [hb]
    exact .of_silent h

/-- One side after the other, in the process of the pair. -/
theorem Scopes.bind {op : Operator} (hop : op.forks = false) {f : Status → Act Status}
    (ha : ∀ m, Scopes rules left m (a.after m)) (hf : ∀ s m, Scopes rules right m ((f s).after m))
    (m : Machine) : Scopes rules (joinSpots op left right) m ((a >>= f).after m) := by
  have h := ha m
  rcases after_bind_cases a f m with ⟨s, -, hb⟩ | ⟨e, -, hb⟩
  · rw [hb]
    exact .pair (h.serial hop false) ((hf s _).serial hop true)
  · rw [hb]
    exact .pair (h.serial hop false) (.of_silent (Frame.refl _))

/-- The two children of a pair. -/
theorem Births.scopes {op : Operator} (hop : op.forks = true) {x y : Act ChildEnd}
    (hx : ∀ m, Scopes rules left m (x.after m)) (hy : ∀ m, Scopes rules right m (y.after m))
    {m m' : Machine} {r : List Nat × Option Failure} (h : Births x y m r m') :
    Scopes rules (joinSpots op left right) m m' := by
  cases h with
  | none e => exact .of_silent (Forgetful.quiet (m.barren_quiet e))
  | one hbx e =>
    exact .pair (.birth hop false hx hbx) (.of_silent (Forgetful.quiet (Machine.barren_quiet _ e)))
  | two hbx hby => exact .pair (.birth hop false hx hbx) (.birth hop true hy hby)

theorem sideWork_scopes {spots : List Spot} (ha : ∀ m, Scopes rules spots m (a.after m))
    (m : Machine) : Scopes rules spots m ((sideWork a).after m) :=
  .bind_silent (ha m) fun _ => .pure _

theorem pipeSide_scopes {spots : List Spot} (ha : ∀ m, Scopes rules spots m (a.after m))
    (fd standard r w : Nat) (m : Machine) :
    Scopes rules spots m ((pipeSide a fd standard r w).after m) :=
  .silent_bind ((Keeps.bindStream _ _ _).mono fun _ _ h => h.silent)
    (fun _ => sideWork_scopes ha) m

/-- The sides of a serial operator, in the process of the pair. -/
theorem serial_scopes {op : Operator} (hop : op.forks = false)
    (ha : ∀ m, Scopes rules left m (a.after m)) (hb : ∀ m, Scopes rules right m (b.after m))
    (m : Machine) : Scopes rules (joinSpots op left right) m ((combine op a b).after m) := by
  rw [combine_of_serial hop]
  refine .bind hop ha (fun s m => ?_) m
  cases s with
  | terminate => exact .of_silent (Frame.refl m)
  | code n =>
    dsimp only
    split
    · exact hb m
    · next hskip => exact .of_silent (Keeps.pass (R := Silent) (Bool.eq_false_iff.2 hskip) m)

theorem combine_scopes (ha : ∀ m, Scopes rules left m (a.after m))
    (hb : ∀ m, Scopes rules right m (b.after m)) (op : Operator) (m : Machine) :
    Scopes rules (joinSpots op left right) m ((combine op a b).after m) := by
  cases op with
  | sequential => exact serial_scopes rfl ha hb m
  | conditionalAnd => exact serial_scopes rfl ha hb m
  | conditionalOr => exact serial_scopes rfl ha hb m
  | pipe =>
    show Scopes rules _ m ((piped a b).after m)
    rcases piped_cases a b m with ⟨e, -, hr⟩ | ⟨r, w, m₁, pids, failure, m₂, hc, hbirths, hr⟩
    · have hs : Silent m ((withoutPipe e).after (m.unpiped e)) :=
        Frame.trans (Forgetful.quiet (m.unpiped_quiet e)) (Keeps.withoutPipe e _)
      rw [after_eq_of_eq hr]
      exact .of_silent hs
    · have h₁ := Keeps.createChannel.of_ok hc
      have h₂ : Scopes rules (joinSpots .pipe left right) m₁ m₂ :=
        hbirths.scopes rfl (pipeSide_scopes ha w 1 r w) (pipeSide_scopes hb r 0 r w)
      have h₃ : Silent m₂ ((finishPipe r w pids failure).after m₂) :=
        Keeps.finishPipe ((Keeps.closeAll _).mono fun _ _ h => h.silent)
          (fun pid _ => Keeps.await_silent pid) failure m₂
      rw [after_eq_of_eq hr]
      exact (h₂.silent_trans h₁.silent).trans_silent h₃
  | parallel =>
    show Scopes rules _ m ((inParallel a b).after m)
    obtain ⟨pids, failure, m₁, hbirths, hr⟩ := inParallel_cases a b m
    have h₁ : Scopes rules (joinSpots .parallel left right) m m₁ :=
      hbirths.scopes rfl (sideWork_scopes ha) (sideWork_scopes hb)
    have h₂ : Silent m₁ ((finishParallel pids failure).after m₁) :=
      Keeps.finishParallel (fun pid _ => Keeps.await_silent pid) failure m₁
    rw [after_eq_of_eq hr]
    exact h₁.trans_silent h₂

end Pairs

/-- Whatever a tree does, what its journal tells of is a run of its leaves. -/
theorem execute_scopes (rules : Rules) (t : Tree) (level : Int) (m : Machine) :
    Scopes rules t.spots m ((execute rules t level).after m) := by
  induction t generalizing level m with
  | leaf mark c => exact .bind_silent (runLeaf_scopes rules mark c level m) fun _ => .remember _
  | bare mark => exact .of_silent (Frame.refl m)
  | binary mark op l r ihl ihr =>
    have hpair : ∀ n, Scopes rules (joinSpots op l.spots r.spots) n
        ((rules.runPair op (Tree.binary mark op l r).shown level (execute rules l (level + 1))
          (execute rules r (level + 1))).after n) := by
      refine .silent_bind (.refuse _) fun _ => .silent_bind (.debug _ _) fun _ n => ?_
      refine .bind_silent (combine_scopes (ihl _) (ihr _) op n) fun status => ?_
      exact .bind (.debug _ _) fun _ => .remember _
    unfold execute
    split
    · exact .silent_bind (.refuse _) (fun _ => hpair) m
    · exact hpair m

/-! ### Environments -/

/-- What a child does for an external command if its program is given a certain environment, and
words expanded from it. -/
def runChildIn (environment : Table) (c : Command) : Act ChildEnd := do
  match ← attempt (applyRedirects c) with
  | .ok () =>
    modifyProc fun p => { p with table := environment }
    runProgram (c.argv environment)
  | .error (.system e path) =>
    report (path.getD "None".toList ++ ": ".toList ++ e.reason)
    return .exit 1
  | .error failure => throw failure

/-- An external command whose program is given a certain environment, entered or not. -/
def runExternalIn (environment : Table) (c : Command) : Act Status := do
  match ← attempt (spawn (runChildIn environment c)) with
  | .ok pid => await pid
  | .error (.system e path) =>
    error runner ("Cannot fork for ".toList ++ c.shown ++ ": ".toList
      ++ (Failure.system e path).message) none
    report ("fork: ".toList ++ e.reason)
    return .failure
  | .error failure => throw failure

theorem runChild_eq (c : Command) (m : Machine) : runChild c m = runChildIn m.proc.table c m := by
  have hkeep := Keeps.attempt (Keeps.applyRedirects c) m
  unfold runChild runChildIn
  rw [bind_eq, bind_eq]
  cases hr : attempt (applyRedirects c) m with
  | error e m₁ => rfl
  | ok r m₁ =>
    rw [after_of_ok hr] at hkeep
    cases r with
    | error e => cases e <;> rfl
    | ok _ =>
      show runProgram (c.argv m₁.proc.table) m₁ = runProgram (c.argv m.proc.table)
        { m₁ with proc.table := m.proc.table }
      rw [← hkeep.table]

/-- The program of an external command is given the variables with which the command starts. -/
theorem runExternal_eq (c : Command) (m : Machine) :
    runExternal c m = runExternalIn m.proc.table c m :=
  bind_left_congr (attempt_congr (spawn_congr (runChild_eq c m.born)))

/-! ### The whole run -/

/-- **Main result**: as long as no working directory is asked for in vain, each leaf that runs in a
tree starts with what the leaves before it assigned and where they moved, on its own branch or
above it, and with nothing else; a program is given that; and when the run is over, however it
ends, the running process has what was done on no branch. -/
theorem execute_scoped (rules : Rules) (t : Tree) (level : Int) (m : Machine)
    (h : ∀ e ∈ m.since ((execute rules t level).after m), e.failed? ≠ some .getcwd) :
    (∃ ran, Scoped rules t.spots m.proc.scope (m.since ((execute rules t level).after m))
      ((execute rules t level).after m).proc.scope ran) ∧
    ∀ c n, runExternal c n = runExternalIn n.proc.table c n := by
  obtain ⟨es, hes, hran⟩ := execute_scopes rules t level m
  rw [Machine.since_eq hes] at h ⊢
  exact ⟨hran h, runExternal_eq⟩

/-- The tree of `A=1; (A=2; cd /) | env; A=$A$A`, with a sequence on one side of a pipe. -/
def pipedAssignment : Tree :=
  let word (t : String) : Word := [.lit t.toList]
  let leaf (verb : Word) (args : List Word) : Tree := .leaf none ⟨verb, args, none, none, none⟩
  .binary none .sequential
    (.binary none .sequential (leaf (word "A=1") [])
      (.binary none .pipe
        (.binary none .sequential (leaf (word "A=2") []) (leaf (word "cd") [word "/"]))
        (leaf (word "env") [])))
    (leaf [.lit "A=".toList, .var "A".toList, .var "A".toList] [])

/-- The rules of a session with all operators. -/
def allRules : Rules := ⟨true, Operator.all⟩

/-- What the left side of the pipe does is seen by none but itself. -/
example :
    let m := Machine.boot .standard FileTree.home [] [] [] []
    ((execute allRules pipedAssignment 0).after m).proc.scope
      = ⟨[("A".toList, "11".toList)], FileTree.home⟩ := by decide +kernel

/-- That tree in a new session, whose plan names a call for the directory that is never made. -/
theorem execute_scoped_pipedAssignment :
    let m := Machine.boot .standard FileTree.home [] [] [⟨.getcwd, 9, .noEntry⟩] []
    (∀ e ∈ m.since ((execute allRules pipedAssignment 0).after m), e.failed? ≠ some .getcwd) ∧
    (∃ ran, Scoped allRules pipedAssignment.spots m.proc.scope
      (m.since ((execute allRules pipedAssignment 0).after m))
      ((execute allRules pipedAssignment 0).after m).proc.scope ran) ∧
    ∀ c n, runExternal c n = runExternalIn n.proc.table c n := by
  intro m
  have h : ∀ e ∈ m.since ((execute allRules pipedAssignment 0).after m),
      e.failed? ≠ some .getcwd := by
    decide +kernel
  exact ⟨h, execute_scoped allRules pipedAssignment 0 m h⟩

end LineShell
