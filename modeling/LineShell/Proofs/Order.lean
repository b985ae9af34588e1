import LineShell.Proofs.History

/-!
# Which leaves run, and when nothing runs any more

The journal tells of each leaf that begins, of the process that runs it, and of each child that is
made. Whatever is skipped, forked or fails, the leaves begin in the order in which they stand in
the tree, each place at most once; and a process that has run a leaf which ends the session begins
no other one and makes no child. The end of the session passes serial operators and stops at the
others, whose sides run in children. So a session stops reading where the process of the session
itself came to such a leaf.

## The model

* `Entry.leaf?`, `Entry.starter?` and `Entry.finisher?` read off a journal entry which leaf
  begins, which process starts something, and which one runs a leaf that ends the session.
* `Uneventful` is the frame of stretches in which nothing starts.
* A `Course` is the course of one process between two machines with all that its children do: the
  leaves begin in a certain order, every process that starts something is that one or a new one,
  and none of them starts anything behind a leaf that ends the session.
* `Orderly` says of an action that its course is of certain leaves, and that it answers with the
  end of the session exactly if the running process itself ran a leaf that ends it.
* `Shell.Reads` lists the lines that a loop reads with their statuses.

## What is proved

* Courses are put together (`Course.append`), and the course of a child becomes part of its
  maker's (`Course.outlived`): it has a number of its own, so it neither ends its maker nor is
  ended by it.
* A leaf ends the session if and only if its verb says so (`runLeaf_ends_iff`).
* The sides of a serial operator are run in turn (`Orderly.inTurn`), and children only behind one
  another (`Orderly.of_births`). So every tree is orderly (`execute_orderly`), by induction on the
  tree.
* The loop reads every line, or stops behind the first one that ends the session
  (`reads_of_runUntilEnd`).

No condition is put on the machine or on which calls fail.
-/

namespace LineShell

open Act

/-! ### What the journal tells of leaves -/

/-- The leaf whose beginning a journal entry tells of. -/
def Entry.leaf? : Entry → Option (Option Nat × Command)
  | .began _ mark c => some (mark, c)
  | _ => none

/-- The process that, as a journal entry tells, began a leaf or made a child. -/
def Entry.starter? : Entry → Option Nat
  | .began p _ _ => some p.pid
  | .called pid (.fork (.ok _)) => some pid
  | _ => none

/-- The process that, as a journal entry tells, began a leaf that ends the session. -/
def Entry.finisher? (rules : Rules) : Entry → Option Nat
  | .began p _ c => if rules.kind (c.verb.expand p.table) = .finish then some p.pid else none
  | _ => none

/-- The leaves of a tree from left to right, with their marks. -/
def Tree.markedLeaves : Tree → List (Option Nat × Command)
  | .leaf mark c => [(mark, c)]
  | .binary _ _ l r => markedLeaves l ++ markedLeaves r
  | .bare _ => []

/-- A process ran a leaf that ends the session. -/
def Finishes (rules : Rules) (pid : Nat) (es : List Entry) : Prop :=
  ∃ e ∈ es, e.finisher? rules = some pid

instance (rules : Rules) (pid : Nat) (es : List Entry) : Decidable (Finishes rules pid es) :=
  inferInstanceAs (Decidable (∃ e ∈ es, _))

section Entries

variable {rules : Rules} {e : Entry} {es fs : List Entry} {pid : Nat}

/-- To run a leaf that ends the session is to begin a leaf. -/
theorem Entry.starter?_of_finisher? (h : e.finisher? rules = some pid) : e.starter? = some pid := by
  cases e with
  | began p mark c =>
    simp only [finisher?] at h
    split at h
    · exact h
    · exact nomatch h
  | _ => exact nomatch h

theorem Entry.leaf?_eq_none (h : e.starter? = none) : e.leaf? = none := by
  cases e with
  | began p mark c => exact nomatch h
  | _ => rfl

theorem Entry.starter?_of_isPlain (h : e.isPlain = true) : e.starter? = none := by
  cases e with
  | began p mark c => exact nomatch h
  | called pid event =>
    cases event with
    | fork r =>
      cases r with
      | ok child => exact nomatch h
      | error errno => rfl
    | _ => rfl
  | _ => rfl

theorem finishes_append : Finishes rules pid (es ++ fs) ↔ Finishes rules pid es ∨ Finishes rules pid fs := by
  simp only [Finishes, List.mem_append, or_and_right, exists_or]

/-- Where nothing starts, nothing ends the session. -/
theorem not_finishes (h : ∀ e ∈ es, e.starter? = none) : ¬ Finishes rules pid es := by
  rintro ⟨e, he, hfinish⟩
  simpa [h e he] using Entry.starter?_of_finisher? hfinish

theorem finishes_append_iff_left (h : ∀ e ∈ fs, e.starter? = none) :
    Finishes rules pid (es ++ fs) ↔ Finishes rules pid es := by
  rw [finishes_append]
  exact or_iff_left (not_finishes h)

end Entries

/-! ### Stretches in which nothing starts -/

/-- No leaf began and no child was made. -/
structure Uneventful (m m' : Machine) : Prop where
  /-- The journal tells of no start. -/
  journal : ∃ es, m'.world.journal = m.world.journal ++ es ∧ ∀ e ∈ es, e.starter? = none
  /-- The running process has its number. -/
  pid : m'.proc.pid = m.proc.pid
  /-- No number was given away. -/
  nextPid : m'.world.nextPid = m.world.nextPid

namespace Uneventful

theorem refl (m : Machine) : Uneventful m m := ⟨⟨[], by simp⟩, rfl, rfl⟩

theorem trans {a b c : Machine} (hab : Uneventful a b) (hbc : Uneventful b c) : Uneventful a c := by
  obtain ⟨es, hes, hnone⟩ := hab.journal
  obtain ⟨fs, hfs, hnone'⟩ := hbc.journal
  refine ⟨⟨es ++ fs, by rw [hfs, hes, List.append_assoc], fun e he => ?_⟩,
    hbc.pid.trans hab.pid, hbc.nextPid.trans hab.nextPid⟩
  rcases List.mem_append.1 he with he | he
  · exact hnone e he
  · exact hnone' e he

theorem of_plain {m m' : Machine} (h : m.world.Plain m'.world) (hpid : m'.proc.pid = m.proc.pid) :
    Uneventful m m' := by
  obtain ⟨es, hes, hplain⟩ := h.journal
  exact ⟨⟨es, hes, fun e he => Entry.starter?_of_isPlain (hplain e he)⟩, hpid, h.nextPid⟩

theorem note (m : Machine) {e : Entry} (h : e.starter? = none) : Uneventful m (m.note e) :=
  ⟨⟨[e], rfl, by simpa using h⟩, rfl, rfl⟩

end Uneventful

instance : Frame Uneventful := ⟨.refl, .trans⟩

instance : Lenient Uneventful := ⟨fun h => .of_plain h rfl⟩

instance : Forgetful Uneventful := ⟨fun {m _} h => .of_plain (.refl m.world) h.pid⟩

theorem Rebound.uneventful {m m' : Machine} (h : Rebound m m') : Uneventful m m' :=
  .of_plain h.plain h.pid

theorem Act.Keeps.uneventful {α : Type} {a : Act α} (h : Keeps Rebound a) : Keeps Uneventful a :=
  h.mono fun _ _ => Rebound.uneventful

theorem await_uneventful (pid : Nat) : Keeps Uneventful (await pid) :=
  .await_of (.wait_of (fun m _ => .note m rfl) fun m _ => ⟨(Uneventful.refl m).journal, rfl, rfl⟩)

theorem changeDirectory_uneventful (c : Command) : Keeps Uneventful (changeDirectory c) := by
  refine .changeDirectory_of ?_ (fun path => ?_) (fun name _ value m => ?_) c
  · exact .getcwd_of fun m r => .note m rfl
  · exact .chdir_of (fun m r => .note m rfl) fun m place => .of_plain (.refl m.world) rfl
  · exact .of_plain (.refl m.world) rfl

/-- A child that runs a command starts nothing: it exits, or becomes a program. -/
theorem runChild_uneventful (c : Command) : Keeps Uneventful (runChild c) :=
  .runChild_of (fun _ _ => Rebound.uneventful) (fun m _ => .note m rfl) (fun m _ => .note m rfl) c

/-! ### Courses -/

/-- The course of one process from one machine to another, and of its children: what the journal
tells of it is as it should be. -/
structure Course (rules : Rules) (leaves : List (Option Nat × Command)) (es : List Entry)
    (m m' : Machine) : Prop where
  /-- The journal tells of it. -/
  journal : m'.world.journal = m.world.journal ++ es
  /-- The running process has its number. -/
  pid : m'.proc.pid = m.proc.pid
  /-- Numbers are given away upwards. -/
  nextPid : m.world.nextPid ≤ m'.world.nextPid
  /-- The leaves begin in their order. -/
  leaves : (es.filterMap Entry.leaf?).Sublist leaves
  /-- Whatever starts is started by the running process, or by one that was made on the way. -/
  starters : ∀ e ∈ es, ∀ pid, e.starter? = some pid →
    pid = m.proc.pid ∨ m.world.nextPid ≤ pid ∧ pid < m'.world.nextPid
  /-- A process that ended the session starts nothing. -/
  stops : es.Pairwise fun e e' => ∀ pid, e.finisher? rules = some pid → e'.starter? ≠ some pid

namespace Course

variable {rules : Rules} {leaves leaves' : List (Option Nat × Command)} {es fs : List Entry}
  {m m₁ m' : Machine}

theorem of_uneventful (h : Uneventful m m') :
    ∃ es, Course rules leaves es m m' ∧ ∀ e ∈ es, e.starter? = none := by
  obtain ⟨es, hes, hnone⟩ := h.journal
  refine ⟨es, ⟨hes, h.pid, Nat.le_of_eq h.nextPid.symm, ?_, ?_, ?_⟩, hnone⟩
  · have hnil : es.filterMap Entry.leaf? = [] :=
      List.filterMap_eq_nil_iff.2 fun e he => Entry.leaf?_eq_none (hnone e he)
    rw [hnil]
    exact List.nil_sublist _
  · intro e he pid hpid
    simp [hnone e he] at hpid
  · refine List.pairwise_of_forall_mem_list fun e _ e' he' pid _ => ?_
    simp [hnone e' he']

/-- One course after the other, where the process goes on only if it did not end the session. -/
theorem append (h : Course rules leaves es m m₁) (h' : Course rules leaves' fs m₁ m')
    (hgo : Finishes rules m.proc.pid es → ∀ e ∈ fs, e.starter? ≠ some m.proc.pid) :
    Course rules (leaves ++ leaves') (es ++ fs) m m' where
  journal := by rw [h'.journal, h.journal, List.append_assoc]
  pid := h'.pid.trans h.pid
  nextPid := h.nextPid.trans h'.nextPid
  leaves := by
    rw [List.filterMap_append]
    exact h.leaves.append h'.leaves
  starters := by
    intro e he pid hstart
    have hnext := h.nextPid
    have hnext' := h'.nextPid
    rcases List.mem_append.1 he with he | he
    · rcases h.starters e he pid hstart with hown | hmade
      · exact Or.inl hown
      · exact Or.inr ⟨hmade.1, by omega⟩
    · rcases h'.starters e he pid hstart with hown | hmade
      · exact Or.inl (hown.trans h.pid)
      · exact Or.inr ⟨by omega, hmade.2⟩
  stops := by
    refine List.pairwise_append.2 ⟨h.stops, h'.stops, fun e he e' he' pid hfinish hstart => ?_⟩
    -- a process of the first part that starts something in the second one is the running process
    have hown : pid = m.proc.pid := by
      rcases h.starters e he pid (Entry.starter?_of_finisher? hfinish) with hown | ⟨hlow, hhigh⟩
      · exact hown
      · rcases h'.starters e' he' pid hstart with hown | ⟨hlow', -⟩
        · exact hown.trans h.pid
        · omega
    subst hown
    exact hgo ⟨e, he, hfinish⟩ e' he' hstart

theorem mono (h : Course rules leaves es m m') (hle : leaves.Sublist leaves') :
    Course rules leaves' es m m' :=
  { h with leaves := h.leaves.trans hle }

/-- A course behind which nothing starts. -/
theorem append_uneventful (h : Course rules leaves es m m₁) (h' : Uneventful m₁ m') :
    ∃ fs, Course rules leaves fs m m' ∧ ∀ pid, Finishes rules pid fs ↔ Finishes rules pid es := by
  obtain ⟨fs, hfs, hnone⟩ : ∃ fs, Course rules [] fs m₁ m' ∧ ∀ e ∈ fs, e.starter? = none :=
    of_uneventful h'
  have hboth := h.append hfs fun _ e he => by simp [hnone e he]
  rw [List.append_nil] at hboth
  exact ⟨es ++ fs, hboth, fun _ => finishes_append_iff_left hnone⟩

/-- A course before which nothing starts. -/
theorem uneventful_append (h : Uneventful m m₁) (h' : Course rules leaves es m₁ m') :
    ∃ fs, Course rules leaves fs m m' ∧ ∀ pid, Finishes rules pid fs ↔ Finishes rules pid es := by
  obtain ⟨fs, hfs, hnone⟩ : ∃ fs, Course rules [] fs m m₁ ∧ ∀ e ∈ fs, e.starter? = none :=
    of_uneventful h
  refine ⟨fs ++ es, hfs.append h' fun hends => absurd hends (not_finishes hnone), fun _ => ?_⟩
  rw [finishes_append]
  exact or_iff_right (not_finishes hnone)

/-- The course of a child, as its maker sees it: the process of the maker only made the child, and
whatever else starts has a number of its own. -/
theorem outlived {dead : Machine} (h : Course rules leaves es m.born dead) (raw : Nat)
    (hpid : m.proc.pid < m.world.nextPid) :
    let made := [.called m.proc.pid (.fork (.ok m.world.nextPid)),
      .called m.world.nextPid .restoreSignal]
    Course rules leaves (made ++ es) m (m.outlived dead.world raw) ∧
      ¬ Finishes rules m.proc.pid (made ++ es) := by
  intro made
  have hborn : m.world.nextPid < dead.world.nextPid := h.nextPid
  have howner : ∀ e ∈ es, ∀ pid, e.starter? = some pid →
      m.world.nextPid ≤ pid ∧ pid < dead.world.nextPid := by
    intro e he pid hstart
    rcases h.starters e he pid hstart with hown | ⟨hlow, hhigh⟩
    · exact ⟨Nat.le_of_eq hown.symm, hown ▸ hborn⟩
    · exact ⟨Nat.le_of_succ_le hlow, hhigh⟩
  have hmade : ∀ e ∈ made, e.finisher? rules = none := by simp [made, Entry.finisher?]
  refine ⟨⟨?_, rfl, Nat.le_of_lt hborn, ?_, ?_, ?_⟩, ?_⟩
  · have hstart : m.born.world.journal = m.world.journal ++ made := List.append_assoc ..
    rw [← List.append_assoc, ← hstart]
    exact h.journal
  · rw [List.filterMap_append]
    exact h.leaves
  · intro e he pid hstart
    rcases List.mem_append.1 he with he | he
    · left
      simp only [made, List.mem_cons, List.not_mem_nil, or_false] at he
      rcases he with rfl | rfl
      · exact (Option.some.inj hstart).symm
      · exact nomatch hstart
    · exact Or.inr (howner e he pid hstart)
  · have hfirst : ∀ e ∈ made, ∀ e' : Entry, ∀ pid, e.finisher? rules = some pid →
        e'.starter? ≠ some pid := fun e he e' pid hfinish => by simp [hmade e he] at hfinish
    refine List.pairwise_append.2 ⟨?_, h.stops, fun e he e' _ => hfirst e he e'⟩
    exact List.pairwise_of_forall_mem_list fun e he e' _ => hfirst e he e'
  · rw [finishes_append]
    rintro (⟨e, he, hfinish⟩ | ⟨e, he, hfinish⟩)
    · simp [hmade e he] at hfinish
    · have hlow := (howner e he _ (Entry.starter?_of_finisher? hfinish)).1
      omega

/-- A child that was made and lived to its end. -/
theorem birth {work : Act ChildEnd} {raw : Nat} (h : Birth work raw m m')
    (hpid : m.proc.pid < m.world.nextPid)
    (hwork : ∀ n : Machine, n.proc.pid < n.world.nextPid →
      ∃ es, Course rules leaves es n (work.after n)) :
    ∃ es, Course rules leaves es m m' ∧ ¬ Finishes rules m.proc.pid es := by
  obtain ⟨dead, hlived, hq⟩ := h
  obtain ⟨es, hes⟩ := hwork m.born (Nat.lt_succ_self _)
  obtain ⟨fs, hlife, -⟩ := hes.append_uneventful (hlived.after fun n _ => .note n rfl)
  obtain ⟨hcourse, hnot⟩ := hlife.outlived raw hpid
  obtain ⟨gs, hall, hends⟩ := hcourse.append_uneventful (Forgetful.quiet hq)
  exact ⟨gs, hall, (hends _).not.2 hnot⟩

/-- Children that were made one after the other, as far as they could be made. -/
theorem births {x y : Act ChildEnd} {r : List Nat × Option Failure} (h : Births x y m r m')
    (hpid : m.proc.pid < m.world.nextPid)
    (hx : ∀ n : Machine, n.proc.pid < n.world.nextPid → ∃ es, Course rules leaves es n (x.after n))
    (hy : ∀ n : Machine, n.proc.pid < n.world.nextPid →
      ∃ es, Course rules leaves' es n (y.after n)) :
    ∃ es, Course rules (leaves ++ leaves') es m m' ∧ ¬ Finishes rules m.proc.pid es := by
  cases h with
  | none e =>
    obtain ⟨es, hes, hnone⟩ := of_uneventful (Forgetful.quiet (m.barren_quiet e))
    exact ⟨es, hes, not_finishes hnone⟩
  | @one raw m₁ hbx e =>
    obtain ⟨es, hes, hnot⟩ := birth hbx hpid hx
    obtain ⟨fs, hfs, hends⟩ := hes.append_uneventful (Forgetful.quiet (m₁.barren_quiet e))
    exact ⟨fs, hfs.mono (List.sublist_append_left ..), (hends _).not.2 hnot⟩
  | @two rawx rawy m₁ m₂ hbx hby =>
    obtain ⟨es, hes, hnot⟩ := birth hbx hpid hx
    have hpid₁ : m₁.proc.pid < m₁.world.nextPid := hes.pid ▸ Nat.lt_of_lt_of_le hpid hes.nextPid
    obtain ⟨fs, hfs, hnot'⟩ := birth hby hpid₁ hy
    refine ⟨_, hes.append hfs fun hends => absurd hends hnot, ?_⟩
    rw [finishes_append]
    rintro (hends | hends)
    · exact hnot hends
    · exact hnot' (hes.pid ▸ hends)

end Course

/-! ### Actions that run leaves -/

/-- An action that runs leaves: its course is as it should be, and it answers with the end of the
session if and only if the running process itself ran a leaf that ends it. -/
def Orderly (rules : Rules) (leaves : List (Option Nat × Command)) (a : Act Status) : Prop :=
  ∀ m : Machine, m.proc.pid < m.world.nextPid → ∃ es, Course rules leaves es m (a.after m) ∧
    (Finishes rules m.proc.pid es ↔ ∃ m', a m = .ok .terminate m')

namespace Orderly

variable {rules : Rules} {leaves leaves' : List (Option Nat × Command)} {a b : Act Status}

/-- An action that starts nothing and does not end the session. -/
theorem of_uneventful (h : Keeps Uneventful a) (hgo : Yields (· ≠ .terminate) a) :
    Orderly rules leaves a := by
  intro m _
  obtain ⟨es, hes, hnone⟩ := Course.of_uneventful (h m)
  refine ⟨es, hes, iff_of_false (not_finishes hnone) ?_⟩
  rintro ⟨m', hm'⟩
  exact hgo m _ m' hm' rfl

/-- What stands before an action starts nothing. -/
theorem behind {α : Type} {a : Act α} {f : α → Act Status} (ha : Keeps Uneventful a)
    (hf : ∀ x, Orderly rules leaves (f x)) : Orderly rules leaves (a >>= f) := by
  intro m hpid
  rw [after_bind, bind_eq]
  cases hr : a m with
  | error e m₁ =>
    obtain ⟨es, hes, hnone⟩ := Course.of_uneventful (ha.of_error hr)
    exact ⟨es, hes, iff_of_false (not_finishes hnone) (by simp)⟩
  | ok x m₁ =>
    have hu := ha.of_ok hr
    have hpid₁ : m₁.proc.pid < m₁.world.nextPid := by rwa [hu.pid, hu.nextPid]
    obtain ⟨es, hes, hends⟩ := hf x m₁ hpid₁
    obtain ⟨fs, hfs, hsame⟩ := Course.uneventful_append hu hes
    refine ⟨fs, hfs, (hsame _).trans ?_⟩
    rw [← hu.pid]
    exact hends

/-- What stands behind an action starts nothing and passes its status on. -/
theorem concluded {f : Status → Act Status} (ha : Orderly rules leaves a)
    (hf : ∀ s, Keeps Uneventful (f s)) (hpass : ∀ s m, ∃ m', f s m = .ok s m') :
    Orderly rules leaves (a >>= f) := by
  intro m hpid
  obtain ⟨es, hes, hends⟩ := ha m hpid
  rw [after_bind, bind_eq]
  cases hr : a m with
  | error e m₁ =>
    rw [hr] at hends
    rw [after_of_error hr] at hes
    exact ⟨es, hes, by simpa using hends⟩
  | ok s m₁ =>
    obtain ⟨m₂, hs⟩ := hpass s m₁
    rw [hr] at hends
    rw [after_of_ok hr] at hes
    dsimp only
    rw [after_of_ok hs, hs]
    obtain ⟨fs, hfs, hsame⟩ := hes.append_uneventful ((hf s).of_ok hs)
    refine ⟨fs, hfs, (hsame _).trans ?_⟩
    simpa using hends

/-- Two actions in the running process, the second one only where the first one answered with a
number. -/
theorem inTurn {f : Status → Act Status} (ha : Orderly rules leaves a)
    (hend : f .terminate = pure .terminate) (hf : ∀ n, Orderly rules leaves' (f (.code n))) :
    Orderly rules (leaves ++ leaves') (a >>= f) := by
  intro m hpid
  obtain ⟨es, hes, hends⟩ := ha m hpid
  rw [after_bind, bind_eq]
  cases hr : a m with
  | error e m₁ =>
    rw [hr] at hends
    rw [after_of_error hr] at hes
    exact ⟨es, hes.mono (List.sublist_append_left ..), by simpa using hends⟩
  | ok s m₁ =>
    rw [hr] at hends
    rw [after_of_ok hr] at hes
    cases s with
    | terminate =>
      dsimp only
      rw [hend]
      have hended : Finishes rules m.proc.pid es := hends.2 ⟨m₁, rfl⟩
      exact ⟨es, hes.mono (List.sublist_append_left ..), iff_of_true hended ⟨m₁, rfl⟩⟩
    | code n =>
      have hgo : ¬ Finishes rules m.proc.pid es := by simpa using hends
      have hpid₁ : m₁.proc.pid < m₁.world.nextPid :=
        hes.pid ▸ Nat.lt_of_lt_of_le hpid hes.nextPid
      obtain ⟨fs, hfs, hends'⟩ := hf n m₁ hpid₁
      refine ⟨es ++ fs, hes.append hfs fun hends => absurd hends hgo, ?_⟩
      rw [finishes_append, or_iff_right hgo, ← hes.pid]
      exact hends'

end Orderly

/-! ### Leaves -/

section Leaves

variable {rules : Rules}

theorem setVariable_uneventful (name value : Text) : Keeps Uneventful (setVariable name value) :=
  .bind (fun m => .of_plain (.refl m.world) rfl) fun _ => .bind (.debug _ _) fun _ => .pure _

theorem endSession_uneventful (verb : Text) : Keeps Uneventful (endSession verb) :=
  .bind (.info _ _) fun _ => .pure _

theorem exists_endSession (verb : Text) (m : Machine) : ∃ m', endSession verb m = .ok .terminate m' := by
  obtain ⟨m', hlog, -⟩ := logRecord_quiet
    ⟨.info, runner, ['\x27'] ++ verb ++ "' requested session termination".toList, none⟩ m
  exact ⟨m', bind_eq_ok.2 ⟨(), m', hlog, rfl⟩⟩

theorem runExternal_orderly (c : Command) : Orderly rules [] (runExternal c) := by
  intro m hpid
  have hgo : ¬ ∃ m', runExternal c m = .ok .terminate m' :=
    fun ⟨m', h⟩ => runExternal_ne_terminate c m _ m' h rfl
  rcases runExternal_cases c m with ⟨e, hr⟩ | ⟨raw, m₁, hb, hr⟩
  · have hu : Uneventful m ((withoutChild c e).after (m.barren e)) :=
      .trans (Forgetful.quiet (m.barren_quiet e)) (Keeps.withoutChild c e _)
    obtain ⟨es, hes, hnone⟩ := Course.of_uneventful hu
    rw [after_eq_of_eq hr]
    exact ⟨es, hes, iff_of_false (not_finishes hnone) hgo⟩
  · have hwork (n : Machine) : ∃ es, Course rules [] es n ((runChild c).after n) := by
      obtain ⟨fs, hfs, -⟩ := Course.of_uneventful (runChild_uneventful c n)
      exact ⟨fs, hfs⟩
    obtain ⟨es, hes, hnot⟩ := Course.birth hb hpid fun n _ => hwork n
    obtain ⟨fs, hfs, hends⟩ := hes.append_uneventful (await_uneventful m.world.nextPid m₁)
    rw [after_eq_of_eq hr]
    exact ⟨fs, hfs, iff_of_false ((hends _).not.2 hnot) hgo⟩

/-- What a command does that does not end the session. -/
theorem perform_orderly {c : Command} {verb : Text} (h : rules.kind verb ≠ .finish) :
    Orderly rules [] (rules.perform c verb) := by
  unfold Rules.perform
  cases hkind : rules.kind verb with
  | assignment name value =>
    refine .of_uneventful (setVariable_uneventful name value) fun m s m' hs => ?_
    rw [setVariable_yields name value m s m' hs]
    decide
  | change =>
    refine .of_uneventful (changeDirectory_uneventful c) fun m s m' hs => ?_
    rcases changeDirectory_yields c m s m' hs with rfl | rfl
    · decide
    · decide
  | finish => exact absurd hkind h
  | external => exact runExternal_orderly c

/-- To begin a leaf is its first step. -/
theorem Course.began (rules : Rules) (mark : Option Nat) (c : Command) (level : Int) (m : Machine) :
    ∃ es, Course rules [(mark, c)] es m ((Tree.leaf mark c).told level m) ∧
      (Finishes rules m.proc.pid es ↔ rules.kind (c.verb.expand m.proc.table) = .finish) := by
  have hbegan : Course rules [(mark, c)] [.began m.proc mark c] m
      (m.note (.began m.proc mark c)) := by
    refine ⟨rfl, rfl, Nat.le_refl _, .refl _, ?_, List.pairwise_singleton ..⟩
    intro e he pid hstart
    obtain rfl := List.mem_singleton.1 he
    exact Or.inl (Option.some.inj hstart).symm
  have hlog := Keeps.debug (R := Uneventful) runner
    (levelText level ++ "Simple command: ".toList ++ c.shown) (m.note (.began m.proc mark c))
  obtain ⟨es, hes, hends⟩ := hbegan.append_uneventful hlog
  refine ⟨es, hes, (hends _).trans ?_⟩
  simp [Finishes, Entry.finisher?]

theorem runLeaf_orderly (mark : Option Nat) (c : Command) (level : Int) :
    Orderly rules [(mark, c)] (runLeaf rules mark c level) := by
  intro m hpid
  obtain ⟨es, hes, hends⟩ := Course.began rules mark c level m
  have hrun := runLeaf_eq rules mark c level m
  rw [after_eq_of_eq hrun, hrun]
  by_cases hkind : rules.kind (c.verb.expand m.proc.table) = .finish
  · rw [Rules.perform, hkind]
    obtain ⟨m', hend⟩ := exists_endSession (c.verb.expand m.proc.table)
      ((Tree.leaf mark c).told level m)
    obtain ⟨fs, hfs, hsame⟩ := hes.append_uneventful ((endSession_uneventful _).of_ok hend)
    refine ⟨fs, ?_, iff_of_true ((hsame _).2 (hends.2 hkind)) ⟨m', hend⟩⟩
    rwa [after_of_ok hend]
  · have hpid₁ := hes.pid ▸ Nat.lt_of_lt_of_le hpid hes.nextPid
    obtain ⟨fs, hfs, hends'⟩ := perform_orderly (c := c) hkind _ hpid₁
    have hgo : ¬ Finishes rules m.proc.pid es := hends.not.2 hkind
    refine ⟨es ++ fs, hes.append hfs fun hends => absurd hends hgo, ?_⟩
    rw [finishes_append, or_iff_right hgo, ← hes.pid]
    exact hends'

end Leaves

/-! ### Pairs -/

section Pairs

variable {rules : Rules} {leaves leaves' : List (Option Nat × Command)} {a b : Act Status}

/-- A child that runs a side runs its leaves. -/
theorem Orderly.sideWork (ha : Orderly rules leaves a) (n : Machine)
    (hpid : n.proc.pid < n.world.nextPid) :
    ∃ es, Course rules leaves es n ((LineShell.sideWork a).after n) := by
  obtain ⟨es, hes, -⟩ := ha n hpid
  have hsame : (LineShell.sideWork a).after n = a.after n := by
    unfold LineShell.sideWork
    rw [after_bind, after]
    cases a n <;> rfl
  exact ⟨es, hsame ▸ hes⟩

/-- A child that runs a side of a pipe binds its stream first. -/
theorem Orderly.pipeSide (ha : Orderly rules leaves a) (fd standard r w : Nat) (n : Machine)
    (hpid : n.proc.pid < n.world.nextPid) :
    ∃ es, Course rules leaves es n ((LineShell.pipeSide a fd standard r w).after n) := by
  have hbind : Keeps Uneventful (bindStream fd standard [r, w]) := (Keeps.bindStream _ _ _).uneventful
  unfold LineShell.pipeSide
  rw [after_bind]
  cases hr : bindStream fd standard [r, w] n with
  | error e n₁ =>
    obtain ⟨es, hes, -⟩ := Course.of_uneventful (hbind.of_error hr)
    exact ⟨es, hes⟩
  | ok _ n₁ =>
    have hu := hbind.of_ok hr
    have hpid₁ : n₁.proc.pid < n₁.world.nextPid := by rwa [hu.pid, hu.nextPid]
    obtain ⟨es, hes⟩ := ha.sideWork n₁ hpid₁
    obtain ⟨fs, hfs, -⟩ := Course.uneventful_append hu hes
    exact ⟨fs, hfs⟩

/-- Behind children that were made one after the other nothing starts, and the session goes on. -/
theorem Orderly.of_births {x y : Act ChildEnd} {m m₁ m₂ : Machine} {r : List Nat × Option Failure}
    {c : Act Status} (h : Births x y m₁ r m₂) (hstart : Uneventful m m₁)
    (hend : Uneventful m₂ (c.after m)) (hgo : Yields (· ≠ .terminate) c)
    (hpid : m.proc.pid < m.world.nextPid)
    (hx : ∀ n : Machine, n.proc.pid < n.world.nextPid → ∃ es, Course rules leaves es n (x.after n))
    (hy : ∀ n : Machine, n.proc.pid < n.world.nextPid →
      ∃ es, Course rules leaves' es n (y.after n)) :
    ∃ es, Course rules (leaves ++ leaves') es m (c.after m) ∧
      (Finishes rules m.proc.pid es ↔ ∃ m', c m = .ok .terminate m') := by
  have hpid₁ : m₁.proc.pid < m₁.world.nextPid := by rwa [hstart.pid, hstart.nextPid]
  obtain ⟨es, hes, hnot⟩ := Course.births h hpid₁ hx hy
  obtain ⟨fs, hfs, hsame⟩ := Course.uneventful_append hstart hes
  obtain ⟨gs, hgs, hsame'⟩ := hfs.append_uneventful hend
  refine ⟨gs, hgs, iff_of_false ?_ fun ⟨m', h⟩ => hgo m _ m' h rfl⟩
  rw [hsame', hsame, ← hstart.pid]
  exact hnot

theorem piped_orderly (ha : Orderly rules leaves a) (hb : Orderly rules leaves' b) :
    Orderly rules (leaves ++ leaves') (piped a b) := by
  intro m hpid
  have hgo : Yields (· ≠ .terminate) (combine .pipe a b) := combine_ne_terminate rfl
  rcases piped_cases a b m with ⟨e, -, hr⟩ | ⟨r, w, m₁, pids, failure, m₂, hc, hbirths, hr⟩
  · have hu : Uneventful m ((withoutPipe e).after (m.unpiped e)) :=
      .trans (Forgetful.quiet (m.unpiped_quiet e)) (Keeps.withoutPipe e _)
    obtain ⟨es, hes, hnone⟩ := Course.of_uneventful hu
    rw [after_eq_of_eq hr]
    exact ⟨es, hes, iff_of_false (not_finishes hnone) fun ⟨m', h⟩ => hgo m _ m' h rfl⟩
  · have hfinish : Keeps Uneventful (finishPipe r w pids failure) :=
      .finishPipe (Keeps.closeAll _).uneventful (fun pid _ => await_uneventful pid) failure
    refine Orderly.of_births hbirths (Keeps.createChannel.uneventful.of_ok hc) ?_ hgo hpid
      (ha.pipeSide _ _ _ _) (hb.pipeSide _ _ _ _)
    rw [after_eq_of_eq hr]
    exact hfinish m₂

theorem inParallel_orderly (ha : Orderly rules leaves a) (hb : Orderly rules leaves' b) :
    Orderly rules (leaves ++ leaves') (inParallel a b) := by
  intro m hpid
  have hgo : Yields (· ≠ .terminate) (combine .parallel a b) := combine_ne_terminate rfl
  obtain ⟨pids, failure, m₁, hbirths, hr⟩ := inParallel_cases a b m
  have hfinish : Keeps Uneventful (finishParallel pids failure) :=
    .finishParallel (fun pid _ => await_uneventful pid) failure
  refine Orderly.of_births hbirths (.refl m) ?_ hgo hpid ha.sideWork hb.sideWork
  rw [after_eq_of_eq hr]
  exact hfinish m₁

/-- What a serial operator does instead of its right side starts nothing. -/
theorem pass_orderly {op : Operator} {n : Int} (hskip : op.admits n = false) :
    Orderly rules leaves (op.pass n) := by
  obtain ⟨logger, message, hpass⟩ := Operator.pass_of_skip hskip
  refine .of_uneventful (.pass hskip) ?_
  rw [hpass]
  exact .behind _ fun _ => .pure nofun

theorem combine_orderly (ha : Orderly rules leaves a) (hb : Orderly rules leaves' b)
    (op : Operator) : Orderly rules (leaves ++ leaves') (combine op a b) := by
  cases hop : op.forks with
  | true =>
    cases op with
    | pipe => exact piped_orderly ha hb
    | parallel => exact inParallel_orderly ha hb
    | sequential => exact nomatch hop
    | conditionalAnd => exact nomatch hop
    | conditionalOr => exact nomatch hop
  | false =>
    rw [combine_of_serial hop]
    refine ha.inTurn rfl fun n => ?_
    dsimp only
    split
    · exact hb
    · next hadmits => exact pass_orderly (by simpa using hadmits)

/-- Whatever the tree, its leaves run in their order. The induction follows the tree. -/
theorem execute_orderly (rules : Rules) (t : Tree) (level : Int) :
    Orderly rules t.markedLeaves (execute rules t level) := by
  induction t generalizing level with
  | leaf mark c =>
    refine (runLeaf_orderly mark c level).concluded (fun s => .remember s) exists_remember
  | bare mark => exact .of_uneventful (.throw _) (.throw _)
  | binary mark op l r ihl ihr =>
    have hpair : Orderly rules (l.markedLeaves ++ r.markedLeaves)
        (rules.runPair op (Tree.binary mark op l r).shown level (execute rules l (level + 1))
          (execute rules r (level + 1))) := by
      refine .behind (.refuse _) fun _ => .behind (.debug _ _) fun _ => ?_
      refine (combine_orderly (ihl _) (ihr _) op).concluded (fun s => ?_) fun s m => ?_
      · exact .bind (.debug _ _) fun _ => .remember s
      · exact exists_conclude _ s m
    unfold execute
    split
    · exact .behind (.refuse _) fun _ => hpair
    · exact hpair

end Pairs

/-- A leaf ends the session if and only if its verb says so. -/
theorem runLeaf_ends_iff (rules : Rules) (mark : Option Nat) (c : Command) (level : Int)
    (m : Machine) : (∃ m', runLeaf rules mark c level m = .ok .terminate m') ↔
      rules.kind (c.verb.expand m.proc.table) = .finish := by
  constructor
  · rintro ⟨m', h⟩
    exact (runLeaf_eq_terminate h).1
  · intro hkind
    rw [runLeaf_eq, Rules.perform, hkind]
    exact exists_endSession _ _

/-! ### Sessions -/

namespace Shell

variable (shell : Shell) (interactive : Bool)

/-- Lines are read one after the other, each one behind a prompt and with its status. -/
inductive Reads : List (Text × Status) → Machine → Machine → Prop where
  /-- No line is read. -/
  | nil (m : Machine) : Reads [] m m
  /-- A line is read, and then further ones. -/
  | cons {line : Text} {s : Status} {rest : List (Text × Status)} {m m₁ m₂ n : Machine}
      (hprompt : shell.showPrompt interactive m = .ok () m₁)
      (hline : shell.runLine line m₁ = .ok s m₂) (h : Reads rest m₂ n) :
      Reads ((line, s) :: rest) m n

variable {shell interactive} {line : Text} {m m₁ m₂ : Machine} {s : Status}

/-- Where a line ended the session, nothing depends on the lines behind it. -/
theorem runUntilEnd_of_terminate {read : List (Text × Status)} {k : Machine}
    (h : Reads shell interactive (read ++ [(line, .terminate)]) m k)
    (hgo : ∀ x ∈ read, x.2 ≠ .terminate) (unread : List Text) :
    shell.runUntilEnd interactive (read.map Prod.fst ++ line :: unread) m = (do
      info logger "Session terminated by exit/quit".toList
      return true) k := by
  induction read generalizing m with
  | nil =>
    cases h with
    | cons hprompt hline hrest =>
      cases hrest with
      | nil => exact runUntilEnd_cons shell hprompt hline unread
  | cons x read ih =>
    obtain ⟨hx, hread⟩ := List.forall_mem_cons.1 hgo
    cases h with
    | @cons line s _ _ _ _ _ hprompt hline hrest =>
      rw [List.map_cons, List.cons_append, runUntilEnd_cons shell hprompt hline]
      cases s with
      | terminate => exact absurd rfl hx
      | code n => exact ih hrest hread

/-- Lines that are run until the end are read up to one that ends the session, or all of them. -/
theorem reads_of_runUntilEnd {lines : List Text} {ended : Bool} {n : Machine}
    (h : shell.runUntilEnd interactive lines m = .ok ended n) :
    ∃ read k, (∀ x ∈ read, x.2 ≠ .terminate) ∧
      (ended = true ∧ (∃ line unread, lines = read.map Prod.fst ++ line :: unread ∧
          Reads shell interactive (read ++ [(line, .terminate)]) m k) ∨
        ended = false ∧ lines = read.map Prod.fst ∧ Reads shell interactive read m k) := by
  induction lines generalizing m with
  | nil =>
    obtain ⟨_, m₁, -, hret⟩ := bind_eq_ok.1 h
    obtain ⟨rfl, -⟩ := EStateM.Result.ok.inj (hret : EStateM.Result.ok _ _ = _)
    exact ⟨[], m, by simp, Or.inr ⟨rfl, rfl, .nil m⟩⟩
  | cons line lines ih =>
    have hfirst := h
    rw [runUntilEnd] at hfirst
    obtain ⟨_, m₁, hprompt, hrest⟩ := bind_eq_ok.1 hfirst
    obtain ⟨s, m₂, hline, -⟩ := bind_eq_ok.1 hrest
    rw [runUntilEnd_cons shell hprompt hline] at h
    cases s with
    | terminate =>
      obtain ⟨_, m₃, -, hret⟩ := bind_eq_ok.1 h
      obtain ⟨rfl, -⟩ := EStateM.Result.ok.inj (hret : EStateM.Result.ok _ _ = _)
      exact ⟨[], m₂, by simp, Or.inl ⟨rfl, line, lines, rfl, .cons hprompt hline (.nil m₂)⟩⟩
    | code number =>
      obtain ⟨read, k, hgo, hends⟩ := ih h
      refine ⟨(line, .code number) :: read, k, ?_, ?_⟩
      · exact List.forall_mem_cons.2 ⟨by simp, hgo⟩
      · rcases hends with ⟨rfl, last, unread, rfl, hreads⟩ | ⟨rfl, rfl, hreads⟩
        · exact Or.inl ⟨rfl, last, unread, rfl, .cons hprompt hline hreads⟩
        · exact Or.inr ⟨rfl, rfl, .cons hprompt hline hreads⟩

end Shell

/-! ### Order -/

/-- How the leaves of a tree run. The marks of a tree can tell all of its places apart, and then the
journal tells exactly which of them were run. -/
structure InOrder (rules : Rules) (t : Tree) (level : Int) (m : Machine) : Prop where
  /-- The leaves begin from left to right, each place at most once. -/
  leaves : ((m.since ((execute rules t level).after m)).filterMap Entry.leaf?).Sublist
    t.markedLeaves
  /-- A process that ran a leaf which ends the session begins no leaf and makes no child. -/
  stops : (m.since ((execute rules t level).after m)).Pairwise fun e e' =>
    ∀ pid, e.finisher? rules = some pid → e'.starter? ≠ some pid
  /-- The tree ends the session if and only if the running process itself ran such a leaf. -/
  ends : Finishes rules m.proc.pid (m.since ((execute rules t level).after m)) ↔
    ∃ m', execute rules t level m = .ok .terminate m'
  /-- Pipes and parallel pairs never end the session. -/
  concurrent : ∀ mark op l r, t = .binary mark op l r → op.forks = true →
    ∀ m', execute rules t level m ≠ .ok .terminate m'

/-- **Main result**: a leaf ends the session where its verb says so. The leaves of a tree, over the
running process and all of its children, run in their order, and what ends the session stops the
process that ran it. The lines behind one that ended the session are not read. -/
theorem execute_order :
    (∀ (rules : Rules) (mark : Option Nat) (c : Command) (level : Int) (m : Machine),
      (∃ m', runLeaf rules mark c level m = .ok .terminate m') ↔
        rules.kind (c.verb.expand m.proc.table) = .finish) ∧
    (∀ (rules : Rules) (t : Tree) (level : Int) (m : Machine),
      m.proc.pid < m.world.nextPid → InOrder rules t level m) ∧
    (∀ (shell : Shell) (interactive : Bool) (read : List (Text × Status)) (line : Text)
      (m k : Machine), shell.Reads interactive (read ++ [(line, .terminate)]) m k →
      (∀ x ∈ read, x.2 ≠ .terminate) →
      ∃ n, ∀ unread, shell.runUntilEnd interactive (read.map Prod.fst ++ line :: unread) m
        = .ok true n) ∧
    ∀ (shell : Shell) (interactive : Bool) (lines : List Text) (m n : Machine) (ended : Bool),
      shell.runUntilEnd interactive lines m = .ok ended n →
      ∃ read k, (∀ x ∈ read, x.2 ≠ .terminate) ∧
        (ended = true ∧ (∃ line unread, lines = read.map Prod.fst ++ line :: unread ∧
            shell.Reads interactive (read ++ [(line, .terminate)]) m k) ∨
          ended = false ∧ lines = read.map Prod.fst ∧ shell.Reads interactive read m k) := by
  refine ⟨runLeaf_ends_iff, fun rules t level m hpid => ?_, ?_, ?_⟩
  · obtain ⟨es, hes, hends⟩ := execute_orderly rules t level m hpid
    have hsince : m.since ((execute rules t level).after m) = es := Machine.since_eq hes.journal
    refine ⟨hsince ▸ hes.leaves, hsince ▸ hes.stops, hsince ▸ hends, ?_⟩
    rintro mark op l r rfl hop m' h
    obtain ⟨m₁, hsides⟩ := execute_pair_eq_ok h
    exact combine_ne_terminate hop _ _ _ hsides rfl
  · intro shell interactive read line m k h hgo
    obtain ⟨n, hlog, -⟩ := logRecord_quiet
      ⟨.info, Shell.logger, "Session terminated by exit/quit".toList, none⟩ k
    refine ⟨n, fun unread => ?_⟩
    rw [Shell.runUntilEnd_of_terminate h hgo unread]
    exact bind_eq_ok.2 ⟨(), n, hlog, rfl⟩
  · intro shell interactive lines m n ended h
    exact Shell.reads_of_runUntilEnd h

/-- The tree of `true | exit ; quit ; true`. -/
def exitsTwice : Tree :=
  .binary none .sequential
    (.binary none .sequential
      (.binary none .pipe (.leaf none ⟨[.lit "true".toList], [], none, none, none⟩)
        (.leaf none ⟨[.lit "exit".toList], [], none, none, none⟩))
      (.leaf none ⟨[.lit "quit".toList], [], none, none, none⟩))
    (.leaf none ⟨[.lit "true".toList], [], none, none, none⟩)

/-- That tree in a new session: the child of the pipe that runs `exit` stops alone, `quit` ends the
session, and the last leaf is not run. A terminal that gives `quit` is not asked for another line. -/
theorem execute_order_exitsTwice :
    let m := Machine.boot .standard FileTree.home [] [] [] []
    let rules : Rules := ⟨true, Operator.all⟩
    let shell := Shell.ofSettings .standard
    m.proc.pid < m.world.nextPid ∧ InOrder rules exitsTwice 0 m ∧
      (m.since ((execute rules exitsTwice 0).after m)).filterMap Entry.leaf?
        = exitsTwice.markedLeaves.take 3 ∧
      (∃ m', execute rules exitsTwice 0 m = .ok .terminate m') ∧
      ∃ n, ∀ unread, shell.runUntilEnd true ("quit".toList :: unread) m = .ok true n := by
  intro m rules shell
  have hpid : m.proc.pid < m.world.nextPid := by decide
  have horder : InOrder rules exitsTwice 0 m := execute_order.2.1 rules exitsTwice 0 m hpid
  have hfinishes : Finishes rules m.proc.pid
      (m.since ((execute rules exitsTwice 0).after m)) := by decide +kernel
  refine ⟨hpid, horder, by decide +kernel, horder.ends.1 hfinishes, ?_⟩
  have hrun : (match shell.runUntilEnd true ["quit".toList] m with
      | .ok ended _ => ended
      | .error _ _ => false) = true := by decide +kernel
  split at hrun
  · next ended n hn =>
    subst hrun
    obtain ⟨read, k, hgo, ⟨-, line, unread, hlines, hreads⟩ | ⟨hnot, -⟩⟩ :=
      execute_order.2.2.2 shell true _ m n true hn
    · obtain ⟨n', hn'⟩ := execute_order.2.2.1 shell true read line m k hreads hgo
      cases read with
      | nil =>
        obtain ⟨rfl, -⟩ := List.cons.inj hlines
        exact ⟨n', hn'⟩
      | cons x read => simp at hlines
    · exact nomatch hnot
  · simp at hrun

end LineShell
