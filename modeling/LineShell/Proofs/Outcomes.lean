import LineShell.Proofs.Scan

/-!
# Statuses and children

Which statuses the run of a tree can answer with, and what is left of them when they are the exit
code of a child. A status is the end of the session, a byte, or `-1`; the last one comes from a
command that ran as a child of the running process itself and did not exit. A child passes on
whether its tree succeeded and nothing that failed, was killed, or wanted to end the session is
taken for success.

## The model

* `Yields` says that all answers of an action are as a condition on statuses says.
* `sideCode` is the exit code of a child, by what the tree that it runs comes to; `verdict` is the
  status of a parallel pair whose sides came to something.
* `Entry.Hinders` marks the failed calls without which no side of a pair can be made, bound or
  waited for, and `Act.Blames` says of an action that it fails only where the journal tells of
  one. `Hindered` is a pair of children that such a call hinders: if it answers, then that it
  failed.
* `Recorded` is the frame in which the journal goes on, so that what is told of a part of a run is
  told of the run.
* `PipeRuns` and `ParallelRuns` say that both sides of a pair run as children, each from a certain
  machine on, and that their exit codes are those of what they come to there.

## What is proved

* Every status of a run is in range (`execute_inRange`); a pair of children never answers with the
  end of the session (`combine_ne_terminate`). Only success has the exit code 0
  (`Status.InRange.exitCode_eq_zero_iff`).
* An exit code comes through a child and a wait as it is (`status_ofRaw_exitedRaw`).
* Two children that have ended are found under their numbers, in either order (`Machine.Holds`),
  so what is waited for is what was made.
* Whatever fails, a pipe is hindered or answers with the exit code of its right side
  (`piped_outcome`), and a parallel pair is hindered or answers as its sides came out
  (`inParallel_outcome`).

What the left side of a pipe comes to is left open: no status shows it.
-/

namespace LineShell

open Act

/-! ### Which statuses there are -/

/-- A status that a run can answer with. -/
def Status.InRange : Status → Prop
  | .terminate => True
  | .code n => n = -1 ∨ 0 ≤ n ∧ n < 256

/-- What the end of a child stands for is a status of a run. -/
theorem Ending.inRange_status_ofRaw (raw : Nat) : (Ending.ofRaw raw).status.InRange := by
  unfold ofRaw
  split
  · refine Or.inr ⟨Int.natCast_nonneg _, ?_⟩
    show ((raw / 256 % 256 : Nat) : Int) < 256
    omega
  · split
    · exact Or.inl rfl
    · exact Or.inl rfl

/-- Only success has the exit code 0. -/
theorem Status.InRange.exitCode_eq_zero_iff {s : Status} (h : s.InRange) :
    s.exitCode = 0 ↔ s = .success := by
  cases s with
  | terminate => simp [exitCode, terminateCode, success]
  | code n =>
    have hn : n = -1 ∨ 0 ≤ n ∧ n < 256 := h
    simp only [exitCode, success, code.injEq]
    omega

namespace Act

variable {α β : Type}

/-- An action whose answers are all as `P` says. -/
def Yields (P : α → Prop) (a : Act α) : Prop := ∀ m x m', a m = .ok x m' → P x

namespace Yields

variable {P : α → Prop} {Q : β → Prop}

theorem trivial (a : Act α) : Yields (fun _ => True) a := fun _ _ _ _ => True.intro

theorem pure {x : α} (h : P x) : Yields P (Pure.pure x : Act α) := by
  intro m y m' hm
  obtain ⟨rfl, -⟩ := EStateM.Result.ok.inj (hm : EStateM.Result.ok x _ = _)
  exact h

theorem throw (e : Failure) : Yields P (MonadExcept.throw e : Act α) :=
  fun _ _ _ h => nomatch (h : EStateM.Result.error _ _ = _)

theorem bind {a : Act α} {f : α → Act β} (ha : Yields P a) (hf : ∀ x, P x → Yields Q (f x)) :
    Yields Q (a >>= f) := by
  intro m y m' h
  obtain ⟨x, m₁, hx, hy⟩ := bind_eq_ok.1 h
  exact hf x (ha m x m₁ hx) m₁ y m' hy

/-- What stands behind an action decides the answer. -/
theorem behind (a : Act α) {f : α → Act β} (hf : ∀ x, Yields Q (f x)) : Yields Q (a >>= f) :=
  .bind (.trivial a) fun x _ => hf x

end Yields

end Act

/-- A change of directory succeeds or fails. -/
theorem changeDirectory_yields (c : Command) :
    Yields (fun s => s = .success ∨ s = .failure) (changeDirectory c) := by
  refine .behind _ fun p => ?_
  split
  · exact .behind _ fun _ => .pure (Or.inr rfl)
  · refine .behind _ fun previous => .behind _ fun r => ?_
    split
    · exact .behind _ fun _ => .pure (Or.inr rfl)
    · exact .throw _
    · exact .behind _ fun _ => .behind _ fun _ => .behind _ fun _ => .behind _ fun _ =>
        .behind _ fun _ => .pure (Or.inl rfl)

section Range

variable {a b : Act Status}

/-- Waiting for a child answers with what its end stands for. -/
theorem await_yields {P : Status → Prop} (h : ∀ raw, P (Ending.ofRaw raw).status) (pid : Nat) :
    Yields P (await pid) := by
  intro m s m' hm
  rcases await_cases pid m with ⟨e, he, -⟩ | ⟨raw, m₁, -, -, hok⟩
  · exact nomatch hm.symm.trans he
  · obtain ⟨rfl, -⟩ := EStateM.Result.ok.inj (hm.symm.trans hok)
    exact h raw

theorem await_inRange (pid : Nat) : Yields Status.InRange (await pid) :=
  await_yields Ending.inRange_status_ofRaw pid

theorem failure_inRange : Status.failure.InRange := Or.inr ⟨by decide, by decide⟩

theorem success_inRange : Status.success.InRange := Or.inr ⟨by decide, by decide⟩

theorem runLeaf_inRange (rules : Rules) (mark : Option Nat) (c : Command) (level : Int) :
    Yields Status.InRange (runLeaf rules mark c level) := by
  refine .behind _ fun p => .behind _ fun _ => .behind _ fun _ => ?_
  split
  · exact .behind _ fun _ => .behind _ fun _ => .pure success_inRange
  · intro m s m' h
    rcases changeDirectory_yields c m s m' h with rfl | rfl
    · exact success_inRange
    · exact failure_inRange
  · exact .behind _ fun _ => .pure True.intro
  · refine .behind _ fun r => ?_
    split
    · exact await_inRange _
    · exact .behind _ fun _ => .behind _ fun _ => .pure failure_inRange
    · exact .throw _

/-- A pair of children succeeds, fails, or answers as a wait for a child does. -/
theorem combine_yields_of_forks {P : Status → Prop} {op : Operator} (hop : op.forks = true)
    (hsuccess : P .success) (hfailure : P .failure) (hawait : ∀ pid, Yields P (await pid)) :
    Yields P (combine op a b) := by
  cases op with
  | pipe =>
    refine .behind _ fun r => ?_
    split
    · exact .behind _ fun _ => .behind _ fun _ => .pure hfailure
    · exact .throw _
    · refine .behind _ fun (pids, failure) => .behind _ fun _ => .behind _ fun _ => .behind _ fun _ => ?_
      match pids with
      | [] => exact .pure hfailure
      | [_] => exact .behind _ fun _ => .behind _ fun _ => .pure hfailure
      | _ :: right :: _ => exact .behind _ fun _ => .behind _ fun _ => hawait right
  | parallel =>
    refine .behind _ fun (pids, failure) => .behind _ fun _ => .behind _ fun _ => .behind _ fun _ => ?_
    split
    · exact .pure hsuccess
    · exact .pure hfailure
  | sequential => exact nomatch hop
  | conditionalAnd => exact nomatch hop
  | conditionalOr => exact nomatch hop

/-- The end of a child does not end the session. -/
theorem await_ne_terminate (pid : Nat) : Yields (· ≠ .terminate) (await pid) := by
  refine await_yields (fun raw => ?_) pid
  cases Ending.ofRaw raw <;> exact Status.noConfusion

/-- A pair of children never ends the session. -/
theorem combine_ne_terminate {op : Operator} (hop : op.forks = true) :
    Yields (· ≠ .terminate) (combine op a b) :=
  combine_yields_of_forks hop (by decide) (by decide) await_ne_terminate

theorem combine_inRange (op : Operator) (ha : Yields Status.InRange a)
    (hb : Yields Status.InRange b) : Yields Status.InRange (combine op a b) := by
  cases hop : op.forks with
  | true => exact combine_yields_of_forks hop success_inRange failure_inRange await_inRange
  | false =>
    intro m s m' h
    rcases combine_eq_ok_of_serial hop h with ⟨rfl, -⟩ | ⟨n, m₁, hleft, hrest⟩
    · exact True.intro
    · rcases hrest with ⟨-, rfl, -⟩ | ⟨-, hright⟩
      · exact ha m _ m₁ hleft
      · exact hb m₁ s m' hright

end Range

theorem remember_yields {P : Status → Prop} {s : Status} (h : P s) : Yields P (remember s) := by
  unfold remember
  split
  · exact .behind _ fun _ => .pure h
  · exact .pure h

theorem execute_inRange (rules : Rules) (t : Tree) (level : Int) :
    Yields Status.InRange (execute rules t level) := by
  induction t generalizing level with
  | leaf mark c => exact .bind (runLeaf_inRange rules mark c level) fun s hs => remember_yields hs
  | bare mark => exact .throw _
  | binary mark op l r ihl ihr =>
    have hpair : Yields Status.InRange (rules.runPair op (Tree.binary mark op l r).shown level
        (execute rules l (level + 1)) (execute rules r (level + 1))) := by
      refine .behind _ fun _ => .behind _ fun _ => ?_
      refine .bind (combine_inRange op (ihl _) (ihr _)) fun s hs => ?_
      exact .behind _ fun _ => remember_yields hs
    unfold execute
    split
    · exact .behind _ fun _ => hpair
    · exact hpair

/-! ### What children report -/

/-- The exit code of a child, by what the tree that it runs comes to: a failure is 1. -/
def sideCode : EStateM.Result Failure Machine Status → Nat
  | .ok s _ => s.exitCode
  | .error _ _ => 1

theorem sideCode_lt (r : EStateM.Result Failure Machine Status) : sideCode r < 256 := by
  cases r with
  | ok s m => exact s.exitCode_lt
  | error e m =>
    show 1 < 256
    decide

/-- An exit code that a tree passes on as its status is its own exit code. -/
theorem sideCode_code_sideCode (r : EStateM.Result Failure Machine Status) (m : Machine) :
    sideCode (.ok (.code (sideCode r)) m) = sideCode r :=
  Status.exitCode_code_of_lt _ (sideCode_lt r)

/-- An exit code comes through a wait as it is. -/
theorem status_ofRaw_exitedRaw {code : Nat} (h : code < 256) :
    (Ending.ofRaw (exitedRaw code)).status = .code code := by
  rw [Ending.ofRaw_exitedRaw, Nat.mod_eq_of_lt h]
  rfl

/-- The exit code is 0 only where the tree succeeded. -/
theorem sideCode_eq_zero_iff (rules : Rules) (t : Tree) (level : Int) (m : Machine) :
    sideCode (execute rules t level m) = 0 ↔ ∃ n, execute rules t level m = .ok .success n := by
  have hrange := execute_inRange rules t level m
  cases hr : execute rules t level m with
  | error e n => simp [sideCode]
  | ok s n =>
    show s.exitCode = 0 ↔ _
    rw [(hrange s n hr).exitCode_eq_zero_iff]
    constructor
    · rintro rfl
      exact ⟨n, rfl⟩
    · rintro ⟨n', h⟩
      exact (EStateM.Result.ok.inj h).1

theorem sideWork_eq_ok {a : Act Status} {n k : Machine} {e : ChildEnd} (h : sideWork a n = .ok e k) :
    e = .exit (sideCode (a n)) := by
  obtain ⟨s, m₁, ha, hret⟩ := bind_eq_ok.1 h
  rw [ha]
  exact (EStateM.Result.ok.inj hret).1.symm

theorem sideWork_eq_error {a : Act Status} {n k : Machine} {e : Failure}
    (h : sideWork a n = .error e k) : sideCode (a n) = 1 := by
  rcases bind_eq_error.1 h with ha | ⟨s, m₁, -, hret⟩
  · rw [ha]
    rfl
  · exact nomatch (hret : EStateM.Result.ok _ _ = _)

/-- A child that does what a side does, from a machine on, exits with the code of that side. -/
theorem Lived.raw_eq {work : Act ChildEnd} {a : Act Status} {n k n' : Machine} {raw : Nat}
    (h : Lived work n raw n') (hwork : work n = sideWork a k) :
    raw = exitedRaw (sideCode (a k)) := by
  cases h with
  | program h => exact nomatch sideWork_eq_ok (hwork.symm.trans h)
  | exit h =>
    obtain rfl := ChildEnd.exit.inj (sideWork_eq_ok (hwork.symm.trans h))
    rfl
  | error h hq => rw [sideWork_eq_error (hwork.symm.trans h)]

/-! ### Calls that hinder -/

/-- A call failed without which no side of a pair can be made, bound or waited for. -/
def Entry.Hinders (e : Entry) : Prop :=
  e.failed? ∈ [some .fork, some .pipe, some .dup, some .close, some .wait]

instance (e : Entry) : Decidable e.Hinders := inferInstanceAs (Decidable (_ ∈ _))

/-- The journal goes on. -/
def Recorded (m m' : Machine) : Prop := m.world.journal <+: m'.world.journal

instance : Frame Recorded := ⟨fun m => List.prefix_refl m.world.journal, List.IsPrefix.trans⟩

instance : Lenient Recorded := ⟨fun h => h.follows.journal⟩

instance : Forgetful Recorded := ⟨fun _ => List.prefix_refl _⟩

namespace Recorded

variable {m m₁ m' : Machine} {e : Entry}

/-- What is told of a first part of a run is told of the run. -/
theorem mem_first (h : Recorded m₁ m') (he : e ∈ m.since m₁) : e ∈ m.since m' :=
  (h.drop _).subset he

/-- What is told of the rest of a run is told of the run. -/
theorem mem_rest (h : Recorded m m₁) (he : e ∈ m₁.since m') : e ∈ m.since m' :=
  List.drop_subset_drop_left _ h.length_le he

end Recorded

/-- What is told of a run is told of its first part, and then of the rest. -/
theorem Machine.since_trans {a b c : Machine} (hab : Recorded a b) (hbc : Recorded b c) :
    a.since c = a.since b ++ b.since c := by
  obtain ⟨es, hes⟩ := hab
  obtain ⟨fs, hfs⟩ := hbc
  have hboth : c.world.journal = a.world.journal ++ (es ++ fs) := by
    rw [← hfs, ← hes, List.append_assoc]
  rw [Machine.since_eq hboth, Machine.since_eq hes.symm, Machine.since_eq hfs.symm]

theorem Machine.mem_since_note {m n : Machine} (h : Recorded m n) (e : Entry) :
    e ∈ m.since (n.note e) := by
  obtain ⟨es, hes⟩ := h
  have hjournal : (n.note e).world.journal = m.world.journal ++ (es ++ [e]) := by
    rw [← List.append_assoc, hes]
    rfl
  rw [Machine.since_eq hjournal]
  simp

theorem Adds.recorded {P : Entry → Prop} {m m' : Machine} (h : Adds P m m') : Recorded m m' := by
  obtain ⟨es, hes, -⟩ := h
  exact ⟨es, hes.symm⟩

theorem Act.Keeps.recorded {α : Type} {a : Act α} (h : Keeps Rebound a) : Keeps Recorded a :=
  h.mono fun _ _ h => h.followed.journal

theorem await_recorded (pid : Nat) : Keeps Recorded (await pid) :=
  .await_of (.wait_of (fun _ _ => ⟨[_], rfl⟩) fun _ _ => List.prefix_refl _)

theorem awaitAll_recorded (pids : List Nat) : Keeps Recorded (awaitAll pids) := by
  induction pids with
  | nil => exact .pure []
  | cons pid pids ih => exact .bind (await_recorded pid) fun _ => .bind ih fun _ => .pure _

/-- An action that fails only where a call hinders. -/
def Act.Blames {α : Type} (a : Act α) : Prop :=
  ∀ m e m', a m = .error e m' → ∃ x ∈ m.since m', x.Hinders

namespace Act.Blames

variable {α β : Type}

theorem of_answers {a : Act α} (h : Answers a) : Blames a := by
  intro m e m' hm
  obtain ⟨x, n, hx⟩ := h m
  exact nomatch hx.symm.trans hm

/-- Where no call hinders it answers. -/
theorem exists_ok {a : Act α} (h : Blames a) {m : Machine} (hfree : ∀ e ∈ m.since (a.after m), ¬e.Hinders) :
    ∃ x m', a m = .ok x m' := by
  cases hr : a m with
  | ok x m' => exact ⟨x, m', rfl⟩
  | error e m' =>
    rw [after_of_error hr] at hfree
    obtain ⟨x, hx, hhinders⟩ := h m e m' hr
    exact absurd hhinders (hfree x hx)

theorem bind {a : Act α} {f : α → Act β} (ha : Blames a) (hk : Keeps Recorded a)
    (hf : ∀ x, Blames (f x)) : Blames (a >>= f) := by
  intro m e m' h
  rcases bind_eq_error.1 h with hr | ⟨x, m₁, hr, hrest⟩
  · exact ha m e m' hr
  · have hrec := hk.of_ok hr
    obtain ⟨y, hy, hhinders⟩ := hf x m₁ e m' hrest
    exact ⟨y, hrec.mem_rest hy, hhinders⟩

/-- A call that fails is told of. -/
theorem answered {c : CallName} {event : Except Errno α → Event}
    {work : Machine → Except Errno (α × Machine)} {path : Option Text}
    (h : ∀ pid e, Entry.Hinders (.called pid (event (.error e)))) :
    Blames (do answer path (← call c event work)) := by
  intro m e m' hm
  obtain ⟨errno, rfl⟩ := answered_eq_error hm
  have hcounted : Recorded m (m.counted c) := List.prefix_refl _
  exact ⟨_, Machine.mem_since_note hcounted _, h _ _⟩

theorem dup (source target : Nat) : Blames (Act.dup source target) :=
  answered fun _ _ => by simp [Entry.Hinders, Entry.failed?, Event.failed?]

theorem close (fd : Nat) : Blames (Act.close fd) :=
  answered fun _ _ => by simp [Entry.Hinders, Entry.failed?, Event.failed?]

theorem forM {f : β → Act PUnit} (h : ∀ x, Blames (f x)) (hk : ∀ x, Keeps Recorded (f x)) (xs : List β) :
    Blames (xs.forM f) := by
  induction xs with
  | nil => exact of_answers (.pure ())
  | cons x xs ih => exact .bind (h x) (hk x) fun _ => ih

theorem closeAll (fds : List Nat) : Blames (LineShell.closeAll fds) :=
  .forM close (fun fd => (Keeps.close fd).recorded) fds

theorem bindStream (fd standard : Nat) (spare : List Nat) :
    Blames (LineShell.bindStream fd standard spare) :=
  .bind (dup _ _) (Keeps.dup _ _).recorded fun _ => closeAll _

theorem await (pid : Nat) : Blames (LineShell.await pid) := by
  intro m e m' h
  rcases await_cases pid m with ⟨errno, he, -⟩ | ⟨raw, m₁, -, -, hok⟩
  · obtain ⟨-, rfl⟩ := EStateM.Result.error.inj (h.symm.trans he)
    have hcounted : Recorded m (m.counted .wait) := List.prefix_refl _
    exact ⟨_, Machine.mem_since_note hcounted _, by simp [Entry.Hinders, Entry.failed?, Event.failed?]⟩
  · exact nomatch h.symm.trans hok

end Act.Blames

/-! ### Waiting for children -/

/-- A child that has ended is found under its number, whatever its work was. -/
theorem Birth.find? {work : Act ChildEnd} (hw : Keeps Followed work) {raw : Nat} {m m' : Machine}
    (hs : m.world.Sane) (h : Birth work raw m m') :
    m'.world.ended.find? (·.1 == m.world.nextPid) = some (m.world.nextPid, raw) := by
  obtain ⟨dead, hlived, hq⟩ := h
  have hlife : m.born.world.Follows dead.world := hlived.followed hw
  have hnone : dead.world.ended.find? (·.1 == m.world.nextPid) = none := by
    rw [hlife.find? (Nat.lt_succ_self m.world.nextPid)]
    refine List.find?_eq_none.2 fun e he => ?_
    have hlt : e.1 < m.world.nextPid := hs e he
    simpa using Nat.ne_of_lt hlt
  rw [hq.plain.ended]
  show (dead.world.ended ++ [(m.world.nextPid, raw)]).find? _ = _
  rw [List.find?_append, hnone]
  simp

/-- What waiting for a child answers, and what it leaves. -/
theorem await_eq_ok {pid raw : Nat} {m m' : Machine} {s : Status}
    (hfound : m.world.ended.find? (·.1 == pid) = some (pid, raw)) (h : await pid m = .ok s m') :
    s = (Ending.ofRaw raw).status ∧ m'.world.ended = m.world.ended.filter (·.1 != pid) := by
  rcases await_cases pid m with ⟨e, he, -⟩ | ⟨raw', m₁, hfound', hq, hok⟩
  · exact nomatch h.symm.trans he
  · obtain ⟨rfl, rfl⟩ := EStateM.Result.ok.inj (h.symm.trans hok)
    obtain ⟨-, rfl⟩ := Prod.mk.inj (Option.some.inj (hfound.symm.trans hfound'))
    exact ⟨rfl, hq.plain.ended⟩

/-- Two children that have ended, under two numbers. -/
structure Machine.Holds (m : Machine) (left right : Nat × Nat) : Prop where
  /-- The first one is found. -/
  first : m.world.ended.find? (·.1 == left.1) = some left
  /-- The second one is found. -/
  second : m.world.ended.find? (·.1 == right.1) = some right
  /-- They are two. -/
  ne : left.1 ≠ right.1

theorem Machine.Holds.of_ended {m m' : Machine} {left right : Nat × Nat} (h : m.Holds left right)
    (he : m'.world.ended = m.world.ended) : m'.Holds left right := by
  refine ⟨?_, ?_, h.ne⟩
  · rw [he]
    exact h.first
  · rw [he]
    exact h.second

/-- Both children of a pair are there to be waited for. -/
theorem Birth.holds {x y : Act ChildEnd} (hx : Keeps Followed x) (hy : Keeps Followed y)
    {rawx rawy : Nat} {m m₁ m₂ : Machine} (hs : m.world.Sane) (hbx : Birth x rawx m m₁)
    (hby : Birth y rawy m₁ m₂) :
    m₂.Holds (m.world.nextPid, rawx) (m₁.world.nextPid, rawy) := by
  obtain ⟨hf, hlt⟩ := hbx.followed hx
  obtain ⟨hf', -⟩ := hby.followed hy
  refine ⟨?_, hby.find? hy (hf.sane hs), Nat.ne_of_lt hlt⟩
  exact (hf'.find? hlt).trans (hbx.find? hx hs)

/-- Once the first child was waited for the second one is still there. -/
theorem Machine.Holds.await_left {m m' : Machine} {left right : Nat × Nat} {s : Status}
    (h : m.Holds left right) (ha : await left.1 m = .ok s m') :
    s = (Ending.ofRaw left.2).status ∧ m'.world.ended.find? (·.1 == right.1) = some right := by
  obtain ⟨hs, hended⟩ := await_eq_ok h.first ha
  refine ⟨hs, ?_⟩
  rw [hended, List.find?_filter, ← h.second]
  congr 1
  funext e
  by_cases he : e.1 = right.1
  · have hne : e.1 ≠ left.1 := he ▸ h.ne.symm
    simp [he, h.ne.symm]
  · simp [he]

theorem debug_ended {logger message : Text} {m m' : Machine} (h : debug logger message m = .ok () m') :
    m'.world.ended = m.world.ended := by
  have hq : Quiet m m' := (Keeps.debug logger message).of_ok h
  exact hq.plain.ended

/-- The sides of a pipe are waited for, and the right one's end is the answer. -/
theorem awaitStages_eq_ok {m m' : Machine} {left right : Nat × Nat} {s : Status}
    (h : m.Holds left right) (ha : awaitStages [left.1, right.1] m = .ok s m') :
    s = (Ending.ofRaw right.2).status := by
  obtain ⟨s₁, m₁, hleft, ha⟩ := bind_eq_ok.1 ha
  obtain ⟨-, hright⟩ := h.await_left hleft
  obtain ⟨_, m₂, hlog, ha⟩ := bind_eq_ok.1 ha
  rw [← debug_ended hlog] at hright
  exact (await_eq_ok hright ha).1

/-- The branches of a parallel pair are waited for. -/
theorem awaitAll_eq_ok {m m' : Machine} {left right : Nat × Nat} {ss : List Status}
    (h : m.Holds left right) (ha : awaitAll [left.1, right.1] m = .ok ss m') :
    ss = [(Ending.ofRaw left.2).status, (Ending.ofRaw right.2).status] := by
  obtain ⟨s₁, m₁, hleft, ha⟩ := bind_eq_ok.1 ha
  obtain ⟨rfl, hright⟩ := h.await_left hleft
  obtain ⟨rest, m₂, hrest, ha⟩ := bind_eq_ok.1 ha
  obtain ⟨s₂, m₃, hsecond, hrest⟩ := bind_eq_ok.1 hrest
  obtain ⟨rfl, -⟩ := await_eq_ok hright hsecond
  obtain ⟨_, m₄, hnil, hrest⟩ := bind_eq_ok.1 hrest
  obtain ⟨rfl, -⟩ := EStateM.Result.ok.inj (hnil : EStateM.Result.ok [] _ = _)
  obtain ⟨rfl, -⟩ := EStateM.Result.ok.inj (hrest : EStateM.Result.ok [_] _ = _)
  exact (EStateM.Result.ok.inj (ha : EStateM.Result.ok _ _ = _)).1.symm

theorem judge_eq_ok {ss : List Status} {m m' : Machine} {s : Status} (h : judge ss m = .ok s m') :
    s = if ss.length = 2 ∧ ∀ x ∈ ss, x = .success then .success else .failure := by
  obtain ⟨_, m₁, -, h⟩ := bind_eq_ok.1 h
  have hiff : (decide (ss.length = 2) && ss.all (· == .success)) = true ↔
      ss.length = 2 ∧ ∀ x ∈ ss, x = .success := by simp
  split at h
  · next hall =>
    rw [if_pos (hiff.1 hall)]
    exact (EStateM.Result.ok.inj (h : EStateM.Result.ok Status.success _ = _)).1.symm
  · next hall =>
    rw [if_neg (mt hiff.2 hall)]
    exact (EStateM.Result.ok.inj (h : EStateM.Result.ok Status.failure _ = _)).1.symm

theorem finishPipe_none (r w : Nat) (pids : List Nat) :
    finishPipe r w pids none = (do
      closeAll [r, w]
      awaitStages pids) := rfl

theorem finishParallel_none (pids : List Nat) :
    finishParallel pids none = (do judge (← awaitAll pids)) := rfl

/-- Where a side of a pipe is missing, the pipe has failed. -/
theorem awaitStages_yields {pids : List Nat} (h : pids.length < 2) :
    Yields (· = .failure) (awaitStages pids) := by
  match pids with
  | [] => exact .pure rfl
  | [_] => exact .behind _ fun _ => .behind _ fun _ => .pure rfl

theorem awaitAll_yields (pids : List Nat) :
    Yields (fun ss => ss.length = pids.length) (awaitAll pids) := by
  induction pids with
  | nil => exact .pure rfl
  | cons pid pids ih => exact .behind _ fun _ => .bind ih fun ss hss => .pure (by simp [hss])

theorem Act.Answers.judge (ss : List Status) : Answers (LineShell.judge ss) := by
  refine .bind (.debug _ _) fun _ => ?_
  split
  · exact .pure _
  · exact .pure _

namespace Act.Blames

theorem awaitStages (left right : Nat) : Blames (LineShell.awaitStages [left, right]) :=
  .bind (await left) (await_recorded left) fun _ =>
    .bind (of_answers (.debug _ _)) (Keeps.debug _ _) fun _ => await right

theorem awaitAll (pids : List Nat) : Blames (LineShell.awaitAll pids) := by
  induction pids with
  | nil => exact of_answers (.pure [])
  | cons pid pids ih =>
    exact .bind (await pid) (await_recorded pid) fun _ =>
      .bind ih (awaitAll_recorded pids) fun _ => of_answers (.pure _)

theorem judge (ss : List Status) : Blames (LineShell.judge ss) := of_answers (.judge ss)

theorem finishPipe (r w left right : Nat) : Blames (LineShell.finishPipe r w [left, right] none) :=
  finishPipe_none r w [left, right] ▸
    .bind (closeAll _) (Keeps.closeAll _).recorded fun _ => awaitStages left right

theorem finishParallel (pids : List Nat) : Blames (LineShell.finishParallel pids none) :=
  finishParallel_none pids ▸ .bind (awaitAll pids) (awaitAll_recorded pids) judge

end Act.Blames

/-- Where a child could not be made, a call hindered, and there are not two. -/
theorem Births.hinders {x y : Act ChildEnd} (hx : Keeps Followed x) {m m' : Machine}
    {pids : List Nat} {failure : Failure} (h : Births x y m (pids, some failure) m') :
    pids.length < 2 ∧ ∃ e ∈ m.since m', e.Hinders := by
  have hbarren {n : Machine} (hn : Recorded m n) (e : Errno) :
      ∃ x ∈ m.since (n.barren e), x.Hinders := by
    refine ⟨.called n.proc.pid (.fork (.error e)), ?_, by simp [Entry.Hinders, Entry.failed?, Event.failed?]⟩
    have hcounted : Recorded m (n.counted .fork) := hn
    exact Machine.mem_since_note hcounted _
  cases h with
  | none e => exact ⟨by simp, hbarren (Frame.refl m) e⟩
  | one hbx e => exact ⟨by simp, hbarren (hbx.followed hx).1.journal e⟩

/-- A pair of children that a call hinders: if it answers, then that it failed. -/
def Hindered (a : Act Status) (m : Machine) : Prop :=
  (∃ x ∈ m.since (a.after m), x.Hinders) ∧ ∀ s m', a m = .ok s m' → s = .failure

theorem Hindered.of_eq {a b : Act Status} {m n : Machine} (h : a m = b n)
    (hx : ∃ x ∈ m.since (b.after n), x.Hinders) (hb : ∀ s m', b n = .ok s m' → s = .failure) :
    Hindered a m := by
  rw [Hindered, after_eq_of_eq h, h]
  exact ⟨hx, hb⟩

/-! ### Pipes -/

/-- A child is made for some work, lives, and ends with a raw wait status. -/
def Spawned (work : Act ChildEnd) (raw : Nat) (m m' : Machine) : Prop :=
  spawn work m = .ok m.world.nextPid m' ∧ Birth work raw m m'

/-- Both sides of a pipe run as children. The right side runs from a machine `k` on, in which its
stream is bound, and its child exits with the code of what it comes to there. What the left side
comes to is left open. -/
def PipeRuns (a b : Act Status) (m k : Machine) : Prop :=
  ∃ r w m₁ m₂ m₃ raw, createChannel m = .ok (r, w) m₁ ∧ Spawned (pipeSide a w 1 r w) raw m₁ m₂ ∧
    Spawned (pipeSide b r 0 r w) (exitedRaw (sideCode (b k))) m₂ m₃ ∧
    bindStream r 0 [r, w] m₂.born = .ok () k

/-- A side of a pipe runs once its stream is bound; where that fails the side exits with 1. -/
theorem Lived.pipeSide_cases {a : Act Status} {fd standard r w raw : Nat} {n n' : Machine}
    (h : Lived (pipeSide a fd standard r w) n raw n') :
    (∃ k, bindStream fd standard [r, w] n = .ok () k ∧ raw = exitedRaw (sideCode (a k))) ∨
    (∃ failure k, bindStream fd standard [r, w] n = .error failure k) ∧ raw = exitedRaw 1 ∧
      ∃ x ∈ n.since n', x.Hinders := by
  cases hb : bindStream fd standard [r, w] n with
  | ok _ k =>
    have hwork : pipeSide a fd standard r w n = sideWork a k := by
      unfold pipeSide
      rw [bind_eq, hb]
    exact Or.inl ⟨k, rfl, h.raw_eq hwork⟩
  | error e k =>
    have hwork : pipeSide a fd standard r w n = .error e k := by
      unfold pipeSide
      rw [bind_eq, hb]
    cases h with
    | program h => exact nomatch hwork.symm.trans h
    | exit h => exact nomatch hwork.symm.trans h
    | error h hq =>
      obtain ⟨rfl, rfl⟩ := EStateM.Result.error.inj (hwork.symm.trans h)
      obtain ⟨x, hx, hhinders⟩ := Blames.bindStream fd standard [r, w] n _ _ hb
      have hrec : Recorded k _ := Forgetful.quiet hq
      refine Or.inr ⟨⟨e, k, rfl⟩, rfl, x, ?_, hhinders⟩
      exact Recorded.mem_first (Frame.trans hrec ⟨[_], rfl⟩) hx

/-- A side of a pipe that is born and not hindered runs. -/
theorem Birth.exists_bind {a : Act Status} {fd standard r w raw : Nat} {m m' : Machine}
    (h : Birth (pipeSide a fd standard r w) raw m m') (hfree : ∀ x ∈ m.since m', ¬x.Hinders) :
    ∃ k, bindStream fd standard [r, w] m.born = .ok () k ∧ raw = exitedRaw (sideCode (a k)) := by
  obtain ⟨dead, hlived, hq⟩ := h
  rcases hlived.pipeSide_cases with hruns | ⟨-, -, x, hmem, hhinders⟩
  · exact hruns
  · have hborn : Recorded m m.born := m.followed_born.journal
    have hleft : Recorded (m.outlived dead.world raw) m' := Forgetful.quiet hq
    have hrest : Recorded dead m' := hleft
    exact absurd hhinders (hfree x (hborn.mem_rest (hrest.mem_first hmem)))

section Pipes

variable {a b : Act Status} (ha : Keeps Followed a) (hb : Keeps Followed b)
include ha hb

theorem pipeSides_followed (r w : Nat) :
    Keeps Followed (pipeSide a w 1 r w) ∧ Keeps Followed (pipeSide b r 0 r w) :=
  have hside {c : Act Status} (h : Keeps Followed c) (fd standard : Nat) :
      Keeps Followed (pipeSide c fd standard r w) :=
    .bind (Keeps.bindStream _ _ _).rebound_followed fun _ => .bind h fun _ => .pure _
  ⟨hside ha w 1, hside hb r 0⟩

/-- A pipe whose sides both were made answers with the end of the right one. -/
theorem finishPipe_eq_ok {r w raw rawy : Nat} {m₁ m₂ m₃ m' : Machine} {s : Status}
    (hs : m₁.world.Sane) (hbx : Birth (pipeSide a w 1 r w) raw m₁ m₂)
    (hby : Birth (pipeSide b r 0 r w) rawy m₂ m₃)
    (h : finishPipe r w [m₁.world.nextPid, m₂.world.nextPid] none m₃ = .ok s m') :
    s = (Ending.ofRaw rawy).status := by
  obtain ⟨hx, hy⟩ := pipeSides_followed ha hb r w
  have hholds := Birth.holds hx hy hs hbx hby
  rw [finishPipe_none] at h
  obtain ⟨_, m₄, hclose, hawait⟩ := bind_eq_ok.1 h
  have hkeep := (Keeps.closeAll [r, w]).of_ok hclose
  exact awaitStages_eq_ok (hholds.of_ended hkeep.plain.ended) hawait

/-- Whatever fails, a pipe is hindered, or it answers with the exit code of its right side. -/
theorem piped_outcome {m : Machine} (hs : m.world.Sane) :
    Hindered (piped a b) m ∨
      ∃ k m', PipeRuns a b m k ∧ piped a b m = .ok (.code (sideCode (b k))) m' := by
  rcases piped_cases a b m with ⟨e, -, hr⟩ | ⟨r, w, m₁, pids, failure, m₂, hc, hbirths, hr⟩
  · have hcounted : Recorded m (m.counted .pipe) := List.prefix_refl _
    have hafter : Recorded (m.unpiped e) ((withoutPipe e).after (m.unpiped e)) := Keeps.withoutPipe e _
    have hyields : Yields (· = .failure) (withoutPipe e) :=
      .behind _ fun _ => .behind _ fun _ => .pure rfl
    refine Or.inl (.of_eq hr ⟨_, hafter.mem_first (Machine.mem_since_note hcounted _), ?_⟩ (hyields _))
    simp [Entry.Hinders, Entry.failed?, Event.failed?]
  · obtain ⟨hx, hy⟩ := pipeSides_followed ha hb r w
    have hkeep := Keeps.createChannel.of_ok hc
    have hstart : Recorded m m₁ := hkeep.followed.journal
    have hmade : Recorded m₁ m₂ := (hbirths.followed hx hy).1.journal
    have hafter : Recorded m₂ ((finishPipe r w pids failure).after m₂) :=
      Keeps.finishPipe (Keeps.closeAll _).recorded (fun pid _ => await_recorded pid) failure m₂
    cases failure with
    | some failure =>
      obtain ⟨hshort, x, hmem, hhinders⟩ := hbirths.hinders hx
      have hyields : Yields (· = .failure) (finishPipe r w pids (some failure)) :=
        .behind _ fun _ => .behind _ fun _ => .behind _ fun _ => awaitStages_yields hshort
      exact Or.inl (.of_eq hr ⟨x, hstart.mem_rest (hafter.mem_first hmem), hhinders⟩ (hyields _))
    | none =>
      cases hbirths with
      | @two raw rawy n _ hbx hby hsx hsy =>
        have hsane := hkeep.followed.sane hs
        obtain ⟨dead, hlived, hq⟩ := id hby
        rcases hlived.pipeSide_cases with ⟨k, hk, rfl⟩ | ⟨-, rfl, x, hmem, hhinders⟩
        · cases hfinish : finishPipe r w [m₁.world.nextPid, n.world.nextPid] none m₂ with
          | error e m' =>
            obtain ⟨x, hmem, hhinders⟩ := Blames.finishPipe r w _ _ m₂ e m' hfinish
            rw [← after_of_error hfinish] at hmem
            refine Or.inl (.of_eq hr ⟨x, hstart.mem_rest (hmade.mem_rest hmem), hhinders⟩ ?_)
            intro s m' h
            exact nomatch hfinish.symm.trans h
          | ok s m' =>
            refine Or.inr ⟨k, m', ⟨r, w, m₁, _, _, raw, hc, ⟨hsx, hbx⟩, ⟨hsy, hby⟩, hk⟩, ?_⟩
            rw [hr, hfinish, finishPipe_eq_ok ha hb hsane hbx hby hfinish,
              status_ofRaw_exitedRaw (sideCode_lt _)]
        · have hfirst : Recorded m n.born :=
            Frame.trans hstart (Frame.trans (hbx.followed hx).1.journal n.followed_born.journal)
          have hleft : Recorded (n.outlived dead.world (exitedRaw 1)) m₂ := Forgetful.quiet hq
          have hrest : Recorded dead m₂ := hleft
          refine Or.inl (.of_eq hr ⟨x, ?_, hhinders⟩ fun s m' h => ?_)
          · exact hfirst.mem_rest ((Frame.trans hrest hafter).mem_first hmem)
          · exact finishPipe_eq_ok ha hb hsane hbx hby h

end Pipes

/-! ### Parallel pairs -/

/-- Both sides of a parallel pair run as children, which exit with the codes of what they come to:
the left one as a child of `m`, the right one as a child of `n`. -/
def ParallelRuns (a b : Act Status) (m n : Machine) : Prop :=
  Spawned (sideWork a) (exitedRaw (sideCode (a m.born))) m n ∧
    ∃ n', Spawned (sideWork b) (exitedRaw (sideCode (b n.born))) n n'

/-- The status of a parallel pair whose sides came to something. -/
def verdict (x y : EStateM.Result Failure Machine Status) : Status :=
  if sideCode x = 0 ∧ sideCode y = 0 then .success else .failure

/-- A child that runs a side exits with the code of that side. -/
theorem Birth.raw_eq {a : Act Status} {raw : Nat} {m m' : Machine}
    (h : Birth (sideWork a) raw m m') : raw = exitedRaw (sideCode (a m.born)) := by
  obtain ⟨dead, hlived, -⟩ := h
  exact hlived.raw_eq rfl

theorem sideWork_followed {a : Act Status} (h : Keeps Followed a) : Keeps Followed (sideWork a) :=
  .bind h fun _ => .pure _

section Parallel

variable {a b : Act Status} (ha : Keeps Followed a) (hb : Keeps Followed b)
include ha hb

/-- A parallel pair whose sides both were made answers as these came out. -/
theorem finishParallel_eq_ok {rawx rawy : Nat} {m n m₂ m' : Machine} {s : Status}
    (hs : m.world.Sane) (hbx : Birth (sideWork a) rawx m n) (hby : Birth (sideWork b) rawy n m₂)
    (h : finishParallel [m.world.nextPid, n.world.nextPid] none m₂ = .ok s m') :
    s = verdict (a m.born) (b n.born) := by
  have hholds := Birth.holds (sideWork_followed ha) (sideWork_followed hb) hs hbx hby
  rw [finishParallel_none] at h
  obtain ⟨ss, m₃, hall, hjudge⟩ := bind_eq_ok.1 h
  obtain rfl := awaitAll_eq_ok hholds hall
  obtain rfl := hbx.raw_eq
  obtain rfl := hby.raw_eq
  rw [judge_eq_ok hjudge, status_ofRaw_exitedRaw (sideCode_lt _),
    status_ofRaw_exitedRaw (sideCode_lt _)]
  simp [verdict, Status.success]

/-- Whatever fails, a parallel pair is hindered, or it answers as its sides came out. -/
theorem inParallel_outcome {m : Machine} (hs : m.world.Sane) :
    Hindered (inParallel a b) m ∨ ∃ n m', ParallelRuns a b m n ∧
      inParallel a b m = .ok (verdict (a m.born) (b n.born)) m' := by
  obtain ⟨pids, failure, m₁, hbirths, hr⟩ := inParallel_cases a b m
  have hx := sideWork_followed ha
  have hmade : Recorded m m₁ := (hbirths.followed hx (sideWork_followed hb)).1.journal
  have hafter : Recorded m₁ ((finishParallel pids failure).after m₁) :=
    Keeps.finishParallel (fun pid _ => await_recorded pid) failure m₁
  cases failure with
  | some failure =>
    obtain ⟨hshort, x, hmem, hhinders⟩ := hbirths.hinders hx
    have hyields : Yields (· = .failure) (finishParallel pids (some failure)) := by
      refine .behind _ fun _ => .bind (awaitAll_yields pids) fun ss hss n s n' hjudge => ?_
      rw [judge_eq_ok hjudge, if_neg]
      rintro ⟨htwo, -⟩
      omega
    exact Or.inl (.of_eq hr ⟨x, hafter.mem_first hmem, hhinders⟩ (hyields _))
  | none =>
    cases hbirths with
    | @two rawx rawy n _ hbx hby hsx hsy =>
      cases hfinish : finishParallel [m.world.nextPid, n.world.nextPid] none m₁ with
      | error e m' =>
        obtain ⟨x, hmem, hhinders⟩ := Blames.finishParallel _ m₁ e m' hfinish
        rw [← after_of_error hfinish] at hmem
        refine Or.inl (.of_eq hr ⟨x, hmade.mem_rest hmem, hhinders⟩ ?_)
        intro s m' h
        exact nomatch hfinish.symm.trans h
      | ok s m' =>
        obtain rfl := finishParallel_eq_ok ha hb hs hbx hby hfinish
        obtain rfl := hbx.raw_eq
        obtain rfl := hby.raw_eq
        exact Or.inr ⟨n, m', ⟨⟨hsx, hbx⟩, m₁, hsy, hby⟩, hr.trans hfinish⟩

end Parallel

end LineShell
