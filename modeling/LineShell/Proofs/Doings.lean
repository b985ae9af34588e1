import LineShell.Proofs.Reports
import LineShell.Proofs.Steps

/-!
# What one process does

A child runs to its end while it is made, so the journal tells of all that it does, and of all
that its own children do, in between what its maker does. Here the doings of one process are told
apart from those of the others: whatever a run does is done by the running process or by a process
that was made on the way, and so a child leaves no trace among the doings of its maker. What is
written for the log is nobody's doing.

## The model

* `Entry.doer?` is the process that did what an entry tells of, and `doings` are those of one
  process.
* `Own` is the frame of runs in which everything is done by the running process or by one that was
  made on the way.
* `Calls` says of an action that it makes one call, which is noted, and succeeds or fails as the
  call does.
* `Does` says what exactly the running process did between two machines.

## What is proved

* Every step is the running process's own (`Step.own`), and a child counts among the processes
  that were made, with all that it does (`Own.child`); so every run is its processes' own
  (`Proceeds.own`).
* The calls on descriptors and children make one call each, and what is told of them besides is a
  matter of the log (`pipe_calls`, `dup_calls`, `close_calls`, `wait_calls`). What is kept where
  the call is noted is kept by the action (`Calls.keeps`).
* To make a child is to make one call: what the child does is not its maker's doing
  (`spawn_does`).

Numbers of processes are what tells them apart, so this rests on no number being given away twice.
-/

namespace LineShell

open Act

/-! ### Doings -/

/-- The process that did what a journal entry tells of. What is done for the log is done by none. -/
def Entry.doer? : Entry → Option Nat
  | .called pid _ => some pid
  | .logged _ => none
  | .began p _ _ => some p.pid
  | .entered p _ => some p.pid
  | .wrote pid _ _ log => if log then none else some pid
  | .took pid _ _ => some pid

/-- What a process did. -/
def doings (pid : Nat) (es : List Entry) : List Entry := es.filter fun e => e.doer? = some pid

@[simp] theorem doings_append (pid : Nat) (es fs : List Entry) :
    doings pid (es ++ fs) = doings pid es ++ doings pid fs := List.filter_append ..

theorem mem_doings {pid : Nat} {es : List Entry} {e : Entry} :
    e ∈ doings pid es ↔ e ∈ es ∧ e.doer? = some pid := by simp [doings]

theorem Entry.Utters.doer? {pid : Nat} {e : Entry} (h : e.Utters pid) :
    ∀ p, e.doer? = some p → p = pid := by
  intro p hp
  cases e with
  | logged r => exact nomatch hp
  | wrote q file bytes log =>
    obtain rfl : q = pid := h
    cases log with
    | true => exact nomatch hp
    | false => exact (Option.some.inj hp).symm
  | took q file bytes =>
    obtain rfl : q = pid := h
    exact (Option.some.inj hp).symm
  | called q event => exact h.elim
  | began q mark c => exact h.elim
  | entered q argv => exact h.elim

/-- Whatever the journal tells was done by the running process, or by one that was made on the
way. -/
structure Own (m m' : Machine) : Prop where
  /-- The journal tells of nobody else. -/
  journal : ∃ es, m'.world.journal = m.world.journal ++ es ∧
    ∀ e ∈ es, ∀ pid, e.doer? = some pid → pid = m.proc.pid ∨ m.world.nextPid ≤ pid
  /-- The running process has its number. -/
  pid : m'.proc.pid = m.proc.pid
  /-- Numbers are given away upwards. -/
  nextPid : m.world.nextPid ≤ m'.world.nextPid

namespace Own

theorem of_eq {m m' : Machine} (hj : m'.world.journal = m.world.journal)
    (hpid : m'.proc.pid = m.proc.pid) (hn : m.world.nextPid ≤ m'.world.nextPid) : Own m m' :=
  ⟨⟨[], by simp [hj], by simp⟩, hpid, hn⟩

theorem refl (m : Machine) : Own m m := of_eq rfl rfl (Nat.le_refl _)

theorem trans {a b c : Machine} (hab : Own a b) (hbc : Own b c) : Own a c := by
  obtain ⟨es, hes, hown⟩ := hab.journal
  obtain ⟨fs, hfs, hown'⟩ := hbc.journal
  refine ⟨⟨es ++ fs, by rw [hfs, hes, List.append_assoc], fun e he pid hdoer => ?_⟩,
    hbc.pid.trans hab.pid, hab.nextPid.trans hbc.nextPid⟩
  rcases List.mem_append.1 he with he | he
  · exact hown e he pid hdoer
  · exact (hown' e he pid hdoer).imp (fun h => h.trans hab.pid) hab.nextPid.trans

theorem note (m : Machine) {e : Entry} (h : ∀ pid, e.doer? = some pid → pid = m.proc.pid) :
    Own m (m.note e) :=
  ⟨⟨[e], rfl, by simpa using fun pid hdoer => Or.inl (h pid hdoer)⟩, rfl, Nat.le_refl _⟩

end Own

instance : Frame Own := ⟨.refl, .trans⟩

instance : Mild Own where
  mute h := .of_eq h.journal rfl (Nat.le_of_eq h.nextPid.symm)
  utter h := .note _ h.doer?

/-- What is told of the life of a child. -/
theorem Machine.outlived_journal {m n : Machine} (h : Own m.forked n) (raw : Nat) :
    ∃ es, (m.outlived n.world raw).world.journal
        = m.world.journal ++ .called m.proc.pid (.fork (.ok m.world.nextPid)) :: es ∧
      ∀ e ∈ es, ∀ pid, e.doer? = some pid → m.world.nextPid ≤ pid := by
  obtain ⟨es, hes, hown⟩ := h.journal
  have hborn : m.forked.world.journal
      = m.world.journal ++ [.called m.proc.pid (.fork (.ok m.world.nextPid))] := rfl
  refine ⟨es, ?_, fun e he pid hdoer => ?_⟩
  · show n.world.journal = _
    rw [hes, hborn, List.append_assoc]
    rfl
  · rcases hown e he pid hdoer with hself | hle
    · exact Nat.le_of_eq hself.symm
    · exact Nat.le_of_succ_le hle

theorem Entry.ToldBy.doer? {p : Proc} {e : Entry} (h : e.ToldBy p) :
    ∀ pid, e.doer? = some pid → pid = p.pid := by
  intro pid hpid
  cases e with
  | called q event => exact (Option.some.inj hpid).symm.trans h
  | logged r => exact nomatch hpid
  | began q mark c => exact (Option.some.inj hpid).symm.trans (congrArg Proc.pid h)
  | entered q argv => exact (Option.some.inj hpid).symm.trans (congrArg Proc.pid h)
  | wrote q file bytes log => exact h.elim
  | took q file bytes => exact h.elim

theorem Step.own {m m' : Machine} (h : Step m m') : Own m m' := by
  cases h with
  | write h => exact Keeps.of_write h
  | read _ h => exact Keeps.of_read h
  | note he => exact .note m he.doer?
  | change hpid _ => exact .of_eq rfl hpid (Nat.le_refl _)
  | _ => exact .of_eq rfl rfl (Nat.le_refl _)

/-- A child counts among those that were made on the way, with all that it does. -/
theorem Own.child {m n : Machine} (h : Own m.forked n) (raw : Nat) :
    Own m (m.outlived n.world raw) := by
  obtain ⟨es, hes, hlater⟩ := Machine.outlived_journal h raw
  refine ⟨⟨_, hes, fun e he pid hdoer => ?_⟩, rfl, Nat.le_of_succ_le h.nextPid⟩
  rcases List.mem_cons.1 he with rfl | he
  · exact Or.inl (Option.some.inj hdoer).symm
  · exact Or.inr (hlater e he pid hdoer)

/-- Runs are their processes' own: all that the journal tells was done by the running process, or by
one that was made on the way. -/
theorem Proceeds.own {m m' : Machine} (h : Proceeds m m') : Own m m' :=
  h.keeps Step.own fun h => h.child _

/-! ### System calls -/

/-- A system call was made and noted, and nothing else is told. -/
structure Noted (event : Event) (m m' : Machine) : Prop where
  /-- The call is noted. -/
  journal : m'.world.journal = m.world.journal ++ [.called m.proc.pid event]
  /-- The running process has its number. -/
  pid : m'.proc.pid = m.proc.pid
  /-- Numbers are given away upwards. -/
  nextPid : m.world.nextPid ≤ m'.world.nextPid

namespace Act

variable {α : Type}

/-- The work of a call that leaves it to the call to tell of it. -/
def Tacit (work : Machine → Except Errno (α × Machine)) : Prop :=
  ∀ m x m', work m = .ok (x, m') → m'.world.journal = m.world.journal ∧
    m'.proc.pid = m.proc.pid ∧ m.world.nextPid ≤ m'.world.nextPid

/-- A call answers, and is noted. -/
theorem call_noted {work : Machine → Except Errno (α × Machine)} (h : Tacit work) (c : CallName)
    (event : Except Errno α → Event) (m : Machine) :
    ∃ r m', call c event work m = .ok r m' ∧ Noted (event r) m m' := by
  rcases call_cases c event work m with ⟨e, hc⟩ | ⟨x, next, hw, hc⟩
  · exact ⟨_, _, hc, rfl, rfl, Nat.le_refl _⟩
  · obtain ⟨hj, hpid, hn⟩ := h _ x next hw
    refine ⟨_, _, hc, ?_, hpid, hn⟩
    show next.world.journal ++ _ = _
    rw [hj]
    rfl

/-- An action that makes one call: it succeeds or fails as the call does, which is noted. -/
def Calls (a : Act α) (event : Except Errno α → Event) : Prop :=
  ∀ m, (∃ x m', a m = .ok x m' ∧ Noted (event (.ok x)) m m') ∨
    ∃ failure e m', a m = .error failure m' ∧ Noted (event (.error e)) m m'

/-- Such an action keeps what keeps when its call is noted, whatever the call answers. -/
theorem Calls.keeps {a : Act α} {event : Except Errno α → Event} {R : Machine → Machine → Prop}
    (h : Calls a event) (hR : ∀ r {m m' : Machine}, Noted (event r) m m' → R m m') : Keeps R a := by
  intro m
  rcases h m with ⟨x, m', ha, hnoted⟩ | ⟨failure, e, m', ha, hnoted⟩
  · rw [after_of_ok ha]
    exact hR _ hnoted
  · rw [after_of_error ha]
    exact hR _ hnoted

theorem Calls.of_call {work : Machine → Except Errno (α × Machine)} (h : Tacit work) (c : CallName)
    (event : Except Errno α → Event) (path : Option Text) :
    Calls (do answer path (← call c event work)) event := by
  intro m
  obtain ⟨r, m', hc, hnoted⟩ := call_noted h c event m
  rw [bind_eq, hc]
  cases r with
  | ok x => exact Or.inl ⟨x, m', rfl, hnoted⟩
  | error e => exact Or.inr ⟨_, e, m', rfl, hnoted⟩

theorem pipe_calls : Calls pipe .pipe := by
  refine .of_call (fun m x m' h => ?_) _ _ _
  obtain ⟨-, rfl⟩ := Prod.mk.inj (Except.ok.inj h)
  exact ⟨rfl, rfl, Nat.le_refl _⟩

theorem dup_calls (source target : Nat) : Calls (dup source target) (.dup source target) := by
  refine .of_call (fun m x m' h => ?_) _ _ _
  split at h
  · obtain ⟨-, rfl⟩ := Prod.mk.inj (Except.ok.inj h)
    exact ⟨rfl, rfl, Nat.le_refl _⟩
  · simp at h

theorem close_calls (fd : Nat) : Calls (close fd) (.close fd) := by
  refine .of_call (fun m x m' h => ?_) _ _ _
  split at h
  · obtain ⟨-, rfl⟩ := Prod.mk.inj (Except.ok.inj h)
    exact ⟨rfl, rfl, Nat.le_refl _⟩
  · simp at h

theorem wait_calls (pid : Nat) : Calls (wait pid) (.wait pid) := by
  refine .of_call (fun m x m' h => ?_) _ _ _
  split at h
  · obtain ⟨-, rfl⟩ := Prod.mk.inj (Except.ok.inj h)
    exact ⟨rfl, rfl, Nat.le_refl _⟩
  · simp at h

end Act

/-! ### Exact doings -/

/-- What exactly the running process did. -/
structure Does (ds : List Entry) (m m' : Machine) : Prop where
  /-- The journal tells of it. -/
  journal : ∃ es, m'.world.journal = m.world.journal ++ es ∧ doings m.proc.pid es = ds
  /-- The running process has its number. -/
  pid : m'.proc.pid = m.proc.pid

namespace Does

variable {ds ds' : List Entry} {m m₁ m' : Machine}

theorem since (h : Does ds m m') : doings m.proc.pid (m.since m') = ds := by
  obtain ⟨es, hes, hds⟩ := h.journal
  rw [Machine.since_eq hes, hds]

theorem trans (h : Does ds m m₁) (h' : Does ds' m₁ m') : Does (ds ++ ds') m m' := by
  obtain ⟨es, hes, rfl⟩ := h.journal
  obtain ⟨fs, hfs, rfl⟩ := h'.journal
  refine ⟨⟨es ++ fs, by rw [hfs, hes, List.append_assoc], ?_⟩, h'.pid.trans h.pid⟩
  rw [doings_append, h.pid]

theorem of_eq (hj : m'.world.journal = m.world.journal) (hpid : m'.proc.pid = m.proc.pid) :
    Does [] m m' := ⟨⟨[], by simp [hj], rfl⟩, hpid⟩

theorem note (m : Machine) {e : Entry} (h : e.doer? = some m.proc.pid) : Does [e] m (m.note e) :=
  ⟨⟨[e], rfl, by simp [doings, h]⟩, rfl⟩

theorem note_none (m : Machine) {e : Entry} (h : e.doer? = none) : Does [] m (m.note e) :=
  ⟨⟨[e], rfl, by simp [doings, h]⟩, rfl⟩

theorem of_noted {event : Event} (h : Noted event m m') : Does [.called m.proc.pid event] m m' :=
  ⟨⟨_, h.journal, by simp [doings, Entry.doer?]⟩, h.pid⟩

end Does

instance : Frame (Does []) := ⟨fun _ => .of_eq rfl rfl, .trans⟩

/-- Logging is nobody's doing. -/
instance : Logs (Does []) := .of_echo (fun m _ => .note_none m rfl) fun {m _ _} h => by
  obtain ⟨file, w, -, hw, rfl⟩ := Machine.write_eq_ok h
  have hmoved : Does [] m { m with world := w } := .of_eq (World.write_spec hw).journal rfl
  exact hmoved.trans (.note_none { m with world := w } rfl)

instance : Tallies (Does []) := ⟨fun h => .of_eq rfl h.pid⟩

/-- To make a channel is to make one call. -/
theorem createChannel_does {r w : Nat} {m m' : Machine} (h : createChannel m = .ok (r, w) m') :
    Does [.called m.proc.pid (.pipe (.ok (r, w)))] m m' := by
  obtain ⟨ends, m₁, hp, hrest⟩ := bind_eq_ok.1 (createChannel_eq ▸ h)
  have htold : Does [] m₁ m' := (Keeps.tellChannel ends).of_ok hrest
  obtain rfl := tellChannel_eq_ok hrest
  rcases pipe_calls m with ⟨x, n, hc, hnoted⟩ | ⟨failure, e, n, hc, -⟩
  · obtain ⟨rfl, rfl⟩ := EStateM.Result.ok.inj (hp.symm.trans hc)
    exact (Does.of_noted hnoted).trans htold
  · exact nomatch hp.symm.trans hc

/-- To make a child is to make one call: what the child does is not its maker's doing. -/
theorem spawn_does {work : Act ChildEnd} (hw : Keeps Proceeds work) {m m' : Machine}
    (hpid : m.proc.pid < m.world.nextPid) (h : spawn work m = .ok m.world.nextPid m') :
    Does [.called m.proc.pid (.fork (.ok m.world.nextPid))] m m' := by
  obtain ⟨pid, m₁, hf, hrest⟩ := bind_eq_ok.1 (spawn_eq work ▸ h)
  have htold : Does [] m₁ m' := (Keeps.tellChild pid).of_ok hrest
  have hmade : Does [.called m.proc.pid (.fork (.ok m.world.nextPid))] m m₁ := by
    rcases fork_eq m with ⟨e, hf'⟩ | hf'
    · exact nomatch hf.symm.trans (hf' _)
    · obtain ⟨-, rfl⟩ := EStateM.Result.ok.inj (hf.symm.trans (hf' _))
      have hlife : Proceeds m.forked ((childLife work).after m.forked) := Keeps.childLife_proceeds hw _
      obtain ⟨es, hes, hlater⟩ := Machine.outlived_journal hlife.own (endOf (childLife work m.forked))
      refine ⟨⟨_, hes, ?_⟩, rfl⟩
      have hnone : doings m.proc.pid es = [] := List.filter_eq_nil_iff.2 fun e he hdoer => by
        have hle := hlater e he _ (of_decide_eq_true hdoer)
        omega
      show List.filter _ (_ :: es) = _
      rw [List.filter_cons_of_pos (by simp [Entry.doer?])]
      exact congrArg _ hnone
  exact hmade.trans htold

end LineShell
