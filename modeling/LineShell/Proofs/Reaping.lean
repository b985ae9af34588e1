import LineShell.Proofs.Depth

/-!
# Nothing is left behind

However the run of a tree ends, the running process has the descriptors that it had, and every
process that was made anywhere in the run has ended and was waited for once, by the process that
made it. This holds under every plan that lets descriptors be closed and children be waited for,
as long as the user can be told of failures: where standard error cannot be written to, a pipe
whose second side cannot be made is given up before its first side was waited for.

## The model

* `forks`, `reaps` and `ends` read off a journal which children were made, waited for and ended,
  with the process that made them or waited.
* An `Account` is what is on record of a stretch of one process: which processes ended, that every
  child has a number of its own, and which children are left to be waited for. It is stated as
  permutations of these lists, since a child tells all that it does before its maker goes on.
* `Machine.Fit` is the condition: standard error takes what is written to it, neither a close nor
  a wait is planned to fail, and whatever has ended has been made.
* A `Stretch` puts an account and what is known of the two machines together. `Reaps` is the frame
  of actions that leave a fit process fit, with its descriptors and without a child.

## What is proved

* Accounts are put together along a run (`Account.append`), take up the account of a child
  (`Account.fork`) and lose a child that is waited for (`Account.reap`).
* Whether an open file takes what is written to it does not depend on the bytes
  (`World.Takes.of_write`), so standard error stays fit for messages while it is used.
* Each action that makes children is a stretch without children left, by the cases of what its
  calls are answered with; the sides of a pipe keep standard error, and both ends of its channel
  are closed.
* Every tree keeps `Reaps` (`execute_reaps`), by induction on the tree. A new session is fit if
  standard error is open and no close and no wait is to fail (`Machine.boot_fit`).

## What is left out

Nothing is said of runs in which a close or a wait fails: there a descriptor or a child can be
left, and what follows then is told by the counterexamples of another module.
-/

namespace LineShell

open Act

/-! ### What the journal tells of processes -/

/-- A child that was made, with the process that made it in front. -/
def Entry.forked? : Entry → Option (Nat × Nat)
  | .called pid (.fork (.ok child)) => some (pid, child)
  | _ => none

/-- A child that was waited for, with the process that waited in front. -/
def Entry.reaped? : Entry → Option (Nat × Nat)
  | .called pid (.wait child (.ok _)) => some (pid, child)
  | _ => none

/-- A process that ended, by itself or as a program. -/
def Entry.ended? : Entry → Option Nat
  | .called pid (.exited _) => some pid
  | .called pid (.ended _) => some pid
  | _ => none

/-- The children that were made, each with its maker in front. -/
def forks (es : List Entry) : List (Nat × Nat) := es.filterMap Entry.forked?

/-- The children that were waited for, each with who waited in front. -/
def reaps (es : List Entry) : List (Nat × Nat) := es.filterMap Entry.reaped?

/-- The processes that ended. -/
def ends (es : List Entry) : List Nat := es.filterMap Entry.ended?

/-- The numbers of the children that were made. -/
def children (es : List Entry) : List Nat := (forks es).map (·.2)

@[simp] theorem forks_append (es fs : List Entry) : forks (es ++ fs) = forks es ++ forks fs :=
  List.filterMap_append

@[simp] theorem reaps_append (es fs : List Entry) : reaps (es ++ fs) = reaps es ++ reaps fs :=
  List.filterMap_append

@[simp] theorem ends_append (es fs : List Entry) : ends (es ++ fs) = ends es ++ ends fs :=
  List.filterMap_append

@[simp] theorem children_append (es fs : List Entry) :
    children (es ++ fs) = children es ++ children fs := by
  simp [children]

/-- Nothing plain tells of the making and the end of processes. -/
theorem Entry.lifeless_of_isPlain {e : Entry} (h : e.isPlain = true) :
    e.forked? = none ∧ e.reaped? = none ∧ e.ended? = none := by
  refine ⟨?_, ?_, ?_⟩
  · unfold forked?
    split
    · simp [isPlain, Event.isPlain] at h
    · rfl
  · unfold reaped?
    split
    · simp [isPlain, Event.isPlain] at h
    · rfl
  · unfold ended?
    split
    · simp [isPlain, Event.isPlain] at h
    · simp [isPlain, Event.isPlain] at h
    · rfl

theorem lifeless_of_plain {es : List Entry} (h : ∀ e ∈ es, e.isPlain = true) :
    forks es = [] ∧ reaps es = [] ∧ ends es = [] :=
  ⟨List.filterMap_eq_nil_iff.2 fun e he => (Entry.lifeless_of_isPlain (h e he)).1,
    List.filterMap_eq_nil_iff.2 fun e he => (Entry.lifeless_of_isPlain (h e he)).2.1,
    List.filterMap_eq_nil_iff.2 fun e he => (Entry.lifeless_of_isPlain (h e he)).2.2⟩

/-! ### Accounts -/

/-- What is on record of a stretch of the run of process `pid`: the processes `own` ended, besides
all children that were made, and all these were waited for but `kids`, which process `pid` made and
which ended with certain raw wait statuses. -/
structure Account (pid : Nat) (own : List Nat) (kids : List (Nat × Nat)) (n n' : Nat)
    (es : List Entry) : Prop where
  /-- Every child was waited for by its maker, or is among those left. -/
  reaps : (reaps es ++ kids.map fun k => (pid, k.1)).Perm (forks es)
  /-- Every child has ended. -/
  ends : (ends es).Perm (own ++ children es)
  /-- Every child has a number of its own. -/
  nodup : (children es).Nodup
  /-- The numbers are new. -/
  fresh : ∀ c ∈ children es, n ≤ c ∧ c < n'
  /-- Numbers are not used again. -/
  le : n ≤ n'

/-- Two lists cut in two, put together crosswise. -/
theorem perm_crosswise {α : Type} (a b c d : List α) :
    ((a ++ b) ++ (c ++ d)).Perm ((a ++ c) ++ (b ++ d)) := by
  rw [List.append_assoc, List.append_assoc]
  exact (List.perm_append_comm_assoc b c d).append_left a

namespace Account

variable {pid code n n₁ n' : Nat} {own own' : List Nat} {kids kids' : List (Nat × Nat)}
  {es fs : List Entry}

theorem of_lifeless (hf : forks es = []) (hr : LineShell.reaps es = [])
    (he : LineShell.ends es = []) : Account pid [] [] n n es := by
  have hc : children es = [] := by rw [children, hf, List.map_nil]
  exact ⟨by simp [hr, hf], by simp [he, hc], by simp [hc], by simp [hc], Nat.le_refl n⟩

theorem of_plain (h : ∀ e ∈ es, e.isPlain = true) : Account pid [] [] n n es := by
  obtain ⟨hf, hr, he⟩ := lifeless_of_plain h
  exact of_lifeless hf hr he

theorem append (h : Account pid own kids n n₁ es) (h' : Account pid own' kids' n₁ n' fs) :
    Account pid (own ++ own') (kids ++ kids') n n' (es ++ fs) where
  reaps := by
    rw [reaps_append, forks_append, List.map_append]
    exact (perm_crosswise _ _ _ _).trans (h.reaps.append h'.reaps)
  ends := by
    rw [ends_append, children_append]
    exact (h.ends.append h'.ends).trans (perm_crosswise _ _ _ _)
  nodup := by
    rw [children_append, List.nodup_append]
    refine ⟨h.nodup, h'.nodup, fun a ha b hb hab => ?_⟩
    have h₁ := (h.fresh a ha).2
    have h₂ := (h'.fresh b hb).1
    omega
  fresh c hc := by
    rw [children_append] at hc
    have h₁ := h.le
    have h₂ := h'.le
    rcases List.mem_append.1 hc with hc | hc
    · have := h.fresh c hc
      omega
    · have := h'.fresh c hc
      omega
  le := Nat.le_trans h.le h'.le

theorem append_plain (h : Account pid own kids n n' es) (hfs : ∀ e ∈ fs, e.isPlain = true) :
    Account pid own kids n n' (es ++ fs) := by
  have hplain : Account pid [] [] n' n' fs := of_plain hfs
  simpa using h.append hplain

/-- A child that is left has a number of its own, among the new ones. -/
theorem kids_nodup (h : Account pid own kids n n' es) :
    (kids.map (·.1)).Nodup ∧ ∀ k ∈ kids, n ≤ k.1 ∧ k.1 < n' := by
  have hperm := h.reaps.map (·.2)
  rw [List.map_append, List.map_map] at hperm
  have hkids : kids.map ((fun c : Nat × Nat => c.2) ∘ fun k => (pid, k.1)) = kids.map (·.1) := rfl
  rw [hkids] at hperm
  refine ⟨(List.nodup_append.1 (hperm.nodup_iff.2 h.nodup)).2.1, fun k hk => ?_⟩
  exact h.fresh k.1 (hperm.subset (List.mem_append_right _ (List.mem_map_of_mem hk)))

/-- A child that is waited for is left no more. -/
theorem reap {kid : Nat × Nat} {raw : Nat} (h : Account pid own (kid :: kids) n n' es) :
    Account pid own kids n n' (es ++ [.called pid (.wait kid.1 (.ok raw))]) := by
  have hreaps : LineShell.reaps [.called pid (.wait kid.1 (.ok raw))] = [(pid, kid.1)] := rfl
  have hforks : forks [.called pid (.wait kid.1 (.ok raw))] = [] := rfl
  have hends : LineShell.ends [.called pid (.wait kid.1 (.ok raw))] = [] := rfl
  have hchildren : children (es ++ [.called pid (.wait kid.1 (.ok raw))]) = children es := by
    rw [children_append, children, children, hforks, List.map_nil, List.append_nil]
  refine ⟨?_, ?_, ?_, ?_, h.le⟩
  · rw [reaps_append, forks_append, hreaps, hforks, List.append_nil, List.append_assoc]
    exact h.reaps
  · rw [ends_append, hends, List.append_nil, hchildren]
    exact h.ends
  · rw [hchildren]
    exact h.nodup
  · rw [hchildren]
    exact h.fresh

/-- A process that ends is on record itself. -/
theorem exit {e : Entry} (he : e = .called pid (.exited code) ∨ e = .called pid (.ended code))
    (h : Account pid own kids n n' es) : Account pid (pid :: own) kids n n' (es ++ [e]) := by
  obtain ⟨hreaps, hforks, hends⟩ :
      LineShell.reaps [e] = [] ∧ forks [e] = [] ∧ LineShell.ends [e] = [pid] := by
    rcases he with rfl | rfl <;> exact ⟨rfl, rfl, rfl⟩
  have hchildren : children (es ++ [e]) = children es := by
    rw [children_append, children, children, hforks, List.map_nil, List.append_nil]
  refine ⟨?_, ?_, ?_, ?_, h.le⟩
  · rw [reaps_append, forks_append, hreaps, hforks, List.append_nil, List.append_nil]
    exact h.reaps
  · rw [ends_append, hends, hchildren]
    exact (List.perm_append_singleton pid _).trans (h.ends.cons pid)
  · rw [hchildren]
    exact h.nodup
  · rw [hchildren]
    exact h.fresh

/-- A child's own record is part of its maker's, with the child left to be waited for. -/
theorem fork {maker raw : Nat} (h : Account n [n] [] (n + 1) n' es) :
    Account maker [] [(n, raw)] n n'
      (.called maker (.fork (.ok n)) :: .called n .restoreSignal :: es) := by
  have hforks : forks (.called maker (.fork (.ok n)) :: .called n .restoreSignal :: es)
      = (maker, n) :: forks es := rfl
  have hchildren : children (.called maker (.fork (.ok n)) :: .called n .restoreSignal :: es)
      = n :: children es := rfl
  have hreaps := h.reaps
  rw [List.map_nil, List.append_nil] at hreaps
  refine ⟨?_, ?_, ?_, ?_, Nat.le_of_succ_le h.le⟩
  · rw [hforks]
    exact (List.perm_append_singleton (maker, n) _).trans (hreaps.cons _)
  · rw [hchildren]
    exact h.ends
  · rw [hchildren]
    refine List.nodup_cons.2 ⟨fun hn => ?_, h.nodup⟩
    have := (h.fresh n hn).1
    omega
  · rw [hchildren]
    intro c hc
    have hle := h.le
    rcases List.mem_cons.1 hc with rfl | hc
    · omega
    · have := h.fresh c hc
      omega

end Account

/-! ### Machines that can tell of failures -/

/-- Everything that is written through an open file is taken. -/
def World.Takes (w : World) (file : Nat) : Prop := ∀ bs, ∃ w', w.write file bs = .ok w'

/-- An open file can be written to: it is open for that, and what it gives access to takes bytes. -/
structure OpenFile.Accepts (f : OpenFile) (files : FileTree) : Prop where
  /-- It is open for writing. -/
  writes : f.writes = true
  /-- It is not the input that the shell was started with. -/
  input : f.target ≠ .input
  /-- It is not the read end of a channel. -/
  readEnd : ∀ n, f.target ≠ .readEnd n
  /-- What it finds at a place of the file tree is a file. -/
  place : ∀ p, f.target = .place p →
    ∃ mode data program, files.node? p = some (.file mode data program)

/-- What takes some bytes can be written to. -/
theorem World.accepts_of_write {w w' : World} {file : Nat} {bs : Bytes} (hw : w.write file bs = .ok w') :
    ∃ f, w.opened[file]? = some f ∧ f.Accepts w.files := by
  obtain ⟨f, hf, hwrites, hwrote⟩ := write_eq_ok.1 hw
  refine ⟨f, hf, ?_⟩
  cases hwrote with
  | output ht => exact ⟨hwrites, by simp [ht], by simp [ht], by simp [ht]⟩
  | errors ht => exact ⟨hwrites, by simp [ht], by simp [ht], by simp [ht]⟩
  | null ht => exact ⟨hwrites, by simp [ht], by simp [ht], by simp [ht]⟩
  | channel ht => exact ⟨hwrites, by simp [ht], by simp [ht], by simp [ht]⟩
  | place ht hnode =>
    refine ⟨hwrites, by simp [ht], by simp [ht], fun q hq => ?_⟩
    obtain rfl := Target.place.inj (ht.symm.trans hq)
    exact ⟨_, _, _, hnode⟩

theorem World.takes_iff {w : World} {file : Nat} :
    w.Takes file ↔ ∃ f, w.opened[file]? = some f ∧ f.Accepts w.files := by
  constructor
  · intro h
    obtain ⟨w', hw⟩ := h []
    exact accepts_of_write hw
  · rintro ⟨f, hf, hwrites, hinput, hread, hplace⟩ bs
    have htakes {w' : World} (h : w.Wrote file f bs w') : ∃ w', w.write file bs = .ok w' :=
      ⟨w', write_eq_ok.2 ⟨f, hf, hwrites, h⟩⟩
    cases ht : f.target with
    | input => exact absurd ht hinput
    | readEnd n => exact absurd ht (hread n)
    | place p =>
      obtain ⟨mode, data, program, hnode⟩ := hplace p ht
      exact htakes (.place ht hnode rfl)
    | null => exact htakes (.null ht)
    | writeEnd n => exact htakes (.channel ht)
    | output => exact htakes (.output ht)
    | errors => exact htakes (.errors ht)

/-- What takes some bytes takes all. -/
theorem World.Takes.of_write {w w' : World} {file : Nat} {bs : Bytes} (h : w.write file bs = .ok w') :
    w.Takes file := takes_iff.2 (accepts_of_write h)

theorem World.takes_congr {w w' : World} (file : Nat) (hopened : w'.opened = w.opened)
    (hfiles : w'.files = w.files) : w'.Takes file ↔ w.Takes file := by
  rw [takes_iff, takes_iff, hopened, hfiles]

theorem World.Takes.of_grows {w w' : World} {file : Nat} (h : w.Takes file) (hg : w.Grows w') :
    w'.Takes file := by
  obtain ⟨f, hf, hwrites, hinput, hread, hplace⟩ := World.takes_iff.1 h
  obtain ⟨f', hf', htarget, hwrites', -⟩ := hg.opened file f hf
  refine World.takes_iff.2 ⟨f', hf', hwrites'.trans hwrites, by rwa [htarget],
    fun n => by rw [htarget]; exact hread n, fun p hp => ?_⟩
  obtain ⟨mode, data, program, hn⟩ := hplace p (htarget ▸ hp)
  obtain ⟨node, hnode, hlike⟩ := hg.files p _ hn
  cases node with
  | file mode' data' program' => exact ⟨mode', data', program', hnode⟩
  | directory mode' => simp [Node.Like] at hlike
  | null => simp [Node.Like] at hlike

/-- Standard error is an open file that takes what is written to it. -/
def Machine.Tells (m : Machine) (file : Nat) : Prop :=
  m.proc.fds.get? 2 = some file ∧ m.world.Takes file

theorem Machine.Tells.of_grows {m m' : Machine} {file : Nat} (h : m.Tells file)
    (hg : m.world.Grows m'.world) (hfds : m'.proc.fds.get? 2 = m.proc.fds.get? 2) : m'.Tells file :=
  ⟨hfds.trans h.1, h.2.of_grows hg⟩

theorem Machine.tells_congr {m m' : Machine} (file : Nat) (hopened : m'.world.opened = m.world.opened)
    (hfiles : m'.world.files = m.world.files) (hfds : m'.proc.fds = m.proc.fds) :
    m'.Tells file ↔ m.Tells file := by
  rw [Tells, Tells, hfds, World.takes_congr file hopened hfiles]

/-- A message for the user gets out. -/
theorem Machine.Tells.report {m : Machine} {file : Nat} (h : m.Tells file) (message : Text) :
    ∃ w, m.world.write file (encode ("tree_shell: ".toList ++ message ++ ['\n'])) = .ok w ∧
      Act.report message m = .ok () { m with
        world := w.note (.wrote m.proc.pid file
          (encode ("tree_shell: ".toList ++ message ++ ['\n'])) false) } := by
  obtain ⟨hfile, htakes⟩ := h
  obtain ⟨w, hw⟩ := htakes (encode ("tree_shell: ".toList ++ message ++ ['\n']))
  refine ⟨w, hw, ?_⟩
  unfold Act.report say writeText Machine.write
  rw [hfile]
  dsimp only
  rw [hw]
  rfl

/-- Where standard error takes nothing a message for the user fails. -/
theorem report_of_not_tells {m : Machine} (h : ∀ file, ¬m.Tells file) (message : Text) :
    ∃ e, report message m = .error (.system e none) m := by
  unfold report say writeText Machine.write
  cases hfile : m.proc.fds.get? 2 with
  | none => exact ⟨_, rfl⟩
  | some file =>
    dsimp only
    cases hw : m.world.write file (encode ("tree_shell: ".toList ++ message ++ ['\n'])) with
    | error e => exact ⟨e, rfl⟩
    | ok w => exact absurd ⟨hfile, .of_write hw⟩ (h file)

/-- Standard error takes what is written to it, descriptors can be closed and children be waited
for, and whatever has ended has been made. -/
structure Machine.Fit (m : Machine) : Prop where
  /-- Standard error takes what is written to it. -/
  tells : ∃ file, m.proc.fds.get? 2 = some file ∧ m.world.Takes file
  /-- No call that closes or waits is planned to fail. -/
  plan : ∀ f ∈ m.world.faults, f.call ≠ .close ∧ f.call ≠ .wait
  /-- Whatever has ended has been made. -/
  sane : m.world.Sane

theorem Machine.Fit.of_follows {m m' : Machine} (h : m.Fit) (hf : m.world.Follows m'.world)
    (hfds : m'.proc.fds.get? 2 = m.proc.fds.get? 2) : m'.Fit := by
  obtain ⟨file, htells⟩ := h.tells
  have htells' := Machine.Tells.of_grows htells hf.grows hfds
  refine ⟨⟨file, htells'⟩, ?_, hf.sane h.sane⟩
  rw [hf.faults]
  exact h.plan

theorem Machine.Fit.report {m : Machine} (h : m.Fit) (message : Text) :
    ∃ m', report message m = .ok () m' ∧ Quiet m m' := by
  obtain ⟨file, htells⟩ := h.tells
  obtain ⟨w, -, hreport⟩ := Machine.Tells.report htells message
  have hq : Quiet m _ := (Keeps.report message).of_ok hreport
  exact ⟨_, hreport, hq⟩

/-- That a child could not be made is told, and nothing is raised. -/
theorem Machine.Fit.reportFork {m : Machine} (h : m.Fit) (logger what : Text) (e : Errno) :
    ∃ m', LineShell.reportFork logger what (.system e none) m = .ok () m' ∧ Quiet m m' := by
  unfold LineShell.reportFork
  let record : Record := ⟨.error, logger, "Cannot fork ".toList ++ what ++ ": ".toList
    ++ (Failure.system e none).message, none⟩
  obtain ⟨m₁, hlog, hq⟩ := logRecord_quiet record m
  obtain ⟨m', hreport, hq'⟩ := (h.of_follows hq.plain.follows (by rw [hq.same.fds])).report
    ("fork: ".toList ++ e.reason)
  refine ⟨m', ?_, Frame.trans hq hq'⟩
  show (logRecord record >>= fun _ => Act.report _) m = _
  rw [bind_eq, hlog]
  exact hreport

/-! ### Stretches of a run -/

/-- A stretch of the run of one process: besides it, the processes `own` ended in it, and of the
children made in it `kids` are left to be waited for. -/
structure Stretch (own : List Nat) (kids : List (Nat × Nat)) (m m' : Machine) : Prop where
  /-- The process goes on. -/
  pid : m'.proc.pid = m.proc.pid
  /-- The world follows. -/
  follows : m.world.Follows m'.world
  /-- What had ended before and was not waited for is left as well. -/
  ended : m'.world.ended = m.world.ended ++ kids
  /-- All else that ended was waited for. -/
  account : ∃ es, m'.world.journal = m.world.journal ++ es ∧
    Account m.proc.pid own kids m.world.nextPid m'.world.nextPid es

namespace Stretch

variable {own own' : List Nat} {kids kids' : List (Nat × Nat)} {m m₁ m' : Machine}

theorem of_plain (h : m.world.Plain m'.world) (hpid : m'.proc.pid = m.proc.pid) :
    Stretch [] [] m m' := by
  obtain ⟨es, hes, hplain⟩ := h.journal
  refine ⟨hpid, h.follows, by rw [h.ended, List.append_nil], es, hes, ?_⟩
  rw [h.nextPid]
  exact .of_plain hplain

theorem of_rebound (h : Rebound m m') : Stretch [] [] m m' := of_plain h.plain h.pid

theorem of_quiet (h : Quiet m m') : Stretch [] [] m m' := of_plain h.plain h.same.pid

/-- Something is noted that makes no process and ends none. -/
theorem note (m : Machine) {e : Entry}
    (h : e.forked? = none ∧ e.reaped? = none ∧ e.ended? = none) : Stretch [] [] m (m.note e) := by
  obtain ⟨hf, hr, he⟩ := h
  refine ⟨rfl, .note _ _, by simp [Machine.note, World.note], [e], rfl, ?_⟩
  exact .of_lifeless (by simp [forks, hf]) (by simp [reaps, hr]) (by simp [ends, he])

theorem trans (h : Stretch own kids m m₁) (h' : Stretch own' kids' m₁ m') :
    Stretch (own ++ own') (kids ++ kids') m m' := by
  obtain ⟨es, hes, hacc⟩ := h.account
  obtain ⟨fs, hfs, hacc'⟩ := h'.account
  rw [h.pid] at hacc'
  refine ⟨h'.pid.trans h.pid, h.follows.trans h'.follows, ?_, es ++ fs, ?_, hacc.append hacc'⟩
  · rw [h'.ended, h.ended, List.append_assoc]
  · rw [hfs, hes, List.append_assoc]

theorem trans_rebound (h : Stretch own kids m m₁) (h' : Rebound m₁ m') : Stretch own kids m m' := by
  simpa using h.trans (of_rebound h')

theorem trans_quiet (h : Stretch own kids m m₁) (h' : Quiet m₁ m') : Stretch own kids m m' :=
  h.trans_rebound (Forgetful.quiet h')

/-- The process ends. -/
theorem exit {event : Event} (hevent : ∃ code, event = .exited code ∨ event = .ended code)
    (h : Stretch [] [] m m₁) :
    Stretch [m.proc.pid] [] m (m₁.note (.called m₁.proc.pid event)) := by
  obtain ⟨es, hes, hacc⟩ := h.account
  refine ⟨h.pid, h.follows.trans (.note _ _), h.ended, es ++ [.called m₁.proc.pid event], ?_, ?_⟩
  · show m₁.world.journal ++ _ = _
    rw [hes, List.append_assoc]
  · rw [h.pid]
    obtain ⟨code, rfl | rfl⟩ := hevent
    · exact hacc.exit (Or.inl rfl)
    · exact hacc.exit (Or.inr rfl)

/-- A child was made, and is left to be waited for. -/
theorem birth {work : Act ChildEnd} {raw : Nat} (h : Birth work raw m m')
    (hlife : ∀ dead, Lived work m.born raw dead → Stretch [m.world.nextPid] [] m.born dead) :
    Stretch [] [(m.world.nextPid, raw)] m m' ∧ m.proc.Same m'.proc := by
  obtain ⟨dead, hlived, hq⟩ := h
  have hdead := hlife dead hlived
  obtain ⟨es, hes, hacc⟩ := hdead.account
  obtain ⟨fs, hfs, hplain⟩ := hq.plain.journal
  refine ⟨⟨hq.same.pid, (hdead.follows.outlived raw).trans hq.plain.follows, ?_,
    .called m.proc.pid (.fork (.ok m.world.nextPid)) ::
      .called m.world.nextPid .restoreSignal :: es ++ fs, ?_, ?_⟩, hq.same⟩
  · rw [hq.plain.ended]
    show dead.world.ended ++ _ = _
    rw [hdead.ended, List.append_nil]
    rfl
  · rw [hfs]
    show dead.world.journal ++ fs = _
    rw [hes]
    show ((m.world.journal ++ _) ++ _ ++ es) ++ fs = _
    simp
  · rw [hq.plain.nextPid]
    exact hacc.fork.append_plain hplain

/-- The first of the children that are left is waited for. -/
theorem await {kid : Nat × Nat} (h : Stretch own (kid :: kids) m m₁) (hm : m.Fit) :
    ∃ m', LineShell.await kid.1 m₁ = .ok (Ending.ofRaw kid.2).status m' ∧
      Stretch own kids m m' ∧ m₁.proc.Same m'.proc := by
  obtain ⟨pid, raw⟩ := kid
  obtain ⟨es, hes, hacc⟩ := h.account
  obtain ⟨hnodup, hnew⟩ := hacc.kids_nodup
  obtain ⟨hpid, -⟩ := hnew _ List.mem_cons_self
  have hearlier : ∀ e ∈ m.world.ended, e.1 ≠ pid := fun e he => by
    have := hm.sane e he
    omega
  have hlater : ∀ e ∈ kids, e.1 ≠ pid := fun e he heq => by
    have hmem : e.1 ∈ kids.map (·.1) := List.mem_map_of_mem he
    rw [heq] at hmem
    exact (List.nodup_cons.1 hnodup).1 hmem
  have hfound : m₁.world.ended.find? (·.1 == pid) = some (pid, raw) := by
    have hnone : m.world.ended.find? (·.1 == pid) = none :=
      List.find?_eq_none.2 fun e he => by simpa using hearlier e he
    rw [h.ended, List.find?_append, hnone]
    simp
  have hplan : m₁.world.planned? .wait = none :=
    World.planned?_eq_none fun f hf hcall => absurd hcall (hm.plan f (h.follows.faults ▸ hf)).2
  rcases await_cases pid m₁ with ⟨e, -, hnone⟩ | ⟨raw', m', hfound', hq, hawait⟩
  · rw [hnone hplan] at hfound
    exact nomatch hfound
  · obtain ⟨-, rfl⟩ := Prod.mk.inj (Option.some.inj (hfound.symm.trans hfound'))
    have hreaped : Stretch own kids m (m₁.reaped pid raw) := by
      refine ⟨h.pid, h.follows.reaped hpid raw, ?_,
        es ++ [.called m₁.proc.pid (.wait pid (.ok raw))], ?_, ?_⟩
      · show m₁.world.ended.filter _ = _
        have hkeep : m.world.ended.filter (·.1 != pid) = m.world.ended :=
          List.filter_eq_self.2 fun e he => by simpa using hearlier e he
        have hkeep' : kids.filter (·.1 != pid) = kids :=
          List.filter_eq_self.2 fun e he => by simpa using hlater e he
        rw [h.ended, List.filter_append, hkeep]
        simp [hkeep']
      · show m₁.world.journal ++ _ = _
        rw [hes, List.append_assoc]
      · rw [h.pid]
        exact hacc.reap
    exact ⟨m', hawait, hreaped.trans_quiet hq, hq.same⟩

end Stretch

/-! ### Actions that leave nothing behind -/

/-- A fit process keeps its descriptors, and no child is left. -/
def Reaps (m m' : Machine) : Prop :=
  m.Fit → m'.proc.fds = m.proc.fds ∧ Stretch [] [] m m'

theorem Reaps.fit {m m' : Machine} (h : Reaps m m') (hm : m.Fit) : m'.Fit := by
  obtain ⟨hfds, hs⟩ := h hm
  exact hm.of_follows hs.follows (by rw [hfds])

instance : Frame Reaps where
  refl m _ := ⟨rfl, .of_plain (.refl m.world) rfl⟩
  trans hab hbc hm := by
    obtain ⟨hfds, hs⟩ := hab hm
    obtain ⟨hfds', hs'⟩ := hbc (hab.fit hm)
    exact ⟨hfds'.trans hfds, hs.trans hs'⟩

instance : Lenient Reaps := ⟨fun h _ => ⟨rfl, .of_plain h rfl⟩⟩

instance : Forgetful Reaps := ⟨fun {m _} h _ => ⟨h.fds, .of_plain (.refl m.world) h.pid⟩⟩

/-! ### The lives of children -/

/-- The life of a child that becomes no program. -/
theorem Lived.stretch {work : Act ChildEnd} {n n' : Machine} {raw : Nat} (h : Lived work n raw n')
    (hstay : ∀ raw k, work n ≠ .ok (.program raw) k) (hwork : Stretch [] [] n (work.after n)) :
    Stretch [n.proc.pid] [] n n' := by
  cases h with
  | program h => exact absurd h (hstay _ _)
  | exit h =>
    rw [after_of_ok h] at hwork
    exact hwork.exit ⟨_, Or.inl rfl⟩
  | error h hq =>
    rw [after_of_error h] at hwork
    exact (hwork.trans_quiet hq).exit ⟨_, Or.inl rfl⟩

/-- The life of a child that runs a command. -/
theorem runChild_stretch {c : Command} {n n' : Machine} {raw : Nat}
    (h : Lived (runChild c) n raw n') : Stretch [n.proc.pid] [] n n' := by
  have hfate := runChild_fate c n
  cases h with
  | program h =>
    rw [h] at hfate
    cases hfate with
    | @program raw k m' hre hb =>
      obtain ⟨k', hq, rfl⟩ := hb
      have hentered := Stretch.note k (e := .entered k.proc (c.argv n.proc.table)) ⟨rfl, rfl, rfl⟩
      exact (((Stretch.of_rebound hre).trans hentered).trans_quiet hq).exit ⟨_, Or.inr rfl⟩
  | exit h =>
    rw [h] at hfate
    cases hfate with
    | exit hre => exact (Stretch.of_rebound hre).exit ⟨_, Or.inl rfl⟩
  | error h hq =>
    rw [h] at hfate
    cases hfate with
    | error hre => exact ((Stretch.of_rebound hre).trans_quiet hq).exit ⟨_, Or.inl rfl⟩

theorem sideWork_stays (a : Act Status) (n : Machine) (raw : Nat) (k : Machine) :
    sideWork a n ≠ .ok (.program raw) k := by
  intro h
  obtain ⟨_, _, -, hret⟩ := bind_eq_ok.1 h
  exact nomatch hret

/-- The life of a child that runs a side. -/
theorem sideWork_stretch {a : Act Status} {n n' : Machine} {raw : Nat}
    (h : Lived (sideWork a) n raw n') (ha : Keeps Reaps a) (hn : n.Fit) :
    Stretch [n.proc.pid] [] n n' := by
  have hwork : Keeps Reaps (sideWork a) := .bind ha fun _ => .pure _
  exact h.stretch (sideWork_stays a n) (hwork n hn).2

theorem Channelled.errors {m m₁ : Machine} {r w f g : Nat} (hc : Channelled m m₁ r w f g)
    (hm : m.Fit) : m₁.proc.fds.get? 2 = m.proc.fds.get? 2 := by
  obtain ⟨file, hfile, -⟩ := hm.tells
  exact hc.get?_eq hfile

/-- The life of a child that runs a side of a pipe. -/
theorem Channelled.stretch {m m₁ n n' : Machine} {r w f g raw : Nat}
    (hc : Channelled m m₁ r w f g) (hm : m.Fit) {a : Act Status} (ha : Keeps Reaps a)
    {fd standard : Nat} (hs : standard ≠ 2)
    (h : Lived (LineShell.pipeSide a fd standard r w) n raw n') (hn : n.Fit)
    (hfds : n.proc.fds = m₁.proc.fds) : Stretch [n.proc.pid] [] n n' := by
  have hbind := Keeps.bindStream fd standard [r, w] n
  refine h.stretch (fun raw k h => ?_) ?_
  · obtain ⟨_, k', -, hwork⟩ := bind_eq_ok.1 h
    exact sideWork_stays a k' raw k hwork
  · unfold LineShell.pipeSide
    rw [after_bind]
    cases hb : bindStream fd standard [r, w] n with
    | error e k =>
      rw [after_of_error hb] at hbind
      exact .of_rebound hbind
    | ok _ k =>
      rw [after_of_ok hb] at hbind
      have herrors : k.proc.fds.get? 2 = n.proc.fds.get? 2 := by
        rw [bindStream_errors hc.pair (hfds.trans hc.fds) hs hb, hfds, hc.errors hm]
      have hwork : Keeps Reaps (sideWork a) := .bind ha fun _ => .pure _
      have hrest := (hwork k (hn.of_follows hbind.plain.follows herrors)).2
      exact (Stretch.of_rebound hbind).trans hrest

theorem Machine.Fit.born {m : Machine} (h : m.Fit) : m.born.Fit := h.of_follows m.followed_born rfl

/-- The children of a pair, two at most, are left to be waited for. -/
theorem births_stretch {x y : Act ChildEnd} {m m' : Machine} {r : List Nat × Option Failure}
    (h : Births x y m r m')
    (hx : ∀ n n' raw, Lived x n raw n' → n.Fit → n.proc.fds = m.proc.fds →
      Stretch [n.proc.pid] [] n n')
    (hy : ∀ n n' raw, Lived y n raw n' → n.Fit → n.proc.fds = m.proc.fds →
      Stretch [n.proc.pid] [] n n') (hm : m.Fit) :
    ∃ kids : List (Nat × Nat), kids.length ≤ 2 ∧ r.1 = kids.map (·.1) ∧ Stretch [] kids m m' ∧
      m.proc.Same m'.proc ∧ (r.2 = none ∨ ∃ e, r.2 = some (.system e none)) := by
  cases h with
  | none e =>
    have hq := m.barren_quiet e
    exact ⟨[], by simp, rfl, .of_quiet hq, hq.same, Or.inr ⟨e, rfl⟩⟩
  | @one raw m₁ hbx e =>
    obtain ⟨hs, hsame⟩ := Stretch.birth hbx fun dead hl => hx _ _ _ hl hm.born rfl
    have hq := m₁.barren_quiet e
    exact ⟨[_], by simp, rfl, hs.trans_quiet hq, hsame.trans hq.same, Or.inr ⟨e, rfl⟩⟩
  | two hbx hby =>
    obtain ⟨hs, hsame⟩ := Stretch.birth hbx fun dead hl => hx _ _ _ hl hm.born rfl
    have hfit := hm.of_follows hs.follows (by rw [hsame.fds])
    obtain ⟨hs', hsame'⟩ := Stretch.birth hby fun dead hl => hy _ _ _ hl hfit.born hsame.fds
    exact ⟨[_, _], by simp, rfl, hs.trans hs', hsame.trans hsame', Or.inl rfl⟩

/-! ### What follows the children -/

/-- A fit process tells why a child could not be made, if one could not. -/
theorem Machine.Fit.tell {m : Machine} (h : m.Fit) (logger what : Text) {failure : Option Failure}
    (hf : failure = none ∨ ∃ e, failure = some (.system e none)) :
    ∃ m', failure.forM (LineShell.reportFork logger what) m = .ok () m' ∧ Quiet m m' := by
  rcases hf with rfl | ⟨e, rfl⟩
  · exact ⟨m, rfl, Frame.refl m⟩
  · exact h.reportFork logger what e

/-- Where no close is planned to fail, what is open can be closed. -/
theorem close_of_open {m : Machine} (h : ∀ f ∈ m.world.faults, f.call ≠ .close) {fd : Nat}
    (hfd : m.proc.fds.get? fd ≠ none) : ∃ m', Act.close fd m = .ok () m' := by
  obtain ⟨file, hfile⟩ := Option.ne_none_iff_exists'.1 hfd
  have hfile' : (m.counted .close).proc.fds.get? fd = some file := hfile
  have hplanned := World.planned?_eq_none fun f hf hcall => absurd hcall (h f hf)
  exact ⟨_, answered_of_unplanned hplanned (by rw [hfile'])⟩

/-- The ends of a channel are closed by the process that made it. -/
theorem Channelled.closeAll {m m₁ m₂ : Machine} {r w f g : Nat} (hc : Channelled m m₁ r w f g)
    (hplan : ∀ f ∈ m₂.world.faults, f.call ≠ .close) (hfds : m₂.proc.fds = m₁.proc.fds) :
    ∃ m', LineShell.closeAll [r, w] m₂ = .ok () m' ∧ Rebound m₂ m' ∧ m'.proc.fds = m.proc.fds := by
  have hgiven := hfds.trans hc.fds
  have hr : m₂.proc.fds.get? r ≠ none := by
    rw [hgiven, Descriptors.get?_set_of_ne _ _ hc.pair.ne]
    simp
  obtain ⟨m₃, h₃⟩ := close_of_open hplan hr
  have hkeep₃ := (Keeps.close r).of_ok h₃
  have hw : m₃.proc.fds.get? w ≠ none := by
    rw [close_eq_ok h₃, hgiven, Descriptors.get?_erase_of_ne _ hc.pair.ne.symm]
    simp
  obtain ⟨m', h'⟩ := close_of_open (hkeep₃.plain.faults ▸ hplan) hw
  have hall : LineShell.closeAll [r, w] m₂ = .ok () m' := by
    show (Act.close r >>= fun _ => Act.close w >>= fun _ => pure ()) m₂ = _
    rw [bind_eq, h₃]
    dsimp only
    rw [bind_eq, h']
    rfl
  have hkeep := (Keeps.closeAll [r, w]).of_ok hall
  exact ⟨m', hall, hkeep, closeAll_pair hc.pair hgiven hall⟩

/-- The sides of a pipe that were made are waited for. -/
theorem Stretch.awaitStages {kids : List (Nat × Nat)} {m m₁ : Machine} (h : Stretch [] kids m m₁)
    (hkids : kids.length ≤ 2) (hm : m.Fit) :
    ∃ s m', LineShell.awaitStages (kids.map (·.1)) m₁ = .ok s m' ∧ Stretch [] [] m m' ∧
      m₁.proc.Same m'.proc := by
  match kids with
  | [] => exact ⟨_, m₁, rfl, h, .refl _⟩
  | k :: rest =>
    obtain ⟨m₂, hawait, hs₂, hsame₂⟩ := h.await hm
    let told := "Pipe left side finished with ".toList ++ (Ending.ofRaw k.2).status.shown
      ++ " (ignored)".toList
    obtain ⟨m₃, hlog, hq⟩ := debug_quiet Operator.pipe.logger told m₂
    have hs₃ := hs₂.trans_quiet hq
    have hsame₃ := hsame₂.trans hq.same
    match rest with
    | [] =>
      refine ⟨.failure, m₃, ?_, hs₃, hsame₃⟩
      show (LineShell.await k.1 >>= _) m₁ = _
      rw [bind_eq, hawait]
      show (debug Operator.pipe.logger told >>= _) m₂ = _
      rw [bind_eq, hlog]
      rfl
    | [k'] =>
      obtain ⟨m', hawait', hs', hsame'⟩ := hs₃.await hm
      refine ⟨(Ending.ofRaw k'.2).status, m', ?_, hs', hsame₃.trans hsame'⟩
      show (LineShell.await k.1 >>= _) m₁ = _
      rw [bind_eq, hawait]
      show (debug Operator.pipe.logger told >>= _) m₂ = _
      rw [bind_eq, hlog]
      exact hawait'

/-- The branches of a parallel pair that were made are waited for. -/
theorem Stretch.awaitAll {kids : List (Nat × Nat)} {m m₁ : Machine} (h : Stretch [] kids m m₁)
    (hm : m.Fit) :
    ∃ ss m', LineShell.awaitAll (kids.map (·.1)) m₁ = .ok ss m' ∧ Stretch [] [] m m' ∧
      m₁.proc.Same m'.proc := by
  induction kids generalizing m₁ with
  | nil => exact ⟨_, m₁, rfl, h, .refl _⟩
  | cons k kids ih =>
    obtain ⟨m₂, hawait, hs₂, hsame₂⟩ := h.await hm
    obtain ⟨ss, m', hall, hs', hsame'⟩ := ih hs₂
    refine ⟨(Ending.ofRaw k.2).status :: ss, m', ?_, hs', hsame₂.trans hsame'⟩
    show (LineShell.await k.1 >>= _) m₁ = _
    rw [bind_eq, hawait]
    show (LineShell.awaitAll (kids.map (·.1)) >>= _) m₂ = _
    rw [bind_eq, hall]
    rfl

/-! ### Trees -/

namespace Act.Keeps

theorem changeDirectory_reaps (c : Command) : Keeps Reaps (LineShell.changeDirectory c) := by
  have hnoted {m : Machine} {e : Entry}
      (h : e.forked? = none ∧ e.reaped? = none ∧ e.ended? = none) : Reaps m (m.note e) :=
    fun _ => ⟨rfl, .note m h⟩
  refine .changeDirectory_of (.getcwd_of fun m r => hnoted ⟨rfl, rfl, rfl⟩)
    (fun path => .chdir_of (fun m r => hnoted ⟨rfl, rfl, rfl⟩) fun m place _ => ?_)
    (fun name _ value m _ => ?_) c
  · exact ⟨rfl, .of_plain (.refl _) rfl⟩
  · exact ⟨rfl, .of_plain (.refl _) rfl⟩

theorem runExternal_reaps (c : Command) : Keeps Reaps (LineShell.runExternal c) := by
  intro m hm
  rcases runExternal_cases c m with ⟨e, hr⟩ | ⟨raw, m₁, hb, hr⟩
  · have hq : Reaps m (m.barren e) := Forgetful.quiet (m.barren_quiet e)
    have hrest : Reaps (m.barren e) ((LineShell.withoutChild c e).after (m.barren e)) :=
      Keeps.withoutChild c e _
    rw [after_eq_of_eq hr]
    exact Frame.trans (R := Reaps) hq hrest hm
  · obtain ⟨hs, hsame⟩ := Stretch.birth hb fun dead hl => runChild_stretch hl
    obtain ⟨m', hawait, hs', hsame'⟩ := hs.await hm
    rw [after_of_ok (hr.trans hawait)]
    exact ⟨hsame'.fds.trans hsame.fds, hs'⟩

section Operators

variable {a b : Act Status} (ha : Keeps Reaps a) (hb : Keeps Reaps b)
include ha hb

theorem piped_reaps : Keeps Reaps (LineShell.piped a b) := by
  intro m hm
  rcases piped_cases a b m with ⟨e, -, hr⟩ | ⟨r, w, m₁, pids, failure, m₂, hc, hbirths, hr⟩
  · have hq : Reaps m (m.unpiped e) := Forgetful.quiet (m.unpiped_quiet e)
    have hrest : Reaps (m.unpiped e) ((LineShell.withoutPipe e).after (m.unpiped e)) :=
      Keeps.withoutPipe e _
    rw [after_eq_of_eq hr]
    exact Frame.trans (R := Reaps) hq hrest hm
  · obtain ⟨f, g, hchannel⟩ := createChannel_eq_ok hc
    have hkeep₁ := Keeps.createChannel.of_ok hc
    have hm₁ : m₁.Fit := hm.of_follows hkeep₁.plain.follows (hchannel.errors hm)
    obtain ⟨kids, hkids, rfl, hs₂, hsame₂, hfailure⟩ := births_stretch hbirths
      (fun n n' raw hl hn hfds => hchannel.stretch hm ha (by decide) hl hn hfds)
      (fun n n' raw hl hn hfds => hchannel.stretch hm hb (by decide) hl hn hfds) hm₁
    have hm₂ : m₂.Fit := hm₁.of_follows hs₂.follows (by rw [hsame₂.fds])
    obtain ⟨m₃, htold, hq₃⟩ := hm₂.tell Operator.pipe.logger "pipe stage".toList hfailure
    have hs₃ : Stretch [] kids m m₃ := ((Stretch.of_rebound hkeep₁).trans hs₂).trans_quiet hq₃
    obtain ⟨m₄, hclose, hkeep₄, hfds₄⟩ := hchannel.closeAll
      (fun f hf => (hm.plan f (hs₃.follows.faults ▸ hf)).1) (hq₃.same.fds.trans hsame₂.fds)
    obtain ⟨s, m', hawait, hs', hsame'⟩ := (hs₃.trans_rebound hkeep₄).awaitStages hkids hm
    have hfinish : LineShell.finishPipe r w (kids.map (·.1)) failure m₂ = .ok s m' := by
      unfold LineShell.finishPipe
      rw [bind_eq, attempt_of_ok htold]
      dsimp only
      rw [bind_eq, hclose]
      exact hawait
    rw [after_of_ok (hr.trans hfinish)]
    exact ⟨hsame'.fds.trans hfds₄, hs'⟩

theorem inParallel_reaps : Keeps Reaps (LineShell.inParallel a b) := by
  intro m hm
  obtain ⟨pids, failure, m₁, hbirths, hr⟩ := inParallel_cases a b m
  obtain ⟨kids, -, rfl, hs₁, hsame₁, hfailure⟩ := births_stretch hbirths
    (fun n n' raw hl hn _ => sideWork_stretch hl ha hn)
    (fun n n' raw hl hn _ => sideWork_stretch hl hb hn) hm
  have hm₁ : m₁.Fit := hm.of_follows hs₁.follows (by rw [hsame₁.fds])
  obtain ⟨m₂, htold, hq₂⟩ := hm₁.tell Operator.parallel.logger "parallel branch".toList hfailure
  obtain ⟨ss, m₃, hawait, hs₃, hsame₃⟩ := (hs₁.trans_quiet hq₂).awaitAll hm
  have hfinish : (LineShell.finishParallel (kids.map (·.1)) failure).after m₁
      = (LineShell.judge ss).after m₃ := by
    unfold LineShell.finishParallel
    rw [after_bind, htold]
    dsimp only
    rw [after_bind, hawait]
  have hq : Quiet m₃ ((LineShell.judge ss).after m₃) := Keeps.judge ss m₃
  rw [← hfinish] at hq
  rw [after_eq_of_eq hr]
  refine ⟨hq.same.fds.trans ?_, hs₃.trans_quiet hq⟩
  exact hsame₃.fds.trans (hq₂.same.fds.trans hsame₁.fds)

end Operators

end Act.Keeps

/-- However the run of a tree ends in a fit process, its descriptors are what they were, and no
child is left. -/
theorem execute_reaps (rules : Rules) (t : Tree) (level : Int) :
    Keeps Reaps (execute rules t level) := by
  have hset (f : Proc → Proc) (hf : ∀ p, (f p).fds = p.fds ∧ (f p).pid = p.pid) :
      Keeps Reaps (Act.modifyProc f) := fun m _ => ⟨(hf m.proc).1, .of_plain (.refl _) (hf m.proc).2⟩
  refine .execute_of (fun mark c level => ?_) (fun _ _ => .piped_reaps)
    (fun _ _ => .inParallel_reaps) t level
  exact .runLeaf_of (fun m _ _ _ => ⟨rfl, .note m ⟨rfl, rfl, rfl⟩⟩)
    (fun _ _ => hset _ fun _ => ⟨rfl, rfl⟩) .changeDirectory_reaps .runExternal_reaps
    rules mark c level

/-! ### The whole run -/

/-- What another machine leaves of a run: its descriptors are those that it had, and every process
that was made in the run has ended and was waited for, once each, by the process that made it. -/
structure NothingLeft (m m' : Machine) : Prop where
  /-- No descriptor was leaked, and none was lost. -/
  fds : m'.proc.fds = m.proc.fds
  /-- Nothing that has ended is still to be waited for, but what was so before. -/
  ended : m'.world.ended = m.world.ended
  /-- No two processes were made under one number. -/
  nodup : (children (m.since m')).Nodup
  /-- Each process that was made has ended once. -/
  ends : (ends (m.since m')).Perm (children (m.since m'))
  /-- Each process that was made was waited for once, by its maker. -/
  reaps : (reaps (m.since m')).Perm (forks (m.since m'))

/-- A new session can tell the user of failures as long as standard error is not closed. -/
theorem Machine.boot_tells (files : FileTree) (cwd : Place) (input : Bytes) {closed : List Nat}
    (hclosed : 2 ∉ closed) (faults : List Fault) (table : Table) :
    (Machine.boot files cwd input closed faults table).Tells 2 :=
  ⟨Descriptors.get?_foldl_erase_of_notMem hclosed .standard,
    World.takes_iff.2 ⟨_, rfl, rfl, by simp, by simp, by simp⟩⟩

/-- A new session is fit as long as standard error is not closed and neither a close nor a wait is
planned to fail. -/
theorem Machine.boot_fit (files : FileTree) (cwd : Place) (input : Bytes) {closed : List Nat}
    (hclosed : 2 ∉ closed) {faults : List Fault}
    (hplan : ∀ f ∈ faults, f.call ≠ .close ∧ f.call ≠ .wait) (table : Table) :
    (Machine.boot files cwd input closed faults table).Fit where
  tells := ⟨2, boot_tells files cwd input hclosed faults table⟩
  plan := hplan
  sane := Machine.boot_sane files cwd input closed faults table

/-- **Main result**: whatever the tree, and whichever of the calls fail that neither close a
descriptor nor wait, the run of a tree leaves no descriptor and no process behind, whether it
answers or fails. -/
theorem execute_nothingLeft (rules : Rules) (t : Tree) (level : Int) (m : Machine) (hm : m.Fit) :
    NothingLeft m ((execute rules t level).after m) := by
  obtain ⟨hfds, hs⟩ := execute_reaps rules t level m hm
  obtain ⟨es, hes, hacc⟩ := hs.account
  have hsince : m.since ((execute rules t level).after m) = es := Machine.since_eq hes
  refine ⟨hfds, ?_, ?_, ?_, ?_⟩
  · rw [hs.ended, List.append_nil]
  · rw [hsince]
    exact hacc.nodup
  · rw [hsince]
    exact hacc.ends
  · rw [hsince]
    simpa using hacc.reaps

/-- The tree of `(echo | cat) | (cat & nothing)`, where `nothing` is a node without a command. -/
def pipesAndNothing : Tree :=
  let leaf (verb : String) : Tree := .leaf none ⟨[.lit verb.toList], [], none, none, none⟩
  .binary none .pipe (.binary none .pipe (leaf "echo") (leaf "cat"))
    (.binary none .parallel (leaf "cat") (.bare none))

/-- The fourth child is the second side of the inner pipe. It cannot be made, and each of the
others is waited for by its maker. -/
example :
    let m := Machine.boot .standard FileTree.home [] [0, 1] [⟨.fork, 4, .tryAgain⟩] []
    reaps (m.since ((execute ⟨true, [.pipe, .parallel]⟩ pipesAndNothing 0).after m))
      = [(102, 103), (101, 102), (105, 106), (104, 105), (104, 107), (100, 101), (100, 104)] := by
  decide +kernel

/-- That tree in a new session without input and output. -/
theorem execute_nothingLeft_pipesAndNothing :
    let m := Machine.boot .standard FileTree.home [] [0, 1] [⟨.fork, 4, .tryAgain⟩] []
    m.Fit ∧ NothingLeft m ((execute ⟨true, [.pipe, .parallel]⟩ pipesAndNothing 0).after m) := by
  intro m
  have hm : m.Fit := Machine.boot_fit .standard FileTree.home [] (by decide) (by decide) []
  exact ⟨hm, execute_nothingLeft ⟨true, [.pipe, .parallel]⟩ pipesAndNothing 0 m hm⟩

end LineShell
