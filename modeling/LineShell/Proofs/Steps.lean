import LineShell.Proofs.Lives

/-!
# Runs, step by step

Whatever an action does is done in steps: the running process moves bytes, tells of something, has
a call counted, changes what it has for itself, or makes a call; or it makes a child, which takes
steps of its own to its end. The steps are listed here once, and trees are shown to run by them
alone. So what no step breaks and no child breaks for its maker no run of a tree breaks, and what
is true of a machine and kept by every step is true of every machine on the way, those of children
included.

## The model

* `Step` lists what the running process does at once, one constructor for each kind, with the
  effect on the machine written out.
* `Within P` holds between two machines if steps lead from one to the other through machines of
  which `P` is true. A child that is made on the way takes steps within `P` too, in the machine in
  which it was born.
* `Proceeds` is `Within` with nothing asked of the machines: it is a frame, and all that is shown
  of actions is shown for it.

## What is proved

* Every call proceeds if its work does (`call_proceeds`), programs proceed, and so does a tree,
  whichever calls fail (`execute_proceeds`).
* What steps keep, and a child does not break for its maker, runs keep (`Proceeds.keeps`).
* What is true of a machine, kept by steps and by the birth of a child, and not broken by a child
  for its maker, is true of every machine on the way (`Proceeds.within`).

The two rules are the induction over runs that later modules use, so that for a new invariant
there is one case for each kind of step, and none for each kind of node.
-/

namespace LineShell

open Act

/-- A journal entry by which a process tells of itself, or logs. Bytes are told of where they are
moved. -/
def Entry.ToldBy (p : Proc) : Entry → Prop
  | .called pid _ => pid = p.pid
  | .logged _ => True
  | .began q _ _ => q = p
  | .entered q _ => q = p
  | .wrote _ _ _ _ => False
  | .took _ _ _ => False

/-- What the running process does at once. -/
inductive Step : Machine → Machine → Prop where
  /-- Bytes are written. -/
  | write {m m' : Machine} {log : Bool} {fd : Nat} {bs : Bytes} (h : m.write log fd bs = .ok m') :
      Step m m'
  /-- Bytes are taken, from the beginning of what is left on. -/
  | read {m m' : Machine} {fd : Nat} {part : Bytes → Bytes} {bs : Bytes}
      (hpart : ∀ left, part left <+: left) (h : m.read fd part = .ok (bs, m')) : Step m m'
  /-- Something is told of. -/
  | note {m : Machine} {e : Entry} (he : e.ToldBy m.proc) : Step m (m.note e)
  /-- A call is counted. -/
  | count (m : Machine) (c : CallName) : Step m (m.counted c)
  /-- The process changes, but for its number and its descriptors. -/
  | change {m : Machine} {p : Proc} (hpid : p.pid = m.proc.pid) (hfds : p.fds = m.proc.fds) :
      Step m { m with proc := p }
  /-- A channel is made on two descriptors. -/
  | pipe (m : Machine) (r w : Nat) : Step m { m with
      world.opened := m.world.opened ++ [⟨.readEnd m.world.channels.length, false, false, 0⟩,
        ⟨.writeEnd m.world.channels.length, true, false, 0⟩]
      world.channels := m.world.channels ++ [[]]
      proc.fds := (m.proc.fds.set r m.world.opened.length).set w (m.world.opened.length + 1) }
  /-- A descriptor is duplicated. -/
  | dup {m : Machine} {source file : Nat} (h : m.proc.fds.get? source = some file) (target : Nat) :
      Step m { m with proc.fds := m.proc.fds.set target file }
  /-- A descriptor is closed. -/
  | close (m : Machine) (fd : Nat) : Step m { m with proc.fds := m.proc.fds.erase fd }
  /-- A place of the file tree or the null device is opened on a descriptor. -/
  | openFile {m : Machine} {files : FileTree} {f : OpenFile} (hfiles : m.world.files.Grows files)
      (hf : f.target = .null ∨ ∃ p, f.target = .place p) (fd : Nat) : Step m { m with
        world.files := files
        world.opened := m.world.opened ++ [f]
        proc.fds := m.proc.fds.set fd m.world.opened.length }
  /-- A child is waited for. -/
  | wait (m : Machine) (ended : List (Nat × Nat)) : Step m { m with world.ended := ended }

/-- A run by steps, of machines of a kind: all that are on the way are of that kind, and so are those
of the children that are made on the way. -/
inductive Within (P : Machine → Prop) : Machine → Machine → Prop where
  /-- Nothing is done. -/
  | refl {m : Machine} (hm : P m) : Within P m m
  /-- A step is taken in the end. -/
  | step {a b c : Machine} (hab : Within P a b) (hbc : Step b c) (hc : P c) : Within P a c
  /-- A child is made in the end, and lives to its own. -/
  | child {a b n : Machine} {raw : Nat} (hab : Within P a b) (hn : Within P b.forked n)
      (hout : P (b.outlived n.world raw)) : Within P a (b.outlived n.world raw)

/-- A run by steps. -/
def Proceeds : Machine → Machine → Prop := Within fun _ => True

namespace Within

variable {P : Machine → Prop} {a b c : Machine}

theorem last (h : Within P a b) : P b := by
  cases h with
  | refl hm => exact hm
  | step _ _ hc => exact hc
  | child _ _ hout => exact hout

theorem trans (hab : Within P a b) (hbc : Within P b c) : Within P a c := by
  induction hbc with
  | refl _ => exact hab
  | step _ hstep hc ih => exact .step (ih hab) hstep hc
  | child _ hn hout ih _ => exact .child (ih hab) hn hout

end Within

theorem Step.proceeds {a b : Machine} (h : Step a b) : Proceeds a b :=
  .step (.refl True.intro) h True.intro

namespace Proceeds

variable {a b c : Machine}

theorem refl (m : Machine) : Proceeds m m := Within.refl True.intro

theorem trans (hab : Proceeds a b) (hbc : Proceeds b c) : Proceeds a c := Within.trans hab hbc

/-- What steps keep, and a child does not break for its maker, runs keep. -/
theorem keeps {R : Machine → Machine → Prop} [Frame R] (hstep : ∀ {a b}, Step a b → R a b)
    (hchild : ∀ {b n : Machine} {raw : Nat}, R b.forked n → R b (b.outlived n.world raw))
    (h : Proceeds a b) : R a b := by
  induction h with
  | refl _ => exact Frame.refl _
  | step _ hbc _ ih => exact Frame.trans ih (hstep hbc)
  | child _ _ _ ih ihn => exact Frame.trans ih (hchild ihn)

/-- What is true of a machine, and kept by every step and by the birth of a child, and what a child
does not break for its maker, is true of every machine on the way. -/
theorem within {P : Machine → Prop} (hstep : ∀ {a b}, Step a b → P a → P b)
    (hforked : ∀ {m : Machine}, P m → P m.forked)
    (hout : ∀ {m n : Machine} {raw : Nat}, Proceeds m.forked n → P m → P n → P (m.outlived n.world raw))
    (h : Proceeds a b) (ha : P a) : Within P a b := by
  induction h with
  | refl _ => exact .refl ha
  | step _ hbc _ ih =>
    have hab := ih ha
    exact .step hab hbc (hstep hbc hab.last)
  | child _ hn _ ih ihn =>
    have hab := ih ha
    have hlife := ihn (hforked hab.last)
    exact .child hab hlife (hout hn hab.last hlife.last)

theorem pid (h : Proceeds a b) : b.proc.pid = a.proc.pid := by
  induction h with
  | refl _ => rfl
  | step _ hbc _ ih =>
    rw [← ih]
    cases hbc with
    | write h =>
      obtain ⟨file, w, -, -, rfl⟩ := Machine.write_eq_ok h
      rfl
    | read _ h =>
      obtain ⟨file, w, -, -, rfl⟩ := Machine.read_eq_ok h
      rfl
    | change hpid _ => exact hpid
    | _ => rfl
  | child _ _ _ ih _ => exact ih

end Proceeds

instance : Frame Proceeds := ⟨.refl, .trans⟩

instance : Moves Proceeds where
  speak h := (Step.write h).proceeds
  logged m r := (Step.note (m := m) (e := .logged r) True.intro).proceeds
  counted m c := (Step.count m c).proceeds
  write _ h := (Step.write h).proceeds
  read hpart h := (Step.read hpart h).proceeds

instance : Heedless Proceeds := ⟨fun h => (Step.change h.pid h.fds).proceeds⟩

/-! ### Trees run by steps -/

namespace Proceeds

variable {a b : Machine}

/-- The running process tells of a call behind what it did for it. -/
theorem called (h : Proceeds a b) (event : Event) :
    Proceeds a (b.note (.called a.proc.pid event)) :=
  h.trans (Step.note (e := .called a.proc.pid event) h.pid.symm).proceeds

end Proceeds

namespace Act.Keeps

variable {α : Type}

/-- A call proceeds where its work does. -/
theorem call_proceeds {c : CallName} {event : Except Errno α → Event}
    {work : Machine → Except Errno (α × Machine)}
    (h : ∀ m x m', work m = .ok (x, m') → Proceeds m m') : Keeps Proceeds (Act.call c event work) :=
  .call_of (fun m _ => (Proceeds.refl m).called _) fun m x m' hw => (h m x m' hw).called _

theorem called_proceeds (event : Event) : Keeps Proceeds (Act.called event) :=
  fun m => (Proceeds.refl m).called event

theorem modifyProc_proceeds {f : Proc → Proc} (hpid : ∀ p, (f p).pid = p.pid)
    (hfds : ∀ p, (f p).fds = p.fds) : Keeps Proceeds (Act.modifyProc f) :=
  fun m => (Step.change (hpid m.proc) (hfds m.proc)).proceeds

theorem pipe_proceeds : Keeps Proceeds Act.pipe :=
  .pipe_of (fun m _ => (Proceeds.refl m).called _) fun m r w => (Step.pipe m r w).proceeds

theorem dup_proceeds (source target : Nat) : Keeps Proceeds (Act.dup source target) :=
  .dup_of (fun m _ => (Proceeds.refl m).called _) fun _ _ h => (Step.dup h target).proceeds

theorem close_proceeds (fd : Nat) : Keeps Proceeds (Act.close fd) :=
  .close_of (fun m _ => (Proceeds.refl m).called _) fun m => (Step.close m fd).proceeds

theorem openFile_proceeds (path : Text) (mode : OpenMode) : Keeps Proceeds (Act.openFile path mode) := by
  refine .bind (.refuseNul _) fun _ => .bind (.call_proceeds fun m x m' h => ?_) fun x => .answer _ x
  split at h
  · simp at h
  next hl =>
  split at h
  · simp at h
  next target files ha =>
  obtain ⟨-, rfl⟩ := Prod.mk.inj (Except.ok.inj h)
  obtain ⟨hgrows, htarget⟩ := access_spec ha
  refine (Step.openFile ((locate_spec hl).1.trans hgrows) ?_ _).proceeds
  rcases htarget with htarget | ⟨htarget, -⟩
  · exact Or.inr ⟨_, htarget⟩
  · exact Or.inl htarget

theorem wait_proceeds (pid : Nat) : Keeps Proceeds (Act.wait pid) :=
  .wait_of (fun m _ => (Proceeds.refl m).called _) fun m ended => (Step.wait m ended).proceeds

theorem closeAll_proceeds (fds : List Nat) : Keeps Proceeds (LineShell.closeAll fds) :=
  .forM fun fd _ => close_proceeds fd

theorem bindStream_proceeds (fd standard : Nat) (spare : List Nat) :
    Keeps Proceeds (LineShell.bindStream fd standard spare) :=
  .bind (dup_proceeds _ _) fun _ => closeAll_proceeds _

theorem createChannel_proceeds : Keeps Proceeds LineShell.createChannel := .createChannel_of pipe_proceeds

theorem await_proceeds (pid : Nat) : Keeps Proceeds (LineShell.await pid) :=
  .await_of (wait_proceeds pid)

theorem bindAll_proceeds (opened : List Nat) (bs : List Binding) :
    Keeps Proceeds (LineShell.bindAll opened bs) :=
  .bindAll_of openFile_proceeds dup_proceeds close_proceeds opened bs

section Programs

variable {R : Machine → Machine → Prop} [Moves R]
  (hcalled : ∀ (m : Machine) file argv r,
    R m (m.note (.called m.proc.pid (execEvent file argv r))))
  (hentered : ∀ (m : Machine) argv, R m (m.note (.entered m.proc argv)))
  (hended : ∀ (m : Machine) raw, R m (m.note (.called m.proc.pid (.ended raw))))
include hcalled hentered hended

/-- A process that turns into a program keeps what its notes keep, and what programs keep. -/
theorem exec_of (file : Text) (argv : List Text) : Keeps R (Act.exec file argv) := by
  intro m
  rw [after_eq_of_eq (exec_eq file argv m), after_bind]
  cases imageFault? file argv m.proc.table with
  | some e => exact Frame.refl m
  | none =>
    show R m ((Act.call .exec (execEvent file argv) (findProgram m.proc.table file) >>=
      enter m.proc argv).after m)
    rw [after_bind]
    have hcounted : R m (m.counted .exec) := Speaks.counted m .exec
    have hnoted (r) : R m ((m.counted .exec).note (.called m.proc.pid (execEvent file argv r))) :=
      Frame.trans hcounted (hcalled (m.counted .exec) file argv r)
    rcases call_cases .exec (execEvent file argv) (findProgram m.proc.table file) m with
      ⟨e, hc⟩ | ⟨found, next, hw, hc⟩
    · rw [hc]
      exact hnoted _
    · rw [hc]
      obtain rfl := findProgram_eq_ok hw
      -- the process enters the program as it was before the call
      let n := (m.counted .exec).note (.called m.proc.pid (execEvent file argv (.ok found)))
      have hran : R (n.note (.entered m.proc argv)) _ := found.2.run_keeps argv.tail _
      exact Frame.trans (hnoted _) (Frame.trans (hentered n argv) (Frame.trans hran (hended _ _)))

theorem runProgram_of [Heedless R] (argv : List Text) : Keeps R (LineShell.runProgram argv) := by
  refine .bind (.tally _) fun _ => ?_
  split
  · exact .bind (.report _) fun _ => .pure _
  · exact .bind (.report _) fun _ => .pure _
  · refine .bind (exec_of hcalled hentered hended _ _) fun r => ?_
    split
    · exact .pure _
    all_goals exact .bind (.report _) fun _ => .pure _

end Programs

theorem runProgram_proceeds (argv : List Text) : Keeps Proceeds (LineShell.runProgram argv) :=
  .runProgram_of (fun m _ _ _ => (Proceeds.refl m).called _)
    (fun m argv => (Step.note (m := m) (e := .entered m.proc argv) rfl).proceeds)
    (fun m _ => (Proceeds.refl m).called _) argv

theorem applyRedirects_proceeds (c : Command) : Keeps Proceeds (LineShell.applyRedirects c) :=
  .bind .proc fun _ => bindAll_proceeds _ _

theorem runChild_proceeds (c : Command) : Keeps Proceeds (LineShell.runChild c) := by
  refine .bind (.attempt (applyRedirects_proceeds c)) fun r => ?_
  split
  · exact .bind .proc fun _ => runProgram_proceeds _
  · exact .bind (.report _) fun _ => .pure _
  · exact .throw _

theorem childLife_proceeds {work : Act ChildEnd} (h : Keeps Proceeds work) :
    Keeps Proceeds (childLife work) := by
  refine .bind (called_proceeds _) fun _ => .bind (.attempt h) fun r => ?_
  split
  · exact .pure _
  · exact .bind (called_proceeds _) fun _ => .pure _
  · refine .bind .proc fun _ => .bind (.error _ _ _) fun _ => ?_
    exact .bind (called_proceeds _) fun _ => .pure _

theorem fork_proceeds {child : Act Nat} (h : Keeps Proceeds child) : Keeps Proceeds (Act.fork child) := by
  intro m
  rcases fork_eq m with ⟨e, hf⟩ | hf
  · rw [after_of_error (hf child)]
    exact (Step.count m .fork).proceeds.called _
  · rw [after_of_ok (hf child)]
    exact .child (.refl True.intro) (h m.forked) True.intro

theorem spawn_proceeds {work : Act ChildEnd} (h : Keeps Proceeds work) :
    Keeps Proceeds (LineShell.spawn work) :=
  .spawn_of (fork_proceeds (childLife_proceeds h))

theorem spawnAll_proceeds {works : List (Act ChildEnd)} (h : ∀ work ∈ works, Keeps Proceeds work) :
    Keeps Proceeds (LineShell.spawnAll works) := by
  induction works with
  | nil => exact .pure _
  | cons work works ih =>
    obtain ⟨hwork, hworks⟩ := List.forall_mem_cons.1 h
    refine .bind (.attempt (spawn_proceeds hwork)) fun r => ?_
    split
    · exact .pure _
    · exact .bind (ih hworks) fun _ => .pure _

theorem runExternal_proceeds (c : Command) : Keeps Proceeds (LineShell.runExternal c) := by
  refine .bind (.attempt (spawn_proceeds (runChild_proceeds c))) fun r => ?_
  split
  · exact await_proceeds _
  · exact .bind (.error _ _ _) fun _ => .bind (.report _) fun _ => .pure _
  · exact .throw _

theorem changeDirectory_proceeds (c : Command) : Keeps Proceeds (LineShell.changeDirectory c) :=
  .changeDirectory_of (.getcwd_of fun m _ => (Proceeds.refl m).called _)
    (fun _ => .chdir_of (fun m _ => (Proceeds.refl m).called _)
      fun m place => (Step.change (m := m) (p := { m.proc with cwd := place }) rfl rfl).proceeds)
    (fun _ _ _ => modifyProc_proceeds (fun _ => rfl) fun _ => rfl) c

theorem runLeaf_proceeds (rules : Rules) (mark : Option Nat) (c : Command) (level : Int) :
    Keeps Proceeds (LineShell.runLeaf rules mark c level) :=
  .runLeaf_of (fun m mark c => (Step.note (m := m) (e := .began m.proc mark c) rfl).proceeds)
    (fun _ _ => modifyProc_proceeds (fun _ => rfl) fun _ => rfl) changeDirectory_proceeds
    runExternal_proceeds rules mark c level

section Operators

variable {a b : Act Status} (ha : Keeps Proceeds a) (hb : Keeps Proceeds b)
include ha

theorem sideWork_proceeds : Keeps Proceeds (LineShell.sideWork a) := .bind ha fun _ => .pure _

theorem pipeSide_proceeds (fd standard r w : Nat) :
    Keeps Proceeds (LineShell.pipeSide a fd standard r w) :=
  .bind (bindStream_proceeds _ _ _) fun _ => sideWork_proceeds ha

include hb

theorem piped_proceeds : Keeps Proceeds (LineShell.piped a b) := by
  refine .bind (.attempt createChannel_proceeds) fun channel => ?_
  split
  · exact .bind (.error _ _ _) fun _ => .bind (.report _) fun _ => .pure _
  · exact .throw _
  · refine .bind (spawnAll_proceeds ?_) fun (pids, failure) =>
      .finishPipe (closeAll_proceeds _) (fun pid _ => await_proceeds pid) failure
    simpa using ⟨pipeSide_proceeds ha _ _ _ _, pipeSide_proceeds hb _ _ _ _⟩

theorem inParallel_proceeds : Keeps Proceeds (LineShell.inParallel a b) := by
  refine .bind (spawnAll_proceeds ?_) fun (pids, failure) =>
    .finishParallel (fun pid _ => await_proceeds pid) failure
  simpa using ⟨sideWork_proceeds ha, sideWork_proceeds hb⟩

end Operators

end Act.Keeps

/-- Whichever calls fail, a tree runs by steps. -/
theorem execute_proceeds (rules : Rules) (t : Tree) (level : Int) :
    Keeps Proceeds (execute rules t level) :=
  .execute_of (Keeps.runLeaf_proceeds rules) (fun _ _ => Keeps.piped_proceeds)
    (fun _ _ => Keeps.inParallel_proceeds) t level

end LineShell
