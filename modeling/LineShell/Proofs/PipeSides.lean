import LineShell.Proofs.Channels
import LineShell.Proofs.Contexts
import LineShell.Proofs.Doings

/-!
# The sides of a pipe

What a pipe does beside the runs of its sides: it makes its channel and its children, and each
child binds an end of the channel and concludes behind its side. None of this uses an open file
but where standard error leads, which is where the log and the diagnostics go. So as long as
standard error is open, and no end of a channel can come to stand there, a channel holds at the
beginning of the right side what was written to it in the run of the left one.

## The model

* `Murmurs` is the frame in which nothing goes through an open file that standard error does not
  lead to; `Steady` is the one in which what is open stays open where it is.
* `conclude` is how the life of a child ends once its work is done, so that a life is its work and
  a conclusion.
* `Machine.Orderly` is a tidy machine with standard error open. `Machine.OnOutput` says of a file
  that no descriptor but maybe standard output refers to it.
* `PipeMade` names the machines between which a pipe makes its channel and its two children, and
  `Piping` adds those in which the two sides begin.

## What is proved

* A tree takes no descriptor from the process that runs it, whatever fails (`execute_steady`), and
  a channel is made on two open files that were not open before (`createChannel_ends`).
* Where no call hinders, both sides of a pipe begin (`exists_piping`, `exists_begins`). Where they
  do, the left one has the write end on its output alone (`Piping.onOutput_left`), it does not
  have the read end at all (`Piping.lacks_left`), and the right one does not have the write end
  (`Piping.lacks_right`).
* Around the runs of the sides the ends of the channel are spared (`Piping.spares_left`,
  `Piping.spares_right`), so by the law of a channel it holds what the left side wrote
  (`Piping.content_eq`).

## What is left out

Where standard error is closed an end of the channel can come to stand there, and messages would
go into it. That is why it is asked to be open.
-/

namespace LineShell

open Act

/-! ### What a process does beside the work of its children -/

/-- Nothing goes through an open file that standard error does not lead to, and standard error leads
where it led. -/
def Murmurs (x : Nat) (m m' : Machine) : Prop :=
  m.proc.fds.get? 2 ≠ some x → m'.proc.fds.get? 2 = m.proc.fds.get? 2 ∧ Spares x m m'

instance (x : Nat) : Frame (Murmurs x) where
  refl m _ := ⟨rfl, Frame.refl m⟩
  trans hab hbc hx := by
    obtain ⟨herrors, hspares⟩ := hab hx
    obtain ⟨herrors', hspares'⟩ := hbc (herrors ▸ hx)
    exact ⟨herrors'.trans herrors, Frame.trans hspares hspares'⟩

theorem Murmurs.called (x : Nat) (m : Machine) (event : Event) :
    Murmurs x m (m.note (.called m.proc.pid event)) := fun _ => ⟨rfl, .note id m⟩

instance (x : Nat) : Heedless (Murmurs x) where
  speak h hx := by
    obtain ⟨file, w, hfile, hw, rfl⟩ := Machine.write_eq_ok h
    refine ⟨rfl, [_], congrArg (· ++ _) (World.write_spec hw).journal, ?_⟩
    have hne : file ≠ x := fun heq => hx (heq ▸ hfile)
    simpa [Entry.Uses] using hne
  logged m _ _ := ⟨rfl, .note id m⟩
  counted _ _ _ := ⟨rfl, .of_eq rfl⟩
  same h _ := ⟨by rw [h.fds], .of_eq rfl⟩

namespace Act.Keeps

theorem dup_murmurs {target : Nat} (htarget : target ≠ 2) (source x : Nat) :
    Keeps (Murmurs x) (Act.dup source target) :=
  .dup_of (fun m _ => .called x m _) fun _ _ _ _ =>
    ⟨Descriptors.get?_set_of_ne _ _ (Ne.symm htarget), .of_eq rfl⟩

theorem close_murmurs {fd : Nat} (hfd : fd ≠ 2) (x : Nat) : Keeps (Murmurs x) (Act.close fd) :=
  .close_of (fun m _ => .called x m _) fun _ _ =>
    ⟨Descriptors.get?_erase_of_ne _ (Ne.symm hfd), .of_eq rfl⟩

theorem closeAll_murmurs {fds : List Nat} (hfds : 2 ∉ fds) (x : Nat) :
    Keeps (Murmurs x) (LineShell.closeAll fds) :=
  .forM fun _ hfd => close_murmurs (fun heq => hfds (heq ▸ hfd)) x

theorem bindStream_murmurs {standard : Nat} {spare : List Nat} (hstandard : standard ≠ 2)
    (hspare : 2 ∉ spare) (fd x : Nat) : Keeps (Murmurs x) (LineShell.bindStream fd standard spare) :=
  .bind (dup_murmurs hstandard fd x) fun _ =>
    closeAll_murmurs (fun hmem => hspare (List.mem_filter.1 hmem).1) x

theorem await_murmurs (pid x : Nat) : Keeps (Murmurs x) (LineShell.await pid) :=
  .await_of (.wait_of (fun m _ => .called x m _) fun _ _ _ => ⟨rfl, .of_eq rfl⟩)

end Act.Keeps

/-- What was open stays open where it was. -/
def Steady (fd : Nat) (m m' : Machine) : Prop :=
  m.proc.fds.get? fd ≠ none → m'.proc.fds.get? fd = m.proc.fds.get? fd

instance (fd : Nat) : Frame (Steady fd) where
  refl _ _ := rfl
  trans hab hbc h := by
    have hb := hab h
    exact (hbc (hb ▸ h)).trans hb

instance (fd : Nat) : Kernel (Steady fd) := ⟨fun _ _ => rfl⟩

instance (fd : Nat) : Forgetful (Steady fd) := ⟨fun h _ => by rw [h.fds]⟩

theorem Bound.steady {m m' : Machine} (h : Bound m m') (fd : Nat) : Steady fd m m' :=
  fun _ => congrArg (·.get? fd) h

namespace Act.Keeps

theorem close_steady {fd x : Nat} (hfd : x ≠ fd) : Keeps (Steady x) (Act.close fd) :=
  .close_of (fun _ _ _ => rfl) fun _ _ => Descriptors.get?_erase_of_ne _ hfd

theorem runExternal_steady (c : Command) (x : Nat) : Keeps (Steady x) (LineShell.runExternal c) := by
  refine .bind (.attempt ((Keeps.spawn _).mono fun _ _ h => h.steady x)) fun r => ?_
  split
  · exact .await _
  · exact .bind (.error _ _ _) fun _ => .bind (.report _) fun _ => .pure _
  · exact .throw _

/-- A pipe closes no descriptors but those that it opened. -/
theorem piped_steady (a b : Act Status) (x : Nat) : Keeps (Steady x) (LineShell.piped a b) := by
  intro m hopen
  rcases piped_cases a b m with ⟨e, -, hrun⟩ | ⟨r, w, m₁, pids, failure, m₂, hc, hbirths, hrun⟩
  · rw [after_eq_of_eq hrun]
    have hwithout : Steady x (m.unpiped e) _ := Keeps.withoutPipe e _
    exact hwithout hopen
  · rw [after_eq_of_eq hrun]
    obtain ⟨f, g, hchannelled⟩ := createChannel_eq_ok hc
    obtain ⟨file, hfile⟩ := Option.ne_none_iff_exists'.1 hopen
    have hmade : m₂.proc.fds.get? x = m.proc.fds.get? x := by
      rw [hbirths.same.fds, hchannelled.get?_eq hfile]
    have hclose : Keeps (Steady x) (LineShell.closeAll [r, w]) := .forM fun fd hfd => by
      refine close_steady ?_
      rintro rfl
      obtain rfl | rfl : x = r ∨ x = w := by simpa using hfd
      · exact hopen hchannelled.pair.left
      · exact hopen hchannelled.pair.right
    have hfinish : Keeps (Steady x) (LineShell.finishPipe r w pids failure) :=
      .finishPipe hclose (fun pid _ => .await pid) failure
    exact (hfinish m₂ (hmade ▸ hopen)).trans hmade

theorem inParallel_steady (a b : Act Status) (x : Nat) : Keeps (Steady x) (LineShell.inParallel a b) := by
  refine .bind ((Keeps.spawnAll _).mono fun _ _ h => Bound.steady h x) fun (pids, failure) => ?_
  exact .finishParallel (fun pid _ => .await pid) failure

end Act.Keeps

/-- Whatever fails, a tree takes no descriptor from the process that runs it. -/
theorem execute_steady (rules : Rules) (t : Tree) (level : Int) (x : Nat) :
    Keeps (Steady x) (execute rules t level) := by
  refine .execute_of (fun mark c level => ?_) (fun a b _ _ => .piped_steady a b x)
    (fun a b _ _ => .inParallel_steady a b x) t level
  have hset (name value : Text) :
      Keeps (Steady x) (modifyProc fun p => { p with table := p.table.set name value }) := fun _ _ => rfl
  have hchange (c : Command) : Keeps (Steady x) (changeDirectory c) :=
    (Keeps.changeDirectory c).bound.mono fun _ _ h => Bound.steady h x
  exact .runLeaf_of (fun _ _ _ _ => rfl) hset hchange (fun c => .runExternal_steady c x) rules mark c
    level

/-- The ends of a channel that is made are the two open files that are made with it. -/
theorem World.Ends.of_new {w w' : World}
    (hold : ∀ (i : Nat) f n, w.opened[i]? = some f → f.EndOf n → n < w.channels.length)
    (hopened : w'.opened = w.opened ++ [⟨.readEnd w.channels.length, false, false, 0⟩,
      ⟨.writeEnd w.channels.length, true, false, 0⟩])
    (hchannel : w.channels.length < w'.channels.length) :
    w'.Ends w.channels.length w.opened.length (w.opened.length + 1) := by
  have hreader : w'.opened[w.opened.length]? = some ⟨.readEnd w.channels.length, false, false, 0⟩ := by
    rw [hopened, List.getElem?_append_right (Nat.le_refl _)]
    simp
  have hwriter : w'.opened[w.opened.length + 1]?
      = some ⟨.writeEnd w.channels.length, true, false, 0⟩ := by
    rw [hopened, List.getElem?_append_right (Nat.le_succ _)]
    simp
  refine ⟨hchannel, ⟨_, hreader, rfl, rfl⟩, ⟨_, hwriter, rfl⟩, fun i f hf => ?_⟩
  by_cases hi : i < w.opened.length
  · have hf' : w.opened[i]? = some f := by rwa [hopened, List.getElem?_append_left hi] at hf
    have hlt (hend : f.EndOf w.channels.length) : False := Nat.lt_irrefl _ (hold i f _ hf' hend)
    exact ⟨fun hend => (hlt (Or.inl hend)).elim, fun hend => (hlt (Or.inr hend)).elim⟩
  · have hlast : i < w'.opened.length := (List.getElem?_eq_some_iff.1 hf).1
    rw [hopened, List.length_append, List.length_cons, List.length_cons, List.length_nil] at hlast
    obtain rfl | rfl : i = w.opened.length ∨ i = w.opened.length + 1 := by omega
    · obtain rfl := Option.some.inj (hf.symm.trans hreader)
      simp
    · obtain rfl := Option.some.inj (hf.symm.trans hwriter)
      simp

section Creation

variable {m m' : Machine} {r w : Nat} (herrors : m.proc.fds.get? 2 ≠ none)
  (h : createChannel m = .ok (r, w) m')
include herrors h

theorem createChannel_errors : m'.proc.fds.get? 2 = m.proc.fds.get? 2 := by
  obtain ⟨file, hfile⟩ := Option.ne_none_iff_exists'.1 herrors
  exact (createChannel_channelled h).get?_eq hfile

theorem createChannel_murmurs (x : Nat) : Murmurs x m m' := by
  intro hx
  obtain ⟨ends, m₁, hp, hrest⟩ := bind_eq_ok.1 (createChannel_eq ▸ h)
  have htold : Murmurs x m₁ m' := (Keeps.tellChannel ends).of_ok hrest
  have hquiet : Calm m₁ m' := (Keeps.tellChannel ends).of_ok hrest
  obtain rfl := tellChannel_eq_ok hrest
  obtain ⟨-, -, -, -, -, hjournal⟩ := pipe_eq_ok hp
  have herrors' := createChannel_errors herrors h
  have hpipe : Spares x m m₁ := ⟨_, hjournal, by simp [Entry.Uses]⟩
  exact ⟨herrors', Frame.trans hpipe (htold (by rw [← hquiet.fds, herrors']; exact hx)).2⟩

/-- A channel that is made is new, its ends are open files that were not open before, and nothing is
in it. -/
theorem createChannel_ends (hm : m.Tidy) :
    m'.world.Ends m.world.channels.length m.world.opened.length (m.world.opened.length + 1) ∧
      m'.world.content m.world.channels.length = [] := by
  obtain ⟨ends, m₁, hp, hrest⟩ := bind_eq_ok.1 (createChannel_eq ▸ h)
  have htold : Proceeds m₁ m' := (Keeps.tellChannel ends).of_ok hrest
  have hquiet : Calm m₁ m' := (Keeps.tellChannel ends).of_ok hrest
  obtain rfl := tellChannel_eq_ok hrest
  obtain ⟨-, -, -, hopened, hchannels, -⟩ := pipe_eq_ok hp
  have hends := World.Ends.of_new hm.channels hopened (by simp [hchannels])
  -- the channel is told of on standard error, which does not lead to it
  have hspares {x : Nat} (hx : m.world.opened.length ≤ x) : Spares x m₁ m' := by
    have hmurmurs : Murmurs x m₁ m' := (Keeps.tellChannel _).of_ok hrest
    refine (hmurmurs ?_).2
    rw [← hquiet.fds, createChannel_errors herrors h]
    exact hm.get?_ne hx 2
  refine ⟨htold.widens.ends hends, ?_⟩
  rw [(htold.flows _ _ _).content_eq hends (hspares (Nat.le_refl _)) (hspares (Nat.le_succ _))]
  simp [World.content, hchannels]

end Creation

/-! ### Around the work of a child -/

/-- How the life of a child ends, by what its work came to. -/
def conclude : Except Failure ChildEnd → Act Nat
  | .ok (.program raw) => return raw
  | .ok (.exit code) => do
    called (.exited code)
    return exitedRaw code
  | .error failure => do
    error launcher ("Unhandled error in child ".toList ++ natText (← proc).pid) (some failure)
    called (.exited 1)
    return exitedRaw 1

theorem childLife_eq (work : Act ChildEnd) :
    childLife work = (do called .restoreSignal; conclude (← attempt work)) := rfl

/-- Behind its work a child does nothing but conclude. -/
theorem childLife_after (work : Act ChildEnd) (m : Machine) :
    ∃ r, (childLife work).after m.forked = (conclude r).after (work.after m.born) := by
  rw [childLife_eq]
  show ∃ r, (attempt work >>= conclude).after m.born = _
  unfold after
  rw [bind_eq, attempt]
  cases work m.born with
  | ok x n => exact ⟨.ok x, rfl⟩
  | error e n => exact ⟨.error e, rfl⟩

/-- A child that is made does its work and concludes; its maker then tells of it. -/
theorem spawn_eq_ok {work : Act ChildEnd} {m m' : Machine} {pid : Nat} (h : spawn work m = .ok pid m') :
    ∃ r raw, tellChild m.world.nextPid
      (m.outlived ((conclude r).after (work.after m.born)).world raw) = .ok pid m' := by
  obtain ⟨p, m₁, hf, htold⟩ := bind_eq_ok.1 (spawn_eq work ▸ h)
  obtain ⟨r, hlife⟩ := childLife_after work m
  rcases fork_eq m with ⟨e, hf'⟩ | hf'
  · exact nomatch hf.symm.trans (hf' _)
  · obtain ⟨rfl, rfl⟩ := EStateM.Result.ok.inj (hf.symm.trans (hf' _))
    exact ⟨r, _, hlife ▸ htold⟩

theorem sideWork_after (a : Act Status) (m : Machine) : (sideWork a).after m = a.after m := by
  rw [sideWork, after_bind, after]
  cases a m <;> rfl

theorem pipeSide_after {a : Act Status} {fd standard r w : Nat} {m k : Machine}
    (h : bindStream fd standard [r, w] m = .ok () k) :
    (pipeSide a fd standard r w).after m = a.after k := by
  rw [pipeSide, after_bind, h]
  exact sideWork_after a k

/-- A child that concludes keeps what the note of its exit keeps. -/
theorem Act.Keeps.conclude_of {R : Machine → Machine → Prop} [Logs R]
    (hexited : ∀ (m : Machine) code, R m (m.note (.called m.proc.pid (.exited code))))
    (r : Except Failure ChildEnd) : Keeps R (conclude r) := by
  have hcalled (code : Nat) : Keeps R (Act.called (.exited code)) := fun m => hexited m code
  rcases r with failure | (code | raw)
  · refine .bind .proc fun _ => .bind (.error _ _ _) fun _ => ?_
    exact .bind (hcalled _) fun _ => .pure _
  · exact .bind (hcalled _) fun _ => .pure _
  · exact .pure _

/-- Around the run of a side of a pipe, its child and the maker of the child use no open file but where
standard error leads. -/
theorem spawn_spares {a : Act Status} {fd standard r w pid x : Nat} {m m' k : Machine}
    (hspawn : spawn (pipeSide a fd standard r w) m = .ok pid m')
    (hbind : bindStream fd standard [r, w] m.born = .ok () k) (hstandard : standard ≠ 2)
    (hends : 2 ∉ [r, w]) (ha : (a.after k).proc.fds.get? 2 = k.proc.fds.get? 2)
    (hx : m.proc.fds.get? 2 ≠ some x) :
    Spares x m k ∧ Spares x (a.after k) m' ∧ m'.proc.fds.get? 2 = m.proc.fds.get? 2 := by
  obtain ⟨s, raw, htold⟩ := spawn_eq_ok hspawn
  rw [pipeSide_after hbind] at htold
  have hborn : Spares x m m.born := ⟨[_, _], List.append_assoc .., by simp [Entry.Uses]⟩
  have hbound : Murmurs x m.born k := (Keeps.bindStream_murmurs hstandard hends fd x).of_ok hbind
  obtain ⟨herrors, hspares⟩ := hbound hx
  have hconclude : Murmurs x (a.after k) ((conclude s).after (a.after k)) :=
    Keeps.conclude_of (fun m _ => .called x m _) s _
  have hend : (a.after k).proc.fds.get? 2 ≠ some x := by
    rw [ha, herrors]
    exact hx
  obtain ⟨-, hconcluded⟩ := hconclude hend
  have hmaker : Murmurs x (m.outlived ((conclude s).after (a.after k)).world raw) m' :=
    (Keeps.tellChild _).of_ok htold
  obtain ⟨herrors', hspares'⟩ := hmaker hx
  have hout : Spares x ((conclude s).after (a.after k))
      (m.outlived ((conclude s).after (a.after k)).world raw) := .of_eq rfl
  exact ⟨Frame.trans hborn hspares, Frame.trans hconcluded (Frame.trans hout hspares'), herrors'⟩

/-! ### Orderly machines -/

/-- A tidy machine whose running process has standard error open. -/
structure Machine.Orderly (m : Machine) : Prop extends m.Tidy where
  /-- Standard error is open. -/
  errors : m.proc.fds.get? 2 ≠ none

/-- A machine before anything happened is orderly, whatever was closed but standard error. -/
theorem Machine.boot_orderly (files : FileTree) (cwd : Place) (input : Bytes) {closed : List Nat}
    (hclosed : 2 ∉ closed) (faults : List Fault) (table : Table) :
    (Machine.boot files cwd input closed faults table).Orderly := by
  refine ⟨Machine.boot_tidy files cwd input closed faults table, ?_⟩
  show (closed.foldl Descriptors.erase .standard).get? 2 ≠ none
  rw [Descriptors.get?_foldl_erase_of_notMem hclosed]
  decide

/-- A file that no descriptor refers to but maybe standard output. -/
structure Machine.OnOutput (m : Machine) (o : Nat) : Prop where
  /-- The open file exists. -/
  opened : o < m.world.opened.length
  /-- No other descriptor refers to it. -/
  only : ∀ fd, m.proc.fds.get? fd = some o → fd = 1

theorem Machine.Lacks.onOutput {m : Machine} {o : Nat} (h : m.Lacks o) : m.OnOutput o :=
  ⟨h.opened, fun fd ho => absurd ho (h.closed fd)⟩

/-- What a run sends, where what stands before and behind a part of it sends nothing, is what that
part sends. -/
theorem Spares.sent_between {x : Nat} {a b c d : Machine} (hab : Spares x a b) (hbc : Recorded b c)
    (hcd : Spares x c d) : sent x (a.since d) = sent x (b.since c) := by
  have hbefore : sent x (a.since b) = [] := sent_eq_nil fun e he => hab.of_mem_since he
  have hbehind : sent x (c.since d) = [] := sent_eq_nil fun e he => hcd.of_mem_since he
  rw [Machine.since_trans hab.recorded (Frame.trans hbc hcd.recorded),
    Machine.since_trans hbc hcd.recorded, sent_append, sent_append, hbefore, hbehind, List.nil_append,
    List.append_nil]

theorem Proceeds.recorded {m m' : Machine} (h : Proceeds m m') : Recorded m m' := by
  obtain ⟨es, hes, -⟩ := h.own.journal
  exact ⟨es, hes.symm⟩

/-! ### Both sides of a pipe -/

theorem spawnAll_two {x y : Act ChildEnd} {m n n' : Machine} {p q : Nat} (hx : spawn x m = .ok p n)
    (hy : spawn y n = .ok q n') : spawnAll [x, y] m = .ok ([p, q], none) n' := by
  have hone : spawnAll [y] n = .ok ([q], none) n' := by
    rw [spawnAll_cons, hy]
    rfl
  rw [spawnAll_cons, hx]
  exact bind_eq_ok.2 ⟨_, n', hone, rfl⟩

/-- A pipe makes its channel up to `m₁`, the child for its left side up to `m₂`, and that for its right
side up to `m₃`. -/
structure PipeMade (a b : Act Status) (m : Machine) (r w : Nat) (m₁ m₂ m₃ : Machine) : Prop where
  /-- The channel is made. -/
  channel : createChannel m = .ok (r, w) m₁
  /-- The left child is made. -/
  left : spawn (pipeSide a w 1 r w) m₁ = .ok m₁.world.nextPid m₂
  /-- The right child is made. -/
  right : spawn (pipeSide b r 0 r w) m₂ = .ok m₂.world.nextPid m₃

theorem piped_of_channel {a b : Act Status} {m m₁ : Machine} {r w : Nat}
    (hc : createChannel m = .ok (r, w) m₁) : piped a b m
      = (spawnAll [pipeSide a w 1 r w, pipeSide b r 0 r w] >>= fun made =>
          finishPipe r w made.1 made.2) m₁ := by
  unfold piped
  rw [bind_eq, attempt_of_ok hc]
  rfl

theorem PipeMade.piped_eq {a b : Act Status} {m m₁ m₂ m₃ : Machine} {r w : Nat}
    (h : PipeMade a b m r w m₁ m₂ m₃) :
    piped a b m = finishPipe r w [m₁.world.nextPid, m₂.world.nextPid] none m₃ := by
  rw [piped_of_channel h.channel, bind_eq, spawnAll_two h.left h.right]

section Bound

variable {m m₁ k : Machine} {r w : Nat} (hc : createChannel m = .ok (r, w) m₁)
include hc

/-- The left side of a pipe has the write end for its output, and else what the pipe has. -/
theorem bound_left (hb : bindStream w 1 [r, w] m₁.born = .ok () k) :
    k.proc.fds = m.proc.fds.set 1 (m.world.opened.length + 1) := by
  have hmade := createChannel_channelled hc
  exact bindStream_pair hmade.pair (m := m₁.born) hmade.fds (Or.inr ⟨rfl, rfl⟩) hb

/-- The right side of a pipe has the read end for its input, and else what the pipe has. -/
theorem bound_right {m₂ : Machine} (hfds : m₂.proc.fds = m₁.proc.fds)
    (hb : bindStream r 0 [r, w] m₂.born = .ok () k) :
    k.proc.fds = m.proc.fds.set 0 m.world.opened.length := by
  have hmade := createChannel_channelled hc
  exact bindStream_pair hmade.pair (m := m₂.born) (hfds.trans hmade.fds) (Or.inl ⟨rfl, rfl⟩) hb

end Bound

section Beginning

variable {a b : Act Status} {m k : Machine} {op : Operator}

/-- Where a left side begins machines are orderly. -/
theorem BeginsLeft.orderly (h : BeginsLeft a m op k) (hm : m.Orderly) : k.Orderly := by
  cases h with
  | serial _ => exact hm
  | pipe hc _ hb =>
    have hmade := hm.proceeds (Keeps.createChannel_proceeds.of_ok hc)
    refine ⟨hmade.born.proceeds ((Keeps.bindStream_proceeds _ _ _).of_ok hb), ?_⟩
    rw [bound_left hc hb, Descriptors.get?_set_of_ne _ _ (by decide)]
    exact hm.errors
  | parallel _ => exact ⟨hm.born, hm.errors⟩

/-- Where a right side begins machines are orderly. -/
theorem BeginsRight.orderly (h : BeginsRight a b m op k) (hm : m.Orderly) (ha : Keeps Proceeds a)
    (hs : Keeps (Steady 2) a) : k.Orderly := by
  cases h with
  | serial _ hl _ =>
    refine ⟨hm.proceeds (ha.of_ok hl), ?_⟩
    rw [hs.of_ok hl hm.errors]
    exact hm.errors
  | pipe hruns =>
    obtain ⟨r, w, m₁, m₂, m₃, raw, hc, ⟨hx, -⟩, -, hb⟩ := hruns
    have hmade := hm.proceeds (Keeps.createChannel_proceeds.of_ok hc)
    have hran := hmade.proceeds ((Keeps.spawn_proceeds (.pipeSide_proceeds ha _ _ _ _)).of_ok hx)
    refine ⟨hran.born.proceeds ((Keeps.bindStream_proceeds _ _ _).of_ok hb), ?_⟩
    rw [bound_right hc ((Keeps.spawn _).of_ok hx) hb, Descriptors.get?_set_of_ne _ _ (by decide)]
    exact hm.errors
  | @parallel n hruns =>
    obtain ⟨⟨hx, -⟩, -⟩ := hruns
    have hran := hm.proceeds ((Keeps.spawn_proceeds (.sideWork_proceeds ha)).of_ok hx)
    have hfds : n.proc.fds = m.proc.fds := (Keeps.spawn _).of_ok hx
    refine ⟨hran.born, ?_⟩
    show n.proc.fds.get? 2 ≠ none
    rw [hfds]
    exact hm.errors

end Beginning

/-- Both sides of a pipe begin: the left one in `k₁`, the right one in `k₂`. The pipe makes its channel
on `r` and `w` up to `m₁`, the child for its left side up to `m₂`, and that for its right side up to
`m₃`. -/
structure Piping (a b : Act Status) (m : Machine) (r w : Nat) (m₁ m₂ m₃ k₁ k₂ : Machine) : Prop where
  /-- The channel is made. -/
  channel : createChannel m = .ok (r, w) m₁
  /-- The left child is made. -/
  left : spawn (pipeSide a w 1 r w) m₁ = .ok m₁.world.nextPid m₂
  /-- The right child is made. -/
  right : spawn (pipeSide b r 0 r w) m₂ = .ok m₂.world.nextPid m₃
  /-- The write end becomes the output of the left child. -/
  bindLeft : bindStream w 1 [r, w] m₁.born = .ok () k₁
  /-- The read end becomes the input of the right child. -/
  bindRight : bindStream r 0 [r, w] m₂.born = .ok () k₂

/-- The sides of a pipe begin in one run of it. -/
theorem exists_piping {a b : Act Status} {m k₁ k₂ : Machine} (hleft : BeginsLeft a m .pipe k₁)
    (hright : BeginsRight a b m .pipe k₂) : ∃ r w m₁ m₂ m₃, Piping a b m r w m₁ m₂ m₃ k₁ k₂ := by
  cases hleft with
  | serial hop => exact absurd hop (by decide)
  | @pipe r w raw m₁ m₂ _ hc hs hb =>
    cases hright with
    | serial hop _ _ => exact absurd hop (by decide)
    | pipe hruns =>
      obtain ⟨r', w', m₁', m₂', m₃, raw', hc', ⟨hx, -⟩, ⟨hy, -⟩, hb'⟩ := hruns
      obtain ⟨hends, rfl⟩ := EStateM.Result.ok.inj (hc.symm.trans hc')
      obtain ⟨rfl, rfl⟩ := Prod.mk.inj hends
      obtain ⟨-, rfl⟩ := EStateM.Result.ok.inj (hs.1.symm.trans hx)
      exact ⟨r, w, m₁, m₂, m₃, hc, hs.1, hy, hb, hb'⟩

/-- Where no call hinders, both sides of a pipe begin. -/
theorem exists_begins {a b : Act Status} (ha : Keeps Followed a) (hb : Keeps Followed b) {m : Machine}
    (hfree : ∀ e ∈ m.since ((piped a b).after m), ¬e.Hinders) :
    ∃ k₁ k₂, BeginsLeft a m .pipe k₁ ∧ BeginsRight a b m .pipe k₂ := by
  have hnone {n n' : Machine} (hn : Recorded m n) (hn' : Recorded n' ((piped a b).after m)) :
      ∀ x ∈ n.since n', ¬x.Hinders := fun x hmem => hfree x (hn.mem_rest (hn'.mem_first hmem))
  rcases piped_cases a b m with ⟨e, -, hr⟩ | ⟨r, w, m₁, pids, failure, m₂, hc, hbirths, hr⟩
  · have hcounted : Recorded m (m.counted .pipe) := List.prefix_refl _
    have hafter : Recorded (m.unpiped e) ((piped a b).after m) := by
      rw [after_eq_of_eq hr]
      exact Keeps.withoutPipe e _
    have hhinders : (Entry.called m.proc.pid (.pipe (.error e))).Hinders := by
      simp [Entry.Hinders, Entry.failed?, Event.failed?]
    exact absurd hhinders (hnone (Frame.refl m) hafter _ (Machine.mem_since_note hcounted _))
  · obtain ⟨hx, hy⟩ := pipeSides_followed ha hb r w
    have hstart : Recorded m m₁ := (Keeps.createChannel.of_ok hc).followed.journal
    have hafter : Recorded m₂ ((piped a b).after m) := by
      rw [after_eq_of_eq hr]
      exact Keeps.finishPipe (Keeps.closeAll _).recorded (fun pid _ => await_recorded pid) failure m₂
    cases failure with
    | some failure =>
      obtain ⟨-, x, hmem, hhinders⟩ := hbirths.hinders hx
      exact absurd hhinders (hnone hstart hafter x hmem)
    | none =>
      cases hbirths with
      | @two raw rawy n _ hbx hby hsx hsy =>
        have hleft : Recorded m₁ n := (hbx.followed hx).1.journal
        have hright : Recorded n m₂ := (hby.followed hy).1.journal
        obtain ⟨k₁, hk₁, -⟩ := hbx.exists_bind (hnone hstart (Frame.trans hright hafter))
        obtain ⟨k₂, hk₂, rfl⟩ := hby.exists_bind (hnone (Frame.trans hstart hleft) hafter)
        have hruns : PipeRuns a b m k₂ := ⟨r, w, m₁, n, m₂, raw, hc, ⟨hsx, hbx⟩, ⟨hsy, hby⟩, hk₂⟩
        exact ⟨k₁, k₂, .pipe hc ⟨hsx, hbx⟩ hk₁, .pipe hruns⟩

namespace Piping

variable {a b : Act Status} {m m₁ m₂ m₃ k₁ k₂ : Machine} {r w : Nat}
  (h : Piping a b m r w m₁ m₂ m₃ k₁ k₂)
include h

theorem piped_eq :
    piped a b m = finishPipe r w [m₁.world.nextPid, m₂.world.nextPid] none m₃ :=
  PipeMade.piped_eq ⟨h.channel, h.left, h.right⟩

theorem left_fds : k₁.proc.fds = m.proc.fds.set 1 (m.world.opened.length + 1) :=
  bound_left h.channel h.bindLeft

theorem right_fds : k₂.proc.fds = m.proc.fds.set 0 m.world.opened.length :=
  bound_right h.channel ((Keeps.spawn _).of_ok h.left) h.bindRight

theorem errors_left : k₁.proc.fds.get? 2 = m.proc.fds.get? 2 := by
  rw [h.left_fds, Descriptors.get?_set_of_ne _ _ (by decide)]

theorem errors_right : k₂.proc.fds.get? 2 = m.proc.fds.get? 2 := by
  rw [h.right_fds, Descriptors.get?_set_of_ne _ _ (by decide)]

theorem made : Proceeds m m₁ := Keeps.createChannel_proceeds.of_ok h.channel

theorem bornLeft : Proceeds m₁.born k₁ := (Keeps.bindStream_proceeds _ _ _).of_ok h.bindLeft

theorem bornRight : Proceeds m₂.born k₂ := (Keeps.bindStream_proceeds _ _ _).of_ok h.bindRight

theorem ran (ha : Keeps Proceeds a) : Proceeds m₁ m₂ :=
  (Keeps.spawn_proceeds (.pipeSide_proceeds ha _ _ _ _)).of_ok h.left

theorem flows_left (n f g : Nat) : Flows n f g m k₁ :=
  (h.made.flows n f g).trans ((m₁.flows_born n f g).trans (h.bornLeft.flows n f g))

theorem flows_right (ha : Keeps Proceeds a) (n f g : Nat) : Flows n f g m₁ k₂ :=
  ((h.ran ha).flows n f g).trans ((m₂.flows_born n f g).trans (h.bornRight.flows n f g))

section Orderly

variable (hm : m.Orderly)
include hm

theorem notMem : 2 ∉ [r, w] := by
  have hpair := (createChannel_channelled h.channel).pair
  intro hmem
  obtain rfl | rfl : 2 = r ∨ 2 = w := by simpa using hmem
  · exact hm.errors hpair.left
  · exact hm.errors hpair.right

theorem errors_made : m₁.proc.fds.get? 2 = m.proc.fds.get? 2 := createChannel_errors hm.errors h.channel

/-- The left side has the write end on its output alone. -/
theorem onOutput_left : k₁.OnOutput (m.world.opened.length + 1) := by
  have hends := (createChannel_ends hm.errors h.channel hm.toTidy).1
  obtain ⟨file, hfile, -⟩ := hends.writer
  have hopened : m.world.opened.length + 1 < m₁.world.opened.length :=
    (List.getElem?_eq_some_iff.1 hfile).1
  refine ⟨Nat.lt_of_lt_of_le hopened h.bornLeft.widens.grows.opened_le, fun fd hfd => ?_⟩
  rw [h.left_fds] at hfd
  by_contra hne
  rw [Descriptors.get?_set_of_ne _ _ hne] at hfd
  exact hm.get?_ne (Nat.le_succ _) fd hfd

/-- The left side does not have the read end. -/
theorem lacks_left : k₁.Lacks m.world.opened.length where
  opened := Nat.lt_of_succ_lt (h.onOutput_left hm).opened
  closed := by
    rw [h.left_fds]
    exact Descriptors.get?_set_ne (hm.get?_ne (Nat.le_refl _)) (by omega)

/-- The right side does not have the write end. -/
theorem lacks_right (ha : Keeps Proceeds a) : k₂.Lacks (m.world.opened.length + 1) where
  opened := by
    have hends := (createChannel_ends hm.errors h.channel hm.toTidy).1
    obtain ⟨file, hfile, -⟩ := ((h.flows_right ha 0 0 0).widens.ends hends).writer
    exact (List.getElem?_eq_some_iff.1 hfile).1
  closed := by
    rw [h.right_fds]
    exact Descriptors.get?_set_ne (hm.get?_ne (Nat.le_succ _)) (by omega)

end Orderly

section Sparing

variable (hm : m.Orderly) {x : Nat} (hx : m.proc.fds.get? 2 ≠ some x)
include hm hx

/-- Up to the left side, and from its end up to the right side, nothing goes through an open file but
where standard error leads. -/
theorem spares_left (ha : Keeps (Steady 2) a) :
    Spares x m m₁ ∧ Spares x m₁ k₁ ∧ Spares x (a.after k₁) m₂ ∧
      m₂.proc.fds.get? 2 = m.proc.fds.get? 2 := by
  have herrors := h.errors_made hm
  have hmade : Murmurs x m m₁ := createChannel_murmurs hm.errors h.channel x
  have hsteady : (a.after k₁).proc.fds.get? 2 = k₁.proc.fds.get? 2 := by
    refine ha k₁ ?_
    rw [h.errors_left]
    exact hm.errors
  obtain ⟨hbefore, hbehind, hkept⟩ :=
    spawn_spares h.left h.bindLeft (by decide) (h.notMem hm) hsteady (herrors ▸ hx)
  exact ⟨(hmade hx).2, hbefore, hbehind, hkept.trans herrors⟩

theorem spares_right (ha : Keeps (Steady 2) a) (hb : Keeps (Steady 2) b) :
    Spares x m₂ k₂ ∧ Spares x (b.after k₂) ((piped a b).after m) := by
  obtain ⟨-, -, -, herrors⟩ := h.spares_left hm hx ha
  have hsteady : (b.after k₂).proc.fds.get? 2 = k₂.proc.fds.get? 2 := by
    refine hb k₂ ?_
    rw [h.errors_right]
    exact hm.errors
  obtain ⟨hbefore, hbehind, hkept⟩ :=
    spawn_spares h.right h.bindRight (by decide) (h.notMem hm) hsteady (herrors ▸ hx)
  have hfinish : Keeps (Murmurs x) (finishPipe r w [m₁.world.nextPid, m₂.world.nextPid] none) :=
    .finishPipe (.closeAll_murmurs (h.notMem hm) x) (fun pid _ => .await_murmurs pid x) none
  rw [after_eq_of_eq h.piped_eq]
  refine ⟨hbefore, Frame.trans hbehind (hfinish m₃ ?_).2⟩
  rw [hkept, herrors]
  exact hx

end Sparing

/-- **What is conveyed**: where the right side begins, the channel holds what was written to it in the
run of the left side, all of it and in this order. -/
theorem content_eq (hm : m.Orderly) (ha : Keeps Proceeds a) (hs : Keeps (Steady 2) a)
    (hs' : Keeps (Steady 2) b) :
    k₂.world.Ends m.world.channels.length m.world.opened.length (m.world.opened.length + 1) ∧
      k₂.world.content m.world.channels.length
        = sent (m.world.opened.length + 1) (k₁.since (a.after k₁)) := by
  have hnew {x : Nat} (hx : m.world.opened.length ≤ x) : m.proc.fds.get? 2 ≠ some x := hm.get?_ne hx 2
  obtain ⟨hends, hempty⟩ := createChannel_ends hm.errors h.channel hm.toTidy
  have hflows := h.flows_right ha m.world.channels.length m.world.opened.length
    (m.world.opened.length + 1)
  obtain ⟨es, hes, hlaw⟩ := hflows.law hends
  obtain rfl := Machine.since_eq hes
  -- the write end is used in the run of the left side only, and the read end not at all
  have hran : Recorded k₁ (a.after k₁) := (ha k₁).recorded
  obtain ⟨-, hbefore, hbehind, -⟩ := h.spares_left hm (hnew (Nat.le_succ _)) hs
  have hrest := (h.spares_right hm (hnew (Nat.le_succ _)) hs hs').1
  obtain ⟨-, hbefore', hbehind', -⟩ := h.spares_left hm (hnew (Nat.le_refl _)) hs
  have hrest' := (h.spares_right hm (hnew (Nat.le_refl _)) hs hs').1
  have hunread : Spares m.world.opened.length k₁ (a.after k₁) :=
    ((h.lacks_left hm).within (ha k₁)).spares
  have hnone : Spares m.world.opened.length m₁ k₂ :=
    Frame.trans hbefore' (Frame.trans hunread (Frame.trans hbehind' hrest'))
  refine ⟨hflows.widens.ends hends, ?_⟩
  rw [hempty, received_eq_nil fun e he => hnone.of_mem_since he,
    hbefore.sent_between hran (Frame.trans hbehind hrest)] at hlaw
  exact hlaw.symm

end Piping

end LineShell
