import LineShell.Proofs.Doings

/-!
# What redirects leave open

A redirect opens its file on the lowest free descriptor. Where a standard stream is closed that
may be the number of the stream itself, and only descriptors beyond the standard streams are
closed again. So a stream that was closed may be left open without a redirect of its own: on the
file of the opening that took it. All other streams without a redirect, and all other descriptors,
are as they were.

## The model

* `Shows` says that the journal goes on and that certain things are seen in it, in their order.
  What is seen is given by a function on entries, and `Overlooks` says that it sees nothing in
  routine.
* `Entry.opening?` is the opening that an entry tells of, and `Entry.IsCall` says that it tells of
  a call.
* `Anew` is a file that a path names and that was opened between two machines.
* `Settled` puts together what becomes of the descriptors of a process by the redirects of a
  command.

## What is proved

* A call that is routine shows nothing, whether it is answered or not (`Calls.unseen`), so `Shows`
  goes through everything but the calls that are looked for.
* Bindings that are made open their files, each once, and no others (`bindAll_opened`), and all
  that redirects do is to make calls (`Keeps.applyRedirects_calls`).

The main result says what becomes of every descriptor; how many of the closed ones below a stream
the openings have used up decides about a stream that was closed. Behind it stands a command that
leaves a closed standard input open.
-/

namespace LineShell

open Act

/-! ### What a journal shows -/

/-- The journal goes on, and certain things are seen in it, in their order. -/
def Shows {β : Type} (f : Entry → Option β) (os : List β) (m m' : Machine) : Prop :=
  ∃ es, m'.world.journal = m.world.journal ++ es ∧ es.filterMap f = os

namespace Shows

variable {β : Type} {f : Entry → Option β} {os ps : List β} {a b c m m' : Machine}

theorem of_eq (h : m'.world.journal = m.world.journal) : Shows f [] m m' := ⟨[], by simp [h], rfl⟩

theorem of_append {e : Entry} (h : m'.world.journal = m.world.journal ++ [e]) :
    Shows f (f e).toList m m' := by
  refine ⟨[e], h, ?_⟩
  cases he : f e <;> simp [he]

theorem note (m : Machine) (e : Entry) : Shows f (f e).toList m (m.note e) := of_append rfl

theorem trans (hab : Shows f os a b) (hbc : Shows f ps b c) : Shows f (os ++ ps) a c := by
  obtain ⟨es, hes, rfl⟩ := hab
  obtain ⟨fs, hfs, rfl⟩ := hbc
  exact ⟨es ++ fs, by rw [hfs, hes, List.append_assoc], List.filterMap_append⟩

theorem since (h : Shows f os m m') : (m.since m').filterMap f = os := by
  obtain ⟨es, hes, hos⟩ := h
  rw [Machine.since_eq hes, hos]

end Shows

instance {β : Type} (f : Entry → Option β) : Frame (Shows f []) := ⟨fun _ => .of_eq rfl, .trans⟩

/-- A journal entry of the log, the beginning of a command, or a system call that neither opens a file
nor has to do with a program. -/
def Entry.isRoutine : Entry → Bool
  | .called _ (.openFile _ _ _) => false
  | .called _ (.exec _ _ _) => false
  | .called _ (.ended _) => false
  | .called _ _ => true
  | .logged _ => true
  | .began _ _ _ => true
  | .wrote _ _ _ log => log
  | .entered _ _ => false
  | .took _ _ _ => false

/-- Nothing is seen in routine. -/
class Overlooks {β : Type} (f : Entry → Option β) : Prop where
  /-- A routine entry shows nothing. -/
  routine {e : Entry} : e.isRoutine = true → f e = none

section Overlooks

variable {β : Type} {f : Entry → Option β} [Overlooks f]

theorem Shows.routine {m m' : Machine} {e : Entry} (he : e.isRoutine = true)
    (h : m'.world.journal = m.world.journal ++ [e]) : Shows f [] m m' := by
  have hshows : Shows f (f e).toList m m' := .of_append h
  rwa [Overlooks.routine (f := f) he] at hshows

/-- The log does not count. -/
instance : Logs (Shows f []) := .of_echo (fun _ _ => .routine rfl rfl) fun {m _ bs} h => by
  obtain ⟨file, w, -, hw, rfl⟩ := Machine.write_eq_ok h
  refine .routine (e := .wrote m.proc.pid file bs true) rfl ?_
  show w.journal ++ _ = _
  rw [(World.write_spec hw).journal]

instance : Tallies (Shows f []) := ⟨fun _ => .of_eq rfl⟩

namespace Act

/-- A call that is routine, whether it is answered or not. -/
theorem Calls.unseen {α : Type} {a : Act α} {event : Except Errno α → Event} (h : Calls a event)
    (hevent : ∀ pid r, Entry.isRoutine (.called pid (event r)) = true) : Keeps (Shows f []) a :=
  h.keeps fun _ {_ _} hnoted => .routine (hevent _ _) hnoted.journal

theorem dup_unseen (source target : Nat) : Keeps (Shows f []) (dup source target) :=
  (dup_calls source target).unseen fun _ _ => rfl

theorem forM_dup_unseen (fd : Nat) (streams : List Nat) :
    Keeps (Shows f []) (streams.forM (dup fd)) := .forM fun s _ => dup_unseen fd s

theorem closeAll_unseen (fds : List Nat) : Keeps (Shows f []) (LineShell.closeAll fds) :=
  .forM fun fd _ => (close_calls fd).unseen fun _ _ => rfl

theorem wait_unseen (pid : Nat) : Keeps (Shows f []) (wait pid) := (wait_calls pid).unseen fun _ _ => rfl

end Act

end Overlooks

/-! ### Openings -/

/-- The path and the mode of the opening that a journal entry tells of. -/
def Entry.opening? : Entry → Option (Text × OpenMode)
  | .called _ (.openFile path mode (.ok _)) => some (path, mode)
  | _ => none

instance : Overlooks Entry.opening? where
  routine {e} h := by
    unfold Entry.opening?
    split
    · exact nomatch h
    · rfl

namespace Act

theorem openFile_journal {path : Text} {mode : OpenMode} {fd : Nat} {m m' : Machine}
    (h : openFile path mode m = .ok fd m') :
    m'.world.journal = m.world.journal ++ [.called m.proc.pid (.openFile path mode (.ok fd))] := by
  obtain ⟨_, m₁, hr, hc⟩ := bind_eq_ok.1 h
  obtain ⟨-, rfl⟩ := refuse_eq_ok hr
  obtain ⟨next, hw, rfl⟩ := answered_eq_ok hc
  split at hw
  · simp at hw
  split at hw
  · simp at hw
  obtain ⟨-, rfl⟩ := Prod.mk.inj (Except.ok.inj hw)
  rfl

end Act

/-- Bindings that are made open their files, each once, and no others. -/
theorem bindAll_opened {opened : List Nat} {bs : List Binding} {m m' : Machine}
    (h : bindAll opened bs m = .ok () m') :
    Shows Entry.opening? (bs.map fun b => (b.path, b.mode)) m m' := by
  induction bs generalizing opened m with
  | nil => exact (closeAll_unseen _).of_ok h
  | cons b bs ih =>
    obtain ⟨fd, m₁, m₂, hopen, hdups, hrest⟩ := bindAll_cons_eq_ok h
    have hopened : Shows Entry.opening? [(b.path, b.mode)] m m₁ := .of_append (openFile_journal hopen)
    exact hopened.trans (((forM_dup_unseen fd _).of_ok hdups).trans (ih hrest))

/-! ### Calls -/

/-- A journal entry tells of a system call. -/
def Entry.IsCall (e : Entry) : Prop := ∃ pid event, e = .called pid event

theorem Act.Calls.adds {α : Type} {a : Act α} {event : Except Errno α → Event} (h : Calls a event) :
    Keeps (Adds Entry.IsCall) a :=
  h.keeps fun _ {_ _} hnoted => ⟨[_], hnoted.journal, by simp [Entry.IsCall]⟩

theorem Act.Keeps.openFile_calls (path : Text) (mode : OpenMode) :
    Keeps (Adds Entry.IsCall) (Act.openFile path mode) := by
  refine .bind (.refuseNul _) fun _ => (Calls.of_call (fun m x m' h => ?_) _ _ _).adds
  split at h
  · simp at h
  split at h
  · simp at h
  obtain ⟨-, rfl⟩ := Prod.mk.inj (Except.ok.inj h)
  exact ⟨rfl, rfl, Nat.le_refl _⟩

/-- All that redirects do is to make calls. -/
theorem Act.Keeps.applyRedirects_calls (c : Command) :
    Keeps (Adds Entry.IsCall) (LineShell.applyRedirects c) :=
  .bind .proc fun _ => .bindAll_of .openFile_calls (fun source target => (dup_calls source target).adds)
    (fun fd => (close_calls fd).adds) _ _

/-! ### What becomes of the streams -/

/-- A file that a path names was opened between two machines, as a mode says. -/
def Anew (m m' : Machine) (path : Text) (mode : OpenMode) (file : Nat) : Prop :=
  m.world.opened.length ≤ file ∧ m'.world.Opens m.proc.cwd path mode file

/-- What becomes of the descriptors of a process, between two machines, by the redirects of a
command. -/
structure Settled (c : Command) (m m' : Machine) : Prop where
  /-- The targets are opened, each as it is to be, and the one of standard output and standard error
  once where they have the same. -/
  openings : (m.since m').filterMap Entry.opening?
    = (c.bindings m.proc.table).map fun b => (b.path, b.mode)
  /-- A stream with a redirect leads to its target. -/
  redirected : ∀ x path mode, c.redirect? m.proc.table x = some (path, mode) →
    ∃ file, m'.proc.fds.get? x = some file ∧ Anew m m' path mode file
  /-- Standard output and standard error lead to one open file where they have the same target. -/
  shared : ∀ r e, c.output = some r → c.errors = some e →
    r.target.expand m.proc.table = e.target.expand m.proc.table →
    m'.proc.fds.get? 2 = m'.proc.fds.get? 1
  /-- A stream without a redirect that was open is as it was. -/
  kept : ∀ x ≤ 2, c.redirect? m.proc.table x = none → m.proc.fds.get? x ≠ none →
    m'.proc.fds.get? x = m.proc.fds.get? x
  /-- One that was closed is taken by the opening that comes when all closed ones below it are taken,
  and left on its file. It stays closed if there is no such opening. -/
  taken : ∀ x ≤ 2, c.redirect? m.proc.table x = none → m.proc.fds.get? x = none →
    match (c.bindings m.proc.table)[m.proc.fds.closedBelow x]? with
    | some b => ∃ file, m'.proc.fds.get? x = some file ∧ Anew m m' b.path b.mode file
    | none => m'.proc.fds.get? x = none
  /-- No other descriptor changes. -/
  others : ∀ x, 2 < x → m'.proc.fds.get? x = m.proc.fds.get? x

theorem Command.mem_streams_iff_of_shared {c : Command} {table : Table} {r e : Redirect}
    (hr : c.output = some r) (he : c.errors = some e)
    (heq : r.target.expand table = e.target.expand table) :
    ∀ b ∈ c.bindings table, 2 ∈ b.streams ↔ 1 ∈ b.streams := by
  intro b hb
  have hcases : (∃ w, c.input = some w ∧ ⟨w.expand table, .read, [0]⟩ = b) ∨
      b = ⟨r.target.expand table, r.mode, [1, 2]⟩ := by
    simpa [bindings, hr, he, heq] using hb
  rcases hcases with ⟨w, -, rfl⟩ | rfl
  · simp
  · simp

/-- **What redirects do to the streams**, where standard error is open: whichever of the others are
closed, they touch the streams that they name, and besides those only closed streams whose numbers
their openings take. -/
theorem applyRedirects_settled {c : Command} {m m' : Machine}
    (hm : ∃ old, m.proc.fds.get? 2 = some old) (h : applyRedirects c m = .ok () m') :
    Settled c m m' := by
  obtain ⟨files, hfiles, hget, hothers⟩ := applyRedirects_get? hm h
  have hunbound (x : Nat) (hx : x ≤ 2) (hnone : c.redirect? m.proc.table x = none) :
      m'.proc.fds.get? x = (m.proc.fds.get? x).or files[m.proc.fds.closedBelow x]? := by
    rw [hget x hx, boundFile_of_none hnone, Option.none_or]
  refine ⟨?_, fun x path mode hsome => ?_, fun r e hr he heq => ?_, fun x hx hnone hopen => ?_,
    fun x hx hnone hclosed => ?_, hothers⟩
  · obtain ⟨p, m₁, hp, hbind⟩ := bind_eq_ok.1 h
    obtain ⟨rfl, rfl⟩ := EStateM.Result.ok.inj hp
    exact (bindAll_opened hbind).since
  · have hx : x ≤ 2 := by
      refine Nat.le_of_not_lt fun hlt => ?_
      rw [c.redirect?_eq_none _ hlt] at hsome
      simp at hsome
    obtain ⟨file, hbound, hanew⟩ := exists_boundFile_of_some (P := Anew m m') hfiles hsome
    exact ⟨file, by rw [hget x hx, hbound, Option.some_or], hanew⟩
  · have hsome : c.redirect? m.proc.table 1 = some (r.target.expand m.proc.table, r.mode) := by
      simp [Command.redirect?, hr]
    obtain ⟨file, hbound, -⟩ := exists_boundFile_of_some (P := Anew m m') hfiles hsome
    have hsame : boundFile 2 ((c.bindings m.proc.table).zip files)
        = boundFile 1 ((c.bindings m.proc.table).zip files) := boundFile_congr fun e' he' =>
      Command.mem_streams_iff_of_shared hr he heq e'.1 (List.of_mem_zip he').1
    rw [hget 2 (Nat.le_refl 2), hget 1 (by omega), hsame, hbound, Option.some_or, Option.some_or]
  · obtain ⟨old, hold⟩ := Option.ne_none_iff_exists'.1 hopen
    rw [hunbound x hx hnone, hold, Option.some_or]
  · rw [hunbound x hx hnone, hclosed, Option.none_or]
    have hlength := hfiles.length_eq
    cases hb : (c.bindings m.proc.table)[m.proc.fds.closedBelow x]? with
    | none =>
      rw [List.getElem?_eq_none_iff] at hb ⊢
      omega
    | some b =>
      obtain ⟨hlt, rfl⟩ := List.getElem?_eq_some_iff.1 hb
      have hlt' : m.proc.fds.closedBelow x < files.length := by omega
      exact ⟨_, List.getElem?_eq_getElem hlt', hfiles.get hlt hlt'⟩

/-- The command `cat < /dev/null > out`. -/
def copyNothing : Command :=
  ⟨[.lit "cat".toList], [], some [.lit "/dev/null".toList], some ⟨[.lit "out".toList], false⟩, none⟩

/-- `cat < /dev/null > out` where standard input and standard output are closed: either opening takes
the number of the stream that it is for. -/
theorem applyRedirects_settled_copyNothing :
    let m := Machine.boot .standard FileTree.home [] [0, 1] [] []
    (∃ old, m.proc.fds.get? 2 = some old) ∧ ∃ m', applyRedirects copyNothing m = .ok () m' ∧
      Settled copyNothing m m' ∧ m'.proc.fds.numbers = [0, 1, 2] := by
  intro m
  have hm : ∃ old, m.proc.fds.get? 2 = some old := ⟨2, rfl⟩
  have hnumbers : (answer? (applyRedirects copyNothing m)).map (·.2.proc.fds.numbers)
      = some [0, 1, 2] := by decide +kernel
  obtain ⟨⟨_, m'⟩, hrun, hfds⟩ := Option.map_eq_some_iff.1 hnumbers
  have hok := eq_ok_of_answer? hrun
  exact ⟨hm, m', hok, applyRedirects_settled hm hok, hfds⟩

/-- The command `fds > out`. -/
def listOpen : Command :=
  ⟨[.lit "fds".toList], [], none, some ⟨[.lit "out".toList], false⟩, none⟩

/-- A stream without a redirect is not always as it was: where standard input is closed, `fds > out`
leaves it open, on the file that standard output leads to. -/
theorem applyRedirects_not_kept :
    ¬∀ (c : Command) (m m' : Machine), (∃ old, m.proc.fds.get? 2 = some old) →
      applyRedirects c m = .ok () m' → ∀ x ≤ 2, c.redirect? m.proc.table x = none →
        m'.proc.fds.get? x = m.proc.fds.get? x := by
  intro hkept
  have hleft : (answer? (applyRedirects listOpen
      (.boot .standard FileTree.home [] [0] [] []))).map (·.2.proc.fds.get? 0) = some (some 3) := by
    decide +kernel
  obtain ⟨⟨_, m'⟩, hrun, hfd⟩ := Option.map_eq_some_iff.1 hleft
  have hsame := hkept listOpen _ m' ⟨2, rfl⟩ (eq_ok_of_answer? hrun) 0 (Nat.zero_le 2) rfl
  have hclosed : (Machine.boot .standard FileTree.home [] [0] [] []).proc.fds.get? 0 = none := rfl
  rw [hfd, hclosed] at hsame
  simp at hsame

end LineShell
