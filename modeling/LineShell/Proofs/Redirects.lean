import Mathlib.Data.List.Forall2
import LineShell.Proofs.Frames

/-!
# Where descriptors lead

What the shell's two ways of changing descriptors come to: a channel whose end becomes a standard
stream, and redirects. Either opens descriptors, binds standard streams to them and closes them
again, so all that is left of it is where the standard streams lead.

## The model

* `Descriptors.Pair` is what is known of the two descriptors of a channel: both were free, and
  they are two.
* `boundFile` is the file that the last binding of a stream binds it to, given bindings with the
  open files that they led to.
* `Descriptors.Standard` says that the standard streams are open; `Descriptors.closedBelow` counts
  the closed descriptors below one.
* `Command.redirect?` is what a command asks for a stream: a path, and how it is opened.

## What is proved

* A standard stream that is bound to an end of a channel leads there, and no other descriptor
  changes, even where the stream was closed and so may be one of the channel's own descriptors
  (`bindStream_pair`).
* Bindings that are made lead their streams to the files that they name (`bindAll_eq_ok`). The
  induction is on the bindings; the table that is in force between two of them is told by how many
  closed descriptors the openings have used up.
* Redirects of a command lead each stream that has one to its file and leave the other standard
  streams as they are, where these are open (`applyRedirects_get?`, `applyRedirects_eq_ok`).

## What is left out

A stream that is closed and has no redirect can be taken by an opening, and is then left open on a
file that was meant for another stream. Here it is only said when that happens; what follows from
it is the matter of a module of its own.
-/

namespace LineShell

open Act

/-! ### Closing -/

theorem closeAll_eq_ok {fds : List Nat} {m m' : Machine} (h : closeAll fds m = .ok () m') (x : Nat) :
    m'.proc.fds.get? x = if x ∈ fds then none else m.proc.fds.get? x := by
  induction fds generalizing m with
  | nil =>
    obtain ⟨-, rfl⟩ := EStateM.Result.ok.inj h
    rfl
  | cons fd fds ih =>
    obtain ⟨_, m₁, hc, hrest⟩ := bind_eq_ok.1 h
    rw [ih hrest, close_eq_ok hc]
    by_cases hx : x ∈ fds
    · simp [hx]
    by_cases hfd : x = fd
    · subst hfd
      simp [hx]
    · simp [hx, hfd, Descriptors.get?_erase_of_ne _ hfd]

/-! ### Channels -/

/-- Two free descriptors that a channel is made on. -/
structure Descriptors.Pair (t : Descriptors) (r w : Nat) : Prop where
  /-- The first one is free. -/
  left : t.get? r = none
  /-- The second one is free. -/
  right : t.get? w = none
  /-- They are two. -/
  ne : r ≠ w

theorem Descriptors.pair_free (t : Descriptors) (file : Nat) :
    t.Pair t.free (t.set t.free file).free := by
  have hfree := (t.set t.free file).get?_free
  have hne : (t.set t.free file).free ≠ t.free := by
    intro h
    rw [h] at hfree
    simp at hfree
  exact ⟨t.get?_free, by rwa [Descriptors.get?_set_of_ne _ _ hne] at hfree, hne.symm⟩

section Channel

variable {t : Descriptors} {r w f g : Nat} (hp : t.Pair r w) {m m' : Machine}
  (hm : m.proc.fds = (t.set r f).set w g)
include hp hm

/-- Once both ends of a channel are closed the descriptors are what they were before it. -/
theorem closeAll_pair (h : closeAll [r, w] m = .ok () m') : m'.proc.fds = t := by
  refine Descriptors.ext_get? fun x => ?_
  rw [closeAll_eq_ok h, hm]
  by_cases hr : x = r
  · subst hr
    simp [hp.left]
  by_cases hw : x = w
  · subst hw
    simp [hp.right]
  · simp [hr, hw, Descriptors.get?_set_of_ne]

/-- A standard stream bound to an end of a channel leads to that end, and nothing else changes, even
where the stream was closed and so may be one of the two descriptors. -/
theorem bindStream_pair {fd standard file : Nat} (hfd : fd = r ∧ file = f ∨ fd = w ∧ file = g)
    (h : bindStream fd standard [r, w] m = .ok () m') : m'.proc.fds = t.set standard file := by
  obtain ⟨_, m₁, hd, hc⟩ := bind_eq_ok.1 h
  obtain ⟨file', hfile, hm₁⟩ := dup_eq_ok hd
  have hfile' : file' = file := by
    rw [hm] at hfile
    rcases hfd with ⟨rfl, rfl⟩ | ⟨rfl, rfl⟩
    · rw [Descriptors.get?_set_of_ne _ _ hp.ne] at hfile
      simpa using hfile.symm
    · simpa using hfile.symm
  refine Descriptors.ext_get? fun x => ?_
  rw [closeAll_eq_ok hc, hm₁, hm, hfile']
  by_cases hx : x = standard
  · subst hx
    simp
  by_cases hr : x = r
  · subst hr
    simp [hx, hp.left, Descriptors.get?_set_of_ne _ _ hx]
  by_cases hw : x = w
  · subst hw
    simp [hx, hp.right, Descriptors.get?_set_of_ne _ _ hx]
  · simp [hr, hw, Descriptors.get?_set_of_ne _ _ hx, Descriptors.get?_set_of_ne]

end Channel

/-! ### Redirects -/

/-- The file that the last binding of a stream binds it to, of bindings with their open files. -/
def boundFile (x : Nat) : List (Binding × Nat) → Option Nat
  | [] => none
  | (b, file) :: rest => (boundFile x rest).or (if x ∈ b.streams then some file else none)

/-- Later bindings count before earlier ones. -/
theorem boundFile_append (x : Nat) (as bs : List (Binding × Nat)) :
    boundFile x (as ++ bs) = (boundFile x bs).or (boundFile x as) := by
  induction as with
  | nil => simp [boundFile]
  | cons a as ih => rw [List.cons_append, boundFile, boundFile, ih, Option.or_assoc]

theorem boundFile_eq_none {x : Nat} {bs : List (Binding × Nat)}
    (h : ∀ e ∈ bs, x ∉ e.1.streams) : boundFile x bs = none := by
  induction bs with
  | nil => rfl
  | cons e bs ih =>
    obtain ⟨he, hbs⟩ := List.forall_mem_cons.1 h
    simp [boundFile, ih hbs, he]

/-- Duplicating one descriptor over others, itself maybe among them, makes them lead where it
leads. -/
theorem forM_dup_eq_ok {fd file : Nat} {streams : List Nat} {m m' : Machine}
    (hfd : m.proc.fds.get? fd = some file) (h : streams.forM (dup fd) m = .ok () m') (x : Nat) :
    m'.proc.fds.get? x = if x ∈ streams then some file else m.proc.fds.get? x := by
  induction streams generalizing m with
  | nil =>
    obtain ⟨-, rfl⟩ := EStateM.Result.ok.inj h
    rfl
  | cons s streams ih =>
    obtain ⟨_, m₁, hd, hrest⟩ := bind_eq_ok.1 h
    obtain ⟨file', hfile, hm₁⟩ := dup_eq_ok hd
    obtain rfl := Option.some.inj (hfd.symm.trans hfile)
    have hfd' : m₁.proc.fds.get? fd = some file := by
      rw [hm₁]
      by_cases hs : fd = s
      · subst hs
        simp
      · rw [Descriptors.get?_set_of_ne _ _ hs, hfd]
    rw [ih hfd' hrest, hm₁]
    by_cases hx : x ∈ streams
    · simp [hx]
    by_cases hxs : x = s
    · subst hxs
      simp
    · simp [hx, hxs, Descriptors.get?_set_of_ne]

/-- Descriptors among which the standard streams are open. -/
def Descriptors.Standard (t : Descriptors) : Prop := ∀ fd ≤ 2, ∃ file, t.get? fd = some file

namespace Act.Keeps

/-- Bindings keep what the calls keep that they are made by. -/
theorem bindAll_of {R : Machine → Machine → Prop} [Frame R]
    (hopen : ∀ path mode, Keeps R (Act.openFile path mode))
    (hdup : ∀ source target, Keeps R (Act.dup source target))
    (hclose : ∀ fd, Keeps R (Act.close fd)) (opened : List Nat) (bs : List Binding) :
    Keeps R (LineShell.bindAll opened bs) := by
  have hspare (opened : List Nat) : Keeps R (LineShell.closeOpened opened) := .forM fun fd _ => hclose fd
  induction bs generalizing opened with
  | nil => exact hspare opened
  | cons b bs ih =>
    refine .bind (.attempt (hopen _ _)) fun r => ?_
    cases r with
    | error e => exact .bind (hspare _) fun _ => .throw e
    | ok fd =>
      refine .bind (.attempt (.forM fun s _ => hdup fd s)) fun r => ?_
      cases r with
      | error e => exact .bind (hspare _) fun _ => .throw e
      | ok _ => exact ih _

theorem bindAll (opened : List Nat) (bs : List Binding) :
    Keeps Rebound (LineShell.bindAll opened bs) := .bindAll_of openFile dup close opened bs

theorem applyRedirects (c : Command) : Keeps Rebound (LineShell.applyRedirects c) :=
  .bind .proc fun _ => bindAll _ _

end Act.Keeps

theorem Descriptors.exists_of_lt_freeFrom {n k : Nat} {es : List (Nat × Nat)} (hn : n ≤ k)
    (hk : k < freeFrom n es) : ∃ file, (k, file) ∈ es := by
  fun_induction freeFrom n es with
  | case1 => omega
  | case2 e es ih =>
    by_cases h : e.1 = k
    · exact ⟨e.2, by rw [← h]; exact List.mem_cons_self⟩
    · obtain ⟨file, hmem⟩ := ih (by omega) hk
      exact ⟨file, List.mem_cons_of_mem _ hmem⟩
  | case3 n e es he he' ih =>
    obtain ⟨file, hmem⟩ := ih hn hk
    exact ⟨file, List.mem_cons_of_mem _ hmem⟩
  | case4 => omega

/-- The lowest free descriptor is at most any that is closed. -/
theorem Descriptors.free_le {t : Descriptors} {x : Nat} (h : t.get? x = none) : t.free ≤ x := by
  refine Nat.le_of_not_lt fun hlt => ?_
  obtain ⟨file, hmem⟩ := Descriptors.exists_of_lt_freeFrom (Nat.zero_le x) hlt
  rw [(mem_entries_iff t x file).1 hmem] at h
  simp at h

/-- How many of the descriptors below one are closed. -/
def Descriptors.closedBelow (t : Descriptors) (x : Nat) : Nat :=
  (List.range x).countP fun fd => (t.get? fd).isNone

/-- The first binding opens the lowest free descriptor `fd` and binds its streams. What the table
shows of a stream `x` that no binding is for is then: what it showed, or else the file of the
opening that comes when all closed descriptors below `x` have been taken. -/
theorem Descriptors.closedBelow_step {t u : Descriptors} {file : Nat} {streams files : List Nat}
    (hu : ∀ x, u.get? x = if x ∈ streams then some file else (t.set t.free file).get? x)
    {x : Nat} (hx : x ≤ 2) (hstreams : x ∉ streams) (hopen : ∃ old, t.get? 2 = some old) :
    (u.get? x).or files[u.closedBelow x]? = (t.get? x).or (file :: files)[t.closedBelow x]? := by
  obtain ⟨old, hopen⟩ := hopen
  have hux : u.get? x = (t.set t.free file).get? x := by rw [hu, if_neg hstreams]
  cases hold : t.get? x with
  | some old =>
    rw [hux, Descriptors.get?_set_of_ne _ _ (Descriptors.ne_free_of_get? hold), hold]
    rfl
  | none =>
    rw [hux, Option.none_or]
    have hfree : t.free ≤ x := Descriptors.free_le hold
    have hne : x ≠ 2 := by
      rintro rfl
      simp [hopen] at hold
    obtain rfl | rfl : x = 0 ∨ x = 1 := by omega
    · have hzero : t.free = 0 := by omega
      simp [closedBelow, hzero]
    cases hbelow : t.get? 0 with
    | some below =>
      have hone : t.free = 1 := by
        have hne := Descriptors.ne_free_of_get? hbelow
        omega
      simp [closedBelow, hbelow, hone]
    | none =>
      have hzero : t.free = 0 := Nat.le_zero.1 (Descriptors.free_le hbelow)
      have hfilled : u.get? 0 = some file := by simp [hu, hzero]
      simp [closedBelow, hbelow, hfilled, hzero, hold, Descriptors.get?_set_of_ne]

/-- A binding that is made opens its file and binds its streams. -/
theorem bindAll_cons_eq_ok {opened : List Nat} {b : Binding} {bs : List Binding} {m m' : Machine}
    (h : bindAll opened (b :: bs) m = .ok () m') :
    ∃ fd m₁ m₂, openFile b.path b.mode m = .ok fd m₁ ∧ b.streams.forM (dup fd) m₁ = .ok () m₂ ∧
      bindAll (opened ++ [fd]) bs m₂ = .ok () m' := by
  obtain ⟨r, m₁, hopen, h⟩ := bind_eq_ok.1 h
  rcases attempt_eq_ok hopen with ⟨fd, rfl, hopened⟩ | ⟨e, rfl, -⟩
  · obtain ⟨r, m₂, hdup, h⟩ := bind_eq_ok.1 h
    rcases attempt_eq_ok hdup with ⟨_, rfl, hdups⟩ | ⟨e, rfl, -⟩
    · exact ⟨fd, m₁, m₂, hopened, hdups, h⟩
    · obtain ⟨_, _, -, h⟩ := bind_eq_ok.1 h
      exact absurd h not_throw_eq_ok
  · obtain ⟨_, _, -, h⟩ := bind_eq_ok.1 h
    exact absurd h not_throw_eq_ok

/-- Bindings that are made lead their streams to the files that they name. Where standard error is
open, a closed stream that no binding is for can only be taken by an opening, and is then left
open, for only descriptors beyond the standard streams are closed in the end. -/
theorem bindAll_eq_ok {opened : List Nat} {bs : List Binding} {m m' : Machine}
    (h : bindAll opened bs m = .ok () m') (hm : ∃ old, m.proc.fds.get? 2 = some old)
    (hbs : ∀ b ∈ bs, ∀ s ∈ b.streams, s ≤ 2) :
    ∃ files, List.Forall₂ (fun b file => m.world.opened.length ≤ file ∧
        m'.world.Opens m.proc.cwd b.path b.mode file) bs files ∧
      (∀ x ≤ 2, m'.proc.fds.get? x = (boundFile x (bs.zip files)).or
        ((m.proc.fds.get? x).or files[m.proc.fds.closedBelow x]?)) ∧
      ∀ x, 2 < x → m'.proc.fds.get? x = if x ∈ opened then none else m.proc.fds.get? x := by
  induction bs generalizing opened m with
  | nil =>
    refine ⟨[], .nil, fun x hx => ?_, fun x hx => ?_⟩
    · rw [closeAll_eq_ok h, if_neg (by simp; omega)]
      simp [boundFile]
    · rw [closeAll_eq_ok h]
      simp [hx]
  | cons b bs ih =>
    obtain ⟨hb, hbs⟩ := List.forall_mem_cons.1 hbs
    obtain ⟨fd, m₁, m₂, hopened, hdups, h⟩ := bindAll_cons_eq_ok h
    obtain ⟨rfl, hm₁, hfile⟩ := openFile_eq_ok hopened
    have hm₂ := forM_dup_eq_ok (by rw [hm₁, Descriptors.get?_set_self]) hdups
    rw [hm₁] at hm₂
    have hkeep₁ := (Keeps.openFile b.path b.mode).of_ok hopened
    have hkeep₂ : Keeps Rebound (b.streams.forM (dup m.proc.fds.free)) := .forM fun s _ => .dup _ s
    have hkeep₂ := hkeep₂.of_ok hdups
    have hkeep₃ := (Keeps.bindAll (opened ++ [m.proc.fds.free]) bs).of_ok h
    have hstill : ∃ old, m₂.proc.fds.get? 2 = some old := by
      obtain ⟨old, hold⟩ := hm
      rw [hm₂, Descriptors.get?_set_of_ne _ _ (Descriptors.ne_free_of_get? hold), hold]
      split
      · exact ⟨_, rfl⟩
      · exact ⟨old, rfl⟩
    obtain ⟨files, hfiles, hget, hbeyond⟩ := ih h hstill hbs
    have hcwd : m₂.proc.cwd = m.proc.cwd := hkeep₂.cwd.trans hkeep₁.cwd
    have hle := (hkeep₁.still.grows.trans hkeep₂.still.grows).opened_le
    have hlater : List.Forall₂ (fun b file => m.world.opened.length ≤ file ∧
        m'.world.Opens m.proc.cwd b.path b.mode file) bs files :=
      hfiles.imp fun b file hb => ⟨Nat.le_trans hle hb.1, hcwd ▸ hb.2⟩
    have hgrows := hkeep₂.still.grows.trans hkeep₃.still.grows
    refine ⟨_ :: files, .cons ⟨Nat.le_refl _, hfile.of_grows hgrows⟩ hlater,
      fun x hx => ?_, fun x hx => ?_⟩
    · rw [hget x hx, List.zip_cons_cons, boundFile, Option.or_assoc]
      by_cases hs : x ∈ b.streams
      · simp [hm₂, hs]
      · rw [if_neg hs, Option.none_or, Descriptors.closedBelow_step hm₂ hx hs hm]
    · have hs : x ∉ b.streams := by
        intro hs
        have hle := hb x hs
        omega
      rw [hbeyond x hx, hm₂, if_neg hs]
      by_cases hfree : x = m.proc.fds.free
      · simp [hfree]
      · simp [hfree, Descriptors.get?_set_of_ne]

theorem Redirect.mode_ne_read (r : Redirect) : r.mode ≠ .read := by
  unfold mode
  split <;> simp

/-- What a command redirects a stream to: a path, and how it is opened. Standard error is opened as
standard output is where both have one path. -/
def Command.redirect? (c : Command) (table : Table) : Nat → Option (Text × OpenMode)
  | 0 => c.input.map fun w => (w.expand table, .read)
  | 1 => c.output.map fun r => (r.target.expand table, r.mode)
  | 2 => c.errors.map fun e => (e.target.expand table,
      match c.output with
      | none => e.mode
      | some r => if r.target.expand table = e.target.expand table then r.mode else e.mode)
  | _ => none

/-- Standard error is redirected to what is opened for writing. -/
theorem Command.errors_mode_ne_read {c : Command} {table : Table} {path : Text} {mode : OpenMode}
    (h : c.redirect? table 2 = some (path, mode)) : mode ≠ .read := by
  obtain ⟨e, -, htarget⟩ := Option.map_eq_some_iff.1 h
  obtain ⟨-, rfl⟩ := Prod.mk.inj htarget
  split
  · exact e.mode_ne_read
  · split
    · exact Redirect.mode_ne_read _
    · exact e.mode_ne_read

/-- A stream is bound as it is redirected. -/
theorem Command.redirect?_of_mem {c : Command} {table : Table} {b : Binding} {x : Nat}
    (h : b ∈ c.bindings table) (hx : x ∈ b.streams) : c.redirect? table x = some (b.path, b.mode) := by
  unfold bindings at h
  rcases List.mem_append.1 h with h | h
  · obtain ⟨w, hw, rfl⟩ : ∃ w, c.input = some w ∧ ⟨w.expand table, .read, [0]⟩ = b := by
      simpa using h
    obtain rfl := List.mem_singleton.1 hx
    simp [redirect?, hw]
  · cases hout : c.output with
    | none =>
      cases herr : c.errors with
      | none => simp [hout, herr] at h
      | some e =>
        obtain rfl : b = ⟨e.target.expand table, e.mode, [2]⟩ := by simpa [hout, herr] using h
        obtain rfl := List.mem_singleton.1 hx
        simp [redirect?, hout, herr]
    | some r =>
      cases herr : c.errors with
      | none =>
        obtain rfl : b = ⟨r.target.expand table, r.mode, [1]⟩ := by simpa [hout, herr] using h
        obtain rfl := List.mem_singleton.1 hx
        simp [redirect?, hout]
      | some e =>
        by_cases heq : r.target.expand table = e.target.expand table
        · obtain rfl : b = ⟨r.target.expand table, r.mode, [1, 2]⟩ := by
            simpa [hout, herr, heq] using h
          obtain rfl | rfl : x = 1 ∨ x = 2 := by simpa using hx
          · simp [redirect?, hout]
          · simp [redirect?, hout, herr, heq]
        · have hb : b = ⟨r.target.expand table, r.mode, [1]⟩ ∨
              b = ⟨e.target.expand table, e.mode, [2]⟩ := by simpa [hout, herr, heq] using h
          rcases hb with rfl | rfl
          · obtain rfl := List.mem_singleton.1 hx
            simp [redirect?, hout]
          · obtain rfl := List.mem_singleton.1 hx
            simp [redirect?, hout, herr, heq]

/-- Every redirect has its binding. -/
theorem Command.exists_binding {c : Command} {table : Table} {x : Nat}
    (h : c.redirect? table x ≠ none) : ∃ b ∈ c.bindings table, x ∈ b.streams := by
  obtain ⟨verb, args, input, output, errors⟩ := c
  match x with
  | 0 => cases input <;> simp [redirect?, bindings] at h ⊢
  | 1 =>
    cases output with
    | none => simp [redirect?] at h
    | some r =>
      cases errors with
      | none => simp [bindings]
      | some e =>
        by_cases heq : r.target.expand table = e.target.expand table
        · simp [bindings, heq]
        · exact ⟨⟨r.target.expand table, r.mode, [1]⟩, by simp [bindings, heq], List.mem_cons_self⟩
  | 2 =>
    cases errors with
    | none => simp [redirect?] at h
    | some e =>
      cases output with
      | none => simp [bindings]
      | some r =>
        by_cases heq : r.target.expand table = e.target.expand table
        · simp [bindings, heq]
        · exact ⟨⟨e.target.expand table, e.mode, [2]⟩, by simp [bindings, heq], List.mem_cons_self⟩
  | x + 3 => simp [redirect?] at h

/-- If a stream is bound at all, it leads to the file of a binding of it. -/
theorem exists_boundFile {x : Nat} {bs : List Binding} {files : List Nat}
    {P : Binding → Nat → Prop} (h : List.Forall₂ P bs files) (hx : ∃ b ∈ bs, x ∈ b.streams) :
    ∃ b ∈ bs, ∃ file, x ∈ b.streams ∧ boundFile x (bs.zip files) = some file ∧ P b file := by
  induction h with
  | nil => simp at hx
  | @cons b file bs files hp _ ih =>
    by_cases hrest : ∃ b ∈ bs, x ∈ b.streams
    · obtain ⟨b', hb', file', hx', hbound, hp'⟩ := ih hrest
      exact ⟨b', List.mem_cons_of_mem _ hb', file', hx', by simp [boundFile, hbound], hp'⟩
    · have hb : x ∈ b.streams := by
        obtain ⟨b', hb', hx'⟩ := hx
        rcases List.mem_cons.1 hb' with rfl | hb'
        · exact hx'
        · exact absurd ⟨b', hb', hx'⟩ hrest
      have hnone : boundFile x (bs.zip files) = none :=
        boundFile_eq_none fun e he hx' => hrest ⟨e.1, (List.of_mem_zip he).1, hx'⟩
      exact ⟨b, List.mem_cons_self, file, hb, by simp [boundFile, hnone, hb], hp⟩

theorem Command.redirect?_eq_none (c : Command) (table : Table) {x : Nat} (h : 2 < x) :
    c.redirect? table x = none := by
  match x with
  | x + 3 => rfl

/-- Two streams with the same bindings are bound to one file. -/
theorem boundFile_congr {x y : Nat} {bs : List (Binding × Nat)}
    (h : ∀ e ∈ bs, x ∈ e.1.streams ↔ y ∈ e.1.streams) : boundFile x bs = boundFile y bs := by
  induction bs with
  | nil => rfl
  | cons e bs ih =>
    obtain ⟨he, hbs⟩ := List.forall_mem_cons.1 h
    simp only [boundFile, ih hbs, he]

theorem Command.bindings_streams_le (c : Command) (table : Table) :
    ∀ b ∈ c.bindings table, ∀ s ∈ b.streams, s ≤ 2 := by
  intro b hb s hs
  refine Nat.le_of_not_lt fun hlt => ?_
  have hbound := Command.redirect?_of_mem hb hs
  rw [c.redirect?_eq_none _ hlt] at hbound
  simp at hbound

/-- What a command's redirects come to where standard error is open: each file is opened, and each
standard stream leads to the file that the last binding of it binds it to; without one it is as it
was, or, if it was closed, leads to the file whose opening took it. No other descriptor changes. -/
theorem applyRedirects_get? {c : Command} {m m' : Machine}
    (hm : ∃ old, m.proc.fds.get? 2 = some old) (h : applyRedirects c m = .ok () m') :
    ∃ files, List.Forall₂ (fun b file => m.world.opened.length ≤ file ∧
        m'.world.Opens m.proc.cwd b.path b.mode file) (c.bindings m.proc.table) files ∧
      (∀ x ≤ 2, m'.proc.fds.get? x = (boundFile x ((c.bindings m.proc.table).zip files)).or
        ((m.proc.fds.get? x).or files[m.proc.fds.closedBelow x]?)) ∧
      ∀ x, 2 < x → m'.proc.fds.get? x = m.proc.fds.get? x := by
  obtain ⟨p, m₁, hp, h⟩ := bind_eq_ok.1 h
  obtain ⟨rfl, rfl⟩ := EStateM.Result.ok.inj hp
  obtain ⟨files, hfiles, hget, hbeyond⟩ := bindAll_eq_ok h hm (c.bindings_streams_le _)
  refine ⟨files, hfiles, hget, fun x hx => ?_⟩
  rw [hbeyond x hx, if_neg List.not_mem_nil]

section Bound

variable {c : Command} {table : Table} {files : List Nat}

/-- A stream without a redirect is not bound. -/
theorem boundFile_of_none {x : Nat} (h : c.redirect? table x = none) :
    boundFile x ((c.bindings table).zip files) = none := by
  refine boundFile_eq_none fun e he hs => ?_
  rw [Command.redirect?_of_mem (List.of_mem_zip he).1 hs] at h
  simp at h

/-- A stream with a redirect is bound to a file that was opened as the redirect says. -/
theorem exists_boundFile_of_some {P : Text → OpenMode → Nat → Prop}
    (hfiles : List.Forall₂ (fun b => P b.path b.mode) (c.bindings table) files)
    {x : Nat} {path : Text} {mode : OpenMode} (h : c.redirect? table x = some (path, mode)) :
    ∃ file, boundFile x ((c.bindings table).zip files) = some file ∧ P path mode file := by
  have hsome : c.redirect? table x ≠ none := by simp [h]
  obtain ⟨b, hb, file, hs, hbound, hopens⟩ :=
    exists_boundFile hfiles (Command.exists_binding hsome)
  obtain ⟨rfl, rfl⟩ : b.path = path ∧ b.mode = mode := by
    simpa [Command.redirect?_of_mem hb hs] using h
  exact ⟨file, hbound, hopens⟩

end Bound

/-- Where the standard streams lead once a command's redirects are made, of descriptors before
and after: to the target, if there is one, or else where they led; and no other changes. -/
structure Redirected (c : Command) (table : Table) (cwd : Place) (w : World)
    (t u : Descriptors) : Prop where
  /-- Standard input. -/
  input : match c.input with
    | some target => ∃ file, u.get? 0 = some file ∧ w.Opens cwd (target.expand table) .read file
    | none => u.get? 0 = t.get? 0
  /-- Standard output. -/
  output : match c.output with
    | some r => ∃ file, u.get? 1 = some file ∧ w.Opens cwd (r.target.expand table) r.mode file
    | none => u.get? 1 = t.get? 1
  /-- Standard error: its file is opened once where standard output goes to that file too. -/
  errors : match c.errors with
    | some r => ∃ file mode, u.get? 2 = some file ∧ mode ≠ .read ∧
        w.Opens cwd (r.target.expand table) mode file
    | none => u.get? 2 = t.get? 2
  /-- All others. -/
  others : ∀ fd, 2 < fd → u.get? fd = t.get? fd

theorem applyRedirects_eq_ok {c : Command} {m m' : Machine} (hm : m.proc.fds.Standard)
    (h : applyRedirects c m = .ok () m') :
    Redirected c m.proc.table m.proc.cwd m'.world m.proc.fds m'.proc.fds := by
  obtain ⟨files, hfiles, hget, hbeyond⟩ := applyRedirects_get? (hm 2 (Nat.le_refl 2)) h
  -- no standard stream is closed, so none is taken by an opening
  have hsame (x : Nat) (hx : x ≤ 2) (hnone : c.redirect? m.proc.table x = none) :
      m'.proc.fds.get? x = m.proc.fds.get? x := by
    obtain ⟨old, hold⟩ := hm x hx
    rw [hget x hx, boundFile_of_none hnone, hold, Option.none_or, Option.some_or]
  have hto (x : Nat) (hx : x ≤ 2) {path : Text} {mode : OpenMode}
      (hsome : c.redirect? m.proc.table x = some (path, mode)) :
      ∃ file, m'.proc.fds.get? x = some file ∧ m'.world.Opens m.proc.cwd path mode file := by
    obtain ⟨file, hbound, -, hopens⟩ := exists_boundFile_of_some
      (P := fun path mode file => m.world.opened.length ≤ file ∧
        m'.world.Opens m.proc.cwd path mode file) hfiles hsome
    exact ⟨file, by rw [hget x hx, hbound, Option.some_or], hopens⟩
  refine ⟨?_, ?_, ?_, hbeyond⟩
  · cases hc : c.input with
    | none => exact hsame 0 (by omega) (by simp [Command.redirect?, hc])
    | some target => exact hto 0 (by omega) (by simp [Command.redirect?, hc])
  · cases hc : c.output with
    | none => exact hsame 1 (by omega) (by simp [Command.redirect?, hc])
    | some r => exact hto 1 (by omega) (by simp [Command.redirect?, hc])
  · cases hc : c.errors with
    | none => exact hsame 2 (by omega) (by simp [Command.redirect?, hc])
    | some e =>
      obtain ⟨mode, hmode⟩ :
          ∃ mode, c.redirect? m.proc.table 2 = some (e.target.expand m.proc.table, mode) :=
        ⟨_, by rw [Command.redirect?, hc, Option.map_some]⟩
      obtain ⟨file, hfile, hopens⟩ := hto 2 (Nat.le_refl 2) hmode
      exact ⟨file, mode, hfile, Command.errors_mode_ne_read hmode, hopens⟩

end LineShell
