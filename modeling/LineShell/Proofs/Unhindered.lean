import LineShell.Proofs.Strays

/-!
# Calls that nothing hinders

When calls succeed. Once the plan is done with the calls of a name, each of them that has work to
do does it: what is open can be duplicated and closed, what may be opened is opened, a child is
made, and one that has ended is waited for. So the redirects of a command are made if each path,
in its turn, gives access to what it names.

## The model

* `World.Clear` says that the plan is done with the calls of a name. `Onward` is the frame in
  which the plan stays and the calls made are not forgotten, under which what is clear stays
  clear.
* `Relinked` says that descriptors may have changed, but no file, no open file and not the
  directory.
* `Opens` says that the files of bindings can be opened one after the other from a file tree on,
  to which targets they give access, and which file tree they leave.
* `Descriptors.Bound` describes the table after the first of some bindings.

## What is proved

* However a run goes on, it keeps to the plan (`Proceeds.onward`), by the steps of runs.
* What is open can be duplicated and closed (`dup_of_clear`, `close_of_clear`,
  `closeAll_of_clear`).
* Where the files of a command can be opened, its redirects are made: each opening is a new open
  file, and a stream leads to the file of its last binding, or where it led (`bindAll_of_opens`,
  `applyRedirects_of_opens`).
* Children and channels are made and children are waited for (`spawn_of_clear`,
  `createChannel_of_clear`, `await_of_clear`).

These are the lemmas by which the other modules show that something is done and not only that it
is right where it is done.
-/

namespace LineShell

open Act

/-! ### The plan -/

/-- The plan is done with the calls of a name: none that is still to come is planned to fail. -/
def World.Clear (w : World) (c : CallName) : Prop :=
  ∀ f ∈ w.faults, f.call = c → f.nth ≤ w.made.count c

theorem World.Clear.planned? {w : World} {c : CallName} (h : w.Clear c) : w.planned? c = none :=
  planned?_eq_none fun f hf hcall => Nat.ne_of_lt (Nat.lt_succ_of_le (h f hf hcall))

/-- The plan is the same, and the calls made before are still counted. -/
structure Onward (m m' : Machine) : Prop where
  /-- The plan is the same. -/
  faults : m'.world.faults = m.world.faults
  /-- No call is forgotten. -/
  made : m.world.made.Sublist m'.world.made

namespace Onward

variable {a b c m m' : Machine}

theorem refl (m : Machine) : Onward m m := ⟨rfl, .refl _⟩

theorem trans (hab : Onward a b) (hbc : Onward b c) : Onward a c :=
  ⟨hbc.faults.trans hab.faults, hab.made.trans hbc.made⟩

/-- What the plan is done with it stays done with. -/
theorem clear (h : Onward m m') {name : CallName} (hc : m.world.Clear name) : m'.world.Clear name := by
  intro f hf hname
  rw [h.faults] at hf
  exact Nat.le_trans (hc f hf hname) (h.made.count_le name)

end Onward

instance : Frame Onward := ⟨.refl, .trans⟩

theorem World.write_made {w w' : World} {file : Nat} {bs : Bytes} (h : w.write file bs = .ok w') :
    w'.made = w.made := by
  obtain ⟨f, -, -, hwrote⟩ := World.write_eq_ok.1 h
  cases hwrote <;> rfl

theorem World.read_made {w w' : World} {file : Nat} {part : Bytes → Bytes} {bs : Bytes}
    (h : w.read file part = .ok (bs, w')) : w'.made = w.made := by
  obtain ⟨f, -, -, htook⟩ := World.read_eq_ok h
  cases htook <;> rfl

theorem Step.onward {m m' : Machine} (h : Step m m') : Onward m m' := by
  cases h with
  | write h =>
    obtain ⟨file, w, -, hw, rfl⟩ := Machine.write_eq_ok h
    exact ⟨(World.write_spec hw).faults, World.write_made hw ▸ .refl _⟩
  | read _ h =>
    obtain ⟨file, w, -, hr, rfl⟩ := Machine.read_eq_ok h
    exact ⟨(World.read_spec hr).faults, World.read_made hr ▸ .refl _⟩
  | count c => exact ⟨rfl, List.sublist_cons_self c _⟩
  | _ => exact ⟨rfl, .refl _⟩

theorem Onward.forked (m : Machine) : Onward m m.forked := ⟨rfl, List.sublist_cons_self _ _⟩

theorem Onward.born (m : Machine) : Onward m m.born := ⟨rfl, List.sublist_cons_self _ _⟩

/-- However a run goes on, it keeps to the plan. -/
theorem Proceeds.onward {m m' : Machine} (h : Proceeds m m') : Onward m m' :=
  h.keeps Step.onward fun {b _ _} hlife =>
    have hchild := (Onward.forked b).trans hlife
    ⟨hchild.faults, hchild.made⟩

theorem Tree.told_proceeds (t : Tree) (level : Int) (m : Machine) : Proceeds m (t.told level m) :=
  t.told_of (fun m mark c => (Step.note (m := m) (e := .began m.proc mark c) rfl).proceeds) level m

/-! ### Calls on descriptors -/

section Descriptors

variable {m : Machine}

/-- Descriptors may have changed, but no file, no open file and not the working directory. -/
structure Relinked (m m' : Machine) : Prop where
  /-- The file tree is the same. -/
  files : m'.world.files = m.world.files
  /-- The open files are the same. -/
  opened : m'.world.opened = m.world.opened
  /-- The working directory is the same. -/
  cwd : m'.proc.cwd = m.proc.cwd
  /-- The run keeps to the plan. -/
  onward : Onward m m'

theorem Relinked.refl (m : Machine) : Relinked m m := ⟨rfl, rfl, rfl, .refl m⟩

theorem Relinked.trans {a b c : Machine} (hab : Relinked a b) (hbc : Relinked b c) : Relinked a c :=
  ⟨hbc.files.trans hab.files, hbc.opened.trans hab.opened, hbc.cwd.trans hab.cwd,
    hab.onward.trans hbc.onward⟩

/-- The machine after a call that left it with certain descriptors. -/
def Machine.relinked (m : Machine) (c : CallName) (t : Descriptors) (event : Event) : Machine :=
  Machine.note { m.counted c with proc.fds := t } (.called m.proc.pid event)

theorem Relinked.relinked (m : Machine) (c : CallName) (t : Descriptors) (event : Event) :
    Relinked m (m.relinked c t event) :=
  ⟨rfl, rfl, rfl, rfl, List.sublist_cons_self c _⟩

/-- What is open is duplicated where no failure is planned for it. -/
theorem dup_of_unplanned {source file : Nat} (hp : m.world.planned? .dup = none)
    (hfile : m.proc.fds.get? source = some file) (target : Nat) :
    dup source target m
      = .ok () (m.relinked .dup (m.proc.fds.set target file) (.dup source target (.ok ()))) := by
  have hfile' : (m.counted .dup).proc.fds.get? source = some file := hfile
  exact answered_of_unplanned hp (by rw [hfile']; rfl)

/-- What is open is closed where no failure is planned for it. -/
theorem close_of_unplanned {fd : Nat} (hp : m.world.planned? .close = none)
    (hfd : m.proc.fds.get? fd ≠ none) :
    close fd m = .ok () (m.relinked .close (m.proc.fds.erase fd) (.close fd (.ok ()))) := by
  obtain ⟨file, hfile⟩ := Option.ne_none_iff_exists'.1 hfd
  have hfile' : (m.counted .close).proc.fds.get? fd = some file := hfile
  exact answered_of_unplanned hp (by rw [hfile']; rfl)

/-- What is open can be duplicated. -/
theorem dup_of_clear {source file : Nat} (hc : m.world.Clear .dup)
    (hfile : m.proc.fds.get? source = some file) (target : Nat) :
    ∃ m', dup source target m = .ok () m' ∧ Relinked m m' :=
  ⟨_, dup_of_unplanned hc.planned? hfile target, .relinked m _ _ _⟩

/-- What is open can be closed. -/
theorem close_of_clear {fd : Nat} (hc : m.world.Clear .close) (hfd : m.proc.fds.get? fd ≠ none) :
    ∃ m', close fd m = .ok () m' ∧ Relinked m m' :=
  ⟨_, close_of_unplanned hc.planned? hfd, .relinked m _ _ _⟩

/-- What is open can be duplicated over any number of descriptors. -/
theorem forM_dup_of_clear {fd file : Nat} (hc : m.world.Clear .dup)
    (hfd : m.proc.fds.get? fd = some file) (streams : List Nat) :
    ∃ m', streams.forM (dup fd) m = .ok () m' ∧ Relinked m m' := by
  induction streams generalizing m with
  | nil => exact ⟨m, rfl, .refl m⟩
  | cons s streams ih =>
    obtain ⟨m₁, hdup, hr⟩ := dup_of_clear hc hfd s
    have hfd' : m₁.proc.fds.get? fd = some file := by
      obtain ⟨file', hfile, hm₁⟩ := dup_eq_ok hdup
      obtain rfl := Option.some.inj (hfd.symm.trans hfile)
      rw [hm₁]
      by_cases hs : fd = s
      · subst hs
        simp
      · rw [Descriptors.get?_set_of_ne _ _ hs, hfd]
    obtain ⟨m', hdups, hr'⟩ := ih (hr.onward.clear hc) hfd'
    exact ⟨m', bind_eq_ok.2 ⟨(), m₁, hdup, hdups⟩, hr.trans hr'⟩

/-- Descriptors that are open can be closed, each once. -/
theorem closeAll_of_clear {fds : List Nat} (hc : m.world.Clear .close) (hnodup : fds.Nodup)
    (hopen : ∀ fd ∈ fds, m.proc.fds.get? fd ≠ none) :
    ∃ m', closeAll fds m = .ok () m' ∧ Relinked m m' := by
  induction fds generalizing m with
  | nil => exact ⟨m, rfl, .refl m⟩
  | cons fd fds ih =>
    obtain ⟨hfd, hfds⟩ := List.forall_mem_cons.1 hopen
    obtain ⟨hnot, hnodup⟩ := List.nodup_cons.1 hnodup
    obtain ⟨m₁, hclose, hr⟩ := close_of_clear hc hfd
    have hfds' : ∀ x ∈ fds, m₁.proc.fds.get? x ≠ none := by
      intro x hx
      have hne : x ≠ fd := fun heq => hnot (heq ▸ hx)
      rw [close_eq_ok hclose, Descriptors.get?_erase_of_ne _ hne]
      exact hfds x hx
    obtain ⟨m', hrest, hr'⟩ := ih (hr.onward.clear hc) hnodup hfds'
    exact ⟨m', bind_eq_ok.2 ⟨(), m₁, hclose, hrest⟩, hr.trans hr'⟩

end Descriptors

/-! ### Redirects -/

/-- The open file that a binding makes. -/
def Binding.opens (b : Binding) (target : Target) : OpenFile :=
  ⟨target, b.mode ≠ .read, b.mode = .append, 0⟩

/-- The files of bindings can be opened one after the other from a file tree on: they give access to
certain targets, and leave a certain file tree. -/
inductive Opens (cwd : Place) : FileTree → List Binding → List Target → FileTree → Prop where
  /-- Nothing is opened. -/
  | nil {t : FileTree} : Opens cwd t [] [] t
  /-- A path names what may be opened. -/
  | cons {t u v w : FileTree} {b : Binding} {bs : List Binding} {place : Place} {target : Target}
      {targets : List Target} (hnul : hasNul b.path = false)
      (hlocate : locate t cwd b.path b.mode = .ok (place, u))
      (haccess : access u place b.mode = .ok (target, v)) (h : Opens cwd v bs targets w) :
      Opens cwd t (b :: bs) (target :: targets) w

namespace Opens

variable {cwd : Place} {t u v : FileTree} {as bs : List Binding} {targets others : List Target}

theorem append (h : Opens cwd t as targets u) (h' : Opens cwd u bs others v) :
    Opens cwd t (as ++ bs) (targets ++ others) v := by
  induction h with
  | nil => exact h'
  | cons hnul hlocate haccess _ ih => exact .cons hnul hlocate haccess (ih h')

theorem length_eq (h : Opens cwd t bs targets u) : targets.length = bs.length := by
  induction h with
  | nil => rfl
  | cons _ _ _ _ ih => simp [ih]

end Opens

section Redirects

variable {m : Machine}

/-- What may be opened is opened, on the lowest free descriptor. -/
theorem openFile_of_clear {path : Text} {mode : OpenMode} {place : Place} {files files' : FileTree}
    {target : Target} (hc : m.world.Clear .openFile) (hnul : hasNul path = false)
    (hlocate : locate m.world.files m.proc.cwd path mode = .ok (place, files))
    (haccess : access files place mode = .ok (target, files')) :
    ∃ m', openFile path mode m = .ok m.proc.fds.free m' ∧ m'.world.files = files' ∧
      m'.world.opened = m.world.opened ++ [⟨target, mode ≠ .read, mode = .append, 0⟩] ∧
      m'.proc.fds = m.proc.fds.set m.proc.fds.free m.world.opened.length ∧
      m'.proc.cwd = m.proc.cwd ∧ Onward m m' := by
  let next : Machine := { m.counted .openFile with
    world.files := files'
    world.opened := m.world.opened ++ [⟨target, mode ≠ .read, mode = .append, 0⟩]
    proc.fds := m.proc.fds.set m.proc.fds.free m.world.opened.length }
  have hlocate' : locate (m.counted .openFile).world.files (m.counted .openFile).proc.cwd path mode
      = .ok (place, files) := hlocate
  have hopen : openFile path mode m = .ok m.proc.fds.free
      (next.note (.called m.proc.pid (.openFile path mode (.ok m.proc.fds.free)))) := by
    unfold openFile refuseNul
    rw [hnul]
    exact answered_of_unplanned hc.planned? (by simp only [hlocate', haccess]; rfl)
  exact ⟨_, hopen, rfl, rfl, rfl, rfl, rfl, List.sublist_cons_self _ _⟩

/-- A binding whose file is opened and whose streams are bound is behind. -/
theorem bindAll_cons_of_ok {opened : List Nat} {b : Binding} {bs : List Binding} {fd : Nat}
    {m₁ m₂ : Machine} (hopen : openFile b.path b.mode m = .ok fd m₁)
    (hdups : b.streams.forM (dup fd) m₁ = .ok () m₂) :
    bindAll opened (b :: bs) m = bindAll (opened ++ [fd]) bs m₂ := by
  show (attempt (openFile b.path b.mode) >>= _) m = _
  rw [bind_eq, attempt_of_ok hopen]
  show (attempt (b.streams.forM (dup fd)) >>= _) m₁ = _
  rw [bind_eq, attempt_of_ok hdups]

/-- A descriptor table after the first of some bindings: the streams of the binding lead to its file,
and so does the descriptor that was free. -/
def Descriptors.Bound (t u : Descriptors) (streams : List Nat) (file : Nat) : Prop :=
  ∀ x, u.get? x = if x ∈ streams then some file else (t.set t.free file).get? x

namespace Descriptors.Bound

variable {t u : Descriptors} {streams : List Nat} {file : Nat} (h : t.Bound u streams file)
include h

/-- What was open leads somewhere still, and so does what was opened. -/
theorem ne_none {x : Nat} (hx : t.get? x ≠ none ∨ x = t.free) : u.get? x ≠ none := by
  rw [h]
  split
  · simp
  · rcases hx with hx | rfl
    · obtain ⟨old, hold⟩ := Option.ne_none_iff_exists'.1 hx
      rwa [get?_set_of_ne _ _ (ne_free_of_get? hold)]
    · simp

/-- Where a stream leads in the end, by its later bindings, and by where it led before. -/
theorem or_eq_some {x : Nat} {later : Option Nat} {last : Nat}
    (hx : (later.or ((if x ∈ streams then some file else none).or (t.get? x))) = some last) :
    later.or (u.get? x) = some last := by
  cases later with
  | some last => exact hx
  | none =>
    rw [Option.none_or] at hx ⊢
    rw [h]
    by_cases hs : x ∈ streams
    · simpa [hs] using hx
    · rw [if_neg hs, Option.none_or] at hx
      rw [if_neg hs, get?_set_of_ne _ _ (ne_free_of_get? hx), hx]

end Descriptors.Bound

/-- The first of some bindings is made. -/
theorem bindAll_cons_of_clear {b : Binding} {place : Place} {target : Target} {files files' : FileTree}
    (hclear : ∀ c ∈ [CallName.openFile, .dup, .close], m.world.Clear c) (hnul : hasNul b.path = false)
    (hlocate : locate m.world.files m.proc.cwd b.path b.mode = .ok (place, files))
    (haccess : access files place b.mode = .ok (target, files')) :
    ∃ m', (∀ opened bs, bindAll opened (b :: bs) m = bindAll (opened ++ [m.proc.fds.free]) bs m') ∧
      m'.world.files = files' ∧ m'.world.opened = m.world.opened ++ [b.opens target] ∧
      m.proc.fds.Bound m'.proc.fds b.streams m.world.opened.length ∧ m'.proc.cwd = m.proc.cwd ∧
      Onward m m' := by
  obtain ⟨m₁, hopened, hfiles, hopens, hfds, hcwd, honward⟩ :=
    openFile_of_clear (hclear .openFile (by simp)) hnul hlocate haccess
  have hfd : m₁.proc.fds.get? m.proc.fds.free = some m.world.opened.length := by simp [hfds]
  obtain ⟨m', hdups, hr⟩ :=
    forM_dup_of_clear (honward.clear (hclear .dup (by simp))) hfd b.streams
  refine ⟨m', fun _ _ => bindAll_cons_of_ok hopened hdups, hr.files.trans hfiles,
    hr.opened.trans hopens, fun x => ?_, hr.cwd.trans hcwd, honward.trans hr.onward⟩
  rw [forM_dup_eq_ok hfd hdups, hfds]

/-- Where the plan is done with the calls that redirects make, and all files can be opened, the
bindings are made. Each opening is a new open file, and a stream leads to the file of its last
binding; without one it leads where it led, if it was open. -/
theorem bindAll_of_opens {opened : List Nat} {bs : List Binding} {targets : List Target}
    {files : FileTree} (hclear : ∀ c ∈ [CallName.openFile, .dup, .close], m.world.Clear c)
    (h : Opens m.proc.cwd m.world.files bs targets files) (hnodup : opened.Nodup)
    (hopen : ∀ fd ∈ opened, m.proc.fds.get? fd ≠ none) :
    ∃ m', bindAll opened bs m = .ok () m' ∧ m'.world.files = files ∧
      m'.world.opened = m.world.opened ++ List.zipWith Binding.opens bs targets ∧
      ∀ x ≤ 2, ∀ file, (boundFile x (bs.zip (List.range' m.world.opened.length bs.length))).or
        (m.proc.fds.get? x) = some file → m'.proc.fds.get? x = some file := by
  generalize hcwd : m.proc.cwd = cwd at h
  generalize ht : m.world.files = t at h
  induction h generalizing m opened with
  | nil =>
    have hspare : ∀ fd ∈ opened.filter (2 < ·), m.proc.fds.get? fd ≠ none := fun fd hfd =>
      hopen fd (List.mem_filter.1 hfd).1
    obtain ⟨m', hclose, hr⟩ := closeAll_of_clear (hclear .close (by simp)) (hnodup.filter _) hspare
    refine ⟨m', hclose, hr.files.trans ht, by simp [hr.opened], fun x hx file hfile => ?_⟩
    rw [closeAll_eq_ok hclose, if_neg (by simp; omega)]
    simpa [boundFile] using hfile
  | @cons t u v w b bs place target targets hnul hlocate haccess _ ih =>
    subst hcwd ht
    obtain ⟨m₁, hfirst, hfiles₁, hopened₁, hbound, hcwd₁, honward⟩ :=
      bindAll_cons_of_clear hclear hnul hlocate haccess
    have hnodup₁ : (opened ++ [m.proc.fds.free]).Nodup := by
      have hnew : m.proc.fds.free ∉ opened := fun hmem => hopen _ hmem m.proc.fds.get?_free
      exact (List.perm_append_singleton _ _).nodup_iff.2 (List.nodup_cons.2 ⟨hnew, hnodup⟩)
    have hopen₁ : ∀ fd ∈ opened ++ [m.proc.fds.free], m₁.proc.fds.get? fd ≠ none := by
      intro fd hfd
      exact hbound.ne_none ((List.mem_append.1 hfd).imp (hopen fd) List.mem_singleton.1)
    obtain ⟨m', hrest, hfiles, hopened, hstreams⟩ := ih (fun c hc => honward.clear (hclear c hc))
      hnodup₁ hopen₁ hcwd₁ hfiles₁
    refine ⟨m', (hfirst _ _).trans hrest, hfiles, ?_, fun x hx file hfile => ?_⟩
    · rw [hopened, hopened₁, List.append_assoc]
      rfl
    · have hlength : m₁.world.opened.length = m.world.opened.length + 1 := by simp [hopened₁]
      rw [List.length_cons, List.range'_succ, List.zip_cons_cons, boundFile, Option.or_assoc] at hfile
      refine hstreams x hx file ?_
      rw [hlength]
      exact hbound.or_eq_some hfile

/-- The redirects of a command are made. -/
theorem applyRedirects_of_opens {c : Command} {targets : List Target} {files : FileTree}
    (hclear : ∀ c ∈ [CallName.openFile, .dup, .close], m.world.Clear c)
    (h : Opens m.proc.cwd m.world.files (c.bindings m.proc.table) targets files) :
    ∃ m', applyRedirects c m = .ok () m' ∧ m'.world.files = files ∧
      m'.world.opened
        = m.world.opened ++ List.zipWith Binding.opens (c.bindings m.proc.table) targets ∧
      ∀ x ≤ 2, ∀ file, (boundFile x ((c.bindings m.proc.table).zip
        (List.range' m.world.opened.length (c.bindings m.proc.table).length))).or
          (m.proc.fds.get? x) = some file → m'.proc.fds.get? x = some file :=
  bindAll_of_opens hclear h List.nodup_nil (by simp)

/-- The redirects of a command are made, and the streams of the last binding lead to the last file that is
opened. -/
theorem applyRedirects_of_opens_last {c : Command} {bs : List Binding} {b : Binding}
    {targets : List Target} {target : Target} {files between : FileTree}
    (hclear : ∀ c ∈ [CallName.openFile, .dup, .close], m.world.Clear c)
    (hbindings : c.bindings m.proc.table = bs ++ [b])
    (h : Opens m.proc.cwd m.world.files bs targets between)
    (hlast : Opens m.proc.cwd between [b] [target] files) :
    ∃ m' x, applyRedirects c m = .ok () m' ∧ m'.world.files = files ∧
      m'.world.opened[x]? = some (b.opens target) ∧
      ∀ stream ∈ b.streams, stream ≤ 2 → m'.proc.fds.get? stream = some x := by
  have hlength : (List.zipWith Binding.opens bs targets).length = bs.length := by simp [h.length_eq]
  obtain ⟨m', hok, hfiles, hopened, hstreams⟩ :=
    applyRedirects_of_opens (c := c) hclear (hbindings ▸ h.append hlast)
  rw [hbindings] at hopened hstreams
  refine ⟨m', m.world.opened.length + bs.length, hok, hfiles, ?_, fun stream hs hle => ?_⟩
  · rw [hopened, List.zipWith_append h.length_eq.symm, ← List.append_assoc, ← hlength,
      ← List.length_append, List.getElem?_append_right (Nat.le_refl _)]
    simp
  · refine hstreams stream hle _ ?_
    rw [List.length_append, List.length_singleton, List.range'_1_concat,
      List.zip_append (by simp), boundFile_append]
    simp [boundFile, hs]

end Redirects

/-! ### Children and channels -/

/-- Once the plan is done with making children, a child is made, and lives to its end. -/
theorem spawn_of_clear {m : Machine} (hc : m.world.Clear .fork) (work : Act ChildEnd) :
    ∃ raw m', spawn work m = .ok m.world.nextPid m' ∧ Birth work raw m m' := by
  rcases spawn_cases work m with ⟨e, hs⟩ | hs
  · rw [spawn_eq, bind_eq, fork_of_unplanned hc.planned?] at hs
    obtain ⟨m', htold⟩ := exists_tellChild m.world.nextPid (m.outlived
      ((childLife work).after m.forked).world (endOf (childLife work m.forked)))
    exact nomatch hs.symm.trans htold
  · exact hs

/-- Once the plan is done with making channels, a channel is made. -/
theorem createChannel_of_clear {m : Machine} (hc : m.world.Clear .pipe) :
    ∃ r w m', createChannel m = .ok (r, w) m' := by
  rw [createChannel_eq, bind_eq, pipe, answered_of_unplanned hc.planned? rfl]
  obtain ⟨m', htold⟩ := exists_tellChannel _ _
  exact ⟨_, _, m', htold⟩

/-- What is left of a command once its child is made. -/
theorem execute_of_spawn {rules : Rules} {c : Command} {m m₁ : Machine} {pid : Nat}
    (mark : Option Nat) (level : Int) (hkind : rules.kind (c.verb.expand m.proc.table) = .external)
    (h : spawn (runChild c) ((Tree.leaf mark c).told level m) = .ok pid m₁) :
    execute rules (.leaf mark c) level m = (await pid >>= remember) m₁ := by
  have hrun : runExternal c ((Tree.leaf mark c).told level m) = await pid m₁ := by
    unfold runExternal
    rw [bind_eq, attempt_of_ok h]
  rw [execute_external mark level hkind, bind_eq, bind_eq, hrun]

/-- What is left of the work of a child once its redirects are made. -/
theorem runChild_of_redirected {c : Command} {m k : Machine} (h : applyRedirects c m = .ok () k) :
    runChild c m = runProgram (c.argv k.proc.table) k := by
  unfold runChild
  rw [bind_eq, attempt_of_ok h]
  rfl

/-- Once the plan is done with waiting, a child that has ended is waited for. -/
theorem await_of_clear {m : Machine} {pid raw : Nat} (hc : m.world.Clear .wait)
    (hf : m.world.ended.find? (·.1 == pid) = some (pid, raw)) :
    ∃ m', await pid m = .ok (Ending.ofRaw raw).status m' := by
  rcases await_cases pid m with ⟨e, -, hnone⟩ | ⟨raw', m', hf', -, ha⟩
  · rw [hnone hc.planned?] at hf
    exact nomatch hf
  · obtain ⟨-, rfl⟩ := Prod.mk.inj (Option.some.inj (hf'.symm.trans hf))
    exact ⟨m', ha⟩

end LineShell
