import LineShell.Proofs.Directory
import LineShell.Proofs.PipeSides
import LineShell.Proofs.Unhindered

/-!
# Two streams into one file

Standard output and standard error that are redirected to one path share one open file, and with
it one offset. So whatever a process writes to either of them is added to the end of the file:
nothing that went to the one is overwritten by what went to the other, and the redirect of
standard output alone decides whether the file is emptied first.

## The model

* `said` are the bytes that a process wrote, in the order of its writes. `Relates` says which
  openings and which bytes of a process a stretch of the journal relates.
* `World.Feeds` says that the file at a place holds certain bytes, and that what is written
  through an open file is added to them.
* `Pours` is the frame of a process whose two output streams lead to one open file: all that it
  writes is added. `Leaves` is that of a process whose standard error leads elsewhere and which
  leaves the file as it is.
* `FileTree.Writable` and `FileTree.Readable` say what a path must lead to in order to be opened.
  Both are told by the shape of the file tree and the file itself.
* `Command.SharesFile` is the condition on a command: both streams have one path, the path can be
  opened, and standard input, if it is redirected, as well. `Machine.Unhindered` is the one on the
  machine.

## What is proved

* A write at the end of a file is taken and added (`World.Feeds.write`), and nobody reads through
  a file that is open for writing (`World.Feeds.of_read`), so whatever a program writes, in chunks
  of any number to either stream, stands in the file in that order (`World.Feeds.emit`).
* The redirects are made, and how the redirect of standard error asks for the file to be opened
  makes no difference (`Command.SharesFile.applyRedirects_eq`, `Command.SharesFile.redirected`).
* The life of the child and what its maker does behind it leave the file at that
  (`Command.SharesFile.lives`, `Command.SharesFile.ends`).

## What is left out

Only one process writes while the command runs. Two processes that hold the same open file take
turns as their maker has them, and nothing is said of writes that interleave within a program.
-/

namespace LineShell

open Act

/-! ### What the journal tells -/

/-- The bytes that a process wrote, in the order of its writes. -/
def said (pid : Nat) (es : List Entry) : Bytes :=
  es.flatMap fun
    | .wrote p _ bytes _ => if p = pid then bytes else []
    | _ => []

@[simp] theorem said_append (pid : Nat) (es fs : List Entry) :
    said pid (es ++ fs) = said pid es ++ said pid fs := List.flatMap_append

/-- The journal goes on, and relates certain openings, and certain bytes that a process wrote. -/
structure Relates (pid : Nat) (os : List (Text × OpenMode)) (bs : Bytes) (m m' : Machine) :
    Prop where
  /-- The journal goes on. -/
  recorded : Recorded m m'
  /-- What was opened. -/
  openings : (m.since m').filterMap Entry.opening? = os
  /-- What the process wrote. -/
  bytes : said pid (m.since m') = bs

namespace Relates

variable {pid : Nat} {os ps : List (Text × OpenMode)} {bs cs : Bytes} {a b c m m' : Machine}

theorem of_journal {es : List Entry} (h : m'.world.journal = m.world.journal ++ es)
    (hopenings : es.filterMap Entry.opening? = os) (hbytes : said pid es = bs) :
    Relates pid os bs m m' := by
  have hsince := Machine.since_eq h
  exact ⟨⟨es, h.symm⟩, hsince ▸ hopenings, hsince ▸ hbytes⟩

theorem of_eq (h : m'.world.journal = m.world.journal) : Relates pid [] [] m m' :=
  .of_journal (h.trans (List.append_nil _).symm) rfl rfl

/-- Something is told of that opens nothing, and the journal tells of nothing else. -/
theorem of_mute {w : World} {e : Entry} (h : m.world.Mute w) (hopening : e.opening? = none)
    (hbytes : said pid [e] = bs) : Relates pid [] bs m { m with world := w.note e } := by
  have hjournal : (w.note e).journal = m.world.journal ++ [e] := congrArg (· ++ [e]) h.journal
  exact .of_journal hjournal (by simp [hopening]) hbytes

theorem trans (hab : Relates pid os bs a b) (hbc : Relates pid ps cs b c) :
    Relates pid (os ++ ps) (bs ++ cs) a c := by
  have hsince := Machine.since_trans hab.recorded hbc.recorded
  refine ⟨Frame.trans hab.recorded hbc.recorded, ?_, ?_⟩
  · rw [hsince, List.filterMap_append, hab.openings, hbc.openings]
  · rw [hsince, said_append, hab.bytes, hbc.bytes]

end Relates

/-! ### Calls write nothing -/

theorem said_of_calls {es : List Entry} (h : ∀ e ∈ es, e.IsCall) (pid : Nat) : said pid es = [] := by
  refine List.flatMap_eq_nil_iff.2 fun e he => ?_
  obtain ⟨p, event, rfl⟩ := h e he
  rfl

/-- What redirects relate is what they open. -/
theorem applyRedirects_relates {c : Command} {m m' : Machine} (h : applyRedirects c m = .ok () m')
    (pid : Nat) :
    Relates pid ((c.bindings m.proc.table).map fun b => (b.path, b.mode)) [] m m' := by
  have hbind : bindAll [] (c.bindings m.proc.table) m = .ok () m' := h
  have hcalls := (Keeps.applyRedirects_calls c).of_ok h
  exact ⟨hcalls.recorded, (bindAll_opened hbind).since,
    said_of_calls (fun _ he => hcalls.of_mem_since he) pid⟩

/-! ### Writes at the end of a file -/

/-- The file at a place holds certain bytes. -/
def FileTree.Holds (t : FileTree) (place : Place) (data : Bytes) : Prop :=
  ∃ mode program, t.node? place = some (.file mode data program)

/-- The file at a place holds certain bytes, and what is written through an open file is added to
them: it is open for writing, and its next write starts at the end. -/
structure World.Feeds (w : World) (place : Place) (x : Nat) (data : Bytes) : Prop where
  /-- What the file holds. -/
  holds : w.files.Holds place data
  /-- Where the next write starts. -/
  opened : ∃ f, w.opened[x]? = some f ∧ f.target = .place place ∧ f.writes = true ∧
    (f.atEnd = true ∨ f.offset = data.length)

/-- Bytes that are written at the end are added. -/
theorem overwrite_length (data bs : Bytes) : overwrite data data.length bs = data ++ bs := by
  simp [overwrite]

namespace World.Feeds

variable {w w' : World} {place : Place} {x : Nat} {data bs : Bytes}

/-- A write is taken, and added. -/
theorem write (h : w.Feeds place x data) (bs : Bytes) :
    ∃ w', w.write x bs = .ok w' ∧ w'.Feeds place x (data ++ bs) := by
  obtain ⟨⟨mode, program, hnode⟩, ⟨target, writes, atEnd, offset⟩, hf, htarget, hwrites, hend⟩ := h
  obtain rfl : target = .place place := htarget
  obtain rfl : writes = true := hwrites
  have hstart : (if atEnd then data.length else offset) = data.length := by
    rcases hend with hend | hend
    · exact if_pos hend
    · exact (congrArg (ite _ _) hend).trans (ite_self _)
  have hlt : x < w.opened.length := (List.getElem?_eq_some_iff.1 hf).1
  let after : World := { w with
    files := w.files.put place (.file mode (data ++ bs) program)
    opened := w.opened.set x ⟨.place place, true, atEnd, data.length + bs.length⟩ }
  have hwrite : w.write x bs = .ok after := by
    simp only [World.write, hf, hnode, hstart, overwrite_length]
    rfl
  refine ⟨after, hwrite, ⟨mode, program, FileTree.node?_put_self _ _ _⟩, ?_⟩
  exact ⟨_, List.getElem?_set_self hlt, rfl, rfl, Or.inr List.length_append.symm⟩

/-- What is added is all that a write does to the file. -/
theorem of_write (h : w.Feeds place x data) (hw : w.write x bs = .ok w') :
    w'.Feeds place x (data ++ bs) := by
  obtain ⟨after, hafter, hfeeds⟩ := h.write bs
  obtain rfl := Except.ok.inj (hw.symm.trans hafter)
  exact hfeeds

/-- Nobody reads through a file that is open for writing, and no reader changes a file. -/
theorem of_read {file : Nat} {part : Bytes → Bytes} (h : w.Feeds place x data)
    (hr : w.read file part = .ok (bs, w')) : w'.Feeds place x data := by
  obtain ⟨f, hf, htarget, hwrites, hend⟩ := h.opened
  obtain ⟨g, hg, hreads, htook⟩ := World.read_eq_ok hr
  have hne : file ≠ x := by
    rintro rfl
    obtain rfl := Option.some.inj (hf.symm.trans hg)
    simp [hwrites] at hreads
  cases htook with
  | input => exact ⟨h.holds, h.opened⟩
  | null => exact h
  | channel => exact ⟨h.holds, h.opened⟩
  | place => exact ⟨h.holds, f, (List.getElem?_set_ne hne).trans hf, htarget, hwrites, hend⟩

end World.Feeds

/-! ### A process that writes to one file alone -/

/-- Where standard output and standard error of a process lead to one open file, all that it writes
goes through that one. If its writes are added to a file, that file holds all that the process
wrote behind what it held before. -/
def Pours (place : Place) (x : Nat) (m m' : Machine) : Prop :=
  m.proc.fds.get? 1 = some x → m.proc.fds.get? 2 = some x →
    m'.proc.fds = m.proc.fds ∧ m'.proc.pid = m.proc.pid ∧
      ∃ bs, Relates m.proc.pid [] bs m m' ∧
        ∀ data, m.world.Feeds place x data → m'.world.Feeds place x (data ++ bs)

namespace Pours

variable {place : Place} {x : Nat} {m m' : Machine}

theorem of_relates (hfds : m'.proc.fds = m.proc.fds) (hpid : m'.proc.pid = m.proc.pid)
    (hrelates : Relates m.proc.pid [] [] m m')
    (hfeeds : ∀ data, m.world.Feeds place x data → m'.world.Feeds place x data) : Pours place x m m' :=
  fun _ _ => ⟨hfds, hpid, [], hrelates, by simpa using hfeeds⟩

/-- What is noted adds nothing, unless it tells of an opening or of bytes. -/
theorem note {e : Entry} (m : Machine) (hopening : e.opening? = none)
    (hbytes : said m.proc.pid [e] = []) : Pours place x m (m.note e) :=
  .of_relates rfl rfl (.of_mute (.refl m.world) hopening hbytes) fun _ h => ⟨h.holds, h.opened⟩

end Pours

instance (place : Place) (x : Nat) : Frame (Pours place x) where
  refl m := .of_relates rfl rfl (.of_eq rfl) fun _ h => h
  trans {a b c} hab hbc hout herr := by
    obtain ⟨hfds, hpid, bs, hrelates, hfeeds⟩ := hab hout herr
    obtain ⟨hfds', hpid', cs, hrelates', hfeeds'⟩ := hbc (hfds ▸ hout) (hfds ▸ herr)
    rw [hpid] at hrelates'
    refine ⟨hfds'.trans hfds, hpid'.trans hpid, bs ++ cs, hrelates.trans hrelates', fun data h => ?_⟩
    rw [← List.append_assoc]
    exact hfeeds' _ (hfeeds _ h)

/-- Bytes for either stream are added. -/
theorem Pours.write {place : Place} {x : Nat} {m m' : Machine} {log : Bool} {fd : Nat} {bs : Bytes}
    (hfd : fd = 1 ∨ fd = 2) (h : m.write log fd bs = .ok m') : Pours place x m m' := by
  intro hout herr
  obtain ⟨file, w, hfile, hw, rfl⟩ := Machine.write_eq_ok h
  obtain rfl : file = x := by
    rcases hfd with rfl | rfl
    · exact Option.some.inj (hfile.symm.trans hout)
    · exact Option.some.inj (hfile.symm.trans herr)
  refine ⟨rfl, rfl, bs, .of_mute (World.write_spec hw) rfl (by simp [said]), fun data hfeeds => ?_⟩
  exact ⟨(hfeeds.of_write hw).holds, (hfeeds.of_write hw).opened⟩

instance (place : Place) (x : Nat) : Moves (Pours place x) where
  speak h := .write (Or.inr rfl) h
  logged m r := .note m rfl rfl
  counted _ _ := .of_relates rfl rfl (.of_eq rfl) fun _ h => ⟨h.holds, h.opened⟩
  write hfd h := .write hfd h
  read _ h := by
    obtain ⟨file, w, -, hr, rfl⟩ := Machine.read_eq_ok h
    refine .of_relates rfl rfl (.of_mute (World.read_spec hr) rfl rfl) fun data hfeeds => ?_
    exact ⟨(hfeeds.of_read hr).holds, (hfeeds.of_read hr).opened⟩

instance (place : Place) (x : Nat) : Heedless (Pours place x) :=
  ⟨fun h => .of_relates h.fds h.pid (.of_eq rfl) fun _ h => h⟩

/-- A child that becomes a program, or tells why it does not, pours. -/
theorem Act.Keeps.runProgram_pours (place : Place) (x : Nat) (argv : List Text) :
    Keeps (Pours place x) (LineShell.runProgram argv) :=
  .runProgram_of (fun m _ _ _ => .note m rfl rfl) (fun m _ => .note m rfl rfl)
    (fun m _ => .note m rfl rfl) argv

theorem Act.Keeps.conclude_pours (place : Place) (x : Nat) (r : Except Failure ChildEnd) :
    Keeps (Pours place x) (conclude r) := .conclude_of (fun m _ => .note m rfl rfl) r

/-- Whatever a process writes to its two output streams, in whatever order and however much, all of it
is written, and added to the file in that order. -/
theorem World.Feeds.emit {m : Machine} {place : Place} {x : Nat} {data : Bytes}
    {chunks : List (Nat × Bytes)} (hout : m.proc.fds.get? 1 = some x)
    (herr : m.proc.fds.get? 2 = some x) (h : m.world.Feeds place x data)
    (hchunks : ∀ chunk ∈ chunks, chunk.1 = 1 ∨ chunk.1 = 2) :
    ∃ m', m.emit chunks = (true, m') ∧ m'.world.Feeds place x (data ++ chunks.flatMap (·.2)) := by
  induction chunks generalizing m data with
  | nil => exact ⟨m, rfl, by simpa using h⟩
  | cons chunk chunks ih =>
    obtain ⟨fd, bs⟩ := chunk
    obtain ⟨hfd, hchunks⟩ := List.forall_mem_cons.1 hchunks
    obtain ⟨w, hw, hfeeds⟩ := h.write bs
    let next : Machine := { m with world := w.note (.wrote m.proc.pid x bs false) }
    have hfile : m.proc.fds.get? fd = some x := by
      rcases hfd with rfl | rfl
      · exact hout
      · exact herr
    have hwrite : m.write false fd bs = .ok next := by
      simp only [Machine.write, hfile, hw]
      rfl
    obtain ⟨m', hemit, hall⟩ := ih (m := next) hout herr ⟨hfeeds.holds, hfeeds.opened⟩ hchunks
    refine ⟨m', ?_, ?_⟩
    · simp only [Machine.emit, hwrite, hemit]
    · rwa [List.append_assoc] at hall

/-! ### A process that leaves a file alone -/

/-- What is written to standard error, if it is open, does not go to the file at a place. -/
def Machine.Away (m : Machine) (place : Place) : Prop :=
  ∀ i, m.proc.fds.get? 2 = some i →
    ∃ f, m.world.opened[i]? = some f ∧ (f.writes = true → f.target ≠ .place place)

theorem Machine.Away.of_grows {m m' : Machine} {place : Place} (h : m.Away place)
    (hg : m.world.Grows m'.world) (hfds : m'.proc.fds.get? 2 = m.proc.fds.get? 2) : m'.Away place := by
  intro i hi
  obtain ⟨f, hf, haway⟩ := h i (hfds ▸ hi)
  obtain ⟨f', hf', htarget, hwrites, -⟩ := hg.opened i f hf
  exact ⟨f', hf', by rwa [htarget, hwrites]⟩

/-- A write that goes elsewhere leaves the file as it is. -/
theorem World.write_away {w w' : World} {i : Nat} {bs : Bytes} {place : Place} {f : OpenFile}
    (hf : w.opened[i]? = some f) (haway : f.writes = true → f.target ≠ .place place)
    (h : w.write i bs = .ok w') : w'.files.node? place = w.files.node? place := by
  obtain ⟨g, hg, hwrites, hwrote⟩ := World.write_eq_ok.1 h
  obtain rfl := Option.some.inj (hf.symm.trans hg)
  cases hwrote with
  | @place p _ _ _ _ htarget _ _ =>
    exact FileTree.node?_put_of_ne _ _ fun heq => haway hwrites (heq ▸ htarget)
  | _ => rfl

/-- A process whose standard error leads elsewhere leaves the file at a place as it is. It opens
nothing, and what another process wrote stays all that this one wrote. -/
def Leaves (place : Place) (child : Nat) (m m' : Machine) : Prop :=
  m.proc.pid ≠ child → m.Away place →
    m'.proc.pid = m.proc.pid ∧ m'.Away place ∧ Relates child [] [] m m' ∧
      m'.world.files.node? place = m.world.files.node? place

instance (place : Place) (child : Nat) : Frame (Leaves place child) where
  refl m _ haway := ⟨rfl, haway, .of_eq rfl, rfl⟩
  trans {a b c} hab hbc hpid haway := by
    obtain ⟨hpid₁, haway₁, hrelates₁, hnode₁⟩ := hab hpid haway
    obtain ⟨hpid₂, haway₂, hrelates₂, hnode₂⟩ := hbc (hpid₁ ▸ hpid) haway₁
    exact ⟨hpid₂.trans hpid₁, haway₂, hrelates₁.trans hrelates₂, hnode₂.trans hnode₁⟩

theorem Leaves.note {place : Place} {child : Nat} {e : Entry} (m : Machine)
    (hopening : e.opening? = none) (hbytes : said child [e] = []) :
    Leaves place child m (m.note e) := fun _ haway =>
  ⟨rfl, haway, .of_mute (.refl m.world) hopening hbytes, rfl⟩

instance (place : Place) (child : Nat) : Heedless (Leaves place child) where
  speak h hpid haway := by
    obtain ⟨file, w, hfile, hw, rfl⟩ := Machine.write_eq_ok h
    obtain ⟨f, hf, helsewhere⟩ := haway file hfile
    have hmute := World.write_spec hw
    have hnode : w.files.node? place = _ := World.write_away hf helsewhere hw
    refine ⟨rfl, haway.of_grows ?_ rfl, .of_mute hmute rfl (by simp [said, hpid]), hnode⟩
    exact hmute.grows.trans (w.grows_note _)
  logged m r := .note m rfl rfl
  counted _ _ _ haway := ⟨rfl, haway, .of_eq rfl, rfl⟩
  same h _ haway := ⟨h.pid, haway.of_grows (.refl _) (by rw [h.fds]), .of_eq rfl, rfl⟩

theorem Act.Keeps.await_leaves (place : Place) (child pid : Nat) :
    Keeps (Leaves place child) (LineShell.await pid) :=
  .await_of (.wait_of (fun m _ => .note m rfl rfl) fun _ _ _ haway => ⟨rfl, haway, .of_eq rfl, rfl⟩)

/-! ### The file -/

/-- A path leads to a file that can be written, or to where one can be made: its place, and what it
holds. -/
inductive FileTree.Writable (t : FileTree) (cwd : Place) (path : Text) (place : Place) : Bytes → Prop where
  /-- There is such a file. -/
  | file {mode : Mode} {data : Bytes} {program : Option Program}
      (hplace : t.resolve cwd path = .ok place)
      (hnode : t.node? place = some (.file mode data program)) (hmode : mode.write = true) :
      Writable t cwd path place data
  /-- There is nothing yet. -/
  | absent (hnone : t.resolve cwd path = .error .noEntry) (hplace : t.newPlace cwd path = .ok place) :
      Writable t cwd path place []

/-- A path leads to what can be read. -/
def FileTree.Readable (t : FileTree) (cwd : Place) (path : Text) : Prop :=
  ∃ place node, t.resolve cwd path = .ok place ∧ t.node? place = some node ∧ node.mode.read = true

theorem Node.mode_shape (node : Node) : node.shape.mode = node.mode := by
  cases node <;> rfl

section Opening

variable {t u : FileTree} {cwd place : Place} {path : Text} {data : Bytes}

/-- What can be written is told by the shape of the file tree and the file itself. -/
theorem FileTree.Writable.of_shape (h : t.Writable cwd path place data) (hshape : u.shape = t.shape)
    (hnode : u.node? place = t.node? place) : u.Writable cwd path place data := by
  cases h with
  | file hplace hfile hmode =>
    refine .file ?_ (hnode.trans hfile) hmode
    rw [← resolve_shape u, hshape, resolve_shape, hplace]
  | absent hnone hplace =>
    refine .absent ?_ ?_
    · rw [← resolve_shape u, hshape, resolve_shape, hnone]
    · rw [← newPlace_shape u, hshape, newPlace_shape, hplace]

theorem FileTree.Readable.of_shape (h : t.Readable cwd path) (hshape : u.shape = t.shape) :
    u.Readable cwd path := by
  obtain ⟨place, node, hplace, hnode, hmode⟩ := h
  have hsame : (u.node? place).map Node.shape = some node.shape := by
    rw [← node?_shape, hshape, node?_shape, hnode]
    rfl
  obtain ⟨node', hnode', heq⟩ := Option.map_eq_some_iff.1 hsame
  refine ⟨place, node', ?_, hnode', ?_⟩
  · rw [← resolve_shape u, hshape, resolve_shape, hplace]
  · rw [← Node.mode_shape, heq, Node.mode_shape, hmode]

/-- A file that can be written is opened for writing, and emptied unless it is opened for more. -/
theorem access_of_writable {mode : Mode} {program : Option Program} {how : OpenMode}
    (hnode : t.node? place = some (.file mode data program)) (hmode : mode.write = true)
    (hhow : how ≠ .read) : ∃ after, access t place how = .ok (.place place, after) ∧
      after.Holds place (if how = .append then data else []) := by
  unfold access
  rw [hnode]
  dsimp only
  rw [if_neg hhow, hmode]
  cases how with
  | read => exact absurd rfl hhow
  | truncate => exact ⟨_, rfl, mode, program, FileTree.node?_put_self _ _ _⟩
  | append => exact ⟨_, rfl, mode, program, FileTree.node?_put_self _ _ _⟩

/-- A path that leads to a file that can be written or made opens it. -/
theorem FileTree.Writable.opens {how : OpenMode} (h : t.Writable cwd path place data)
    (hhow : how ≠ .read) : ∃ made after, locate t cwd path how = .ok (place, made) ∧
      access made place how = .ok (.place place, after) ∧
      after.Holds place (if how = .append then data else []) := by
  unfold locate
  cases h with
  | file hplace hnode hmode =>
    obtain ⟨after, haccess, hholds⟩ := access_of_writable hnode hmode hhow
    rw [hplace]
    exact ⟨t, after, rfl, haccess, hholds⟩
  | absent hnone hplace =>
    obtain ⟨after, haccess, hholds⟩ := access_of_writable
      (FileTree.node?_put_self t place (.file .plain [] none)) rfl hhow
    rw [hnone]
    dsimp only
    rw [if_neg hhow, hplace]
    exact ⟨_, after, rfl, haccess, hholds⟩

/-- What can be read is opened for reading, and nothing changes. -/
theorem FileTree.Readable.opens (h : t.Readable cwd path) :
    ∃ place target, locate t cwd path .read = .ok (place, t) ∧
      access t place .read = .ok (target, t) := by
  obtain ⟨place, node, hplace, hnode, hmode⟩ := h
  refine ⟨place, ?_⟩
  unfold locate access
  rw [hplace, hnode]
  cases node with
  | directory mode =>
    have hread : mode.read = true := hmode
    exact ⟨.place place, rfl, by simp [hread]⟩
  | file mode data program =>
    have hread : mode.read = true := hmode
    exact ⟨.place place, rfl, by simp [hread]⟩
  | null => exact ⟨.null, rfl, rfl⟩

end Opening

/-! ### Commands with one file for both streams -/

/-- Standard output and standard error of a command are redirected to one file, seen from a machine,
and standard input to what can be read, if it is redirected. -/
structure Command.SharesFile (c : Command) (r e : Redirect) (m : Machine) (place : Place)
    (data : Bytes) : Prop where
  /-- Where standard output goes. -/
  output : c.output = some r
  /-- Where standard error goes. -/
  errors : c.errors = some e
  /-- Both have one path. -/
  same : e.target.expand m.proc.table = r.target.expand m.proc.table
  /-- The path can be given to the system. -/
  path : hasNul (r.target.expand m.proc.table) = false
  /-- It leads to the file. -/
  file : m.world.files.Writable m.proc.cwd (r.target.expand m.proc.table) place data
  /-- Where standard input comes from. -/
  input : ∀ w, c.input = some w → hasNul (w.expand m.proc.table) = false ∧
    m.world.files.Readable m.proc.cwd (w.expand m.proc.table)

section Sharing

variable {c : Command} {r e : Redirect} {m : Machine} {place : Place} {data : Bytes}

/-- The bindings of the command: one for both streams, and maybe one for standard input. -/
theorem Command.SharesFile.bindings (h : c.SharesFile r e m place data) :
    c.bindings m.proc.table = (c.input.map fun w => (⟨w.expand m.proc.table, .read, [0]⟩ : Binding)).toList
      ++ [⟨r.target.expand m.proc.table, r.mode, [1, 2]⟩] := by
  simp [Command.bindings, h.output, h.errors, h.same]

/-- How the redirect of standard error asks for the file to be opened makes no difference. -/
theorem Command.SharesFile.applyRedirects_eq (h : c.SharesFile r e m place data) (append : Bool) :
    applyRedirects { c with errors := some { e with append } } m = applyRedirects c m := by
  have h' : Command.SharesFile { c with errors := some { e with append } } r { e with append } m place
      data := ⟨h.output, rfl, h.same, h.path, h.file, h.input⟩
  show bindAll [] _ m = bindAll [] _ m
  rw [h.bindings, h'.bindings]

/-- The binding for standard input, if there is one, opens its file and changes nothing. -/
theorem Command.SharesFile.opens_input (h : c.SharesFile r e m place data) :
    ∃ targets, Opens m.proc.cwd m.world.files
      (c.input.map fun w => (⟨w.expand m.proc.table, .read, [0]⟩ : Binding)).toList targets
      m.world.files := by
  cases hin : c.input with
  | none => exact ⟨[], .nil⟩
  | some w =>
    obtain ⟨hnul, hreadable⟩ := h.input w hin
    obtain ⟨place', target, hlocate, haccess⟩ := hreadable.opens
    exact ⟨[target], .cons hnul hlocate haccess .nil⟩

/-- The redirects of the command are made: both streams lead to one open file, by which bytes are added
to what is left of the file. -/
theorem Command.SharesFile.redirected (h : c.SharesFile r e m place data)
    (hclear : ∀ call ∈ [CallName.openFile, .dup, .close], m.world.Clear call) :
    ∃ m' x, applyRedirects c m = .ok () m' ∧ m'.proc.fds.get? 1 = some x ∧
      m'.proc.fds.get? 2 = some x ∧ m'.world.Feeds place x (if r.append then data else []) := by
  obtain ⟨targets, hinput⟩ := h.opens_input
  obtain ⟨made, after, hlocate, haccess, hholds⟩ := h.file.opens r.mode_ne_read
  have hshared : Opens m.proc.cwd m.world.files [⟨r.target.expand m.proc.table, r.mode, [1, 2]⟩]
      [.place place] after := .cons h.path hlocate haccess .nil
  obtain ⟨m', x, hok, hfiles, hopened, hstreams⟩ :=
    applyRedirects_of_opens_last hclear h.bindings hinput hshared
  refine ⟨m', x, hok, hstreams 1 (by simp) (by simp), hstreams 2 (by simp) (by simp), ?_, _, hopened, rfl,
    by simp [Binding.opens, r.mode_ne_read], ?_⟩
  · have hmode : (r.mode = .append) = (r.append = true) := by simp [Redirect.mode]
    rw [hfiles]
    simpa [hmode] using hholds
  · by_cases happend : r.append
    · exact Or.inl (by simp [Binding.opens, Redirect.mode, happend])
    · exact Or.inr (by simp [Binding.opens, happend])

/-- What a file tree and a process make of the command's paths is told by the shape of the tree and by
the process. -/
theorem Command.SharesFile.of_shape {m' : Machine} (h : c.SharesFile r e m place data)
    (htable : m'.proc.table = m.proc.table) (hcwd : m'.proc.cwd = m.proc.cwd)
    (hshape : m'.world.files.shape = m.world.files.shape)
    (hnode : m'.world.files.node? place = m.world.files.node? place) :
    c.SharesFile r e m' place data where
  output := h.output
  errors := h.errors
  same := htable ▸ h.same
  path := htable ▸ h.path
  file := by
    rw [htable, hcwd]
    exact h.file.of_shape hshape hnode
  input w hw := by
    rw [htable, hcwd]
    exact (h.input w hw).imp_right fun hreadable => hreadable.of_shape hshape

/-- The life of the child of the command: it makes its redirects, becomes a program or tells why it does
not, and concludes. All that it writes is added to the file. -/
theorem Command.SharesFile.lives {n : Machine} (h : c.SharesFile r e n.born place data)
    (hclear : ∀ call ∈ [CallName.openFile, .dup, .close], n.born.world.Clear call)
    (s : Except Failure ChildEnd) :
    ∃ bs, Relates n.world.nextPid ((c.bindings n.proc.table).map fun b => (b.path, b.mode)) bs n
        ((conclude s).after ((runChild c).after n.born)) ∧
      ((conclude s).after ((runChild c).after n.born)).world.files.Holds place
        ((if r.append then data else []) ++ bs) := by
  obtain ⟨k, x, hredirect, hout, herr, hfeeds⟩ := h.redirected hclear
  have hpid : k.proc.pid = n.world.nextPid := ((Keeps.applyRedirects c).of_ok hredirect).pid
  rw [after_eq_of_eq (runChild_of_redirected hredirect)]
  have hpours : Pours place x k ((conclude s).after ((runProgram (c.argv k.proc.table)).after k)) :=
    Frame.trans (Keeps.runProgram_pours place x _ k) (Keeps.conclude_pours place x s _)
  obtain ⟨-, -, bs, hprogram, hpoured⟩ := hpours hout herr
  have hborn : Relates n.world.nextPid [] [] n n.born := .of_journal (List.append_assoc ..) rfl rfl
  rw [hpid] at hprogram
  have hrelates := hborn.trans ((applyRedirects_relates hredirect _).trans hprogram)
  rw [List.append_nil] at hrelates
  exact ⟨bs, hrelates, (hpoured _ hfeeds).holds⟩

/-- The child of the command, and its maker behind it. -/
theorem Command.SharesFile.ends {n m₁ : Machine} {pid : Nat} (h : c.SharesFile r e n.born place data)
    (hclear : ∀ call ∈ [CallName.openFile, .dup, .close], n.born.world.Clear call)
    (haway : n.Away place) (hpid : n.proc.pid < n.world.nextPid)
    (hspawn : spawn (runChild c) n = .ok pid m₁) :
    ∃ bs, Relates n.world.nextPid ((c.bindings n.proc.table).map fun b => (b.path, b.mode)) bs n
        ((await pid >>= remember).after m₁) ∧
      ((await pid >>= remember).after m₁).world.files.Holds place
        ((if r.append then data else []) ++ bs) := by
  obtain ⟨s, raw, hmade⟩ := spawn_eq_ok hspawn
  obtain ⟨bs, hlife, mode, program, hfile⟩ := h.lives hclear s
  have hchild : Proceeds n.born ((conclude s).after ((runChild c).after n.born)) :=
    Frame.trans (Keeps.runChild_proceeds c n.born)
      (Keeps.conclude_of (fun k _ => (Proceeds.refl k).called _) s _)
  generalize (conclude s).after ((runChild c).after n.born) = dead at hmade hlife hfile hchild
  -- the maker tells of the child and waits for it
  have hmaker : Leaves place n.world.nextPid (n.outlived dead.world raw)
      ((await pid >>= remember).after m₁) :=
    Frame.trans ((Keeps.tellChild _).of_ok hmade)
      (Keeps.bind (.await_leaves place _ _) (fun s => .remember s) m₁)
  have hgrows : n.world.Grows (n.outlived dead.world raw).world :=
    (n.followed_born.grows.trans hchild.widens.grows).trans (.of_eq rfl rfl rfl rfl)
  obtain ⟨-, -, hrest, hkept⟩ := hmaker (Nat.ne_of_lt hpid) (haway.of_grows hgrows rfl)
  have hended : Relates n.world.nextPid [] [] dead (n.outlived dead.world raw) := .of_eq rfl
  refine ⟨bs, ?_, mode, program, hkept.trans hfile⟩
  simpa using hlife.trans (hended.trans hrest)

end Sharing

/-! ### The whole command -/

/-- Nothing gets in the way of a command and the file at a place: the plan is done with the calls that
make a child and its redirects, the number of the child is new, and the shell itself writes elsewhere. -/
structure Machine.Unhindered (m : Machine) (place : Place) : Prop where
  /-- The calls succeed that can. -/
  clear : ∀ call ∈ [CallName.fork, .openFile, .dup, .close], m.world.Clear call
  /-- The shell does not have the number of the child. -/
  fresh : m.proc.pid < m.world.nextPid
  /-- What the shell writes does not go to the file. -/
  away : m.Away place

/-- What comes of a command whose two output streams share the file at a place, in a run from `m` to
`m'` in which its child is made in `n`; `before` is what the opening leaves of the file. -/
structure Collects (c : Command) (e : Redirect) (opening : Text × OpenMode) (place : Place)
    (before : Bytes) (m n m' : Machine) : Prop where
  /-- In the child, however standard error asks for the file to be opened, both streams lead to one open
  file, and whatever is written to them, and in whatever order, is written, and stands in the file
  in that order behind what was left of it. -/
  streams : ∃ k x,
    (∀ append, applyRedirects { c with errors := some { e with append } } n.born = .ok () k) ∧
    k.proc.fds.get? 1 = some x ∧ k.proc.fds.get? 2 = some x ∧
    ∀ chunks : List (Nat × Bytes), (∀ chunk ∈ chunks, chunk.1 = 1 ∨ chunk.1 = 2) →
      ∃ k', k.emit chunks = (true, k') ∧
        k'.world.files.Holds place (before ++ chunks.flatMap (·.2))
  /-- When the command has ended, all that its child wrote stands in the file. -/
  holds : m'.world.files.Holds place (before ++ said m.world.nextPid (m.since m'))
  /-- One opening for writing was made in all the run. -/
  once : ((m.since m').filterMap Entry.opening?).filter (·.2 ≠ .read) = [opening]

/-- **Main result**: where the output and the errors of a command go to one file, no write is lost. -/
theorem execute_sharedFile {rules : Rules} {c : Command} {r e : Redirect} {m : Machine}
    {place : Place} {data : Bytes} (mark : Option Nat) (level : Int)
    (hkind : rules.kind (c.verb.expand m.proc.table) = .external)
    (h : c.SharesFile r e m place data) (hm : m.Unhindered place) :
    Collects c e (r.target.expand m.proc.table, r.mode) place (if r.append then data else []) m
      ((Tree.leaf mark c).told level m) ((execute rules (.leaf mark c) level).after m) := by
  have hhome := told_homebound mark c level m
  have honward : Onward m ((Tree.leaf mark c).told level m) := (Tree.told_proceeds _ level m).onward
  have hproc : ((Tree.leaf mark c).told level m).proc = m.proc := (Tree.leaf mark c).told_idle level m
  have hbegan : Leaves place m.world.nextPid m ((Tree.leaf mark c).told level m) :=
    Tree.told_of (fun m _ _ => .note m rfl rfl) _ level m
  obtain ⟨_, m₁, hspawn, -⟩ :=
    spawn_of_clear (honward.clear (hm.clear .fork List.mem_cons_self)) (runChild c)
  rw [after_eq_of_eq (execute_of_spawn mark level hkind hspawn)]
  generalize (Tree.leaf mark c).told level m = n at hhome honward hproc hbegan hspawn ⊢
  obtain ⟨-, haway, hrelates, hnode⟩ := hbegan (Nat.ne_of_lt hm.fresh) hm.away
  have htable : n.proc.table = m.proc.table := by rw [hproc]
  have hcwd : n.proc.cwd = m.proc.cwd := by rw [hproc]
  have hborn : c.SharesFile r e n.born place data := h.of_shape htable hcwd hhome.files hnode
  have hclear : ∀ call ∈ [CallName.openFile, .dup, .close], n.born.world.Clear call :=
    fun call hcall => (honward.trans (.born n)).clear (hm.clear call (List.mem_cons_of_mem _ hcall))
  have hfresh : n.proc.pid < n.world.nextPid := by
    rw [hproc, hhome.nextPid]
    exact hm.fresh
  obtain ⟨bs, hrest, hholds⟩ := hborn.ends hclear haway hfresh hspawn
  rw [hhome.nextPid] at hrest hholds ⊢
  have hall := hrelates.trans hrest
  refine ⟨?_, ?_, ?_⟩
  · obtain ⟨k, x, hredirect, hstdout, hstderr, hfeeds⟩ := hborn.redirected hclear
    refine ⟨k, x, fun append => (hborn.applyRedirects_eq append).trans hredirect, hstdout, hstderr,
      fun chunks hchunks => ?_⟩
    obtain ⟨k', hemit, hadded⟩ := hfeeds.emit hstdout hstderr hchunks
    exact ⟨k', hemit, hadded.holds⟩
  · rw [hall.bytes]
    exact hholds
  · have hbindings : c.bindings n.proc.table = _ := hborn.bindings
    have htable' : n.born.proc.table = m.proc.table := htable
    rw [hall.openings, hbindings, htable']
    cases c.input <;> simp [r.mode_ne_read]

/-- The command `both a b c < out >> out 2> out`. -/
def bothToOut : Command :=
  ⟨[.lit "both".toList], [[.lit ['a']], [.lit ['b']], [.lit ['c']]], some [.lit "out".toList],
    some ⟨[.lit "out".toList], true⟩, some ⟨[.lit "out".toList], false⟩⟩

/-- That command where `out` holds a line: the errors come between the outputs, behind that line. -/
theorem execute_sharedFile_bothToOut :
    let rules : Rules := ⟨true, []⟩
    let r : Redirect := ⟨[.lit "out".toList], true⟩
    let e : Redirect := ⟨[.lit "out".toList], false⟩
    let place : Place := FileTree.home ++ ["out".toList]
    let old := encode "old\n".toList
    let m := Machine.boot (FileTree.standard.install place (.file .plain old none)) FileTree.home [] []
      [] []
    let m' := (execute rules (.leaf none bothToOut) 0).after m
    rules.kind (bothToOut.verb.expand m.proc.table) = .external ∧
      bothToOut.SharesFile r e m place old ∧ m.Unhindered place ∧
      Collects bothToOut e ("out".toList, .append) place old m ((Tree.leaf none bothToOut).told 0 m) m' ∧
      m'.world.files.Holds place (encode "old\na\nb\nc\n".toList) := by
  intro rules r e place old m m'
  have hkind : rules.kind (bothToOut.verb.expand m.proc.table) = .external := by decide +kernel
  have hplace : m.world.files.resolve m.proc.cwd "out".toList = .ok place := by decide +kernel
  have hnode : m.world.files.node? place = some (.file .plain old none) := by decide +kernel
  have hshares : bothToOut.SharesFile r e m place old :=
    ⟨rfl, rfl, rfl, by decide, .file hplace hnode rfl, fun w hw => by
      obtain rfl := Option.some.inj hw
      exact ⟨by decide, place, _, hplace, hnode, rfl⟩⟩
  have hm : m.Unhindered place := ⟨fun _ _ => nofun, by decide, fun i hi => by
    obtain rfl : 2 = i := Option.some.inj hi
    exact ⟨⟨.errors, true, false, 0⟩, rfl, by simp⟩⟩
  have hcollects : Collects bothToOut e ("out".toList, .append) place old m
    ((Tree.leaf none bothToOut).told 0 m) m' := execute_sharedFile none 0 hkind hshares hm
  have hsaid : said m.world.nextPid (m.since m') = encode "a\nb\nc\n".toList := by decide +kernel
  have hholds := hcollects.holds
  rw [hsaid] at hholds
  exact ⟨hkind, hshares, hm, hcollects, hholds⟩

end LineShell
