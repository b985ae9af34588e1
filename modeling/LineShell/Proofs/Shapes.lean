import LineShell.Proofs.InStep

/-!
# Shapes

The shape of a machine is the machine without the bytes that pass through it: what its files and
its channels hold, how far they were read or written, what reached the outputs, and what its log
says. Paths are resolved, files are opened and programs are found by the shape alone; programs
write or fail to write by the shape alone; and no exit code depends on what was read. So every
action answers and leaves a shape as the shape that it found says, whatever texts it logs or
prints.

## The model

* `Machine.shape` empties what holds bytes and leaves everything else: the kinds and modes of
  nodes, the open files with what they give access to, the channels by their number, the ended
  children, the calls made and the failures planned, and the process as it is.
* `Entry.shape?` keeps of the journal what tells of calls, leaves and programs in full, and of
  reads and writes that there were some.
* `Machine.SameShape` relates machines of one shape. Two results are `Alike` if they are the same
  but for that, and two actions are `Shaped` if they take machines of one shape to results that
  are alike.
* `Formal` says of the work of a call that its answer, and the shape that it leaves, are told by
  the shape that it found.

## What is proved

* Walking, resolving, opening and searching for programs commute with taking the shape
  (`FileTree.walk_shape`, `locate_shape`, `access_shape`, `searchProgram_shape`).
* A write leaves the shape as it was, and whether it succeeds depends on the shape alone
  (`World.shape_of_write`, `World.write_shape`); a read takes from the shape no more than what is
  left of the input (`World.shape_of_read`).
* A program ends alike in machines of one shape, so every call, every text and every record is in
  step with itself under this relation, and texts and messages may even differ. The walk through
  the launcher and the operators follows from that.
* Pairs and leaves at any two depths come to the same but for bytes (`Shaped.runPair`,
  `Shaped.runLeaf`).

## What is left out

Nothing is said of bytes, so nothing here needs to know where standard error leads.
-/

namespace LineShell

open Act

/-! ### File trees -/

/-- A node without what its file holds. -/
def Node.shape : Node → Node
  | .file mode _ program => .file mode [] program
  | node => node

@[simp] theorem Node.shape_directory (mode : Mode) :
    (Node.directory mode).shape = .directory mode := rfl

@[simp] theorem Node.shape_file (mode : Mode) (data : Bytes) (program : Option Program) :
    (Node.file mode data program).shape = .file mode [] program := rfl

namespace FileTree

/-- A file tree without what its files hold. -/
def shape (t : FileTree) : FileTree := t.map fun e => (e.1, e.2.shape)

@[simp] theorem node?_shape (t : FileTree) (place : Place) :
    t.shape.node? place = (t.node? place).map Node.shape := by
  induction t with
  | nil => rfl
  | cons e es ih =>
    by_cases h : e.1 = place
    · simp [shape, node?, h]
    · simpa [shape, node?, h] using ih

@[simp] theorem shape_put (t : FileTree) (place : Place) (node : Node) :
    (t.put place node).shape = t.shape.put place node.shape := by
  induction t with
  | nil => rfl
  | cons e es ih =>
    by_cases h : e.1 = place
    · simp [shape, put, h]
    · simpa [shape, put, h] using ih

/-- Putting what stands at a place there once more changes nothing. -/
theorem put_self {t : FileTree} {place : Place} {node : Node} (h : t.node? place = some node) :
    t.put place node = t := by
  induction t with
  | nil => simp [node?] at h
  | cons e es ih =>
    by_cases hp : e.1 = place
    · obtain rfl : e.2 = node := by simpa [node?, hp] using h
      simp [put, ← hp]
    · have htail : node? es place = some node := by simpa [node?, hp] using h
      simp [put, hp, ih htail]

/-- Paths are walked by the shape alone. -/
@[simp] theorem walk_shape (t : FileTree) (here : Place) (names : List Text) :
    t.shape.walk here names = t.walk here names := by
  induction names generalizing here with
  | nil => rfl
  | cons name names ih =>
    unfold walk
    rw [node?_shape]
    cases t.node? here with
    | none => rfl
    | some node =>
      cases node with
      | directory mode => simp [ih]
      | file mode data program => rfl
      | null => rfl

@[simp] theorem resolve_shape (t : FileTree) (cwd : Place) (path : Text) :
    t.shape.resolve cwd path = t.resolve cwd path := by
  simp [resolve]

@[simp] theorem newPlace_shape (t : FileTree) (cwd : Place) (path : Text) :
    t.shape.newPlace cwd path = t.newPlace cwd path := by
  unfold newPlace
  rw [resolve_shape]
  cases t.resolve cwd (splitName path).1 with
  | error e => rfl
  | ok directory =>
    dsimp only
    rw [node?_shape]
    rcases t.node? directory with _ | _ | _ | _ <;> rfl

end FileTree

/-- A place is found by the shape alone. -/
theorem locate_shape (files : FileTree) (cwd : Place) (path : Text) (mode : OpenMode) :
    locate files.shape cwd path mode
      = (locate files cwd path mode).map fun found => (found.1, found.2.shape) := by
  unfold locate
  rw [FileTree.resolve_shape]
  cases files.resolve cwd path with
  | ok place => rfl
  | error e =>
    cases e with
    | noEntry =>
      rw [FileTree.newPlace_shape]
      dsimp only
      split
      · rfl
      · cases files.newPlace cwd path with
        | error e => rfl
        | ok place => simp [Except.map]
    | _ => rfl

/-- Access is given by the shape alone. -/
theorem access_shape (files : FileTree) (place : Place) (mode : OpenMode) :
    access files.shape place mode
      = (access files place mode).map fun given => (given.1, given.2.shape) := by
  unfold access
  rw [FileTree.node?_shape]
  cases files.node? place with
  | none => rfl
  | some node =>
    cases node with
    | null => rfl
    | directory m =>
      simp only [Option.map_some, Node.shape_directory]
      split
      · rfl
      · split <;> rfl
    | file m data program =>
      simp only [Option.map_some, Node.shape_file]
      split
      · split <;> rfl
      split
      · rfl
      split <;> simp [Except.map]

theorem programAt_shape (files : FileTree) (cwd : Place) (path : Text) :
    programAt files.shape cwd path = programAt files cwd path := by
  unfold programAt
  rw [FileTree.resolve_shape]
  cases files.resolve cwd path with
  | error e => rfl
  | ok place =>
    dsimp only
    rw [FileTree.node?_shape]
    rcases files.node? place with _ | _ | _ | _ <;> rfl

/-- A program is found by the shape alone. -/
@[simp] theorem searchProgram_shape (files : FileTree) (cwd : Place) (kept : Option Errno)
    (paths : List Text) (last : Errno) :
    searchProgram files.shape cwd kept paths last = searchProgram files cwd kept paths last := by
  induction paths generalizing kept last with
  | nil => rfl
  | cons path paths ih =>
    unfold searchProgram
    rw [programAt_shape]
    cases programAt files cwd path with
    | ok found => rfl
    | error e => exact ih _ _

/-! ### Machines -/

/-- An open file without how far it was read or written. -/
def OpenFile.shape (f : OpenFile) : OpenFile := { f with offset := 0 }

/-- What an entry of the journal tells but for bytes and records. -/
def Entry.shape? : Entry → Option Entry
  | .logged _ => none
  | .wrote _ _ _ true => none
  | .wrote pid file _ false => some (.wrote pid file [] false)
  | .took pid file _ => some (.took pid file [])
  | e => some e

/-- A world without the bytes that passed through it, and without its log. -/
def World.shape (w : World) : World :=
  { w with
    files := w.files.shape
    opened := w.opened.map OpenFile.shape
    channels := List.replicate w.channels.length []
    output := []
    errors := []
    journal := w.journal.filterMap Entry.shape? }

/-- A machine without the bytes that passed through it, and without its log. -/
def Machine.shape (m : Machine) : Machine := { m with world := m.world.shape }

@[simp] theorem Node.shape_shape (node : Node) : node.shape.shape = node.shape := by
  cases node <;> rfl

@[simp] theorem FileTree.shape_shape (t : FileTree) : t.shape.shape = t.shape := by
  simp [FileTree.shape]

@[simp] theorem OpenFile.shape_shape (f : OpenFile) : f.shape.shape = f.shape := rfl

theorem Entry.shape?_of_shape {e e' : Entry} (h : e.shape? = some e') : e'.shape? = some e' := by
  cases e with
  | wrote pid file bs log =>
    cases log with
    | true => exact nomatch h
    | false =>
      obtain rfl := Option.some.inj h
      rfl
  | logged r => exact nomatch h
  | _ =>
    obtain rfl := Option.some.inj h
    rfl

@[simp] theorem filterMap_shape? (journal : List Entry) :
    (journal.filterMap Entry.shape?).filterMap Entry.shape? = journal.filterMap Entry.shape? := by
  rw [List.filterMap_filterMap]
  congr 1
  funext e
  cases he : e.shape? with
  | none => rfl
  | some e' => exact Entry.shape?_of_shape he

@[simp] theorem World.shape_shape (w : World) : w.shape.shape = w.shape := by
  simp [shape]

@[simp] theorem Machine.shape_shape (m : Machine) : m.shape.shape = m.shape := by
  simp [shape]

theorem World.shape_note (w : World) (e : Entry) :
    (w.note e).shape = { w.shape with journal := w.shape.journal ++ e.shape?.toList } := by
  have hlast : [e].filterMap Entry.shape? = e.shape?.toList := by
    rw [List.filterMap_cons]
    cases e.shape? <;> rfl
  simp [note, shape, hlast]

namespace Machine

variable {m m' : Machine}

/-- The machines have one shape. -/
def SameShape (m m' : Machine) : Prop := m.shape = m'.shape

theorem world_of_shape (h : m.shape = m'.shape) : m.world.shape = m'.world.shape := by
  have hworld : m.shape.world = m'.shape.world := by rw [h]
  exact hworld

theorem proc_of_shape (h : m.shape = m'.shape) : m.proc = m'.proc := by
  have hproc : m.shape.proc = m'.shape.proc := by rw [h]
  exact hproc

theorem shape_eq_of (hworld : m.world.shape = m'.world.shape) (hproc : m.proc = m'.proc) :
    m.shape = m'.shape := by
  rw [shape, shape, hworld, hproc]

/-- Entries that tell the same but for bytes, or nothing but records. -/
theorem shape_note (h : m.shape = m'.shape) {e e' : Entry} (he : e.shape? = e'.shape?) :
    (m.note e).shape = (m'.note e').shape := by
  have hproc : m.proc = m'.proc := proc_of_shape h
  refine shape_eq_of ?_ hproc
  rw [note, note, World.shape_note, World.shape_note, world_of_shape h, he]

end Machine

/-! ### Reading and writing -/

namespace World

/-- How far an open file was read or written is no part of the shape. -/
theorem shape_opened_set {opened : List OpenFile} {file : Nat} {f : OpenFile}
    (h : opened[file]? = some f) (offset : Nat) :
    (opened.set file { f with offset := offset }).map OpenFile.shape
      = opened.map OpenFile.shape := by
  refine List.ext_getElem? fun i => ?_
  rw [List.getElem?_map, List.getElem?_map, List.getElem?_set]
  by_cases hi : file = i
  · subst hi
    have hlt : file < opened.length := (List.getElem?_eq_some_iff.1 h).1
    obtain rfl := Option.some.inj ((List.getElem?_eq_getElem hlt).symm.trans h)
    simp [hlt, OpenFile.shape]
  · rw [if_neg hi]

/-- A write leaves the shape as it was. -/
theorem shape_of_write {w v : World} {file : Nat} {bs : Bytes} (h : w.write file bs = .ok v) :
    v.shape = w.shape := by
  obtain ⟨f, hf, -, hwrote⟩ := write_eq_ok.1 h
  cases hwrote with
  | output => rfl
  | errors => rfl
  | null => rfl
  | channel => simp [shape]
  | @place p mode data program start _ hnode _ =>
    have hshape : w.files.shape.node? p = some (.file mode [] program) := by simp [hnode]
    have hfiles (data : Bytes) : (w.files.put p (.file mode data program)).shape = w.files.shape := by
      rw [FileTree.shape_put, Node.shape_file, FileTree.put_self hshape]
    unfold shape
    dsimp only
    rw [hfiles, shape_opened_set hf]

/-- A read leaves the shape as it was, but for what is left of the input. -/
theorem shape_of_read {w v : World} {file : Nat} {part : Bytes → Bytes} {bs : Bytes}
    (h : w.read file part = .ok (bs, v)) : v.shape = { w.shape with input := v.input } := by
  obtain ⟨f, hf, -, htook⟩ := read_eq_ok h
  cases htook with
  | input => rfl
  | null => rfl
  | channel => simp [shape]
  | place => simp [shape, shape_opened_set hf]

/-- Whether a write succeeds depends on the shape alone. -/
theorem write_shape (w : World) (file : Nat) (bs bs' : Bytes) :
    (∃ e, w.write file bs = .error e ∧ w.shape.write file bs' = .error e) ∨
      ∃ v v', w.write file bs = .ok v ∧ w.shape.write file bs' = .ok v' := by
  have hopened : w.shape.opened[file]? = (w.opened[file]?).map OpenFile.shape := by simp [shape]
  have hfiles : w.shape.files = w.files.shape := rfl
  unfold write
  rw [hopened]
  cases w.opened[file]? with
  | none => exact Or.inl ⟨_, rfl, rfl⟩
  | some f =>
    simp only [Option.map_some, OpenFile.shape]
    cases f.writes with
    | false => exact Or.inl ⟨_, rfl, rfl⟩
    | true =>
      cases f.target with
      | place p =>
        simp only [hfiles, FileTree.node?_shape]
        rcases w.files.node? p with _ | _ | _ | _
        · exact Or.inl ⟨_, rfl, rfl⟩
        · exact Or.inl ⟨_, rfl, rfl⟩
        · exact Or.inr ⟨_, _, rfl, rfl⟩
        · exact Or.inl ⟨_, rfl, rfl⟩
      | input => exact Or.inl ⟨_, rfl, rfl⟩
      | readEnd n => exact Or.inl ⟨_, rfl, rfl⟩
      | _ => exact Or.inr ⟨_, _, rfl, rfl⟩

/-- Whether a read succeeds, and what it leaves of the input, depends on the shape alone. -/
theorem read_shape (w : World) (file : Nat) (part : Bytes → Bytes) :
    (∃ e, w.read file part = .error e ∧ w.shape.read file part = .error e) ∨
      ∃ r r', w.read file part = .ok r ∧ w.shape.read file part = .ok r' ∧
        r.2.input = r'.2.input := by
  have hopened : w.shape.opened[file]? = (w.opened[file]?).map OpenFile.shape := by simp [shape]
  have hfiles : w.shape.files = w.files.shape := rfl
  unfold read
  rw [hopened]
  cases w.opened[file]? with
  | none => exact Or.inl ⟨_, rfl, rfl⟩
  | some f =>
    simp only [Option.map_some, OpenFile.shape]
    cases f.writes with
    | true => exact Or.inl ⟨_, rfl, rfl⟩
    | false =>
      cases f.target with
      | place p =>
        simp only [hfiles, FileTree.node?_shape]
        rcases w.files.node? p with _ | _ | _ | _
        · exact Or.inl ⟨_, rfl, rfl⟩
        · exact Or.inl ⟨_, rfl, rfl⟩
        · exact Or.inr ⟨_, _, rfl, rfl, rfl⟩
        · exact Or.inl ⟨_, rfl, rfl⟩
      | input => exact Or.inr ⟨_, _, rfl, rfl, rfl⟩
      | null => exact Or.inr ⟨_, _, rfl, rfl, rfl⟩
      | readEnd n => exact Or.inr ⟨_, _, rfl, rfl, rfl⟩
      | _ => exact Or.inl ⟨_, rfl, rfl⟩

theorem write_alike {w w' : World} (h : w.shape = w'.shape) (file : Nat) (bs bs' : Bytes) :
    (∃ e, w.write file bs = .error e ∧ w'.write file bs' = .error e) ∨
      ∃ v v', w.write file bs = .ok v ∧ w'.write file bs' = .ok v' ∧ v.shape = v'.shape := by
  have hw := w.write_shape file bs []
  have hw' := w'.write_shape file bs' []
  rw [h] at hw
  rcases hw with ⟨e, hw, hs⟩ | ⟨v, u, hw, hs⟩
  · rw [hs] at hw'
    rcases hw' with ⟨e', hw', he⟩ | ⟨v', u', -, hu⟩
    · obtain rfl := Except.error.inj he
      exact Or.inl ⟨_, hw, hw'⟩
    · exact nomatch hu
  · rw [hs] at hw'
    rcases hw' with ⟨e', -, he⟩ | ⟨v', u', hw', -⟩
    · exact nomatch he
    · exact Or.inr ⟨v, v', hw, hw', by rw [shape_of_write hw, shape_of_write hw', h]⟩

theorem read_alike {w w' : World} (h : w.shape = w'.shape) (file : Nat) (part : Bytes → Bytes) :
    (∃ e, w.read file part = .error e ∧ w'.read file part = .error e) ∨
      ∃ bs bs' v v', w.read file part = .ok (bs, v) ∧ w'.read file part = .ok (bs', v') ∧
        v.shape = v'.shape := by
  have hw := w.read_shape file part
  have hw' := w'.read_shape file part
  rw [h] at hw
  rcases hw with ⟨e, hw, hs⟩ | ⟨⟨bs, v⟩, u, hw, hs, hinput⟩
  · rw [hs] at hw'
    rcases hw' with ⟨e', hw', he⟩ | ⟨v', u', -, hu, -⟩
    · obtain rfl := Except.error.inj he
      exact Or.inl ⟨_, hw, hw'⟩
    · exact nomatch hu
  · rw [hs] at hw'
    rcases hw' with ⟨e', -, he⟩ | ⟨⟨bs', v'⟩, u', hw', hu, hinput'⟩
    · exact nomatch he
    · obtain rfl := Except.ok.inj hu
      have hleft : v.input = v'.input := hinput.trans hinput'.symm
      exact Or.inr ⟨bs, bs', v, v', hw, hw', by
        rw [shape_of_read hw, shape_of_read hw', h, hleft]⟩

end World

namespace Machine

variable {m m' : Machine}

theorem write_alike (h : m.shape = m'.shape) (log : Bool) (fd : Nat) (bs bs' : Bytes) :
    (∃ e, m.write log fd bs = .error e ∧ m'.write log fd bs' = .error e) ∨
      ∃ n n', m.write log fd bs = .ok n ∧ m'.write log fd bs' = .ok n' ∧ n.shape = n'.shape := by
  have hproc : m.proc = m'.proc := proc_of_shape h
  unfold Machine.write
  rw [← hproc]
  cases m.proc.fds.get? fd with
  | none => exact Or.inl ⟨_, rfl, rfl⟩
  | some file =>
    dsimp only
    rcases World.write_alike (world_of_shape h) file bs bs' with
      ⟨e, hw, hw'⟩ | ⟨v, v', hw, hw', hv⟩
    · rw [hw, hw']
      exact Or.inl ⟨e, rfl, rfl⟩
    · rw [hw, hw']
      refine Or.inr ⟨_, _, rfl, rfl, ?_⟩
      have hmoved : shape ⟨v, m.proc⟩ = shape ⟨v', m.proc⟩ := shape_eq_of hv rfl
      have hentry : (Entry.wrote m.proc.pid file bs log).shape?
          = (Entry.wrote m.proc.pid file bs' log).shape? := by cases log <;> rfl
      exact shape_note hmoved hentry

theorem read_alike (h : m.shape = m'.shape) (fd : Nat) (part : Bytes → Bytes) :
    (∃ e, m.read fd part = .error e ∧ m'.read fd part = .error e) ∨
      ∃ bs bs' n n', m.read fd part = .ok (bs, n) ∧ m'.read fd part = .ok (bs', n') ∧
        n.shape = n'.shape := by
  have hproc : m.proc = m'.proc := proc_of_shape h
  unfold Machine.read
  rw [← hproc]
  cases m.proc.fds.get? fd with
  | none => exact Or.inl ⟨_, rfl, rfl⟩
  | some file =>
    dsimp only
    rcases World.read_alike (world_of_shape h) file part with
      ⟨e, hr, hr'⟩ | ⟨bs, bs', v, v', hr, hr', hv⟩
    · rw [hr, hr']
      exact Or.inl ⟨e, rfl, rfl⟩
    · rw [hr, hr']
      refine Or.inr ⟨bs, bs', _, _, rfl, rfl, ?_⟩
      have hmoved : shape ⟨v, m.proc⟩ = shape ⟨v', m.proc⟩ := shape_eq_of hv rfl
      have hentry : (Entry.took m.proc.pid file bs).shape?
          = (Entry.took m.proc.pid file bs').shape? := rfl
      exact shape_note hmoved hentry

/-- Chunks for the same descriptors are written as far. -/
theorem emit_alike (h : m.shape = m'.shape) {chunks chunks' : List (Nat × Bytes)}
    (hfds : chunks.map (·.1) = chunks'.map (·.1)) :
    (m.emit chunks).1 = (m'.emit chunks').1 ∧
      (m.emit chunks).2.shape = (m'.emit chunks').2.shape := by
  induction chunks generalizing m m' chunks' with
  | nil =>
    obtain rfl := List.map_eq_nil_iff.1 hfds.symm
    exact ⟨rfl, h⟩
  | cons chunk chunks ih =>
    obtain ⟨chunk', chunks', rfl⟩ : ∃ c cs, chunks' = c :: cs := by
      cases chunks' with
      | nil => simp at hfds
      | cons c cs => exact ⟨c, cs, rfl⟩
    obtain ⟨fd, bs⟩ := chunk
    obtain ⟨fd', bs'⟩ := chunk'
    obtain ⟨hfd, hrest⟩ := List.cons.inj hfds
    obtain rfl : fd = fd' := hfd
    unfold emit
    rcases write_alike h false fd bs bs' with ⟨e, hw, hw'⟩ | ⟨n, n', hw, hw', hn⟩
    · rw [hw, hw']
      exact ⟨rfl, h⟩
    · rw [hw, hw']
      exact ih hn hrest

end Machine

/-! ### Programs -/

namespace Program

/-- A program ends with one raw wait status and leaves one shape. -/
def EndsAlike (r r' : Nat × Machine) : Prop := r.1 = r'.1 ∧ r.2.shape = r'.2.shape

variable {m m' : Machine}

theorem finish_alike (h : m.shape = m'.shape) {chunks chunks' : List (Nat × Bytes)}
    (hfds : chunks.map (·.1) = chunks'.map (·.1)) :
    EndsAlike (finish (m.emit chunks)) (finish (m'.emit chunks')) := by
  obtain ⟨hdone, hshape⟩ := Machine.emit_alike h hfds
  exact ⟨by rw [finish, finish, hdone], hshape⟩

theorem filter_alike (h : m.shape = m'.shape) (part render : Bytes → Bytes) :
    EndsAlike (filter m part render) (filter m' part render) := by
  unfold filter
  rcases Machine.read_alike h 0 part with ⟨e, hr, hr'⟩ | ⟨bs, bs', n, n', hr, hr', hn⟩
  · rw [hr, hr']
    exact ⟨rfl, h⟩
  · rw [hr, hr']
    exact finish_alike hn rfl

/-- No program ends otherwise for what it reads. -/
theorem run_alike (h : m.shape = m'.shape) (p : Program) (args : List Text) :
    EndsAlike (p.run args m) (p.run args m') := by
  have hproc : m.proc = m'.proc := Machine.proc_of_shape h
  cases p with
  | succeed => exact ⟨rfl, h⟩
  | fail => exact ⟨rfl, h⟩
  | status => exact ⟨rfl, h⟩
  | die => exact ⟨rfl, h⟩
  | raw => exact ⟨rfl, h⟩
  | cat => exact filter_alike h _ _
  | count => exact filter_alike h _ _
  | head => exact filter_alike h _ _
  | env =>
    unfold run
    rw [hproc]
    exact finish_alike h rfl
  | pwd =>
    unfold run
    rw [hproc]
    exact finish_alike h rfl
  | fds =>
    unfold run
    rw [hproc]
    exact finish_alike h rfl
  | _ => exact finish_alike h rfl

end Program

/-! ### Actions -/

namespace Act

variable {α β : Type}

/-- The same answer, or the same failure, on machines of one shape. -/
abbrev Alike (r r' : EStateM.Result Failure Machine α) : Prop := Both Machine.SameShape r r'

/-- Two actions that come to the same but for bytes and records. -/
abbrev Shaped (a b : Act α) : Prop := InStep Machine.SameShape Machine.SameShape a b

/-- Machines of one shape have one running process. -/
instance : Peers Machine.SameShape where
  proc hm := ⟨_, (Machine.proc_of_shape hm).symm⟩

namespace Shaped

/-- The running processes are the same, the number of the session included. -/
theorem proc_bind {f g : Proc → Act β} (h : ∀ p, Shaped (f p) (g p)) :
    Shaped (Act.proc >>= f) (Act.proc >>= g) := by
  intro m m' hm
  have hproc : m.proc = m'.proc := Machine.proc_of_shape hm
  show Both Machine.SameShape (f m.proc m) (g m'.proc m')
  rw [← hproc]
  exact h m.proc m m' hm

theorem note {e e' : Entry} (h : e.shape? = e'.shape?) : Shaped (Act.note e) (Act.note e') :=
  fun _ _ hm => .ok (Machine.shape_note hm h)

theorem called (e : Event) : Shaped (Act.called e) (Act.called e) := by
  intro m m' hm
  have hproc : m.proc = m'.proc := Machine.proc_of_shape hm
  refine .ok (Machine.shape_note hm ?_)
  rw [hproc]

/-- What the work of a call answers, and the shape that it leaves. -/
def shaped (r : Except Errno (α × Machine)) : Except Errno (α × Machine) :=
  r.map fun r => (r.1, r.2.shape)

/-- The work of a call that is told by the shape alone. -/
def Formal (work : Machine → Except Errno (α × Machine)) : Prop :=
  ∀ m, shaped (work m.shape) = shaped (work m)

/-- What such work comes to on machines of one shape. -/
theorem Formal.cases {work : Machine → Except Errno (α × Machine)} (h : Formal work)
    {m m' : Machine} (hm : m.shape = m'.shape) :
    (∃ e, work m = .error e ∧ work m' = .error e) ∨
      ∃ x n n', work m = .ok (x, n) ∧ work m' = .ok (x, n') ∧ n.shape = n'.shape := by
  have hshaped : shaped (work m) = shaped (work m') := by rw [← h m, ← h m', hm]
  unfold shaped at hshaped
  cases hw : work m with
  | error e =>
    cases hw' : work m' with
    | error e' =>
      rw [hw, hw'] at hshaped
      obtain rfl := Except.error.inj hshaped
      exact Or.inl ⟨e, rfl, rfl⟩
    | ok r =>
      rw [hw, hw'] at hshaped
      exact nomatch hshaped
  | ok r =>
    cases hw' : work m' with
    | error e' =>
      rw [hw, hw'] at hshaped
      exact nomatch hshaped
    | ok r' =>
      rw [hw, hw'] at hshaped
      obtain ⟨hx, hn⟩ := Prod.mk.inj (Except.ok.inj hshaped)
      exact Or.inr ⟨r.1, r.2, r'.2, rfl, by rw [hx], hn⟩

theorem call {c : CallName} {event : Except Errno α → Event}
    {work : Machine → Except Errno (α × Machine)} (hw : Formal work) :
    Shaped (Act.call c event work) (Act.call c event work) := by
  intro m m' hm
  have hproc : m.proc = m'.proc := Machine.proc_of_shape hm
  have hplanned : m.world.planned? c = m'.world.planned? c := by
    have hshape : m.shape.world.planned? c = m'.shape.world.planned? c := by rw [hm]
    exact hshape
  have hcounted : (m.counted c).shape = (m'.counted c).shape := by
    have hshape : m.shape.counted c = m'.shape.counted c := by rw [hm]
    exact hshape
  have htold {n n' : Machine} (hn : n.shape = n'.shape) (e : Event) :
      (n.note (.called m.proc.pid e)).shape = (n'.note (.called m'.proc.pid e)).shape :=
    Machine.shape_note hn (by rw [hproc])
  unfold Act.call
  rw [← hplanned]
  cases m.world.planned? c with
  | some errno => exact .ok (htold hcounted _)
  | none =>
    dsimp only
    rcases hw.cases hcounted with ⟨e, hm, hm'⟩ | ⟨x, n, n', hm, hm', hn⟩
    · rw [hm, hm']
      exact .ok (htold hcounted _)
    · rw [hm, hm']
      exact .ok (htold hn _)

theorem getcwd : Shaped Act.getcwd Act.getcwd :=
  .bind (call fun m => by simp [shaped, Except.map]; rfl) fun x => .answer _ x

theorem chdir (path : Text) : Shaped (Act.chdir path) (Act.chdir path) := by
  refine .bind (.refuseNul _) fun _ => .bind (call fun m => ?_) fun x => .answer _ x
  have hfiles : m.shape.world.files = m.world.files.shape := rfl
  have hproc : m.shape.proc = m.proc := rfl
  rw [hfiles, hproc, FileTree.resolve_shape]
  cases m.world.files.resolve m.proc.cwd path with
  | error e => rfl
  | ok place =>
    dsimp only
    rw [FileTree.node?_shape]
    rcases m.world.files.node? place with _ | ⟨mode⟩ | _ | _
    · rfl
    · cases hpass : mode.pass <;> simp [shaped, Except.map, Machine.shape, hpass]
    · rfl
    · rfl

theorem pipe : Shaped Act.pipe Act.pipe := by
  refine .bind (call fun m => ?_) fun x => .answer _ x
  simp [shaped, Except.map, Machine.shape, World.shape, OpenFile.shape]

theorem dup (source target : Nat) : Shaped (Act.dup source target) (Act.dup source target) := by
  refine .bind (call fun m => ?_) fun x => .answer _ x
  have hproc : m.shape.proc = m.proc := rfl
  rw [hproc]
  cases m.proc.fds.get? source <;> simp [shaped, Except.map, Machine.shape]

theorem close (fd : Nat) : Shaped (Act.close fd) (Act.close fd) := by
  refine .bind (call fun m => ?_) fun x => .answer _ x
  have hproc : m.shape.proc = m.proc := rfl
  rw [hproc]
  cases m.proc.fds.get? fd <;> simp [shaped, Except.map, Machine.shape]

theorem openFile (path : Text) (mode : OpenMode) :
    Shaped (Act.openFile path mode) (Act.openFile path mode) := by
  refine .bind (.refuseNul _) fun _ => .bind (call fun m => ?_) fun x => .answer _ x
  have hfiles : m.shape.world.files = m.world.files.shape := rfl
  have hproc : m.shape.proc = m.proc := rfl
  rw [hfiles, hproc, locate_shape]
  cases locate m.world.files m.proc.cwd path mode with
  | error e => rfl
  | ok found =>
    obtain ⟨place, files⟩ := found
    simp only [Except.map]
    rw [access_shape]
    cases access files place mode with
    | error e => rfl
    | ok given => simp [shaped, Except.map, Machine.shape, World.shape, OpenFile.shape]

theorem wait (pid : Nat) : Shaped (Act.wait pid) (Act.wait pid) := by
  refine .bind (call fun m => ?_) fun x => .answer _ x
  have hended : m.shape.world.ended = m.world.ended := rfl
  rw [hended]
  cases m.world.ended.find? fun e => e.1 == pid <;>
    simp [shaped, Except.map, Machine.shape, World.shape]

/-- Whatever the texts are. -/
theorem writeText (log : Bool) (fd : Nat) (t t' : Text) :
    Shaped (Act.writeText log fd t) (Act.writeText log fd t') :=
  InStep.writeText_of fun h => Machine.write_alike h log fd (encode t) (encode t')

/-- Records of one weight, whatever they say. -/
theorem logRecord {r r' : Record} (hr : r.level = r'.level) :
    Shaped (Act.logRecord r) (Act.logRecord r') := by
  refine InStep.logRecord_of hr (note rfl) (fun {m m'} h => ?_) (writeText true 2 _ _)
  have hshape : m.shape.world.echoFrom = m'.shape.world.echoFrom := by rw [h]
  exact hshape

theorem debug (logger message logger' message' : Text) :
    Shaped (Act.debug logger message) (Act.debug logger' message') := logRecord rfl

theorem runImage (p : Program) (args : List Text) :
    Shaped (Act.runImage p args) (Act.runImage p args) := by
  intro m m' h
  obtain ⟨hraw, hshape⟩ := Program.run_alike h p args
  unfold Act.runImage
  rw [hraw]
  exact .ok hshape

theorem exec (file : Text) (argv : List Text) :
    Shaped (Act.exec file argv) (Act.exec file argv) := by
  refine .proc_bind fun p => .bind (.refuse _) fun _ => .bind (call fun m => ?_) fun found => ?_
  · have hfiles : m.shape.world.files = m.world.files.shape := rfl
    have hproc : m.shape.proc = m.proc := rfl
    rw [hfiles, hproc, searchProgram_shape]
    cases searchProgram m.world.files m.proc.cwd none (candidates p.table file) .noEntry <;>
      simp [shaped, Except.map]
  split
  · exact .pure _
  · exact .bind (note rfl) fun _ => .bind (runImage _ _) fun _ => .bind (called _) fun _ => .pure _

end Shaped

/-- Nothing that is done depends on bytes and records. -/
instance : Kin Machine.SameShape where
  modify {f} _ := by
    intro m m' hm
    have hproc : f m.proc = f m'.proc := by rw [Machine.proc_of_shape hm]
    have hworld : m.world.shape = m'.world.shape := Machine.world_of_shape hm
    exact .ok (Machine.shape_eq_of hworld hproc)
  getcwd := Shaped.getcwd
  chdir := Shaped.chdir
  pipe := Shaped.pipe
  dup := Shaped.dup
  close := Shaped.close
  openFile := Shaped.openFile
  wait := Shaped.wait
  nextNumber := Shaped.call fun _ => by simp [Shaped.shaped, Except.map, Machine.shape, World.shape]
  called := Shaped.called
  exec := Shaped.exec
  writeText log fd t := Shaped.writeText log fd t t
  logRecord _ := Shaped.logRecord rfl

/-- Children that come to the same leave one shape. -/
instance : Hosts Machine.SameShape Machine.SameShape where
  related hm := hm
  calm _ := .self _
  born {m m'} pid hm := by
    have hproc : m.proc = m'.proc := Machine.proc_of_shape hm
    have hworld : m.world.shape = m'.world.shape := Machine.world_of_shape hm
    exact Machine.shape_eq_of hworld (by rw [hproc])
  ended {m m' n n'} pid raw hm hn := by
    have hproc : m.proc = m'.proc := Machine.proc_of_shape hm
    refine Machine.shape_eq_of ?_ hproc
    show { n.world.shape with ended := n.world.shape.ended ++ [(pid, raw)] }
      = ({ n'.world.shape with ended := n'.world.shape.ended ++ [(pid, raw)] } : World)
    rw [Machine.world_of_shape hn]

/-! ### Operators and nodes -/

namespace Shaped

section Operators

variable {a b a' b' : Act Status} (ha : Shaped a a') (hb : Shaped b b')
include ha

theorem pipeSide (fd standard r w : Nat) :
    Shaped (LineShell.pipeSide a fd standard r w) (LineShell.pipeSide a' fd standard r w) :=
  .bind (.bindStream _ _ _) fun _ => .sideWork ha

include hb

theorem piped : Shaped (LineShell.piped a b) (LineShell.piped a' b') := fun _ _ hm =>
  .piped hm fun _ _ n n' _ hn =>
    InStep.spawnAll (pipeSide ha _ _ _ _) (.self _) (pipeSide hb _ _ _ _) n n' hn

theorem inParallel : Shaped (LineShell.inParallel a b) (LineShell.inParallel a' b') :=
  InStep.inParallel (InStep.spawnAll (.sideWork ha) (.self _) (.sideWork hb))

/-- The depth shows in records alone. -/
theorem runPair (rules : Rules) (op : Operator) (shown : Text) (i j : Int) :
    Shaped (rules.runPair op shown i a b) (rules.runPair op shown j a' b') := by
  have hcombine : Shaped (LineShell.combine op a b) (LineShell.combine op a' b') :=
    InStep.combine_of ha (.self _) hb (piped ha hb) (inParallel ha hb) op
  exact InStep.runPair (fun _ _ _ => debug _ _ _ _) rules shown i j hcombine (.self _)

end Operators

theorem runLeaf (rules : Rules) (mark : Option Nat) (c : Command) (i j : Int) :
    Shaped (LineShell.runLeaf rules mark c i) (LineShell.runLeaf rules mark c j) := by
  refine InStep.runLeaf (fun _ _ _ => debug _ _ _ _) rules mark c (fun {m m'} hm => ?_) i j
  exact Machine.shape_note hm (by rw [Machine.proc_of_shape hm])

end Shaped

end Act

end LineShell
