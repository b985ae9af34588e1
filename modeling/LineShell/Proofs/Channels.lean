import LineShell.Proofs.Plumbing
import LineShell.Proofs.Steps

/-!
# What is in a channel

A channel has two ends, each an open file, and no file that is opened later leads to it. So all
that is in it was written through its write end, and all that leaves it is taken through its read
end, from the beginning on. And an open file that a process has on no descriptor is out of reach
for all that the process and its children do.

## The model

* `Widens` says that a world grows, and that open files that are new lead to no channel that was
  there before. `World.Ends` says which two open files are the ends of a channel, and that no
  others are.
* `sent` and `received` are the bytes that were written and taken through an open file, in their
  order, as the journal tells. `Spares` is the frame in which nothing goes through one.
* `Flows` is the law of a channel between two machines: what was in it, and then what was sent, is
  what was received, and then what is in it.
* `Machine.Lacks` says that the running process has an open file on no descriptor.
* `Machine.Tidy` says that descriptors refer to open files and that the ends of channels that are
  open are those of channels that exist.

## What is proved

All three results are proved by the steps of a run, with one case for each kind of step and one
for children, and so hold of whatever runs:

* the law of a channel (`Proceeds.flows`), from which what is in a channel stays there as long as
  its ends are spared (`Flows.content_eq`);
* an open file that is out of reach is on no descriptor of any process on the way
  (`Machine.Lacks.within`), so nothing goes through it (`Within.spares`);
* machines stay tidy (`Machine.Tidy.within`), and a machine before anything happened is tidy
  (`Machine.boot_tidy`).

A write that a full channel would hold up does not occur: channels take whatever is written to
them.
-/

namespace LineShell

open Act

/-! ### The ends of a channel -/

/-- An open file is an end of a channel. -/
def OpenFile.EndOf (f : OpenFile) (n : Nat) : Prop := f.target = .readEnd n ∨ f.target = .writeEnd n

/-- A machine that another one becomes: the world grows, and open files that are new lead to no
channel that was there before. -/
structure Widens (m m' : Machine) : Prop where
  /-- The world grows. -/
  grows : m.world.Grows m'.world
  /-- New ends are those of new channels. -/
  fresh : ∀ (i : Nat) f n, m'.world.opened[i]? = some f → m.world.opened.length ≤ i → f.EndOf n →
    m.world.channels.length ≤ n ∧ n < m'.world.channels.length

namespace Widens

/-- Where no file is opened nothing is new. -/
theorem of_length {m m' : Machine} (hgrows : m.world.Grows m'.world)
    (hlength : m'.world.opened.length = m.world.opened.length) : Widens m m' := by
  refine ⟨hgrows, fun i f n hf hi _ => ?_⟩
  have hlt : i < m'.world.opened.length := (List.getElem?_eq_some_iff.1 hf).1
  omega

theorem trans {a b c : Machine} (hab : Widens a b) (hbc : Widens b c) : Widens a c := by
  refine ⟨hab.grows.trans hbc.grows, fun i f n hf hi hend => ?_⟩
  have hchannels := hab.grows.channels
  have hchannels' := hbc.grows.channels
  by_cases hlt : i < b.world.opened.length
  · obtain ⟨f', hf', htarget, -⟩ := hbc.grows.opened i _ (List.getElem?_eq_getElem hlt)
    obtain rfl := Option.some.inj (hf.symm.trans hf')
    have hold := hab.fresh i _ n (List.getElem?_eq_getElem hlt) hi (by rwa [OpenFile.EndOf, ← htarget])
    omega
  · have hnew := hbc.fresh i f n hf (Nat.le_of_not_lt hlt) hend
    omega

end Widens

instance : Frame Widens := ⟨fun m => .of_length (.refl m.world) rfl, .trans⟩

namespace World

variable {w w' : World} {file : Nat} {bs : Bytes}

/-- A write goes to the channel whose write end the open file is, or to no channel. -/
theorem write_cases (h : w.write file bs = .ok w') : ∃ f, w.opened[file]? = some f ∧
    w'.opened.length = w.opened.length ∧
    ((∃ n, f.target = .writeEnd n ∧ w'.channels = w.channels.modify n (· ++ bs)) ∨
      (∀ n, f.target ≠ .writeEnd n) ∧ w'.channels = w.channels) := by
  obtain ⟨f, hf, -, hwrote⟩ := write_eq_ok.1 h
  refine ⟨f, hf, ?_⟩
  cases hwrote with
  | channel ht => exact ⟨rfl, Or.inl ⟨_, ht, rfl⟩⟩
  | place ht => exact ⟨List.length_set, Or.inr ⟨by simp [ht], rfl⟩⟩
  | output ht => exact ⟨rfl, Or.inr ⟨by simp [ht], rfl⟩⟩
  | errors ht => exact ⟨rfl, Or.inr ⟨by simp [ht], rfl⟩⟩
  | null ht => exact ⟨rfl, Or.inr ⟨by simp [ht], rfl⟩⟩

/-- A read takes from the channel whose read end the open file is, or from no channel. -/
theorem read_cases {part : Bytes → Bytes} (h : w.read file part = .ok (bs, w')) :
    ∃ f, w.opened[file]? = some f ∧ w'.opened.length = w.opened.length ∧
    ((∃ n, f.target = .readEnd n ∧ bs = part (w.channels.getD n []) ∧
        w'.channels = w.channels.modify n (·.drop bs.length)) ∨
      (∀ n, f.target ≠ .readEnd n) ∧ w'.channels = w.channels) := by
  obtain ⟨f, hf, -, htook⟩ := read_eq_ok h
  refine ⟨f, hf, ?_⟩
  cases htook with
  | channel ht hbs => exact ⟨rfl, Or.inl ⟨_, ht, hbs, rfl⟩⟩
  | place ht => exact ⟨List.length_set, Or.inr ⟨by simp [ht], rfl⟩⟩
  | input ht => exact ⟨rfl, Or.inr ⟨by simp [ht], rfl⟩⟩
  | null ht => exact ⟨rfl, Or.inr ⟨by simp [ht], rfl⟩⟩

/-- The ends of a channel are two open files, and no other open file leads to it. -/
structure Ends (w : World) (n f g : Nat) : Prop where
  /-- The channel exists. -/
  channel : n < w.channels.length
  /-- One is the read end. -/
  reader : ∃ file, w.opened[f]? = some file ∧ file.target = .readEnd n ∧ file.writes = false
  /-- One is the write end. -/
  writer : ∃ file, w.opened[g]? = some file ∧ file.target = .writeEnd n
  /-- There are no others. -/
  only : ∀ (i : Nat) file, w.opened[i]? = some file →
    (file.target = .readEnd n → i = f) ∧ (file.target = .writeEnd n → i = g)

/-- What is in a channel. -/
def content (w : World) (n : Nat) : Bytes := w.channels.getD n []

end World

namespace World.Ends

variable {w : World} {n f g i : Nat} {file : OpenFile}

theorem ne_reader (h : w.Ends n f g) (hfile : w.opened[i]? = some file)
    (htarget : file.target ≠ .readEnd n) : i ≠ f := by
  rintro rfl
  obtain ⟨reader, hreader, hend, -⟩ := h.reader
  obtain rfl := Option.some.inj (hfile.symm.trans hreader)
  exact htarget hend

theorem ne_writer (h : w.Ends n f g) (hfile : w.opened[i]? = some file)
    (htarget : file.target ≠ .writeEnd n) : i ≠ g := by
  rintro rfl
  obtain ⟨writer, hwriter, hend⟩ := h.writer
  obtain rfl := Option.some.inj (hfile.symm.trans hwriter)
  exact htarget hend

end World.Ends

theorem Widens.ends {m m' : Machine} {n f g : Nat} (h : Widens m m') (he : m.world.Ends n f g) :
    m'.world.Ends n f g := by
  refine ⟨Nat.lt_of_lt_of_le he.channel h.grows.channels, ?_, ?_, fun i file hfile => ?_⟩
  · obtain ⟨file, hfile, htarget, hwrites⟩ := he.reader
    obtain ⟨file', hfile', hstays⟩ := h.grows.opened f file hfile
    exact ⟨file', hfile', hstays.1.trans htarget, hstays.2.1.trans hwrites⟩
  · obtain ⟨file, hfile, htarget⟩ := he.writer
    obtain ⟨file', hfile', hstays⟩ := h.grows.opened g file hfile
    exact ⟨file', hfile', hstays.1.trans htarget⟩
  · have hnew (hi : m.world.opened.length ≤ i) (hend : file.EndOf n) : False := by
      have hfresh := h.fresh i file n hfile hi hend
      have hchannel := he.channel
      omega
    by_cases hlt : i < m.world.opened.length
    · obtain ⟨file', hfile', htarget, -⟩ := h.grows.opened i _ (List.getElem?_eq_getElem hlt)
      obtain rfl := Option.some.inj (hfile.symm.trans hfile')
      rw [htarget]
      exact he.only i _ (List.getElem?_eq_getElem hlt)
    · have hi := Nat.le_of_not_lt hlt
      exact ⟨fun hend => (hnew hi (Or.inl hend)).elim, fun hend => (hnew hi (Or.inr hend)).elim⟩

theorem Step.widens {m m' : Machine} (h : Step m m') : Widens m m' := by
  cases h with
  | write h =>
    obtain ⟨file, w, -, hw, rfl⟩ := Machine.write_eq_ok h
    obtain ⟨f, -, hlength, -⟩ := World.write_cases hw
    exact .of_length ((World.write_spec hw).grows.trans (w.grows_note _)) hlength
  | read _ h =>
    obtain ⟨file, w, -, hr, rfl⟩ := Machine.read_eq_ok h
    obtain ⟨f, -, hlength, -⟩ := World.read_cases hr
    exact .of_length ((World.read_spec hr).grows.trans (w.grows_note _)) hlength
  | pipe r w =>
    refine ⟨⟨.refl _, m.world.opened_append _, by simp, rfl⟩, fun i f n hf hi hend => ?_⟩
    simp only [List.length_append, List.length_cons, List.length_nil]
    rw [List.getElem?_append_right hi] at hf
    obtain rfl | rfl : f = ⟨.readEnd m.world.channels.length, false, false, 0⟩ ∨
        f = ⟨.writeEnd m.world.channels.length, true, false, 0⟩ := by
      simpa using List.mem_of_getElem? hf
    all_goals
      obtain rfl : m.world.channels.length = n := by simpa [OpenFile.EndOf] using hend
      omega
  | openFile hfiles htarget fd =>
    refine ⟨⟨hfiles, m.world.opened_append _, Nat.le_refl _, rfl⟩, fun i f n hf hi hend => ?_⟩
    rw [List.getElem?_append_right hi] at hf
    obtain rfl := List.mem_singleton.1 (List.mem_of_getElem? hf)
    rcases htarget with htarget | ⟨p, htarget⟩
    · simp [OpenFile.EndOf, htarget] at hend
    · simp [OpenFile.EndOf, htarget] at hend
  | note _ => exact .of_length (m.world.grows_note _) rfl
  | _ => exact .of_length (.of_eq rfl rfl rfl rfl) rfl

/-- A child does to the world what its maker then finds. -/
theorem Widens.child {m n : Machine} (h : Widens m.forked n) (raw : Nat) :
    Widens m (m.outlived n.world raw) :=
  ⟨⟨h.grows.files, h.grows.opened, h.grows.channels, h.grows.echoFrom⟩, h.fresh⟩

theorem Proceeds.widens {m m' : Machine} (h : Proceeds m m') : Widens m m' :=
  h.keeps Step.widens fun h => h.child _

/-! ### What goes through an open file -/

/-- A journal entry tells of bytes that went through an open file. -/
def Entry.Uses (x : Nat) : Entry → Prop
  | .wrote _ file _ _ => file = x
  | .took _ file _ => file = x
  | _ => False

/-- The bytes that were written through an open file, in the order of the writes. -/
def sent (x : Nat) (es : List Entry) : Bytes :=
  es.flatMap fun
    | .wrote _ file bytes _ => if file = x then bytes else []
    | _ => []

/-- The bytes that were taken through an open file, in the order of the reads. -/
def received (x : Nat) (es : List Entry) : Bytes :=
  es.flatMap fun
    | .took _ file bytes => if file = x then bytes else []
    | _ => []

@[simp] theorem sent_append (x : Nat) (es fs : List Entry) :
    sent x (es ++ fs) = sent x es ++ sent x fs := List.flatMap_append

@[simp] theorem received_append (x : Nat) (es fs : List Entry) :
    received x (es ++ fs) = received x es ++ received x fs := List.flatMap_append

theorem sent_eq_nil {x : Nat} {es : List Entry} (h : ∀ e ∈ es, ¬e.Uses x) : sent x es = [] := by
  refine List.flatMap_eq_nil_iff.2 fun e he => ?_
  cases e with
  | wrote _ file _ _ => exact if_neg (h _ he)
  | _ => rfl

theorem received_eq_nil {x : Nat} {es : List Entry} (h : ∀ e ∈ es, ¬e.Uses x) :
    received x es = [] := by
  refine List.flatMap_eq_nil_iff.2 fun e he => ?_
  cases e with
  | took _ file _ => exact if_neg (h _ he)
  | _ => rfl

/-- Nothing goes through an open file. -/
def Spares (x : Nat) : Machine → Machine → Prop := Adds fun e => ¬e.Uses x

instance (x : Nat) : Frame (Spares x) := inferInstanceAs (Frame (Adds _))

/-- What was in a channel, and then what was written to it, is what was taken from it, and then what
is in it. -/
structure Flows (n f g : Nat) (m m' : Machine) : Prop where
  /-- No open file comes to lead to the channel. -/
  widens : Widens m m'
  /-- Nothing is lost, added or moved about. -/
  law : m.world.Ends n f g → ∃ es, m'.world.journal = m.world.journal ++ es ∧
    m.world.content n ++ sent g es = received f es ++ m'.world.content n

namespace Flows

variable {n f g : Nat}

/-- Where the channel stays as it is, and nothing is told of bytes. -/
theorem of_silent {m m' : Machine} (es : List Entry) (hw : Widens m m')
    (hj : m'.world.journal = m.world.journal ++ es) (hf : ∀ e ∈ es, ¬e.Uses f)
    (hg : ∀ e ∈ es, ¬e.Uses g)
    (hc : m.world.Ends n f g → m'.world.content n = m.world.content n) : Flows n f g m m' := by
  refine ⟨hw, fun he => ⟨es, hj, ?_⟩⟩
  rw [sent_eq_nil hg, received_eq_nil hf, hc he, List.append_nil, List.nil_append]

theorem trans {a b c : Machine} (hab : Flows n f g a b) (hbc : Flows n f g b c) : Flows n f g a c := by
  refine ⟨hab.widens.trans hbc.widens, fun he => ?_⟩
  obtain ⟨es, hes, hlaw⟩ := hab.law he
  obtain ⟨fs, hfs, hlaw'⟩ := hbc.law (hab.widens.ends he)
  refine ⟨es ++ fs, by rw [hfs, hes, List.append_assoc], ?_⟩
  calc a.world.content n ++ sent g (es ++ fs)
      = (a.world.content n ++ sent g es) ++ sent g fs := by rw [sent_append, List.append_assoc]
    _ = received f es ++ (b.world.content n ++ sent g fs) := by rw [hlaw, List.append_assoc]
    _ = received f (es ++ fs) ++ c.world.content n := by
      rw [hlaw', received_append, List.append_assoc]

end Flows

instance (n f g : Nat) : Frame (Flows n f g) where
  refl m := .of_silent [] (Frame.refl m) (List.append_nil _).symm (by simp) (by simp) fun _ => rfl
  trans := .trans

theorem World.content_modify {w w' : World} {k : Nat} {φ : Bytes → Bytes}
    (h : w'.channels = w.channels.modify k φ) (n : Nat) (hn : n < w.channels.length) :
    w'.content n = if n = k then φ (w.content n) else w.content n := by
  unfold content
  rw [h, List.getD_eq_getElem?_getD, List.getElem?_modify, List.getD_eq_getElem?_getD,
    List.getElem?_eq_getElem hn]
  by_cases hk : n = k
  · simp [hk]
  · simp [hk, Ne.symm hk]

theorem Step.flows (n f g : Nat) {m m' : Machine} (h : Step m m') : Flows n f g m m' := by
  have hwidens := h.widens
  cases h with
  | write h =>
    refine ⟨hwidens, fun he => ?_⟩
    obtain ⟨file, w, -, hw, rfl⟩ := Machine.write_eq_ok h
    refine ⟨[_], congrArg (· ++ _) (World.write_spec hw).journal, ?_⟩
    obtain ⟨o, ho, -, ⟨k, htarget, hchannels⟩ | ⟨hother, hchannels⟩⟩ := World.write_cases hw
    · show _ = _ ++ w.content n
      rw [World.content_modify hchannels n he.channel]
      by_cases hk : n = k
      · subst hk
        obtain rfl := (he.only file o ho).2 htarget
        simp [sent, received]
      · have hfile : file ≠ g := he.ne_writer ho (by simp [htarget, Ne.symm hk])
        simp [sent, received, hk, hfile]
    · have hfile : file ≠ g := he.ne_writer ho (hother n)
      have hcontent : w.content n = m.world.content n := by rw [World.content, hchannels]; rfl
      show _ = _ ++ w.content n
      simp [sent, received, hfile, hcontent]
  | read hpart h =>
    refine ⟨hwidens, fun he => ?_⟩
    obtain ⟨file, w, -, hr, rfl⟩ := Machine.read_eq_ok h
    refine ⟨[_], congrArg (· ++ _) (World.read_spec hr).journal, ?_⟩
    obtain ⟨o, ho, -, ⟨k, htarget, rfl, hchannels⟩ | ⟨hother, hchannels⟩⟩ := World.read_cases hr
    · show _ = _ ++ w.content n
      rw [World.content_modify hchannels n he.channel]
      by_cases hk : n = k
      · subst hk
        obtain rfl := (he.only file o ho).1 htarget
        have htaken := List.prefix_iff_eq_append.1 (hpart (m.world.channels.getD n []))
        simpa [sent, received, World.content] using htaken.symm
      · have hfile : file ≠ f := he.ne_reader ho (by simp [htarget, Ne.symm hk])
        simp [sent, received, hk, hfile]
    · have hfile : file ≠ f := he.ne_reader ho (hother n)
      have hcontent : w.content n = m.world.content n := by rw [World.content, hchannels]; rfl
      show _ = _ ++ w.content n
      simp [sent, received, hfile, hcontent]
  | @note e he =>
    have hsilent (x : Nat) : ¬e.Uses x := by
      cases e <;> first | exact id | exact he.elim
    exact .of_silent [e] hwidens rfl (by simpa using hsilent f) (by simpa using hsilent g)
      fun _ => rfl
  | pipe r w =>
    refine .of_silent [] hwidens (List.append_nil _).symm (by simp) (by simp) fun he => ?_
    show (m.world.channels ++ [[]]).getD n [] = m.world.channels.getD n []
    rw [List.getD_eq_getElem?_getD, List.getElem?_append_left he.channel,
      List.getD_eq_getElem?_getD]
  | _ => exact .of_silent [] hwidens (List.append_nil _).symm (by simp) (by simp) fun _ => rfl

theorem Flows.child {n f g : Nat} {m dead : Machine} (h : Flows n f g m.forked dead) (raw : Nat) :
    Flows n f g m (m.outlived dead.world raw) := by
  refine ⟨h.widens.child raw, fun he => ?_⟩
  have hborn : m.forked.world.Ends n f g := ⟨he.channel, he.reader, he.writer, he.only⟩
  obtain ⟨es, hes, hlaw⟩ := h.law hborn
  exact ⟨.called m.proc.pid (.fork (.ok m.world.nextPid)) :: es, hes.trans (List.append_assoc ..), hlaw⟩

/-- **The law of a channel**: whatever runs, what was in it and what is written to it is what is taken
from it and what is left in it, in this order. -/
theorem Proceeds.flows (n f g : Nat) {m m' : Machine} (h : Proceeds m m') : Flows n f g m m' :=
  h.keeps (Step.flows n f g) fun h => h.child _

/-- A child is born into the world that its maker finds. -/
theorem Machine.flows_born (m : Machine) (n f g : Nat) : Flows n f g m m.born :=
  .of_silent _ (.of_length (.of_eq rfl rfl rfl rfl) rfl) (List.append_assoc ..) (by simp [Entry.Uses])
    (by simp [Entry.Uses]) fun _ => rfl

/-- What is in a channel stays there as long as its ends are spared. -/
theorem Flows.content_eq {n f g : Nat} {m m' : Machine} (h : Flows n f g m m')
    (he : m.world.Ends n f g) (hf : Spares f m m') (hg : Spares g m m') :
    m'.world.content n = m.world.content n := by
  obtain ⟨es, hes, hlaw⟩ := h.law he
  have hsilent {x : Nat} (hx : Spares x m m') : ∀ e ∈ es, ¬e.Uses x := fun e hmem =>
    hx.of_mem_since (by rwa [Machine.since_eq hes])
  rw [sent_eq_nil (hsilent hg), received_eq_nil (hsilent hf), List.append_nil] at hlaw
  exact hlaw.symm

/-! ### Out of reach -/

/-- The running process has an open file on no descriptor. -/
structure Machine.Lacks (m : Machine) (x : Nat) : Prop where
  /-- The open file exists. -/
  opened : x < m.world.opened.length
  /-- No descriptor refers to it. -/
  closed : ∀ fd, m.proc.fds.get? fd ≠ some x

theorem Descriptors.get?_set_cases {t : Descriptors} {fd file other x : Nat}
    (h : (t.set fd file).get? other = some x) : x = file ∨ t.get? other = some x := by
  by_cases hfd : other = fd
  · subst hfd
    rw [Descriptors.get?_set_self] at h
    exact Or.inl (Option.some.inj h).symm
  · rw [Descriptors.get?_set_of_ne _ _ hfd] at h
    exact Or.inr h

/-- A file that no descriptor refers to is referred to by none once one refers to another file. -/
theorem Descriptors.get?_set_ne {t : Descriptors} {fd file x : Nat} (h : ∀ fd, t.get? fd ≠ some x)
    (hx : x ≠ file) (other : Nat) : (t.set fd file).get? other ≠ some x := fun heq =>
  (Descriptors.get?_set_cases heq).elim hx (h other)

theorem Descriptors.get?_of_erase {t : Descriptors} {fd other x : Nat}
    (h : (t.erase fd).get? other = some x) : t.get? other = some x := by
  by_cases hfd : other = fd
  · subst hfd
    simp at h
  · rwa [Descriptors.get?_erase_of_ne _ hfd] at h

/-- What a descriptor refers to after a step was on some descriptor before, or is new. -/
theorem Step.get?_cases {m m' : Machine} (h : Step m m') {fd x : Nat}
    (hx : m'.proc.fds.get? fd = some x) :
    (∃ fd, m.proc.fds.get? fd = some x) ∨
      m.world.opened.length ≤ x ∧ x < m'.world.opened.length := by
  cases h with
  | write h =>
    obtain ⟨file, w, -, -, rfl⟩ := Machine.write_eq_ok h
    exact Or.inl ⟨fd, hx⟩
  | read _ h =>
    obtain ⟨file, w, -, -, rfl⟩ := Machine.read_eq_ok h
    exact Or.inl ⟨fd, hx⟩
  | change _ hfds => exact Or.inl ⟨fd, by rw [← hfds]; exact hx⟩
  | pipe r w =>
    simp only [List.length_append, List.length_cons, List.length_nil]
    rcases Descriptors.get?_set_cases hx with rfl | hx
    · exact Or.inr (by omega)
    · rcases Descriptors.get?_set_cases hx with rfl | hx
      · exact Or.inr (by omega)
      · exact Or.inl ⟨fd, hx⟩
  | dup hsource target =>
    rcases Descriptors.get?_set_cases hx with rfl | hx
    · exact Or.inl ⟨_, hsource⟩
    · exact Or.inl ⟨fd, hx⟩
  | close closed => exact Or.inl ⟨fd, Descriptors.get?_of_erase hx⟩
  | openFile _ _ target =>
    rcases Descriptors.get?_set_cases hx with rfl | hx
    · simp
    · exact Or.inl ⟨fd, hx⟩
  | _ => exact Or.inl ⟨fd, hx⟩

namespace Machine.Lacks

variable {m n : Machine} {x : Nat}

theorem forked (h : m.Lacks x) : m.forked.Lacks x := ⟨h.opened, h.closed⟩

theorem outlived (h : m.Lacks x) (hn : n.Lacks x) (raw : Nat) : (m.outlived n.world raw).Lacks x :=
  ⟨hn.opened, h.closed⟩

theorem step (h : m.Lacks x) (hmn : Step m n) : n.Lacks x := by
  refine ⟨Nat.lt_of_lt_of_le h.opened hmn.widens.grows.opened_le, fun fd hx => ?_⟩
  rcases hmn.get?_cases hx with ⟨fd, hx⟩ | ⟨hle, -⟩
  · exact h.closed fd hx
  · have hlt := h.opened
    omega

/-- **Out of reach**: an open file that a process has on no descriptor is on no descriptor of any
process on the way, its children included. -/
theorem within (h : m.Lacks x) (hmn : Proceeds m n) : Within (·.Lacks x) m n :=
  hmn.within (fun hstep hm => hm.step hstep) forked (fun _ hm hn => hm.outlived hn _) h

end Machine.Lacks

theorem Step.spares {m m' : Machine} {x : Nat} (h : Step m m') (hm : m.Lacks x) : Spares x m m' := by
  cases h with
  | write h =>
    obtain ⟨file, w, hfile, hw, rfl⟩ := Machine.write_eq_ok h
    refine ⟨[_], congrArg (· ++ _) (World.write_spec hw).journal, ?_⟩
    have hne : file ≠ x := fun hx => hm.closed _ (hx ▸ hfile)
    simpa [Entry.Uses] using hne
  | read _ h =>
    obtain ⟨file, w, hfile, hr, rfl⟩ := Machine.read_eq_ok h
    refine ⟨[_], congrArg (· ++ _) (World.read_spec hr).journal, ?_⟩
    have hne : file ≠ x := fun hx => hm.closed _ (hx ▸ hfile)
    simpa [Entry.Uses] using hne
  | @note e he => exact .note (by cases e <;> first | exact id | exact he.elim) m
  | _ => exact .of_eq rfl

/-- Nothing goes through an open file that is out of reach. -/
theorem Within.spares {m m' : Machine} {x : Nat} (h : Within (·.Lacks x) m m') : Spares x m m' := by
  induction h with
  | refl _ => exact Frame.refl _
  | step hab hstep _ ih => exact Frame.trans ih (hstep.spares hab.last)
  | @child a b n raw _ _ _ ih ihn =>
    have hfork : Spares x b b.forked := .called b .fork id
    have hout : Spares x n (b.outlived n.world raw) := .of_eq rfl
    exact Frame.trans ih (Frame.trans hfork (Frame.trans ihn hout))

/-! ### Machines in order -/

/-- Every open file that is an end of a channel is one of a channel that exists, and the running
process has its descriptors on open files. -/
structure Machine.Tidy (m : Machine) : Prop where
  /-- The descriptors refer to open files. -/
  sound : m.Sound
  /-- The ends that are open are those of channels. -/
  channels : ∀ (i : Nat) f n, m.world.opened[i]? = some f → f.EndOf n → n < m.world.channels.length

namespace Machine.Tidy

variable {m n : Machine}

theorem of_lt (hfds : ∀ fd file, m.proc.fds.get? fd = some file → file < m.world.opened.length)
    (hchannels : ∀ (i : Nat) f n, m.world.opened[i]? = some f → f.EndOf n →
      n < m.world.channels.length) : m.Tidy := by
  refine ⟨fun fd file hfd => ?_, hchannels⟩
  have hopen := List.getElem?_eq_getElem (hfds fd file hfd)
  exact ⟨_, hopen, fun n hend => hchannels file _ n hopen hend⟩

theorem lt (h : m.Tidy) {fd file : Nat} (hfd : m.proc.fds.get? fd = some file) :
    file < m.world.opened.length := by
  obtain ⟨f, hf, -⟩ := h.sound fd file hfd
  exact (List.getElem?_eq_some_iff.1 hf).1

/-- No descriptor refers to a file that is not open yet. -/
theorem get?_ne (h : m.Tidy) {x : Nat} (hx : m.world.opened.length ≤ x) (fd : Nat) :
    m.proc.fds.get? fd ≠ some x := fun heq => absurd (h.lt heq) (Nat.not_lt.2 hx)

theorem of_widens (h : m.Tidy) (hmn : Widens m n)
    (hfds : ∀ fd file, n.proc.fds.get? fd = some file → file < n.world.opened.length) : n.Tidy := by
  refine of_lt hfds fun i f k hf hend => ?_
  by_cases hi : i < m.world.opened.length
  · obtain ⟨f', hf', htarget, -⟩ := hmn.grows.opened i _ (List.getElem?_eq_getElem hi)
    obtain rfl := Option.some.inj (hf.symm.trans hf')
    have hold := h.channels i _ k (List.getElem?_eq_getElem hi) (by rwa [OpenFile.EndOf, ← htarget])
    exact Nat.lt_of_lt_of_le hold hmn.grows.channels
  · exact (hmn.fresh i f k hf (Nat.le_of_not_lt hi) hend).2

theorem step (h : m.Tidy) (hmn : Step m n) : n.Tidy := by
  refine h.of_widens hmn.widens fun fd file hfd => ?_
  rcases hmn.get?_cases hfd with ⟨fd, hfd⟩ | ⟨-, hlt⟩
  · exact Nat.lt_of_lt_of_le (h.lt hfd) hmn.widens.grows.opened_le
  · exact hlt

theorem forked (h : m.Tidy) : m.forked.Tidy := ⟨h.sound, h.channels⟩

theorem born (h : m.Tidy) : m.born.Tidy := ⟨h.sound, h.channels⟩

theorem outlived (h : m.Tidy) (hmn : Proceeds m.forked n) (raw : Nat) :
    (m.outlived n.world raw).Tidy := by
  refine h.of_widens (hmn.widens.child raw) fun fd file hfd => ?_
  exact Nat.lt_of_lt_of_le (h.lt hfd) hmn.widens.grows.opened_le

/-- Whatever runs, machines stay tidy. -/
theorem within (h : m.Tidy) (hmn : Proceeds m n) : Within Machine.Tidy m n :=
  hmn.within (fun hstep hm => hm.step hstep) forked (fun hn hm _ => hm.outlived hn _) h

theorem proceeds (h : m.Tidy) (hmn : Proceeds m n) : n.Tidy := (h.within hmn).last

end Machine.Tidy

/-- A machine before anything happened is tidy, whatever was closed. -/
theorem Machine.boot_tidy (files : FileTree) (cwd : Place) (input : Bytes) (closed : List Nat)
    (faults : List Fault) (table : Table) :
    (Machine.boot files cwd input closed faults table).Tidy := by
  refine ⟨Machine.boot_sound files cwd input closed faults table, fun i f n hf hend => ?_⟩
  obtain rfl | rfl | rfl : f = ⟨.input, false, false, 0⟩ ∨ f = ⟨.output, true, false, 0⟩ ∨
      f = ⟨.errors, true, false, 0⟩ := by
    simpa [Machine.boot] using List.mem_of_getElem? hf
  all_goals simp [OpenFile.EndOf] at hend

end LineShell
