import Mathlib.Data.List.Forall2
import LineShell.Proofs.Redirects

/-!
# How programs are wired

Which open files a program finds on its descriptors when it is entered, at whatever depth of
children: on standard input its redirect, or else the read end of the innermost pipe on whose
right side its command stands, or else what the shell has there; on standard output likewise, with
write ends and left sides; on standard error its redirect or what the shell has. All other
descriptors are those of the shell, so no end of a channel stays open anywhere else.

A tree is run with the descriptors of its process as they are. What is proved of a tree is proved
relative to these, and each operator adds what it binds in between.

## The model

* A `Way` leads from the root of a tree to a node. A `Standing` says which pipes a leaf is joined
  to, each by the way to it, and `Tree.standings` lists the leaves of a tree with theirs.
* `Wired` is what a program finds: the words of its command, the descriptors of the process that
  runs the tree, and on the three standard streams what is said above.
* `Sided` is what a process on one side of a pipe finds, before any redirect is made.
* `Wires` says of two worlds that the programs entered between them are of some leaves in their
  order, each wired for its leaf, with a numbering that gives each pipe a channel of its own
  (`Numbers`).

## What is proved

Wiring does not depend on what is made later (`Wired.of_grows`), and a program that is wired for a
side is wired for the pair, seen from there (`Wired.under`). What is entered on one side of a pair
and then on the other is entered by the pair (`Wires.pair`): the root has a channel of its own if
it is a pipe, and the sides keep theirs. Nothing is run in this module; it holds what the runs of
trees are measured by.
-/

namespace LineShell

open Act

/-! ### Where a leaf stands -/

/-- The way from the root of a tree to a node: `false` to the left, `true` to the right. -/
abbrev Way := List Bool

/-- Which pipes a leaf is joined to. -/
structure Standing where
  /-- The innermost pipe that has the leaf on its right side. -/
  reads : Option Way
  /-- The innermost pipe that has the leaf on its left side. -/
  writes : Option Way
  deriving DecidableEq, Repr

/-- The way to the root, if the root is a pipe with the leaf on a certain side. -/
def rootPipe (op : Operator) (side wanted : Bool) : Option Way :=
  if op = .pipe ∧ side = wanted then some [] else none

/-- The same leaf, seen from a node that has its tree on one side. -/
def Standing.under (op : Operator) (side : Bool) (s : Standing) : Standing where
  reads := (s.reads.map (side :: ·)).or (rootPipe op side true)
  writes := (s.writes.map (side :: ·)).or (rootPipe op side false)

/-- A leaf of a tree: its command, and where it stands. -/
abbrev Leaf := Command × Standing

/-- The leaves of a pair whose sides have certain leaves. -/
def joinLeaves (op : Operator) (left right : List Leaf) : List Leaf :=
  left.map (fun l => (l.1, l.2.under op false)) ++ right.map fun l => (l.1, l.2.under op true)

/-- The leaves of a tree from left to right. -/
def Tree.standings : Tree → List Leaf
  | .leaf _ c => [(c, ⟨none, none⟩)]
  | .binary _ op l r => joinLeaves op (standings l) (standings r)
  | .bare _ => []

/-! ### What a program finds -/

/-- A descriptor leads to an open file with a target. -/
def World.Leads (w : World) (t : Descriptors) (fd : Nat) (target : Target) : Prop :=
  ∃ file f, t.get? fd = some file ∧ w.opened[file]? = some f ∧ f.target = target

/-- A standard stream leads to an end of the channel of a pipe, or where it led if there is no
pipe; `channel` tells which channel each pipe made. -/
def Joined (t : Descriptors) (w : World) (channel : Way → Option Nat) (u : Descriptors) (fd : Nat)
    (side : Nat → Target) : Option Way → Prop
  | some way => ∃ n, channel way = some n ∧ w.Leads u fd (side n)
  | none => u.get? fd = t.get? fd

/-- What a program finds that was entered for a leaf of a tree, in a process that came, through
whatever children, from one with descriptors `t`. -/
structure Wired (t : Descriptors) (w : World) (channel : Way → Option Nat) (leaf : Leaf)
    (image : Proc × List Text) : Prop where
  /-- It has the words of the command, expanded. -/
  argv : image.2 = leaf.1.argv image.1.table
  /-- The same descriptors are open. -/
  isSome : ∀ fd, (image.1.fds.get? fd).isSome = (t.get? fd).isSome
  /-- All but the standard streams lead where they led. -/
  others : ∀ fd, 2 < fd → image.1.fds.get? fd = t.get? fd
  /-- Standard input leads to the redirect's target, or else to the pipe in front. -/
  input : match leaf.1.input with
    | some target => ∃ file, image.1.fds.get? 0 = some file ∧
        w.Opens image.1.cwd (target.expand image.1.table) .read file
    | none => Joined t w channel image.1.fds 0 .readEnd leaf.2.reads
  /-- Standard output leads to the redirect's target, or else to the pipe behind. -/
  output : match leaf.1.output with
    | some r => ∃ file, image.1.fds.get? 1 = some file ∧
        w.Opens image.1.cwd (r.target.expand image.1.table) r.mode file
    | none => Joined t w channel image.1.fds 1 .writeEnd leaf.2.writes
  /-- Standard error leads to the redirect's target, or else where it led. -/
  errors : match leaf.1.errors with
    | some r => ∃ file mode, image.1.fds.get? 2 = some file ∧ mode ≠ .read ∧
        w.Opens image.1.cwd (r.target.expand image.1.table) mode file
    | none => image.1.fds.get? 2 = t.get? 2

theorem World.Leads.of_grows {w w' : World} {t : Descriptors} {fd : Nat} {target : Target}
    (h : w.Leads t fd target) (hg : w.Grows w') : w'.Leads t fd target := by
  obtain ⟨file, f, hfd, hf, ht⟩ := h
  obtain ⟨f', hf', hstays⟩ := hg.opened file f hf
  exact ⟨file, f', hfd, hf', hstays.1.trans ht⟩

theorem Joined.of_grows {t u : Descriptors} {w w' : World} {channel : Way → Option Nat} {fd : Nat}
    {side : Nat → Target} {way : Option Way} (h : Joined t w channel u fd side way)
    (hg : w.Grows w') : Joined t w' channel u fd side way := by
  cases way with
  | none => exact h
  | some way =>
    obtain ⟨n, hn, hl⟩ := h
    exact ⟨n, hn, hl.of_grows hg⟩

theorem Wired.of_grows {t : Descriptors} {w w' : World} {channel : Way → Option Nat} {leaf : Leaf}
    {image : Proc × List Text} (h : Wired t w channel leaf image) (hg : w.Grows w') :
    Wired t w' channel leaf image where
  argv := h.argv
  isSome := h.isSome
  others := h.others
  input := by
    have hi := h.input
    split at hi
    · obtain ⟨file, hfile, ho⟩ := hi
      exact ⟨file, hfile, ho.of_grows hg⟩
    · exact hi.of_grows hg
  output := by
    have ho := h.output
    split at ho
    · obtain ⟨file, hfile, ho⟩ := ho
      exact ⟨file, hfile, ho.of_grows hg⟩
    · exact ho.of_grows hg
  errors := by
    have he := h.errors
    split at he
    · obtain ⟨file, mode, hfile, hmode, ho⟩ := he
      exact ⟨file, mode, hfile, hmode, ho.of_grows hg⟩
    · exact he

/-! ### One level up -/

/-- Descriptors that the process of one side of a pair has, in a process with descriptors `t`:
those of a pipe's side have an end of its channel on one standard stream. -/
structure Sided (t : Descriptors) (w : World) (channel : Way → Option Nat) (op : Operator)
    (side : Bool) (u : Descriptors) : Prop where
  /-- The same descriptors are open. -/
  isSome : ∀ fd, (u.get? fd).isSome = (t.get? fd).isSome
  /-- All but standard input and output lead where they led. -/
  others : ∀ fd, 2 ≤ fd → u.get? fd = t.get? fd
  /-- Standard input. -/
  input : Joined t w channel u 0 .readEnd (rootPipe op side true)
  /-- Standard output. -/
  output : Joined t w channel u 1 .writeEnd (rootPipe op side false)

theorem Sided.of_grows {t u : Descriptors} {w w' : World} {channel : Way → Option Nat}
    {op : Operator} {side : Bool} (h : Sided t w channel op side u) (hg : w.Grows w') :
    Sided t w' channel op side u :=
  ⟨h.isSome, h.others, h.input.of_grows hg, h.output.of_grows hg⟩

section Under

variable {t u : Descriptors} {w : World} {channel inner : Way → Option Nat} {op : Operator}
  {side : Bool}

theorem Joined.under {v : Descriptors} {fd : Nat} {e : Nat → Target} {way root : Option Way}
    (h : Joined u w inner v fd e way) (hinner : ∀ way, channel (side :: way) = inner way)
    (hroot : Joined t w channel u fd e root) :
    Joined t w channel v fd e ((way.map (side :: ·)).or root) := by
  cases way with
  | some way =>
    obtain ⟨n, hn, hl⟩ := h
    exact ⟨n, (hinner way).trans hn, hl⟩
  | none =>
    rw [Option.map_none, Option.none_or]
    cases root with
    | none => exact Eq.trans h hroot
    | some way =>
      obtain ⟨n, hn, file, f, hfd, hf⟩ := hroot
      exact ⟨n, hn, file, f, Eq.trans h hfd, hf⟩

/-- What is wired in the process of a side is wired as the leaf stands in the whole pair. -/
theorem Wired.under {leaf : Leaf} {image : Proc × List Text} (h : Wired u w inner leaf image)
    (hinner : ∀ way, channel (side :: way) = inner way) (hu : Sided t w channel op side u) :
    Wired t w channel (leaf.1, leaf.2.under op side) image where
  argv := h.argv
  isSome fd := (h.isSome fd).trans (hu.isSome fd)
  others fd hfd := (h.others fd hfd).trans (hu.others fd (Nat.le_of_lt hfd))
  input := by
    have hi := h.input
    dsimp only
    split at hi
    · exact hi
    · exact hi.under hinner hu.input
  output := by
    have ho := h.output
    dsimp only
    split at ho
    · exact ho
    · exact ho.under hinner hu.output
  errors := by
    have he := h.errors
    dsimp only
    split at he
    · exact he
    · exact he.trans (hu.others 2 (Nat.le_refl 2))

end Under

/-! ### All programs of a run -/

/-- A numbering of pipes by channels that were made between two worlds, each pipe with its own. -/
structure Numbers (channel : Way → Option Nat) (w w' : World) : Prop where
  /-- The channels were made in between. -/
  new : ∀ way n, channel way = some n → w.channels.length ≤ n ∧ n < w'.channels.length
  /-- No two pipes share one. -/
  inj : ∀ a b n, channel a = some n → channel b = some n → a = b

/-- The programs that were entered between two worlds are those of some of the leaves, in their
order, and all are wired. -/
def Wires (t : Descriptors) (w : World) (leaves : List Leaf) (w' : World) : Prop :=
  w.Grows w' ∧ ∃ channel images, Numbers channel w w' ∧ w'.images = w.images ++ images ∧
    List.SublistForall₂ (fun image leaf => Wired t w' channel leaf image) images leaves

theorem sublistForall₂_append {α β : Type} {R : α → β → Prop} {as bs : List α} {cs ds : List β}
    (h : List.SublistForall₂ R as cs) (h' : List.SublistForall₂ R bs ds) :
    List.SublistForall₂ R (as ++ bs) (cs ++ ds) := by
  rw [List.sublistForall₂_iff] at h h' ⊢
  obtain ⟨xs, hxs, hcs⟩ := h
  obtain ⟨ys, hys, hds⟩ := h'
  exact ⟨xs ++ ys, List.rel_append hxs hys, hcs.append hds⟩

theorem sublistForall₂_imp {α β : Type} {R S : α → β → Prop} (hRS : ∀ a b, R a b → S a b)
    {as : List α} {bs : List β} (h : List.SublistForall₂ R as bs) : List.SublistForall₂ S as bs := by
  rw [List.sublistForall₂_iff] at h ⊢
  obtain ⟨xs, hxs, hbs⟩ := h
  exact ⟨xs, hxs.imp hRS, hbs⟩

namespace Wires

variable {t u v : Descriptors} {w w' w'' : World} {leaves left right : List Leaf}

/-- Where no program was entered there is nothing to be wired. -/
theorem of_still (h : w.Still w') : Wires t w leaves w' :=
  ⟨h.grows, fun _ => none, [], ⟨by simp, by simp⟩, by simp [h.images], .nil⟩

theorem still_trans (h : w.Still w') (h' : Wires t w' leaves w'') : Wires t w leaves w'' := by
  obtain ⟨hg, channel, images, ⟨hnew, hinj⟩, hi, hw⟩ := h'
  refine ⟨h.grows.trans hg, channel, images, ⟨fun way n hn => ?_, hinj⟩, ?_, hw⟩
  · exact ⟨Nat.le_trans h.grows.channels (hnew way n hn).1, (hnew way n hn).2⟩
  · rw [hi, h.images]

theorem trans_still (h : Wires t w leaves w') (h' : w'.Still w'') : Wires t w leaves w'' := by
  obtain ⟨hg, channel, images, ⟨hnew, hinj⟩, hi, hw⟩ := h
  refine ⟨hg.trans h'.grows, channel, images, ⟨fun way n hn => ?_, hinj⟩, ?_, ?_⟩
  · exact ⟨(hnew way n hn).1, Nat.lt_of_lt_of_le (hnew way n hn).2 h'.grows.channels⟩
  · rw [h'.images, hi]
  · exact sublistForall₂_imp (fun _ _ h => h.of_grows h'.grows) hw

/-- One program, entered for the one leaf. -/
theorem single {leaf : Leaf} {image : Proc × List Text} (hg : w.Grows w')
    (hi : w'.images = w.images ++ [image]) (h : Wired t w' (fun _ => none) leaf image) :
    Wires t w [leaf] w' :=
  ⟨hg, fun _ => none, [image], ⟨by simp, by simp⟩, hi, .cons h .nil⟩

/-- The numbering of a pair: the root, if it is a pipe, has a channel of its own, and the sides
keep theirs. -/
def pairChannel (own : Option Nat) (left right : Way → Option Nat) : Way → Option Nat
  | [] => own
  | false :: way => left way
  | true :: way => right way

theorem numbers_pair {own : Option Nat} {a b : Way → Option Nat} {w₁ w₂ w₃ : World}
    (hown : ∀ n, own = some n → w.channels.length ≤ n ∧ n < w₁.channels.length)
    (ha : Numbers a w₁ w₂) (hb : Numbers b w₂ w₃) (h₁ : w.channels.length ≤ w₁.channels.length)
    (h₂ : w₁.channels.length ≤ w₂.channels.length) (h₃ : w₂.channels.length ≤ w₃.channels.length) :
    Numbers (pairChannel own a b) w w₃ := by
  have hbounds : ∀ way n, pairChannel own a b way = some n →
      w.channels.length ≤ n ∧ n < w₃.channels.length := by
    intro way n h
    match way with
    | [] =>
      have := hown n h
      omega
    | false :: way =>
      have := ha.new way n h
      omega
    | true :: way =>
      have := hb.new way n h
      omega
  refine ⟨hbounds, fun x y n hx hy => ?_⟩
  match x, y with
  | [], [] => rfl
  | false :: x, false :: y => rw [ha.inj x y n hx hy]
  | true :: x, true :: y => rw [hb.inj x y n hx hy]
  | [], false :: y =>
    have := hown n hx
    have := ha.new y n hy
    omega
  | [], true :: y =>
    have := hown n hx
    have := hb.new y n hy
    omega
  | false :: x, [] =>
    have := ha.new x n hx
    have := hown n hy
    omega
  | true :: x, [] =>
    have := hb.new x n hx
    have := hown n hy
    omega
  | false :: x, true :: y =>
    have := ha.new x n hx
    have := hb.new y n hy
    omega
  | true :: x, false :: y =>
    have := hb.new x n hx
    have := ha.new y n hy
    omega

/-- One side of a pair after the other, each relative to the descriptors of its own process. -/
theorem pair {op : Operator} {own : Option Nat} {w₁ w₂ w₃ : World} (h₁ : w.Still w₁)
    (ha : Wires u w₁ left w₂) (hb : Wires v w₂ right w₃)
    (hown : ∀ n, own = some n → w.channels.length ≤ n ∧ n < w₁.channels.length)
    (hu : ∀ channel : Way → Option Nat, channel [] = own → Sided t w₁ channel op false u)
    (hv : ∀ channel : Way → Option Nat, channel [] = own → Sided t w₁ channel op true v) :
    Wires t w (joinLeaves op left right) w₃ := by
  obtain ⟨hg₂, a, as, hna, hia, hwa⟩ := ha
  obtain ⟨hg₃, b, bs, hnb, hib, hwb⟩ := hb
  refine ⟨h₁.grows.trans (hg₂.trans hg₃), pairChannel own a b, as ++ bs, ?_, ?_, ?_⟩
  · exact numbers_pair hown hna hnb h₁.grows.channels hg₂.channels hg₃.channels
  · rw [hib, hia, h₁.images, List.append_assoc]
  · refine sublistForall₂_append ?_ ?_
    · refine List.sublistForall₂_map_right_iff.2 (sublistForall₂_imp (fun image leaf h => ?_) hwa)
      have hsided := (hu (pairChannel own a b) rfl).of_grows (hg₂.trans hg₃)
      exact (h.of_grows hg₃).under (fun _ => rfl) hsided
    · refine List.sublistForall₂_map_right_iff.2 (sublistForall₂_imp (fun image leaf h => ?_) hwb)
      have hsided := (hv (pairChannel own a b) rfl).of_grows (hg₂.trans hg₃)
      exact h.under (fun _ => rfl) hsided

end Wires

end LineShell
