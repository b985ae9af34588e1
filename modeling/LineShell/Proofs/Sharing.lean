import Mathlib.Data.Finset.Card
import Mathlib.Data.List.Dedup
import LineShell.Proofs.Depth
import LineShell.Proofs.Scope

/-!
# Nodes reached twice

Nodes are objects, and a pair may be made of one object twice, or of pairs that have an object in
common. What is offered as a tree then stands for the tree that unfolds from it, which can be far
larger than the objects are many. The check for nodes reached twice is a loop over objects still
to be met, first the left side of a pair and then its right side. It meets the nodes of the
unfolded tree in their order, and stops at the first one that it has met before, so it never meets
more than each object once and one of them again.

## The model

* A `Graph` is a row of node objects, numbered as they are made, so the sides of a pair are older
  than the pair and no object is reached from itself.
* `Graph.tree` is the tree that unfolds from an object, every node with the number of its object
  as its mark, unless it is one that may go without. `Graph.order` and `Graph.ways` list its
  objects and its places, a pair before its sides.
* `Graph.Ends` is the loop with its stack: how often it goes round, and the object that stops it.
* `firstRepeat` is the first item of a list that was met before.

## What is proved

* The loop ends in one way (`Graph.Ends.unique`). It meets the objects in the order of the
  unfolded tree and stops at the first repeat (`Graph.exists_ends`); the induction is on what is
  left of that order.
* An object is reached twice exactly where it stands at two places (`Graph.order_nodup`).
* The walk over a tree that the library runs meets its nodes in that order as well
  (`Tree.marksAfter_eq`), so what the check says of an unfolded tree is read off the order of its
  objects (`Graph.validate_tree`).
* A pair that is refused is refused before anything is done (`execute_refused`).

Objects that are made later and joined into older ones, which could make a circle, are left out by
how a graph is numbered.
-/

namespace LineShell

open Act

/-! ### Objects -/

/-- What a node object holds. The sides of a pair are objects too. -/
inductive Cell where
  /-- A simple command. -/
  | leaf (command : Command)
  /-- Two objects joined by an operator. -/
  | binary (op : Operator) (left right : Nat)
  /-- A node that is neither. -/
  | bare
  deriving DecidableEq, Repr

/-- The objects that a pair joins, from left to right. -/
def Cell.sides : Cell → List Nat
  | .binary _ l r => [l, r]
  | .leaf _ => []
  | .bare => []

/-- A cell is a pair, or it has no sides. -/
theorem Cell.sides_cases (c : Cell) : (∃ op l r, c = .binary op l r) ∨ c.sides = [] := by
  cases c with
  | binary op l r => exact Or.inl ⟨op, l, r, rfl⟩
  | leaf _ => exact Or.inr rfl
  | bare => exact Or.inr rfl

/-- Node objects, numbered as they are made. So none of them is reached from itself. -/
structure Graph where
  /-- What the object with a number holds. -/
  cell : Nat → Cell
  /-- The sides of a pair are made before it. -/
  older : ∀ i, ∀ j ∈ (cell i).sides, j < i

namespace Graph

/-- The tree that unfolds from an object. Every node carries the number of its object as a mark,
unless that is left out. -/
def tree (g : Graph) (keep : Nat → Bool) (i : Nat) : Tree :=
  match _hcell : g.cell i with
  | .leaf c => .leaf (if keep i then some i else none) c
  | .bare => .bare (if keep i then some i else none)
  | .binary op l r => .binary (if keep i then some i else none) op (g.tree keep l) (g.tree keep r)
termination_by i
decreasing_by
  · exact g.older i l (by simp [_hcell, Cell.sides])
  · exact g.older i r (by simp [_hcell, Cell.sides])

/-- The objects of the unfolded tree in its order: a pair, then its left side, then its right side. -/
def order (g : Graph) (i : Nat) : List Nat :=
  i :: (g.cell i).sides.attach.flatMap fun ⟨j, hj⟩ =>
    have : j < i := g.older i j hj
    g.order j

/-- The object at a place of the unfolded tree. -/
def at? (g : Graph) (i : Nat) : Way → Option Nat
  | [] => some i
  | side :: way =>
    match g.cell i with
    | .binary _ l r => g.at? (if side then r else l) way
    | .leaf _ => none
    | .bare => none

/-- The check as a loop, from the objects met so far and those still to be met, nearest first: how
often it goes round, and the object that stops it. -/
inductive Ends (g : Graph) : List Nat → List Nat → Nat → Option Nat → Prop where
  /-- All are met. -/
  | done (seen : List Nat) : g.Ends seen [] 0 none
  /-- The next one was met before. -/
  | again {i : Nat} {seen : List Nat} (h : i ∈ seen) (stack : List Nat) :
    g.Ends seen (i :: stack) 1 (some i)
  /-- The next one is new, and its sides are to be met before the others. -/
  | fresh {i : Nat} {seen stack : List Nat} {rounds : Nat} {found : Option Nat} (h : i ∉ seen)
    (hrest : g.Ends (i :: seen) ((g.cell i).sides ++ stack) rounds found) :
    g.Ends seen (i :: stack) (rounds + 1) found

/-- What is said of the tree that unfolds from an object, where the loop stops at an object or not
at all. -/
def verdict (g : Graph) (keep : Nat → Bool) (root : Nat) : Option Nat → Except TreeError Tree
  | none => .ok (g.tree keep root)
  | some i => .error (.shared (g.tree keep i))

/-- Only an object that stands at no more than one place of the unfolded tree has its mark left
out. -/
def Marks (g : Graph) (keep : Nat → Bool) (root : Nat) : Prop :=
  ∀ i, keep i = false → (g.order root).count i ≤ 1

end Graph

/-! ### The first item met twice -/

/-- The first item of a list that stands among others, or was met before in the list. -/
def firstRepeat (seen : List Nat) : List Nat → Option Nat
  | [] => none
  | i :: is => if i ∈ seen then some i else firstRepeat (i :: seen) is

theorem firstRepeat_eq_none {seen is : List Nat} :
    firstRepeat seen is = none ↔ is.Nodup ∧ ∀ i ∈ is, i ∉ seen := by
  induction is generalizing seen with
  | nil => simp [firstRepeat]
  | cons i is ih =>
    by_cases hi : i ∈ seen
    · simp [firstRepeat, hi]
    · rw [firstRepeat, if_neg hi, ih, List.nodup_cons]
      simp only [List.mem_cons, not_or]
      constructor
      · rintro ⟨hnodup, h⟩
        exact ⟨⟨fun hmem => (h i hmem).1 rfl, hnodup⟩, fun j hj => by
          rcases hj with rfl | hj
          · exact hi
          · exact (h j hj).2⟩
      · rintro ⟨⟨hnot, hnodup⟩, h⟩
        exact ⟨hnodup, fun j hj => ⟨fun hji => hnot (hji ▸ hj), h j (Or.inr hj)⟩⟩

theorem exists_of_firstRepeat {seen is : List Nat} {i : Nat} (h : firstRepeat seen is = some i) :
    ∃ before after, is = before ++ i :: after ∧ before.Nodup ∧ (∀ j ∈ before, j ∉ seen) ∧
      (i ∈ seen ∨ i ∈ before) := by
  induction is generalizing seen with
  | nil => simp [firstRepeat] at h
  | cons j is ih =>
    by_cases hj : j ∈ seen
    · rw [firstRepeat, if_pos hj] at h
      obtain rfl := Option.some.inj h
      exact ⟨[], is, rfl, List.nodup_nil, by simp, Or.inl hj⟩
    · rw [firstRepeat, if_neg hj] at h
      obtain ⟨before, after, rfl, hnodup, hnew, hi⟩ := ih h
      refine ⟨j :: before, after, rfl, List.nodup_cons.2 ⟨fun hmem => ?_, hnodup⟩, ?_, ?_⟩
      · exact hnew j hmem List.mem_cons_self
      · refine List.forall_mem_cons.2 ⟨hj, fun k hk hmem => ?_⟩
        exact hnew k hk (List.mem_cons_of_mem _ hmem)
      · rcases hi with hi | hi
        · rcases List.mem_cons.1 hi with rfl | hi
          · exact Or.inr List.mem_cons_self
          · exact Or.inl hi
        · exact Or.inr (List.mem_cons_of_mem _ hi)

namespace Graph

variable {g : Graph}

theorem order_eq (i : Nat) : g.order i = i :: (g.cell i).sides.flatMap g.order := by
  rw [order]
  simp

/-! ### The loop -/

theorem Ends.unique {seen stack : List Nat} {rounds rounds' : Nat} {found found' : Option Nat}
    (h : g.Ends seen stack rounds found) (h' : g.Ends seen stack rounds' found') :
    rounds = rounds' ∧ found = found' := by
  induction h generalizing rounds' found' with
  | done seen =>
    cases h'
    exact ⟨rfl, rfl⟩
  | again hi stack =>
    cases h' with
    | again => exact ⟨rfl, rfl⟩
    | fresh hi' => exact absurd hi hi'
  | fresh hi _ ih =>
    cases h' with
    | again hi' => exact absurd hi' hi
    | fresh _ hrest' =>
      obtain ⟨rfl, rfl⟩ := ih hrest'
      exact ⟨rfl, rfl⟩

/-- The loop meets the objects in the order of the unfolded trees, and stops at the first one that
was met before. The induction is on what is left of that order. -/
theorem exists_ends (seen stack : List Nat) :
    ∃ rounds, g.Ends seen stack rounds (firstRepeat seen (stack.flatMap g.order)) ∧
      rounds ≤ ((stack.flatMap g.order).toFinset \ seen.toFinset).card + 1 := by
  generalize hleft : stack.flatMap g.order = left
  induction left generalizing seen stack with
  | nil =>
    cases stack with
    | nil => exact ⟨0, .done seen, by simp⟩
    | cons i stack =>
      rw [List.flatMap_cons, order_eq] at hleft
      simp at hleft
  | cons k left ih =>
    cases stack with
    | nil => simp at hleft
    | cons i stack =>
      rw [List.flatMap_cons, order_eq, List.cons_append, ← List.flatMap_append] at hleft
      obtain ⟨rfl, hrest⟩ := List.cons.inj hleft
      by_cases hi : i ∈ seen
      · rw [firstRepeat, if_pos hi]
        exact ⟨1, .again hi stack, by omega⟩
      · obtain ⟨rounds, hends, hle⟩ := ih (i :: seen) _ hrest
        rw [firstRepeat, if_neg hi]
        refine ⟨rounds + 1, .fresh hi hends, ?_⟩
        have hcard : (left.toFinset \ (i :: seen).toFinset).card + 1
            ≤ ((i :: left).toFinset \ seen.toFinset).card := by
          rw [← Finset.card_insert_of_notMem (a := i) (by simp)]
          refine Finset.card_le_card fun j hj => ?_
          rcases Finset.mem_insert.1 hj with rfl | hj
          · simp [hi]
          · simp only [Finset.mem_sdiff, List.mem_toFinset, List.mem_cons, not_or] at hj ⊢
            exact ⟨Or.inr hj.1, hj.2.2⟩
        omega

/-! ### Places -/

/-- The places of the unfolded tree in its order. -/
def ways (g : Graph) (i : Nat) : List Way :=
  match _hcell : g.cell i with
  | .binary _ l r => [] :: ((g.ways l).map (false :: ·) ++ (g.ways r).map (true :: ·))
  | .leaf _ => [[]]
  | .bare => [[]]
termination_by i
decreasing_by
  · exact g.older i l (by simp [_hcell, Cell.sides])
  · exact g.older i r (by simp [_hcell, Cell.sides])

section Places

variable {i : Nat}

theorem ways_of_binary {op : Operator} {l r : Nat} (h : g.cell i = .binary op l r) :
    g.ways i = [] :: ((g.ways l).map (false :: ·) ++ (g.ways r).map (true :: ·)) := by
  rw [ways]
  split <;> simp_all

theorem ways_of_single (h : (g.cell i).sides = []) : g.ways i = [[]] := by
  rw [ways]
  split <;> simp_all [Cell.sides]

theorem at?_of_binary {op : Operator} {l r : Nat} (h : g.cell i = .binary op l r) (side : Bool)
    (way : Way) : g.at? i (side :: way) = g.at? (if side then r else l) way := by
  rw [at?, h]

theorem at?_of_single (h : (g.cell i).sides = []) (side : Bool) (way : Way) :
    g.at? i (side :: way) = none := by
  rw [at?]
  split <;> simp_all [Cell.sides]

theorem mem_ways {way : Way} : way ∈ g.ways i ↔ ∃ j, g.at? i way = some j := by
  induction way generalizing i with
  | nil =>
    rcases Cell.sides_cases (g.cell i) with ⟨op, l, r, h⟩ | h
    · simp [ways_of_binary h, at?]
    · simp [ways_of_single h, at?]
  | cons side way ih =>
    rcases Cell.sides_cases (g.cell i) with ⟨op, l, r, h⟩ | h
    · rw [ways_of_binary h, at?_of_binary h]
      cases side <;> simp [ih]
    · simp [ways_of_single h, at?_of_single h]

theorem nodup_ways (i : Nat) : (g.ways i).Nodup := by
  induction i using Nat.strong_induction_on with
  | _ i ih =>
    rcases Cell.sides_cases (g.cell i) with ⟨op, l, r, h⟩ | h
    · have hl := ih l (g.older i l (by simp [h, Cell.sides]))
      have hr := ih r (g.older i r (by simp [h, Cell.sides]))
      rw [ways_of_binary h]
      refine List.nodup_cons.2 ⟨by simp, List.Nodup.append ?_ ?_ ?_⟩
      · exact hl.map fun v w hvw => (List.cons.inj hvw).2
      · exact hr.map fun v w hvw => (List.cons.inj hvw).2
      · intro w hw hw'
        obtain ⟨v, -, rfl⟩ := List.mem_map.1 hw
        obtain ⟨v', -, h'⟩ := List.mem_map.1 hw'
        simp at h'
    · simp [ways_of_single h]

/-- The order of the unfolded tree is that of its places. -/
theorem map_ways (i : Nat) : (g.ways i).map (g.at? i) = (g.order i).map some := by
  induction i using Nat.strong_induction_on with
  | _ i ih =>
    rcases Cell.sides_cases (g.cell i) with ⟨op, l, r, h⟩ | h
    · have hl := ih l (g.older i l (by simp [h, Cell.sides]))
      have hr := ih r (g.older i r (by simp [h, Cell.sides]))
      have hside (side : Bool) : (g.at? i ∘ fun way => side :: way) = g.at? (if side then r else l) :=
        funext fun way => at?_of_binary h side way
      rw [ways_of_binary h, order_eq, h]
      simp [Cell.sides, at?, hside, hl, hr]
    · simp [ways_of_single h, order_eq, h, at?]

/-- An object is reached twice where it stands at two places. -/
theorem order_nodup : (g.order i).Nodup ↔
    ∀ v w j, g.at? i v = some j → g.at? i w = some j → v = w := by
  have hinj : Function.Injective (some : Nat → Option Nat) := fun _ _ => Option.some.inj
  rw [← List.nodup_map_iff hinj, ← map_ways, List.nodup_map_iff_inj_on (nodup_ways i)]
  constructor
  · intro h v w j hv hw
    exact h v (mem_ways.2 ⟨j, hv⟩) w (mem_ways.2 ⟨j, hw⟩) (hv.trans hw.symm)
  · intro h v hv w hw heq
    obtain ⟨j, hj⟩ := mem_ways.1 hv
    exact h v w j hj (heq ▸ hj)

end Places

end Graph

/-! ### The check of the unfolded tree -/

/-- The nodes of a tree in its order: a pair, then those of its left side, then those of its right
side. -/
def Tree.preorder : Tree → List Tree
  | .leaf mark c => [.leaf mark c]
  | .bare mark => [.bare mark]
  | .binary mark op l r => .binary mark op l r :: (l.preorder ++ r.preorder)

/-- The walk over a tree meets its nodes in its order. -/
theorem Tree.marksAfter_eq (t : Tree) (seen : List Nat) :
    t.marksAfter seen = t.preorder.foldlM Tree.meet seen := by
  induction t generalizing seen with
  | leaf mark c => simp [marksAfter, preorder]
  | bare mark => simp [marksAfter, preorder]
  | binary mark op l r ihl ihr =>
    simp only [marksAfter, preorder, List.foldlM_cons, List.foldlM_append, ← ihl, ← ihr]

namespace Graph

section Unfolded

variable {g : Graph} {keep : Nat → Bool} {i : Nat}

theorem tree_of_binary {op : Operator} {l r : Nat} (h : g.cell i = .binary op l r) :
    g.tree keep i
      = .binary (if keep i then some i else none) op (g.tree keep l) (g.tree keep r) := by
  rw [tree]
  split <;> simp_all

theorem mark_tree (i : Nat) : (g.tree keep i).mark = if keep i then some i else none := by
  rw [tree]
  split <;> rfl

theorem preorder_tree (i : Nat) : (g.tree keep i).preorder = (g.order i).map (g.tree keep) := by
  induction i using Nat.strong_induction_on with
  | _ i ih =>
    rcases Cell.sides_cases (g.cell i) with ⟨op, l, r, h⟩ | h
    · have hl := ih l (g.older i l (by simp [h, Cell.sides]))
      have hr := ih r (g.older i r (by simp [h, Cell.sides]))
      rw [order_eq, h]
      simp [Cell.sides, tree_of_binary h, Tree.preorder, hl, hr]
    · have hone : (g.tree keep i).preorder = [g.tree keep i] := by
        rw [tree]
        split <;> simp_all [Tree.preorder, Cell.sides]
      simp [order_eq, h, hone]

/-- An object stops the walk where it was met before. One without a mark is taken for a new one. -/
theorem meet_tree {seen : List Nat} (h : keep i = false → i ∉ seen) :
    Tree.meet (seen.filter keep) (g.tree keep i)
      = if i ∈ seen then .error (g.tree keep i) else .ok ((i :: seen).filter keep) := by
  unfold Tree.meet
  rw [mark_tree]
  cases hi : keep i with
  | true =>
    by_cases hseen : i ∈ seen
    · simp [hi, hseen]
    · simp [hi, hseen]
  | false => simp [hi, h hi]

/-- A walk over nodes stops at the first object that was met before. An object without a mark
stands nowhere else, so it does not stop the walk. -/
theorem foldlM_meet {seen is : List Nat}
    (hkeep : ∀ i, keep i = false → (seen ++ is).count i ≤ 1) :
    (is.map (g.tree keep)).foldlM Tree.meet (seen.filter keep)
      = match firstRepeat seen is with
        | none => .ok ((is.reverse ++ seen).filter keep)
        | some i => .error (g.tree keep i) := by
  induction is generalizing seen with
  | nil => rfl
  | cons i is ih =>
    have hperm : (i :: seen ++ is).Perm (seen ++ i :: is) := List.perm_middle.symm
    have hnew : keep i = false → i ∉ seen := by
      intro hi hseen
      have hcount := hkeep i hi
      rw [← hperm.count_eq, List.cons_append, List.count_cons_self] at hcount
      have hpos : 0 < (seen ++ is).count i := List.count_pos_iff.2 (List.mem_append_left _ hseen)
      omega
    rw [List.map_cons, List.foldlM_cons, meet_tree hnew, firstRepeat]
    by_cases hseen : i ∈ seen
    · rw [if_pos hseen, if_pos hseen]
      rfl
    · rw [if_neg hseen, if_neg hseen]
      show (is.map (g.tree keep)).foldlM Tree.meet ((i :: seen).filter keep) = _
      rw [ih fun j hj => hperm.count_eq j ▸ hkeep j hj]
      simp

/-- What the check says of an unfolded tree is read off the order of its objects. -/
theorem validate_tree {root : Nat} (h : g.Marks keep root) :
    (Offered.node (g.tree keep root)).validate
      = g.verdict keep root (firstRepeat [] (g.order root)) := by
  have hwalk := @foldlM_meet g keep [] (g.order root) h
  rw [← preorder_tree, List.filter_nil, ← Tree.marksAfter_eq] at hwalk
  cases hfound : firstRepeat [] (g.order root) with
  | none =>
    rw [hfound] at hwalk
    simp only [Offered.validate, Tree.firstShared, hwalk, verdict]
  | some i =>
    rw [hfound] at hwalk
    simp only [Offered.validate, Tree.firstShared, hwalk, verdict]

end Unfolded

end Graph

/-- What is refused for a node reached twice is a pair, and it is refused before anything is done. -/
theorem execute_refused (rules : Rules) {t : Tree} {e : TreeError}
    (h : (Offered.node t).validate = .error e) (m : Machine) :
    execute rules t 0 m = .error (.tree e) m := by
  cases hshared : t.firstShared with
  | none => simp [Offered.validate, hshared] at h
  | some shared =>
    obtain rfl : TreeError.shared shared = e := by simpa [Offered.validate, hshared] using h
    cases t with
    | leaf mark c =>
      cases mark <;> simp [Tree.firstShared, Tree.marksAfter, Tree.meet, Tree.mark] at hshared
    | bare mark =>
      cases mark <;> simp [Tree.firstShared, Tree.marksAfter, Tree.meet, Tree.mark] at hshared
    | binary mark op l r =>
      rw [execute, if_pos rfl, bind_eq, refuseShared, hshared]
      rfl

/-- **The check for nodes reached twice is exact.** Let a tree unfold from any object of an acyclic
graph. The loop of the check ends, in one way; it goes round at most once for each object that the
unfolded tree has, and once more, however often the objects stand there; and what it finds is what the
check says of the unfolded tree. That tree is refused just if one object stands at two places, and
the node that is named is the first one, in the order of the unfolded tree, whose object stands
before it too. A tree that is refused is not run: the machine stays as it was, without a call, and
the same error is given. -/
theorem validate_unfolded (g : Graph) (root : Nat) {keep : Nat → Bool} (h : g.Marks keep root) :
    (∃ rounds found, g.Ends [] [root] rounds found) ∧
    (∀ rounds found, g.Ends [] [root] rounds found →
      rounds ≤ (g.order root).toFinset.card + 1 ∧
        (Offered.node (g.tree keep root)).validate = g.verdict keep root found) ∧
    ((∃ e, (Offered.node (g.tree keep root)).validate = .error e) ↔
      ∃ v w i, v ≠ w ∧ g.at? root v = some i ∧ g.at? root w = some i) ∧
    ∀ e, (Offered.node (g.tree keep root)).validate = .error e →
      (∃ before i after, e = .shared (g.tree keep i) ∧ g.order root = before ++ i :: after ∧
        before.Nodup ∧ i ∈ before) ∧
      ∀ (rules : Rules) (m : Machine),
        execute rules (g.tree keep root) 0 m = .error (.tree e) m := by
  have hcheck := Graph.validate_tree h
  obtain ⟨rounds, hends, hle⟩ := g.exists_ends [] [root]
  simp only [List.flatMap_cons, List.flatMap_nil, List.append_nil, List.toFinset_nil,
    Finset.sdiff_empty] at hends hle
  refine ⟨⟨rounds, _, hends⟩, fun rounds' found hends' => ?_, ?_, fun e he => ⟨?_, ?_⟩⟩
  · obtain ⟨rfl, rfl⟩ := hends.unique hends'
    exact ⟨hle, hcheck⟩
  · rw [hcheck]
    cases hfound : firstRepeat [] (g.order root) with
    | none =>
      have hnodup := (firstRepeat_eq_none.1 hfound).1
      constructor
      · rintro ⟨e, he⟩
        simp [Graph.verdict] at he
      · rintro ⟨v, w, i, hne, hv, hw⟩
        exact absurd (Graph.order_nodup.1 hnodup v w i hv hw) hne
    | some i =>
      refine ⟨fun _ => ?_, fun _ => ⟨_, rfl⟩⟩
      by_contra hplaces
      have hnodup : (g.order root).Nodup := by
        refine Graph.order_nodup.2 fun v w j hv hw => ?_
        by_contra hne
        exact hplaces ⟨v, w, j, hne, hv, hw⟩
      have hnone : firstRepeat [] (g.order root) = none :=
        firstRepeat_eq_none.2 ⟨hnodup, by simp⟩
      simp [hfound] at hnone
  · rw [hcheck] at he
    cases hfound : firstRepeat [] (g.order root) with
    | none => simp [hfound, Graph.verdict] at he
    | some i =>
      obtain ⟨before, after, horder, hnodup, -, hi⟩ := exists_of_firstRepeat hfound
      refine ⟨before, i, after, ?_, horder, hnodup, ?_⟩
      · simpa [hfound, Graph.verdict] using he.symm
      · simpa using hi
  · exact fun rules m => execute_refused rules he m

/-- Equal commands in two objects are not one object twice. -/
example (c : Command) :
    let t : Tree := .binary (some 2) .sequential (.leaf (some 0) c) (.leaf (some 1) c)
    (Offered.node t).validate = .ok t := rfl

/-- Five objects: `cd /`, a pair of that command twice, a node that is neither command nor pair, a
pair of these two, and a pair of that pair twice. -/
def twicePaired : Graph where
  cell
    | 0 => .leaf ⟨[.lit "cd".toList], [[.lit ['/']]], none, none, none⟩
    | 1 => .binary .sequential 0 0
    | 2 => .bare
    | 3 => .binary .conditionalAnd 1 2
    | 4 => .binary .pipe 3 3
    | _ => .bare
  older i j hj := by
    match i with
    | 0 => simp [Cell.sides] at hj
    | 1 => simp [Cell.sides] at hj; omega
    | 2 => simp [Cell.sides] at hj
    | 3 => simp [Cell.sides] at hj; omega
    | 4 => simp [Cell.sides] at hj; omega
    | _ + 5 => simp [Cell.sides] at hj

theorem order_twicePaired : twicePaired.order 4 = [4, 3, 1, 0, 0, 2, 3, 1, 0, 0, 2] := by
  simp [Graph.order_eq, twicePaired, Cell.sides]

/-- The eleven nodes that unfold from the last object, which carries no mark: the fifth one is the
command met before, and the loop goes no further. -/
theorem validate_unfolded_twicePaired :
    let t := twicePaired.tree (· != 4) 4
    let cd : Tree := .leaf (some 0) ⟨[.lit "cd".toList], [[.lit ['/']]], none, none, none⟩
    twicePaired.Marks (· != 4) 4 ∧ (Offered.node t).validate = .error (.shared cd) ∧
      twicePaired.Ends [] [4] 5 (some 0) ∧
      (∃ v w i, v ≠ w ∧ twicePaired.at? 4 v = some i ∧ twicePaired.at? 4 w = some i) ∧
      ∀ m, execute allRules t 0 m = .error (.tree (.shared cd)) m := by
  intro t cd
  have hmarks : twicePaired.Marks (· != 4) 4 := by
    intro i hi
    obtain rfl : i = 4 := by simpa using hi
    rw [order_twicePaired]
    decide
  have hends : twicePaired.Ends [] [4] 5 (some 0) := by
    refine .fresh (by simp) (.fresh (by simp) (.fresh (by simp) (.fresh (by simp) ?_)))
    exact .again (by simp) _
  have hleaf : twicePaired.tree (· != 4) 0 = cd := by
    rw [Graph.tree]
    rfl
  obtain ⟨-, hloop, hplaces, hrefused⟩ := validate_unfolded twicePaired 4 hmarks
  have hvalid : (Offered.node t).validate = .error (.shared cd) := hleaf ▸ (hloop 5 (some 0) hends).2
  exact ⟨hmarks, hvalid, hends, hplaces.1 ⟨_, hvalid⟩, fun m => (hrefused _ hvalid).2 allRules m⟩

end LineShell
