import Mathlib.Data.List.Chain
import SymbolTree.Proofs.Tours
import SymbolTree.Proofs.Worklists

/-!
# Traversals

Every way of going through a tree comes to its end: the loops over worklists, the cursors, and the
way up to the root.

* `isChain_lineage`, `getLast?_lineage`: the way up goes from parent to parent and ends at the root;
* `traversals_end`: each traversal with the directories that it visits.
-/
namespace SymbolTree

variable {V : Type} {tree : Tree V} {dir : Handle}

namespace Tree

theorem isChain_lineage (tree : Tree V) (steps : Nat) (dir : Handle) :
    (tree.lineage steps dir).IsChain fun below above => (tree.slot below).parent = some above := by
  induction steps generalizing dir with
  | zero => exact .nil
  | succ steps ih =>
    rw [lineage]
    cases held : (tree.slot dir).parent with
    | none => exact .singleton dir
    | some parent =>
      have onward := ih parent
      cases steps with
      | zero => exact .singleton dir
      | succ steps => exact .cons_cons held onward

/-- The way up ends at the root if there are steps enough for all segments on the way down. -/
theorem WellFormed.getLast?_lineage (wf : tree.WellFormed) {way : List String}
    (reach : tree.follow tree.rootHandle way = some dir) {steps : Nat} (enough : way.length < steps) :
    (tree.lineage steps dir).getLast? = some tree.rootHandle := by
  induction way using List.reverseRecOn generalizing dir steps with
  | nil =>
    obtain rfl := Option.some.inj reach
    obtain ⟨steps, rfl⟩ := Nat.exists_eq_add_one_of_ne_zero (Nat.ne_of_gt enough)
    simp [lineage, wf.root.2.1]
  | append_singleton way segment ih =>
    obtain ⟨parent, toParent, link⟩ := follow_concat_eq_some.mp reach
    obtain ⟨steps, rfl⟩ := Nat.exists_eq_add_one_of_ne_zero (Nat.ne_of_gt (Nat.zero_lt_of_lt enough))
    have parentLive := wf.follow_live wf.root_live toParent
    have up := ih toParent (show way.length < steps by simp at enough; omega)
    simp [lineage, wf.child_parent parentLive link, List.getLast?_cons, up]

end Tree

namespace View

/-- From a view one comes from parent to parent to the root, which has none. -/
theorem lineage_ends (wf : tree.WellFormed) (live : tree.IsLive dir) :
    let view : View V := ⟨tree, dir⟩
    view.lineage.head? = some view ∧
      (view.lineage.IsChain fun below above => below.parent? = some above) ∧
      view.lineage.getLast? = some tree.root ∧ tree.root.parent? = none := by
  intro view
  obtain ⟨way, reach⟩ := wf.exists_way live
  have later := wf.follow_later wf.root_live reach
  have inside := live.inside
  have enough : way.length < tree.slots.size := by omega
  refine ⟨?head, ?chain, ?last, ?top⟩
  case head =>
    obtain ⟨steps, size⟩ := Nat.exists_eq_add_one_of_ne_zero (Nat.ne_of_gt wf.root.1)
    simp only [lineage, view, size, Tree.lineage, List.map_cons, List.head?_cons]
    rfl
  case chain =>
    rw [lineage, List.isChain_map]
    refine (tree.isChain_lineage tree.slots.size dir).imp ?_
    intro below above held
    simp [parent?, slot, moveTo, view, held]
  case last =>
    rw [lineage, List.getLast?_map, wf.getLast?_lineage reach enough]
    rfl
  case top => simp [parent?, slot, Tree.root, wf.root.2.1]

/-- In a tree that some commands have built, its tables in any order, every traversal from a live
directory ends.

A loop over a worklist that begins with the directory takes it and each directory below it once, in
whatever order subdirectories come onto the list, and it cannot go on for ever. So the size is what
any such loop adds up, and the directory is empty if a loop that would break off at an entry takes
everything. The same holds of a loop that begins with the subdirectories and cuts off what it takes:
it takes each directory below once, and leaves the tree and reports the number that clearing the
directory does. The bound on the steps of a sweep is never what ends it.

Every call of a cursor comes to an entry or to the end, by moves that pass through directories and a
last one, and it does so within the bound on its moves; the end is seen after as many entries as the
size says. Each move into a directory lays down a frame for it and each move out takes that frame off
again, and when the end has been seen, this has happened once for the directory and once for each one
below it. The way up from the directory goes from parent to parent and ends at the root. -/
theorem traversals_end [BEq V] (arises : tree.Arises) (live : tree.IsLive dir) :
    let view : View V := ⟨tree, dir⟩
    let isHere (other : Handle) : Prop := other = dir ∨ tree.Below dir other
    (∀ loop : Loop V, loop.Exhausts tree [dir] isHere) ∧
      (∀ taken later, Loop.counting.Runs tree [dir] taken later [] →
        view.size = taken.foldr (fun other count => (tree.slot other).leaves.size + count) 0) ∧
      (∀ taken later left, Loop.seeking.Runs tree [dir] taken later left →
        Loop.seeking.Ended later left → (view.isEmpty = true ↔ left = [])) ∧
      (∀ children, children.Perm view.slot.children.values →
        Loop.cutting.Exhausts (tree.modify dir Slot.emptied) children (tree.Below dir) ∧
          ∀ taken later, Loop.cutting.Runs (tree.modify dir Slot.emptied) children taken later [] →
            view.clear = ⟨(), later, [.cleared dir.index taken.length]⟩) ∧
      (∀ loop : Loop V, loop.change = id →
        let swept := tree.sweep loop.halt tree.slots.size [dir]
        loop.Runs tree [dir] swept.visited tree swept.pending ∧ loop.Ended tree swept.pending) ∧
      (∀ calls passed, let cursor := view.cursor.after calls
        cursor.advance (2 * cursor.tree.slots.size + 1) ≠ .passing passed) ∧
      (∀ calls, (view.cursor.after calls).next.1 = none ↔ view.size ≤ calls) ∧
      (∃ tours : Nat → Tour V, tours 0 = view.tour ∧
        (∀ calls, (tours calls).cursor = view.cursor.after calls ∧
          (tours calls).Call (view.cursor.after calls).next.1 (tours (calls + 1))) ∧
        ∀ calls, view.size < calls → (tours calls).cursor.stack = [] ∧
          EachOnce (tours calls).entered isHere ∧ EachOnce (tours calls).left isHere) ∧
      view.lineage.head? = some view ∧
      (view.lineage.IsChain fun below above => below.parent? = some above) ∧
      view.lineage.getLast? = some tree.root ∧ tree.root.parent? = none := by
  intro view isHere
  have wf := arises.wellFormed
  have exhausts (loop : Loop V) := wf.exhausts_singleton live loop
  have subtree : EachOnce (tree.subtree dir) isHere :=
    ⟨wf.nodup_subtree live, wf.mem_subtree_iff_below live⟩
  obtain ⟨tours, start, each⟩ := exists_tours wf live
  have answers := next_eq_none_iff wf live
  refine ⟨exhausts, ?counting, ?seeking, ?cutting, ?sweeps, ?bound, answers, ⟨tours, start, ?calls,
    ?frames⟩, lineage_ends wf live⟩
  case counting =>
    intro taken later run
    exact size_eq_of_eachOnce wf live ((exhausts _).all run)
  case seeking =>
    intro taken later left run ended
    exact isEmpty_iff_of_ended wf live run ended
  case cutting =>
    intro children order
    have below := wf.exhausts_children live Loop.cutting Slot.emptied order
    refine ⟨below, ?_⟩
    intro taken later run
    rw [run.later_eq]
    exact clear_eq_of_eachOnce wf live (below.all run)
  case sweeps =>
    intro loop idle
    exact ⟨(runs_sweep idle tree _ _).1, ended_sweep idle (exhausts loop)⟩
  case bound =>
    intro calls passed
    obtain ⟨sound, cursor, -⟩ := each calls
    rw [← cursor]
    exact sound.advance_ne_passing passed
  case calls =>
    intro calls
    obtain ⟨-, cursor, call, -⟩ := each calls
    exact ⟨cursor, call⟩
  case frames =>
    intro calls after
    cases calls with
    | zero => exact absurd after (Nat.not_lt_zero _)
    | succ calls =>
      obtain ⟨-, -, -, atEnd⟩ := each calls
      have noFrame := atEnd ((answers calls).mpr (Nat.le_of_lt_succ after))
      obtain ⟨entered, left⟩ := (each (calls + 1)).1.ended noFrame
      exact ⟨noFrame, entered ▸ subtree, left.nodup_iff.mpr subtree.1,
        fun other => left.mem_iff.trans (subtree.2 other)⟩

/-- Directories without an entry, and one that has been cut off below one of them: it is not visited
any more. The first call of a cursor passes through them all and sees the end. -/
theorem traversals_end_cut_off :
    let commands : List (Command Nat) :=
      [.extend [("a.b.x", 1), ("a.c.d.x", 2), ("e.x", 3)], .inside ["a.b"] (.erase "x"),
        .inside ["a.c"] .clear]
    let tree := (Tree.empty.runAll commands).tree
    let view : View Nat := ⟨tree, ⟨1, 0⟩⟩
    tree.IsLive ⟨1, 0⟩ ∧
      (∀ taken later, Loop.counting.Runs tree [⟨1, 0⟩] taken later [] →
        taken.Nodup ∧ ⟨3, 0⟩ ∈ taken ∧ ⟨4, 0⟩ ∉ taken) ∧
      (∃ later, view.tour.Call none later ∧ later.cursor.stack = [] ∧ ⟨3, 0⟩ ∈ later.left ∧
        ⟨4, 0⟩ ∉ later.entered) ∧
      view.lineage.getLast? = some tree.root := by
  intro commands tree view
  have arises : tree.Arises := Tree.Reachable.arises ⟨commands, rfl⟩
  have live : tree.IsLive ⟨1, 0⟩ := by decide +kernel
  have noEntry : view.size = 0 := by decide +kernel
  obtain ⟨exhausts, -, -, -, -, -, answers, ⟨tours, start, calls, frames⟩, -, -, last, -⟩ :=
    traversals_end arises live
  have link : tree.child? ⟨1, 0⟩ "c" = some ⟨3, 0⟩ := by decide +kernel
  have dead : ¬ (⟨4, 0⟩ = (⟨1, 0⟩ : Handle) ∨ tree.Below ⟨1, 0⟩ ⟨4, 0⟩) := by
    rintro (here | below)
    · cases here
    · exact absurd (arises.wellFormed.below_live live below) (by decide +kernel)
  refine ⟨live, ?loop, ?call, last⟩
  case loop =>
    intro taken later run
    obtain ⟨distinct, each⟩ := (exhausts _).all run
    exact ⟨distinct, (each _).mpr (.inr (.child link)), mt (each _).mp dead⟩
  case call =>
    have first := (calls 0).2
    rw [start, (answers 0).mpr (Nat.le_of_eq noEntry)] at first
    obtain ⟨noFrame, entered, left⟩ := frames 1 (by rw [noEntry]; exact Nat.one_pos)
    exact ⟨tours 1, first, noFrame, (left.2 _).mpr (.inr (.child link)), mt (entered.2 _).mp dead⟩

end View
end SymbolTree
