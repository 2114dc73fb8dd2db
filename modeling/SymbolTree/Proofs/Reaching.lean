import SymbolTree.Proofs.Directories
import SymbolTree.Proofs.Lifetimes

/-!
# What handles lead to

A handle is checked against its own slot and the generation of the tree. That is enough to know that
the directory can be reached from the root, and that nothing outside the tree is met from there.

* `exists_subdir?_iff`: the handles of the directories that paths from the root lead to;
* `View.Meets`: the views that are met from one by going up and down;
* `meets_live`: all of them are of live directories.
-/
namespace SymbolTree

variable {V : Type} {tree : Tree V} {dir : Handle}

/-- The views that are met from a view by going to parents and to listed subdirectories. -/
inductive View.Meets (view : View V) : View V → Prop where
  | here : view.Meets view
  | up {other parent : View V} (met : view.Meets other) (above : other.parent? = some parent) :
      view.Meets parent
  | down {other below : View V} {segment : String} (met : view.Meets other)
      (listed : (segment, below) ∈ other.subdirs) : view.Meets below

namespace Tree

theorem view?_eq_some_iff {view : View V} :
    tree.view? dir = some view ↔ tree.IsLive dir ∧ view = ⟨tree, dir⟩ := by
  unfold view?
  by_cases live : tree.IsLive dir <;> simp [live, eq_comm]

namespace WellFormed

/-- A path leads from the root to every directory below it, and to no other. -/
theorem exists_subdir?_iff (wf : tree.WellFormed) :
    (∃ path view, tree.root.subdir? path = some view ∧ view.handle = dir) ↔
      tree.Below tree.rootHandle dir := by
  constructor
  · rintro ⟨path, view, found, rfl⟩
    obtain ⟨below, reach, rfl⟩ := Option.map_eq_some_iff.mp found
    obtain ⟨first, others, parts⟩ := List.exists_cons_of_ne_nil (segments_ne_nil path)
    rw [parts] at reach
    exact below_iff_cons.mpr ⟨first, others, reach⟩
  · intro below
    obtain ⟨first, others, reach⟩ := below_iff_cons.mp below
    have free := wf.follow_free wf.root_live reach
    refine ⟨join (first :: others), ⟨tree, dir⟩, ?_, rfl⟩
    rw [View.subdir?, segments_join _ (List.cons_ne_nil _ _) free]
    exact Option.map_eq_some_iff.mpr ⟨dir, reach, rfl⟩

/-- Going up and down from a live directory stays in the same tree, among live directories. -/
theorem meets_live (wf : tree.WellFormed) (live : tree.IsLive dir) {other : View V}
    (met : (View.mk tree dir).Meets other) : other.tree = tree ∧ tree.IsLive other.handle := by
  induction met with
  | here => exact ⟨rfl, live⟩
  | up _ above ih =>
    obtain ⟨rfl, otherLive⟩ := ih
    obtain ⟨parent, held, rfl⟩ := Option.map_eq_some_iff.mp above
    exact ⟨rfl, wf.parent_live otherLive held⟩
  | down _ listed ih =>
    obtain ⟨rfl, otherLive⟩ := ih
    obtain ⟨child, link, rfl⟩ := View.mem_subdirs_iff.mp listed
    exact ⟨rfl, wf.child_live otherLive link⟩

end WellFormed

/-- In a tree that some commands have built, any handle at all gives a view exactly if it is that of
the root or of a directory that a path leads to. The view is of the directory with this handle, and
all views that are met from it by going up and down are given by their own handles: their slots
stand in the arena and have not been cut off. -/
theorem view?_iff_reached [BEq V] (reachable : tree.Reachable) (handle : Handle) :
    ((tree.view? handle).isSome ↔
        handle = tree.root.handle ∨
          ∃ path view, tree.root.subdir? path = some view ∧ view.handle = handle) ∧
      ∀ view, tree.view? handle = some view →
        view.tree = tree ∧ view.handle = handle ∧
          ∀ other, view.Meets other →
            tree.view? other.handle = some other ∧
              other.handle.index < tree.slots.size ∧ other.slot.detached = false := by
  have wf := reachable.wellFormed
  constructor
  · rw [isSome_view?_iff, wf.exists_subdir?_iff]
    exact wf.isLive_iff_below
  · intro view given
    obtain ⟨live, rfl⟩ := view?_eq_some_iff.mp given
    refine ⟨rfl, rfl, fun other met => ?_⟩
    obtain ⟨rfl, otherLive⟩ := wf.meets_live live met
    exact ⟨view?_eq_some_iff.mpr ⟨otherLive, rfl⟩, otherLive.inside, otherLive.attached⟩

/-- The place of a handle is taken again after the tree has been emptied: the old handle gives no
view, and so no path leads to it, while the new one is that of the directory under the path. -/
theorem view?_iff_reached_after_emptying :
    let commands : List (Command Nat) :=
      [.inside [] (.insert "a.x" 1), .clear, .inside [] (.insert "b.x" 2)]
    let tree := (empty.runAll commands).tree
    (¬ ∃ path view, tree.root.subdir? path = some view ∧ view.handle = ⟨1, 0⟩) ∧
      ∃ path view, tree.root.subdir? path = some view ∧ view.handle = ⟨1, 1⟩ := by
  intro commands tree
  have reachable : tree.Reachable := ⟨commands, rfl⟩
  have old := (view?_iff_reached reachable ⟨1, 0⟩).1
  have new := (view?_iff_reached reachable ⟨1, 1⟩).1
  constructor
  · intro reached
    have given := old.mpr (.inr reached)
    rw [isSome_view?_iff] at given
    exact absurd given (by decide +kernel)
  · have live : tree.IsLive ⟨1, 1⟩ := by decide +kernel
    rw [isSome_view?_iff] at new
    exact (new.mp live).resolve_left (by decide +kernel)

end Tree
end SymbolTree
