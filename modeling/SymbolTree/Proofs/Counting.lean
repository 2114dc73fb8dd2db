import Mathlib.Algebra.GroupWithZero.Nat
import Mathlib.Tactic.TFAE
import SymbolTree.Proofs.Iteration

/-!
# Counting entries

Whether there is an entry can be asked of the whole arena, of a sweep that ends at the first entry,
of a count, and of an enumeration.

* `size_eq_own_add`: a directory counts its own entries and what its subdirectories count;
* `size_eq_zero_iff`, `calls_none_iff`: no count and no call of a cursor without an entry;
* `emptiness_tfae`: all of these agree, at the root and in every directory.
-/
namespace SymbolTree.View

variable {V : Type} {tree : Tree V} {dir : Handle}

/-- The count of a directory is that of its own entries and those of its subdirectories. -/
theorem size_eq_own_add (wf : tree.WellFormed) (live : tree.IsLive dir) :
    (View.mk tree dir).size =
      (View.mk tree dir).leaves.size + ((View.mk tree dir).subdirs.map (·.2.size)).sum := by
  have each : ∀ entry ∈ (tree.slot dir).children.entries,
      (tree.listed entry.2 ("" ++ entry.1 ++ ".")).length = (View.mk tree entry.2).size := by
    rintro ⟨segment, child⟩ isChild
    obtain ⟨-, childLive, -⟩ := wf.mem_children live isChild
    exact (size_eq_length wf childLive _).symm
  calc (View.mk tree dir).size
      = (tree.listed dir "").length := size_eq_length wf live ""
    _ = ((tree.slot dir).children.entries.map fun entry =>
          (tree.listed entry.2 ("" ++ entry.1 ++ ".")).length).sum +
        (tree.slot dir).leaves.entries.length := by
      rw [wf.listed_eq live, List.length_append, List.length_flatMap, List.length_map]
    _ = ((tree.slot dir).children.entries.map fun entry => (View.mk tree entry.2).size).sum +
        (tree.slot dir).leaves.entries.length := by
      rw [List.map_congr_left each]
    _ = _ := by
      rw [subdirs, List.map_map]
      exact Nat.add_comm _ _

theorem size_eq_zero_iff (wf : tree.WellFormed) (live : tree.IsLive dir) :
    (View.mk tree dir).size = 0 ↔ (View.mk tree dir).entries = [] := by
  rw [← length_entries wf live, List.length_eq_zero_iff]

/-- If the first call of a cursor gives no entry, none does. -/
theorem calls_none_iff (wf : tree.WellFormed) (live : tree.IsLive dir) :
    (∀ calls, ((View.mk tree dir).cursor.after calls).next.1 = none) ↔
      (View.mk tree dir).entries = [] := by
  rw [entries_eq wf live]
  simp only [next_after_cursor wf live]
  constructor
  · intro none
    exact List.head?_eq_none_iff.mp (List.head?_eq_getElem?.trans (none 0))
  · intro empty calls
    change (View.mk tree dir).enumeration[calls]? = none
    rw [empty, List.getElem?_nil]

/-- The sweep with an early end, the count and the enumeration of a directory. -/
theorem emptiness_of_live (wf : tree.WellFormed) (live : tree.IsLive dir) :
    [(View.mk tree dir).isEmpty = true, (View.mk tree dir).size = 0,
      (View.mk tree dir).entries = [],
      ∀ calls, ((View.mk tree dir).cursor.after calls).next.1 = none].TFAE := by
  tfae_have 1 ↔ 3 := isEmpty_iff wf live
  tfae_have 2 ↔ 3 := size_eq_zero_iff wf live
  tfae_have 4 ↔ 3 := calls_none_iff wf live
  tfae_finish

/-- In a tree that some commands have built, its tables in any order, the scan of the whole arena,
slots that have been cut off included, finds an entry if and only if the root has one: the sweep
from the root, the count, the enumeration and the calls of a cursor all tell the same. The last four
agree in every directory too, and what a directory counts is its own entries and what its
subdirectories count. -/
theorem emptiness_tfae [BEq V] (arises : tree.Arises) :
    [tree.isEmpty = true, tree.root.isEmpty = true, tree.root.size = 0, tree.root.entries = [],
      ∀ calls, (tree.root.cursor.after calls).next.1 = none].TFAE ∧
    ∀ dir, tree.IsLive dir →
      let view : View V := ⟨tree, dir⟩
      [view.isEmpty = true, view.size = 0, view.entries = [],
        ∀ calls, (view.cursor.after calls).next.1 = none].TFAE ∧
      view.size = view.leaves.size + (view.subdirs.map (·.2.size)).sum := by
  have wf := arises.wellFormed
  constructor
  · have scan : tree.isEmpty = true ↔ tree.root.entries = [] := wf.isEmpty_iff
    have root := emptiness_of_live wf wf.root_live
    exact List.tfae_cons_of_mem (b := tree.root.entries = []) (by simp) |>.mpr ⟨scan, root⟩
  · intro dir live view
    exact ⟨emptiness_of_live wf live, size_eq_own_add wf live⟩

/-- Directories without an entry at every depth, one of them cut off after it had one, and a
directory with an entry beside them. -/
theorem emptiness_tfae_cut_off :
    let commands : List (Command Nat) :=
      [.extend [("a.b.x", 1), ("a.c.d.x", 2), ("e.x", 3)], .inside ["a.b"] (.erase "x"),
        .inside ["a.c"] .clear]
    let tree := (Tree.empty.runAll commands).tree
    let view : View Nat := ⟨tree, ⟨1, 0⟩⟩
    tree.isEmpty = false ∧ tree.root.isEmpty = false ∧ tree.root.size = 1 ∧
      view.isEmpty = true ∧ view.entries = [] ∧ view.subdirs.length = 2 := by
  intro commands tree view
  have arises : tree.Arises := Tree.Reachable.arises ⟨commands, rfl⟩
  obtain ⟨root, each⟩ := emptiness_tfae arises
  obtain ⟨inner, -⟩ := each ⟨1, 0⟩ (by decide +kernel)
  have one : tree.root.size = 1 := by decide +kernel
  have none : view.size = 0 := by decide +kernel
  have scan : ¬ tree.isEmpty = true := mt (root.out 0 2).mp (by omega)
  have swept : ¬ tree.root.isEmpty = true := mt (root.out 1 2).mp (by omega)
  refine ⟨by simpa using scan, by simpa using swept, one, ?_, ?_, by decide +kernel⟩
  · exact (inner.out 0 1).mpr none
  · exact (inner.out 2 1).mpr none

end SymbolTree.View
