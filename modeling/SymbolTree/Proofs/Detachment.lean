import SymbolTree.Proofs.Arrangements
import SymbolTree.Proofs.Directories

/-!
# What clearing a directory does

Clearing a directory empties it, cuts off what is below it, and touches no other slot.

* `detached_clear_iff`: what is cut off;
* `events_clear`: how many directories are reported;
* `size_clear_add`: the entries that go;
* `clear_cleared`: clearing once more does nothing;
* `clear_exact`: all of this for every tree that arises.
-/
namespace SymbolTree

variable {V : Type} {tree : Tree V} {top dir : Handle} {path : List String}

namespace Tree

theorem sweepAll_nil (tree : Tree V) : tree.sweepAll [] = [] := by
  unfold sweepAll
  cases tree.slots.size <;> rfl

namespace WellFormed

/-- Cut off afterwards is what was cut off before, and what was below the directory. -/
theorem detached_clear_iff (wf : tree.WellFormed) (topLive : tree.IsLive top)
    (current : dir.generation = tree.generation) :
    ((tree.cleared top).slot dir).detached = true ↔
      (tree.slot dir).detached = true ∨ tree.Below top dir := by
  by_cases self : dir = top
  · subst self
    have notBelow : ¬ tree.Below dir dir := fun h => Nat.lt_irrefl _ (wf.below_later topLive h)
    simp [wf.slot_clear_self topLive, Slot.emptied, notBelow]
  · by_cases isBelow : tree.Below top dir
    · simp [wf.slot_clear_below topLive isBelow, Slot.cutOff, isBelow]
    · simp [wf.slot_clear_other topLive current self isBelow, isBelow]

/-- The event counts every directory below the cleared one, and each once. -/
theorem events_clear (wf : tree.WellFormed) (topLive : tree.IsLive top) :
    ∃ below : List Handle, below.Nodup ∧ (∀ other, other ∈ below ↔ tree.Below top other) ∧
      (View.mk tree top).clear.events = [.cleared top.index below.length] :=
  ⟨tree.sweepAll (tree.slot top).children.values, (wf.nodup_sweepAll_children topLive).2,
    fun _ => wf.mem_sweepAll_children topLive, rfl⟩

/-- In a directory that has just been cleared there is nothing left to clear. -/
theorem clear_cleared (wf : tree.WellFormed) (topLive : tree.IsLive top) :
    (View.mk (tree.cleared top) top).clear =
      ⟨(), tree.cleared top, [.cleared top.index 0]⟩ := by
  have emptied := wf.slot_clear_self topLive
  have noChild : ((tree.cleared top).slot top).children.values = [] := by
    rw [emptied]
    rfl
  have again : (tree.cleared top).modify top Slot.emptied = tree.cleared top := by
    apply modify_eq_self
    rw [emptied]
    rfl
  simp [View.clear, View.slot, noChild, sweepAll_nil, again]

end WellFormed
end Tree

/-- The entries of the whole tree are those that are left and those that the directory held. -/
theorem Model.Agrees.size_clear_add {model : Model V} (agrees : model.Agrees tree)
    (reach : tree.follow tree.rootHandle path = some dir) :
    (tree.cleared dir).root.size + (View.mk tree dir).size = tree.root.size := by
  have wf := agrees.wellFormed
  have left := (agrees.clear reach).shows.size
  have held := (View.reads_of_agrees agrees reach).size
  simp only [← View.isUnder_eq_covers wf reach] at held
  have parts := List.length_eq_length_filter_add (l := model.values.entries)
    fun entry => Model.isUnder path entry.1
  calc (tree.cleared dir).root.size + (View.mk tree dir).size
      = (model.values.entries.filter fun entry => !Model.isUnder path entry.1).length +
        (model.values.entries.filter fun entry => Model.isUnder path entry.1).length := by
        rw [left, held]
        rfl
    _ = model.values.size := by rw [Table.size, parts, Nat.add_comm]
    _ = tree.root.size := agrees.shows.size.symm

/-- In a tree that some commands have built, its tables in any order, clearing a live directory
empties its tables and keeps all else of it; it empties the tables of what is below the directory
and marks exactly that as cut off; and it leaves every other slot of the arena as it was, those that
had been cut off before included. The one event counts what has been cut off. The arena keeps its
size and its generation, the tree loses as many entries as the directory had, every handle stays
live that is not below the directory, and clearing it once more changes nothing. -/
theorem Tree.clear_exact [BEq V] (arises : tree.Arises) (live : tree.IsLive dir) :
    let view : View V := ⟨tree, dir⟩
    let later := view.clear.tree
    later.slot dir = { tree.slot dir with leaves := .empty, children := .empty } ∧
      (∀ other, tree.Below dir other →
        later.slot other =
          { tree.slot other with leaves := .empty, children := .empty, detached := true }) ∧
      (∀ other, other.generation = tree.generation → other ≠ dir → ¬ tree.Below dir other →
        later.slot other = tree.slot other) ∧
      (∀ other, other.generation = tree.generation →
        ((tree.slot other).detached = false ∧ (later.slot other).detached = true ↔
          tree.Below dir other)) ∧
      (∃ below : List Handle, below.Nodup ∧ (∀ other, other ∈ below ↔ tree.Below dir other) ∧
        view.clear.events = [.cleared dir.index below.length]) ∧
      later.slots.size = tree.slots.size ∧ later.generation = tree.generation ∧
      later.root.size + view.size = tree.root.size ∧
      (∀ other, later.IsLive other ↔ tree.IsLive other ∧ ¬ tree.Below dir other) ∧
      (View.mk later dir).clear = ⟨(), later, [.cleared dir.index 0]⟩ := by
  intro view later
  obtain ⟨model, agrees⟩ := arises.exists_agrees
  have wf := agrees.wellFormed
  obtain ⟨path, reach⟩ := wf.exists_way live
  refine ⟨wf.slot_clear_self live, fun _ => wf.slot_clear_below live,
    fun _ => wf.slot_clear_other live, ?marked, wf.events_clear live, Tree.size_cleared tree dir,
    Tree.generation_cleared tree dir, agrees.size_clear_add reach,
    fun _ => wf.isLive_clear_iff live, wf.clear_cleared live⟩
  case marked =>
    intro other current
    have after := wf.detached_clear_iff live current
    constructor
    · rintro ⟨attached, cut⟩
      have notBefore : ¬ (tree.slot other).detached = true := by simp [attached]
      exact (after.mp cut).resolve_left notBefore
    · intro below
      exact ⟨(wf.below_live live below).attached, after.mpr (.inr below)⟩

/-- A directory is cut off and made again before the one above it is cleared: three directories go,
the one that had gone before is not among them, and of three entries one is left. -/
theorem Tree.clear_exact_made_again :
    let commands : List (Command Nat) :=
      [.extend [("a.b.x", 1), ("y", 2)], .inside ["a"] .clear,
        .extend [("a.b.c.x", 3), ("a.d.x", 4)]]
    let tree := (Tree.empty.runAll commands).tree
    let view : View Nat := ⟨tree, ⟨1, 0⟩⟩
    tree.IsLive ⟨1, 0⟩ ∧ (¬ tree.Below ⟨1, 0⟩ ⟨2, 0⟩ ∧ tree.Below ⟨1, 0⟩ ⟨4, 0⟩) ∧
      view.clear.events = [.cleared 1 3] ∧ view.clear.tree.slot ⟨2, 0⟩ = tree.slot ⟨2, 0⟩ ∧
      view.clear.tree.root.size = 1 ∧
      (View.mk view.clear.tree ⟨1, 0⟩).clear.events = [.cleared 1 0] := by
  intro commands tree view
  have live : tree.IsLive ⟨1, 0⟩ := by decide +kernel
  obtain ⟨-, -, other, marked, -, -, -, size, -, again⟩ :=
    Tree.clear_exact (Tree.Reachable.arises (⟨commands, rfl⟩ : tree.Reachable)) live
  have gone : ¬ tree.Below ⟨1, 0⟩ ⟨2, 0⟩ := (marked _ rfl).not.mp (by decide +kernel)
  have inner : tree.Below ⟨1, 0⟩ ⟨4, 0⟩ := (marked _ rfl).mp (by decide +kernel)
  have held : view.size = 2 := by decide +kernel
  have all : tree.root.size = 3 := by decide +kernel
  refine ⟨live, ⟨gone, inner⟩, by decide +kernel, other _ rfl (by decide) gone, ?_, ?_⟩
  · rw [held, all] at size
    exact Nat.add_right_cancel size
  · exact congrArg Outcome.events again

end SymbolTree
