import SymbolTree.Proofs.Lifetimes
import SymbolTree.Proofs.Twins

/-!
# The two ways to empty a tree

One can start over, or clear the root. The first leaves a new arena of one slot in which no handle is
live that was live before; the second leaves the old arena, with every slot but the root's cut off.

* `twins_emptied`: both show what is left of the model;
* `view?_startedOver`, `isSome_view?_clearedRoot`: the handles that survive;
* `clears_alike`: nothing but handles tells the two trees apart, whatever is done with them.
-/
namespace SymbolTree.Tree

variable {V : Type} {tree : Tree V} {dir : Handle}

theorem twins_emptied {model : Model V} (agrees : model.Agrees tree) :
    tree.clear.tree.Twins (tree.cleared tree.rootHandle) :=
  ⟨model.clear [], agrees.startOver, agrees.clear (follow_nil tree _)⟩

/-- Starting over moves on to the next generation. -/
theorem view?_startedOver (live : tree.IsLive dir) : tree.clear.tree.view? dir = none := by
  rw [view?_eq_none_iff, clear_eq_bare, isLive_bare_iff]
  rintro rfl
  have current : tree.generation + 1 = tree.generation := live.current
  simp at current

theorem isSome_view?_clearedRoot (wf : tree.WellFormed) (live : tree.IsLive dir) :
    ((tree.cleared tree.rootHandle).view? dir).isSome ↔ dir = tree.rootHandle := by
  rw [isSome_view?_iff, wf.isLive_clear_iff wf.root_live]
  constructor
  · rintro ⟨-, notBelow⟩
    exact (wf.isLive_iff_below.mp live).resolve_right notBelow
  · rintro rfl
    exact ⟨live, wf.root_not_below live⟩

/-- To start over and to clear the root come to the same: any further commands, with the tables in
any order on the way, are answered alike and lead to trees that answer alike. Of the handles that
were live, none outlives a start over, and clearing the root leaves that of the root. -/
theorem clears_alike [BEq V] (arises : tree.Arises) :
    let startedOver := (Command.run tree .clear).tree
    let clearedRoot := (Command.run tree (.inside [] .clear)).tree
    (∀ commands answers answers' last last', startedOver.Evolves commands answers last →
      clearedRoot.Evolves commands answers' last' → answers = answers' ∧ last.Alike last') ∧
    ∀ dir, tree.IsLive dir →
      startedOver.view? dir = none ∧ ((clearedRoot.view? dir).isSome ↔ dir = tree.rootHandle) := by
  obtain ⟨model, agrees⟩ := arises.exists_agrees
  refine ⟨?same, ?handles⟩
  case same =>
    intro commands answers answers' last last' run run'
    obtain ⟨told, twins⟩ := (twins_emptied agrees).evolves run run'
    exact ⟨told, twins.tree_alike⟩
  case handles =>
    intro dir live
    exact ⟨view?_startedOver live, isSome_view?_clearedRoot agrees.wellFormed live⟩

/-- A tree of five slots, one of which had been cut off before, gives arenas of three slots and of
seven. -/
theorem clears_alike_cut_off :
    let first : List (Command Nat) :=
      [.inside [] (.insert "a.b.x" 1), .inside ["a"] .clear, .inside ["a"] (.insert "b.c.x" 2),
        .inside [] (.editAlts fun alts => "D." :: alts)]
    let later : List (Command Nat) := [.inside [] (.insert "a.b.x" 3), .extend [("y", 4)]]
    let tree := (empty.runAll first).tree
    let startedOver := (Command.run tree .clear).tree
    let clearedRoot := (Command.run tree (.inside [] .clear)).tree
    (startedOver.runAll later).result = (clearedRoot.runAll later).result ∧
      (startedOver.runAll later).tree.Alike (clearedRoot.runAll later).tree ∧
      ((startedOver.runAll later).tree.slots.size = 3 ∧
        (clearedRoot.runAll later).tree.slots.size = 7) ∧
      (startedOver.view? ⟨0, 0⟩ = none ∧ (clearedRoot.view? ⟨0, 0⟩).isSome) ∧
      startedOver.view? ⟨4, 0⟩ = none ∧ ¬ (clearedRoot.view? ⟨4, 0⟩).isSome := by
  intro first later tree startedOver clearedRoot
  obtain ⟨same, handles⟩ := clears_alike (Reachable.arises (⟨first, rfl⟩ : tree.Reachable))
  obtain ⟨answers, alike⟩ := same later _ _ _ _ (evolves_runAll startedOver later)
    (evolves_runAll clearedRoot later)
  obtain ⟨rootDead, rootLeft⟩ := handles ⟨0, 0⟩ (by decide +kernel)
  obtain ⟨dead, cleared⟩ := handles ⟨4, 0⟩ (by decide +kernel)
  refine ⟨answers, alike, by decide +kernel, ⟨rootDead, rootLeft.mpr (by decide +kernel)⟩, dead, ?_⟩
  rw [cleared]
  decide +kernel

end SymbolTree.Tree
