import SymbolTree.Proofs.Access

/-!
# The arena of a reachable tree

Whatever commands have built a tree, its arena is one tree below slot 0, and no operation goes
outside it (`Tree.InBounds`).
-/
namespace SymbolTree.Tree

variable {V : Type} [BEq V] {tree : Tree V}

/-- Every operation on the tree, and every one at a live directory, has the outcome that it has
with all accesses to the arena checked. -/
structure InBounds (tree : Tree V) : Prop where
  run : ∀ command, Checked.run tree command = some (command.run tree)
  apply : ∀ dir, tree.IsLive dir →
    ∀ change, Checked.apply ⟨tree, dir⟩ change = some (Change.apply ⟨tree, dir⟩ change)
  slot : ∀ dir, tree.IsLive dir → tree.at? dir = some (tree.slot dir)
  lineage : ∀ dir, tree.IsLive dir →
    Checked.lineage tree tree.slots.size dir = some (tree.lineage tree.slots.size dir)
  path : ∀ dir, tree.IsLive dir → Checked.path ⟨tree, dir⟩ = some (View.mk tree dir).path
  get? : ∀ dir, tree.IsLive dir →
    ∀ name, Checked.get? ⟨tree, dir⟩ name = some ((View.mk tree dir).get? name)
  get : ∀ dir, tree.IsLive dir →
    ∀ name, Checked.get ⟨tree, dir⟩ name = some ((View.mk tree dir).get name)
  subdir? : ∀ dir, tree.IsLive dir →
    ∀ path, Checked.subdir? ⟨tree, dir⟩ path = some ((View.mk tree dir).subdir? path)
  size : ∀ dir, tree.IsLive dir → Checked.size ⟨tree, dir⟩ = some (View.mk tree dir).size
  isEmpty : ∀ dir, tree.IsLive dir → Checked.isEmpty ⟨tree, dir⟩ = some (View.mk tree dir).isEmpty
  entries : ∀ dir, tree.IsLive dir → Checked.entries ⟨tree, dir⟩ = some (View.mk tree dir).entries
  firstHit? : ∀ dir, tree.IsLive dir → ∀ scopes name,
    Checked.firstHit? ⟨tree, dir⟩ scopes name = some ((View.mk tree dir).firstHit? scopes name)

theorem WellFormed.inBounds (wf : tree.WellFormed) : tree.InBounds where
  run := Checked.run_eq wf
  apply _ live := Checked.apply_eq wf live
  slot _ live := Checked.at?_eq live.inside
  lineage _ live := Checked.lineage_eq wf live _
  path _ live := Checked.path_eq wf live
  get? _ live := Checked.get?_eq wf live
  get _ live := Checked.get_eq wf live
  subdir? _ live := Checked.subdir?_eq wf live
  size _ live := Checked.size_eq wf live
  isEmpty _ live := Checked.isEmpty_eq wf live
  entries _ live := Checked.entries_eq wf live
  firstHit? _ live := Checked.firstHit?_eq wf live

/-- Whatever commands have built a tree, its arena is in order. No slot is a child of two directories,
or of one under two segments; the root and what is below it are live, and nothing else is; and no
operation, here or at a live directory, goes to a slot that is not there. -/
theorem reachable_arena (reachable : tree.Reachable) :
    tree.WellFormed ∧
      (∀ dir other child child' : Handle, ∀ segment segment' : String,
        dir.generation = tree.generation → other.generation = tree.generation →
          tree.child? dir segment = some child → tree.child? other segment' = some child' →
            child.index = child'.index → dir = other ∧ segment = segment') ∧
      (∀ dir, tree.IsLive dir ↔ dir = tree.rootHandle ∨ tree.Below tree.rootHandle dir) ∧
      tree.InBounds := by
  have wf := reachable.wellFormed
  refine ⟨wf, ?_, fun _ => wf.isLive_iff_below, wf.inBounds⟩
  intro dir other child child' segment segment' current current' link link' place
  exact wf.holder_unique current current' link link' place

/-- An entry two directories deep, and the outer directory emptied: the inner one is cut off. -/
theorem reachable_arena_after_clear :
    let commands : List (Command Nat) :=
      [.inside [] (.insert "a.b.c" 1), .inside ["a"] .clear, .inside [] (.insert "a.b" 2)]
    let tree := (empty.runAll commands).tree
    tree.WellFormed ∧ ¬ tree.Below tree.rootHandle ⟨2, 0⟩ ∧ tree.InBounds := by
  intro commands tree
  have arena := reachable_arena (⟨commands, rfl⟩ : tree.Reachable)
  have dead : ¬ tree.IsLive ⟨2, 0⟩ := by decide +kernel
  refine ⟨arena.1, ?_, arena.2.2.2⟩
  intro below
  exact dead ((arena.2.2.1 _).mpr (.inr below))

end SymbolTree.Tree
