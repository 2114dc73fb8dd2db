import SymbolTree.Tree

/-!
# Arenas that are trees

The links between slots can be read in both directions and lead to later slots only, so the slots
that have not been cut off form one tree below slot 0.
-/
namespace SymbolTree.Tree

variable {V : Type}

/-- `tree.Below top dir`: one step or more down from `top` there is `dir`. -/
inductive Below (tree : Tree V) (top : Handle) : Handle → Prop where
  | child {segment : String} {dir : Handle} (link : tree.child? top segment = some dir) :
      Below tree top dir
  | deeper {between dir : Handle} {segment : String} (above : Below tree top between)
      (link : tree.child? between segment = some dir) : Below tree top dir

structure WellFormed (tree : Tree V) : Prop where
  /-- Slot 0 is the root. -/
  root : 0 < tree.slots.size ∧ (tree.slot tree.rootHandle).parent = none ∧
    (tree.slot tree.rootHandle).segment = "" ∧ (tree.slot tree.rootHandle).detached = false
  /-- A subdirectory is live, stands in a later slot and knows its segment and its parent. -/
  down : ∀ dir child segment, dir.generation = tree.generation →
    tree.child? dir segment = some child →
      dir.index < child.index ∧ tree.IsLive child ∧
        (tree.slot child).segment = segment ∧ (tree.slot child).parent = some dir
  /-- Every live directory but the root has a live parent that holds it under its segment. -/
  up : ∀ dir, tree.IsLive dir → dir ≠ tree.rootHandle →
    ∃ parent, (tree.slot dir).parent = some parent ∧ tree.IsLive parent ∧
      tree.child? parent (tree.slot dir).segment = some dir
  /-- What has been cut off is empty. -/
  cutOff : ∀ slot ∈ tree.slots, slot.detached = true →
    slot.leaves.entries = [] ∧ slot.children.entries = []
  /-- No separator stands inside a segment. -/
  free : ∀ slot ∈ tree.slots, ∀ segment ∈ slot.children.keys ++ slot.leaves.keys,
    separator ∉ segment.toList

end SymbolTree.Tree
