import SymbolTree.View.Cursor

/-!
# Enumeration by recursion

The entries at and below a directory, by recursion over its subdirectories: first theirs, one
subdirectory after the other, then the directory's own. The tables of each directory are read in
their order.
-/
namespace SymbolTree

variable {V : Type}

/-- The entries down to a depth, each name with `lead` in front. -/
def Tree.enumerate (tree : Tree V) : (depth : Nat) → (dir : Handle) → (lead : String) →
    List (String × V)
  | 0, _, _ => []
  | depth + 1, dir, lead =>
    ((tree.slot dir).children.entries.flatMap fun (segment, child) =>
      tree.enumerate depth child (lead ++ segment ++ ".")) ++
    (tree.slot dir).leaves.entries.map fun (segment, value) => (lead ++ segment, value)

/-- No way down a tree is longer than the arena. -/
def View.enumeration (view : View V) : List (String × V) :=
  view.tree.enumerate view.tree.slots.size view.handle ""

end SymbolTree
