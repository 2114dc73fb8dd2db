import SymbolTree.Command

/-!
# Arrangements

A table promises no order. An arrangement of a tree is the same tree with its tables in any order,
and a run may find the tree arranged anew at each of its commands.

What is proved of every tree that arises in this way does not depend on the order in which tables
keep their entries.
-/
namespace SymbolTree

variable {V : Type}

/-- The same directory with its tables in another order. -/
structure Slot.Arranges (slot arranged : Slot V) : Prop where
  segment : arranged.segment = slot.segment
  parent : arranged.parent = slot.parent
  alts : arranged.alts = slot.alts
  detached : arranged.detached = slot.detached
  leaves : arranged.leaves.entries.Perm slot.leaves.entries
  children : arranged.children.entries.Perm slot.children.entries

namespace Tree

/-- The same tree with its tables in another order. -/
structure Arranges (tree arranged : Tree V) : Prop where
  generation : arranged.generation = tree.generation
  size : arranged.slots.size = tree.slots.size
  slot : ∀ dir, (tree.slot dir).Arranges (arranged.slot dir)

/-- From `tree` the commands lead to `later` with these answers, if the tables are arranged in some
way before each command and at the end. -/
inductive Evolves [BEq V] : (tree : Tree V) → List (Command V) → List (Answer V) →
    (later : Tree V) → Prop where
  | done {tree arranged : Tree V} (order : tree.Arranges arranged) : Evolves tree [] [] arranged
  | run {tree arranged later : Tree V} {command : Command V} {commands : List (Command V)}
      {answers : List (Answer V)} (order : tree.Arranges arranged)
      (rest : Evolves (command.run arranged).tree commands answers later) :
      Evolves tree (command :: commands) ((command.run arranged).result :: answers) later

/-- A tree that some commands build from the empty tree, its tables in any order. -/
def Arises [BEq V] (tree : Tree V) : Prop :=
  ∃ commands answers, Evolves empty commands answers tree

end Tree
end SymbolTree
