import SymbolTree.Tree

/-!
# Sweeps

A sweep takes directories from a worklist and puts their subdirectories on it. It ends when the
list is empty or when it meets a directory that it was told to halt at.

The bound on its steps is the size of the arena. In a tree every directory has one parent, so no
directory comes onto the list twice and the bound is never what ends a sweep; on an arena that is
no tree it is.
-/
namespace SymbolTree

structure Sweep where
  /-- The directories taken from the list, in order. -/
  visited : List Handle
  /-- What was on the list when the sweep ended, next one first. -/
  pending : List Handle

namespace Tree

variable {V : Type}

/-- A sweep of at most `steps` steps from the worklist `pending`. -/
def sweep (tree : Tree V) (halt : Slot V → Bool) : (steps : Nat) → (pending : List Handle) → Sweep
  | 0, pending => ⟨[], pending⟩
  | _ + 1, [] => ⟨[], []⟩
  | steps + 1, handle :: pending =>
    if halt (tree.slot handle) then ⟨[], handle :: pending⟩
    else
      let later := tree.sweep halt steps ((tree.slot handle).children.values ++ pending)
      { later with visited := handle :: later.visited }

/-- The directories that a sweep without a halt meets from the given ones on. -/
def sweepAll (tree : Tree V) (start : List Handle) : List Handle :=
  (tree.sweep (fun _ => false) tree.slots.size start).visited

end Tree
end SymbolTree
