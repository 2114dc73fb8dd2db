import SymbolTree.Value
import SymbolTree.View.Copy

/-!
# Listings

Tables promise no order. A listing is in the order of enumeration where only one order is possible,
which is where no directory offers a choice; elsewhere it is sorted.
-/
namespace SymbolTree

/-- Sorts entries by their names. -/
def sortByName {α : Type} (entries : List (String × α)) : List (String × α) :=
  entries.mergeSort fun a b => Text.atMost a.1 b.1

def Table.sorted {α : Type} (table : Table α) : List (String × α) := sortByName table.entries

variable {V : Type}

/-- The directories at and below `dir` down to a depth, each before those below it and
subdirectories by their segments. -/
def Tree.outline (tree : Tree V) : (depth : Nat) → (dir : Handle) → List Handle
  | 0, _ => []
  | depth + 1, dir =>
    dir :: ((tree.slot dir).children.sorted.map Prod.snd).flatMap (tree.outline depth)

namespace View

/-- Whether no directory at or below this one has two subdirectories or two entries of its own. -/
def isLinear (view : View V) : Bool :=
  (view.tree.sweepAll [view.handle]).all fun dir =>
    (view.tree.slot dir).children.size ≤ 1 && (view.tree.slot dir).leaves.size ≤ 1

/-- The entries of the view as they are listed. -/
def listing (view : View V) : List (String × V) :=
  if view.isLinear then view.entries else sortByName view.entries

def listedValues [Listed V] (view : View V) : List V :=
  if view.isLinear then view.values else view.values.mergeSort Listed.atMost

/-- The places after a copy that began at `start`, with the copied part as it is listed. -/
def listCopy (view : View V) (copied : Copied V) (start : Nat) : List (String × V) :=
  if copied.misfit.isSome || view.isLinear then copied.places
  else
    let fromStart := copied.places.drop start
    copied.places.take start ++ sortByName (fromStart.take view.size) ++ fromStart.drop view.size

/-- The view and all below it: a directory before its subdirectories, these by their segments. -/
def outline (view : View V) : List (View V) :=
  (view.tree.outline view.tree.slots.size view.handle).map view.moveTo

end View
end SymbolTree
