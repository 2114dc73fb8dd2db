import SymbolTree.Failure
import SymbolTree.Tree.Sweep

/-!
# Views

A view is a tree seen from one of its directories: names given to it start there.

* `View.get?` and `View.get` look a name up; the second tells which segment is missing;
* `View.subdir?`, `View.subdirs`, `View.parent?` move to another directory;
* `View.path` is the name of the directory as seen from the root;
* `View.size`, `View.isEmpty` regard everything at and below the directory.
-/
namespace SymbolTree

/-- A tree and the directory from which it is seen. -/
structure View (V : Type) where
  tree : Tree V
  handle : Handle

namespace Tree

variable {V : Type}

def root (tree : Tree V) : View V := ⟨tree, tree.rootHandle⟩

/-- The view that a handle gives, if the handle is live. -/
def view? (tree : Tree V) (handle : Handle) : Option (View V) :=
  if tree.IsLive handle then some ⟨tree, handle⟩ else none

/-- Walks the given directories from `start` on and looks for `leaf` at the end; the first segment
that is missing is the error. -/
def lookup (tree : Tree V) (start : Handle) (leaf : String) : List String → Except String V
  | [] =>
    match (tree.slot start).leaves.get? leaf with
    | some value => .ok value
    | none => .error leaf
  | dir :: dirs =>
    match tree.child? start dir with
    | some child => tree.lookup child leaf dirs
    | none => .error dir

/-- The handles from a directory up to the root, in at most `steps` steps. -/
def lineage (tree : Tree V) : (steps : Nat) → Handle → List Handle
  | 0, _ => []
  | steps + 1, handle =>
    handle :: match (tree.slot handle).parent with
      | some parent => tree.lineage steps parent
      | none => []

/-- Whether the tree holds no entry. Directories that were cut off hold none, so the whole arena
can be scanned. -/
def isEmpty (tree : Tree V) : Bool := tree.slots.all (·.leaves.isEmpty)

end Tree

namespace View

variable {V : Type}

def slot (view : View V) : Slot V := view.tree.slot view.handle

/-- The same tree seen from another directory. -/
def moveTo (view : View V) (handle : Handle) : View V := { view with handle }

def segment (view : View V) : String := view.slot.segment

def alts (view : View V) : List String := view.slot.alts

/-- The entries that the directory itself holds. -/
def leaves (view : View V) : Table V := view.slot.leaves

def get? (view : View V) (name : String) : Option V :=
  let key := Key.parse name
  (view.tree.follow view.handle key.dirs).bind fun dir =>
    (view.tree.slot dir).leaves.get? key.leaf

def get (view : View V) (name : String) : Except Failure V :=
  let key := Key.parse name
  (view.tree.lookup view.handle key.leaf key.dirs).mapError (.keyNotFound name)

def contains (view : View V) (name : String) : Bool := (view.get? name).isSome

/-- Whether `name` has an entry with a value that equals `value`. A value need not equal itself. -/
def holds [BEq V] (view : View V) (name : String) (value : V) : Bool :=
  (view.get? name).any (· == value)

/-- The directory under a path. Every segment is a directory, the last one too. -/
def subdir? (view : View V) (path : String) : Option (View V) :=
  (view.tree.follow view.handle (segments path)).map view.moveTo

/-- The directories directly below, with the segments they are held under. -/
def subdirs (view : View V) : List (String × View V) :=
  view.slot.children.entries.map fun (segment, child) => (segment, view.moveTo child)

def parent? (view : View V) : Option (View V) := view.slot.parent.map view.moveTo

/-- The view, its parent, and so on up to the root. -/
def lineage (view : View V) : List (View V) :=
  (view.tree.lineage view.tree.slots.size view.handle).map view.moveTo

/-- The parent, its parent, and so on up to the root. -/
def ancestors (view : View V) : List (View V) := view.lineage.tail

/-- The segments from the root down to the directory; the root adds none. -/
def path (view : View V) : String :=
  join ((view.lineage.filter (·.slot.parent.isSome)).map segment).reverse

/-- How many entries there are at and below the directory. -/
def size (view : View V) : Nat :=
  (view.tree.sweepAll [view.handle]).foldr
    (fun dir count => (view.tree.slot dir).leaves.size + count) 0

/-- Whether there is no entry at or below the directory: a sweep that halts at the first directory
with an entry has nothing left to do. -/
def isEmpty (view : View V) : Bool :=
  (view.tree.sweep (!·.leaves.isEmpty) view.tree.slots.size [view.handle]).pending.isEmpty

end View

/-- The value of a name that has to have one; what is said if it has none is the error. -/
def Tree.demand {V : Type} (tree : Tree V) (name : String) : Except String V :=
  (tree.root.get name).mapError Failure.message

end SymbolTree
