import SymbolTree.Key
import SymbolTree.Table

/-!
# Trees of directories

A tree keeps its directories in an arena of slots and links them by handles. Slot 0 is the root.
A directory holds two tables, one of entries and one of subdirectories, so one segment may name an
entry and a subdirectory side by side.

* `Tree.slot`: what stands behind a handle;
* `Tree.follow`: the directory that a list of segments leads to;
* `Tree.IsLive`: the handles that still name a directory. Emptying the tree makes every handle
  stale through the generation; cutting off a directory marks its slot and keeps it.
-/
namespace SymbolTree

/-- The name of a directory: the place of its slot, and the generation of the tree that gave the
name out. -/
structure Handle where
  index : Nat
  generation : UInt32
deriving DecidableEq

/-- One directory. -/
structure Slot (V : Type) where
  /-- The segment under which the parent holds this directory; empty for the root. -/
  segment : String
  /-- The directory that holds this one; none for the root. -/
  parent : Option Handle
  leaves : Table V
  children : Table Handle
  /-- The alternatives that name resolution tries in this directory, first to last. -/
  alts : List String
  /-- Whether the directory has been cut off from the tree. -/
  detached : Bool

/-- A new directory is empty and has one alternative, the empty one. -/
def Slot.fresh {V : Type} (segment : String) (parent : Option Handle) : Slot V :=
  ⟨segment, parent, .empty, .empty, [""], false⟩

/-- What stands outside the arena: nothing, and not part of the tree. -/
def Slot.outside {V : Type} : Slot V := ⟨"", none, .empty, .empty, [], true⟩

/-- An arena of directories. -/
structure Tree (V : Type) where
  slots : Array (Slot V)
  /-- How often the tree has been emptied as a whole; it wraps around. -/
  generation : UInt32

namespace Tree

variable {V : Type}

/-- The tree with an empty root and nothing else. -/
def empty : Tree V := ⟨#[.fresh "" none], 0⟩

/-- The handle of the root. -/
def rootHandle (tree : Tree V) : Handle := ⟨0, tree.generation⟩

def slot (tree : Tree V) (handle : Handle) : Slot V := tree.slots.getD handle.index .outside

/-- A handle names a directory of the tree if it points into the arena, was given out in the
present generation and leads to a slot that has not been cut off. -/
def IsLive (tree : Tree V) (handle : Handle) : Prop :=
  handle.index < tree.slots.size ∧ handle.generation = tree.generation ∧
    (tree.slot handle).detached = false

instance (tree : Tree V) (handle : Handle) : Decidable (tree.IsLive handle) :=
  inferInstanceAs (Decidable (_ ∧ _ ∧ _))

def child? (tree : Tree V) (handle : Handle) (segment : String) : Option Handle :=
  (tree.slot handle).children.get? segment

/-- The directory that the segments lead to from `start`, each taken as a subdirectory. -/
def follow (tree : Tree V) (start : Handle) (path : List String) : Option Handle :=
  path.foldlM tree.child? start

/-- Changes one slot and leaves the others as they are. -/
def modify (tree : Tree V) (handle : Handle) (change : Slot V → Slot V) : Tree V :=
  { tree with slots := tree.slots.modify handle.index change }

@[simp] theorem follow_nil (tree : Tree V) (start : Handle) :
    tree.follow start [] = some start := rfl

@[simp] theorem follow_cons (tree : Tree V) (start : Handle) (segment : String)
    (path : List String) :
    tree.follow start (segment :: path) =
      (tree.child? start segment).bind (tree.follow · path) := by
  simp only [follow, List.foldlM_cons]; rfl

theorem follow_append (tree : Tree V) (start : Handle) (path more : List String) :
    tree.follow start (path ++ more) = (tree.follow start path).bind (tree.follow · more) := by
  simp only [follow, List.foldlM_append]; rfl

@[simp] theorem generation_modify (tree : Tree V) (handle : Handle) (change : Slot V → Slot V) :
    (tree.modify handle change).generation = tree.generation := rfl

@[simp] theorem size_modify (tree : Tree V) (handle : Handle) (change : Slot V → Slot V) :
    (tree.modify handle change).slots.size = tree.slots.size := by
  simp [modify]

@[grind =] theorem slot_modify (tree : Tree V) (handle other : Handle) (change : Slot V → Slot V) :
    (tree.modify handle change).slot other =
      if other.index = handle.index ∧ handle.index < tree.slots.size then
        change (tree.slot other)
      else tree.slot other := by
  simp only [slot, modify, Array.getD_eq_getD_getElem?, Array.getElem?_modify]
  by_cases h : handle.index = other.index
  · by_cases inside : other.index < tree.slots.size <;> simp [h, inside]
  · simp [h, Ne.symm h]

end Tree
end SymbolTree
