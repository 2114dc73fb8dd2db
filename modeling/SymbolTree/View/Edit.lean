import SymbolTree.Outcome
import SymbolTree.View

/-!
# Edits

Changing a tree through a view.

* `View.insert` makes the directories that are missing on the way, outermost first;
* `View.erase` takes an entry out and leaves directories in place, also empty ones;
* `View.clear` empties a directory and cuts off all below it; the slots stay in the arena;
* `Tree.clear` starts over with a new arena, in which no earlier handle is live.
-/
namespace SymbolTree

variable {V : Type}

/-- An empty directory keeps its place in the tree and its alternatives. -/
def Slot.emptied (slot : Slot V) : Slot V := { slot with leaves := .empty, children := .empty }

/-- A directory that has been cut off is empty and marked. -/
def Slot.cutOff (slot : Slot V) : Slot V := { slot.emptied with detached := true }

namespace Tree

/-- The subdirectory of `parent` under `segment`. If there is none, it is made in the next slot. -/
def ensureChild (tree : Tree V) (parent : Handle) (segment : String) : Outcome V Handle :=
  match tree.child? parent segment with
  | some child => .pure child tree
  | none =>
    let child : Handle := ⟨tree.slots.size, tree.generation⟩
    let grown := { tree with slots := tree.slots.push (.fresh segment (some parent)) }
    { result := child
      tree := grown.modify parent fun slot =>
        { slot with children := slot.children.insert segment child }
      events := [.created segment parent.index child.index] }

/-- The directory that the segments lead to, with every directory on the way made as needed. -/
def ensureDirs (tree : Tree V) (start : Handle) : List String → Outcome V Handle
  | [] => .pure start tree
  | segment :: path =>
    (tree.ensureChild start segment).andThen fun child tree => tree.ensureDirs child path

/-- An empty tree of the next generation. The root keeps its alternatives. -/
def clear (tree : Tree V) : Outcome V Unit :=
  let generation := tree.generation + 1
  { result := ()
    tree := ⟨#[{ Slot.fresh "" none with alts := (tree.slot tree.rootHandle).alts }], generation⟩
    events := [.emptied (tree.slots.size - 1) generation] }

end Tree

namespace View

/-- Puts `value` under `name`; the answer is what stood there before. -/
def insert (view : View V) (name : String) (value : V) : Outcome V (Option V) :=
  let key := Key.parse name
  (view.tree.ensureDirs view.handle key.dirs).andThen fun dir tree =>
    .pure ((tree.slot dir).leaves.get? key.leaf) <| tree.modify dir fun slot =>
      { slot with leaves := slot.leaves.insert key.leaf value }

/-- Takes the entry under `name` out; the answer is its value. -/
def erase (view : View V) (name : String) : Outcome V (Option V) :=
  let key := Key.parse name
  match view.tree.follow view.handle key.dirs with
  | none => .pure none view.tree
  | some dir =>
    .pure ((view.tree.slot dir).leaves.get? key.leaf) <| view.tree.modify dir fun slot =>
      { slot with leaves := slot.leaves.erase key.leaf }

/-- Takes the entry under `name` out if its value equals `value`. -/
def eraseIf [BEq V] (view : View V) (name : String) (value : V) : Outcome V Bool :=
  if view.holds name value then (view.erase name).map Option.isSome
  else .pure false view.tree

/-- Empties the directory and cuts off every directory below it. -/
def clear (view : View V) : Outcome V Unit :=
  let below := view.tree.sweepAll view.slot.children.values
  let pruned := below.foldl (fun tree dir => tree.modify dir Slot.cutOff) view.tree
  { result := ()
    tree := pruned.modify view.handle Slot.emptied
    events := [.cleared view.handle.index below.length] }

/-- Changes the directory's alternatives; the answer is the new list. -/
def editAlts (view : View V) (edit : List String → List String) : Outcome V (List String) :=
  let alts := edit view.alts
  .pure alts (view.tree.modify view.handle fun slot => { slot with alts })

end View

namespace Tree

/-- Inserts the entries one after the other. -/
def extend (tree : Tree V) : List (String × V) → Outcome V Unit
  | [] => .pure () tree
  | (name, value) :: entries =>
    (tree.root.insert name value).andThen fun _ tree => tree.extend entries

/-- The tree of the given entries; of several under one name the last counts. -/
def ofList (entries : List (String × V)) : Outcome V Unit := empty.extend entries

end Tree
end SymbolTree
