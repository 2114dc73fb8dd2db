import SymbolTree.Command
import SymbolTree.Resolution
import SymbolTree.View.Copy

/-!
# Checked operations

The operations on a tree once more, with every access to the arena checked and with a subtraction
that does not stop at zero. An access outside the arena, and a number below zero, leave an operation
without an outcome. What an operation answers when all accesses are inside is not checked but
computed as before.

Absence inside the tree is no fault: a missing subdirectory is an answer.
-/
namespace SymbolTree

variable {V : Type}

namespace Tree

/-- The slot behind a handle, if the handle points into the arena. -/
def at? (tree : Tree V) (handle : Handle) : Option (Slot V) := tree.slots[handle.index]?

/-- Changes the slot behind a handle, if the handle points into the arena. -/
def change? (tree : Tree V) (handle : Handle) (change : Slot V → Slot V) : Option (Tree V) :=
  if handle.index < tree.slots.size then some (tree.modify handle change) else none

end Tree

namespace Checked

/-- A difference of sizes, if it is one. -/
def minus (total part : Nat) : Option Nat := if part ≤ total then some (total - part) else none

/-! ## Walks -/

def child? (tree : Tree V) (dir : Handle) (segment : String) : Option (Option Handle) := do
  let slot ← tree.at? dir
  return slot.children.get? segment

def follow (tree : Tree V) (start : Handle) : List String → Option (Option Handle)
  | [] => some (some start)
  | segment :: path => do
    match ← child? tree start segment with
    | some child => follow tree child path
    | none => return none

def lookup (tree : Tree V) (start : Handle) (leaf : String) : List String → Option (Except String V)
  | [] => do
    let slot ← tree.at? start
    return match slot.leaves.get? leaf with
      | some value => .ok value
      | none => .error leaf
  | dir :: dirs => do
    match ← child? tree start dir with
    | some child => lookup tree child leaf dirs
    | none => return .error dir

def lineage (tree : Tree V) : (steps : Nat) → Handle → Option (List Handle)
  | 0, _ => some []
  | steps + 1, handle => do
    let slot ← tree.at? handle
    match slot.parent with
    | some parent => return handle :: (← lineage tree steps parent)
    | none => return [handle]

def sweep (tree : Tree V) (halt : Slot V → Bool) : (steps : Nat) → List Handle → Option Sweep
  | 0, pending => some ⟨[], pending⟩
  | _ + 1, [] => some ⟨[], []⟩
  | steps + 1, handle :: pending => do
    let slot ← tree.at? handle
    if halt slot then return ⟨[], handle :: pending⟩
    let later ← sweep tree halt steps (slot.children.values ++ pending)
    return { later with visited := handle :: later.visited }

/-! ## Questions -/

def get? (view : View V) (name : String) : Option (Option V) := do
  let key := Key.parse name
  match ← follow view.tree view.handle key.dirs with
  | some dir => return (← view.tree.at? dir).leaves.get? key.leaf
  | none => return none

def get (view : View V) (name : String) : Option (Except Failure V) := do
  let key := Key.parse name
  let found ← lookup view.tree view.handle key.leaf key.dirs
  return found.mapError (.keyNotFound name)

def subdir? (view : View V) (path : String) : Option (Option (View V)) := do
  let found ← follow view.tree view.handle (segments path)
  return found.map view.moveTo

def path (view : View V) : Option String := do
  let handles ← lineage view.tree view.tree.slots.size view.handle
  let slots ← handles.mapM view.tree.at?
  return join ((slots.filter (·.parent.isSome)).map Slot.segment).reverse

def size (view : View V) : Option Nat := do
  let swept ← sweep view.tree (fun _ => false) view.tree.slots.size [view.handle]
  let slots ← swept.visited.mapM view.tree.at?
  return slots.foldr (fun slot count => slot.leaves.size + count) 0

def isEmpty (view : View V) : Option Bool := do
  let swept ← sweep view.tree (!·.leaves.isEmpty) view.tree.slots.size [view.handle]
  return swept.pending.isEmpty

/-! ## Enumeration -/

def enter (tree : Tree V) (dir : Handle) (lead : String) : Option (Frame V) := do
  let slot ← tree.at? dir
  return ⟨lead, slot.children.entries, slot.leaves.entries⟩

def move (cursor : Cursor V) : Option (Move V) :=
  match cursor.stack with
  | ⟨lead, (segment, child) :: children, leaves⟩ :: outer => do
    let inner ← enter cursor.tree child (lead ++ segment ++ ".")
    return .passing { cursor with stack := inner :: ⟨lead, children, leaves⟩ :: outer }
  | _ => some cursor.move

def advance : (moves : Nat) → Cursor V → Option (Move V)
  | 0, cursor => some (.passing cursor)
  | moves + 1, cursor => do
    match ← move cursor with
    | .passing cursor => advance moves cursor
    | last => return last

def take : (count : Nat) → Cursor V → Option (List (String × V))
  | 0, _ => some []
  | count + 1, cursor => do
    match ← advance (2 * cursor.tree.slots.size + 1) cursor with
    | .found entry cursor => return entry :: (← take count cursor)
    | .passing _ | .finished => return []

def entries (view : View V) : Option (List (String × V)) := do
  let start ← enter view.tree view.handle ""
  take (view.tree.slots.toList.foldr (fun slot count => slot.leaves.size + count) 0)
    ⟨view.tree, [start]⟩

/-! ## Copying -/

/-- The places from `start` on, if it is not behind their end. -/
def placesFrom {α : Type} (places : List α) (start : Nat) : Option (List α) :=
  if start ≤ places.length then some (places.drop start) else none

def copyInto (view : View V) (places : List (String × V)) (start : Nat) : Option (Copied V) := do
  if places.length < start then return ⟨places, some (.startPastEnd start places.length)⟩
  let needed ← size view
  let room ← minus places.length start
  if room < needed then return ⟨places, some (.tooLittleRoom room needed)⟩
  let later ← placesFrom places start
  return ⟨places.take start ++ overwrite later (← entries view), none⟩

/-! ## Resolution -/

def hit? (view : View V) (step : Step) (key : String) : Option (Option (Resolved V)) := do
  return (← get? view key).map fun value => ⟨key, step, value⟩

def firstHit? (view : View V) (scopes : List String) (name : String) :
    Option (Option (Resolved V)) := do
  let slot ← view.tree.at? view.handle
  let inward := scopes.reverse
  let insideAlt ← slot.alts.findSomeM? fun alt => inward.findSomeM? fun scope =>
    hit? view .scopeAlt (withAlt (within scope name) alt)
  let inside ← inward.findSomeM? fun scope => hit? view .scope (within scope name)
  let outsideAlt ← slot.alts.findSomeM? fun alt => hit? view .qualifiedAlt (withAlt name alt)
  return insideAlt.or (inside.or (outsideAlt.or (← hit? view .qualified name)))

/-! ## Edits -/

def ensureChild (tree : Tree V) (parent : Handle) (segment : String) : Option (Outcome V Handle) := do
  match ← child? tree parent segment with
  | some child => return .pure child tree
  | none =>
    let child : Handle := ⟨tree.slots.size, tree.generation⟩
    let grown := { tree with slots := tree.slots.push (.fresh segment (some parent)) }
    let tree ← grown.change? parent fun slot =>
      { slot with children := slot.children.insert segment child }
    return ⟨child, tree, [.created segment parent.index child.index]⟩

def ensureDirs (tree : Tree V) (start : Handle) : List String → Option (Outcome V Handle)
  | [] => some (.pure start tree)
  | segment :: path => do
    let first ← ensureChild tree start segment
    let second ← ensureDirs first.tree first.result path
    return { second with events := first.events ++ second.events }

def insert (view : View V) (name : String) (value : V) : Option (Outcome V (Option V)) := do
  let key := Key.parse name
  let made ← ensureDirs view.tree view.handle key.dirs
  let slot ← made.tree.at? made.result
  let tree ← made.tree.change? made.result fun slot =>
    { slot with leaves := slot.leaves.insert key.leaf value }
  return ⟨slot.leaves.get? key.leaf, tree, made.events⟩

def erase (view : View V) (name : String) : Option (Outcome V (Option V)) := do
  let key := Key.parse name
  match ← follow view.tree view.handle key.dirs with
  | none => return .pure none view.tree
  | some dir =>
    let slot ← view.tree.at? dir
    let tree ← view.tree.change? dir fun slot =>
      { slot with leaves := slot.leaves.erase key.leaf }
    return .pure (slot.leaves.get? key.leaf) tree

def eraseIf [BEq V] (view : View V) (name : String) (value : V) : Option (Outcome V Bool) := do
  let held ← get? view name
  if held.any (· == value) then return (← erase view name).map Option.isSome
  return .pure false view.tree

def clear (view : View V) : Option (Outcome V Unit) := do
  let slot ← view.tree.at? view.handle
  let swept ← sweep view.tree (fun _ => false) view.tree.slots.size slot.children.values
  let pruned ← swept.visited.foldlM (fun tree dir => tree.change? dir Slot.cutOff) view.tree
  let tree ← pruned.change? view.handle Slot.emptied
  return ⟨(), tree, [.cleared view.handle.index swept.visited.length]⟩

def editAlts (view : View V) (edit : List String → List String) :
    Option (Outcome V (List String)) := do
  let slot ← view.tree.at? view.handle
  let alts := edit slot.alts
  let tree ← view.tree.change? view.handle fun slot => { slot with alts }
  return .pure alts tree

/-- A new arena; the old one has a slot for the root, and so one slot less can go. -/
def startOver (tree : Tree V) : Option (Outcome V Unit) := do
  let root ← tree.at? tree.rootHandle
  let dropped ← minus tree.slots.size 1
  let generation := tree.generation + 1
  return ⟨(), ⟨#[{ Slot.fresh "" none with alts := root.alts }], generation⟩,
    [.emptied dropped generation]⟩

/-! ## Commands -/

def extend (tree : Tree V) : List (String × V) → Option (Outcome V Unit)
  | [] => some (.pure () tree)
  | (name, value) :: entries => do
    let first ← insert tree.root name value
    let second ← extend first.tree entries
    return { second with events := first.events ++ second.events }

def descend? (view : View V) : List String → Option (Option (View V))
  | [] => some (some view)
  | path :: way => do
    match ← subdir? view path with
    | some view => descend? view way
    | none => return none

def apply [BEq V] (view : View V) : Change V → Option (Outcome V (Answer V))
  | .insert name value => return (← insert view name value).map .former
  | .erase name => return (← erase view name).map .former
  | .eraseIf name value => return (← eraseIf view name value).map .verdict
  | .clear => return (← clear view).map fun _ => .done
  | .editAlts edit => return (← editAlts view edit).map .alts

def run [BEq V] (tree : Tree V) : Command V → Option (Outcome V (Answer V))
  | .extend entries => return (← extend tree entries).map fun _ => .done
  | .clear => return (← startOver tree).map fun _ => .done
  | .inside way change => do
    match ← descend? tree.root way with
    | some view => apply view change
    | none => return .pure .nowhere tree

end Checked
end SymbolTree
