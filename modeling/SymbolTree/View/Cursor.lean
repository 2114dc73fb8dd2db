import SymbolTree.View

/-!
# Cursors

A cursor gives the entries at and below a directory one at a time, with their names from that
directory on. A directory's subdirectories come before its own entries. The cursor keeps one frame
for each directory that it has gone into and not yet left.

One call of `Cursor.next` may pass through many directories without an entry. The bound on its
moves is one move into and one out of every directory of the tree, and one to see the end. A cursor
that has seen the end has no frame left, and can be called again.
-/
namespace SymbolTree

/-- What is still to be given from one directory. -/
structure Frame (V : Type) where
  /-- What stands before a segment of this directory in a name: the path from the start, and a
  separator; nothing at the start. -/
  lead : String
  children : List (String × Handle)
  leaves : List (String × V)

structure Cursor (V : Type) where
  tree : Tree V
  /-- The frames, innermost first. -/
  stack : List (Frame V)

variable {V : Type}

def Frame.enter (tree : Tree V) (dir : Handle) (lead : String) : Frame V :=
  ⟨lead, (tree.slot dir).children.entries, (tree.slot dir).leaves.entries⟩

/-- A single move of a cursor. -/
inductive Move (V : Type) where
  /-- Into a directory or out of one, and on from there. -/
  | passing (cursor : Cursor V)
  | found (entry : String × V) (cursor : Cursor V)
  | finished

namespace Cursor

def move (cursor : Cursor V) : Move V :=
  match cursor.stack with
  | [] => .finished
  | ⟨lead, (segment, child) :: children, leaves⟩ :: outer =>
    let inner := Frame.enter cursor.tree child (lead ++ segment ++ ".")
    .passing { cursor with stack := inner :: ⟨lead, children, leaves⟩ :: outer }
  | ⟨lead, [], (segment, value) :: leaves⟩ :: outer =>
    .found (lead ++ segment, value) { cursor with stack := ⟨lead, [], leaves⟩ :: outer }
  | ⟨_, [], []⟩ :: outer => .passing { cursor with stack := outer }

/-- Moves on until an entry is found or the end is seen, but at most `moves` times; a cursor that
is still passing through directories then has run out of moves. -/
def advance : (moves : Nat) → Cursor V → Move V
  | 0, cursor => .passing cursor
  | moves + 1, cursor =>
    match cursor.move with
    | .passing cursor => cursor.advance moves
    | last => last

/-- The next entry, if there is one, and the cursor after the call. -/
def next (cursor : Cursor V) : Option (String × V) × Cursor V :=
  match cursor.advance (2 * cursor.tree.slots.size + 1) with
  | .found entry cursor => (some entry, cursor)
  | .passing cursor => (none, cursor)
  | .finished => (none, { cursor with stack := [] })

/-- The cursor after a number of calls. -/
def after : (calls : Nat) → Cursor V → Cursor V
  | 0, cursor => cursor
  | calls + 1, cursor => cursor.next.2.after calls

/-- At most `count` entries. -/
def take : (count : Nat) → Cursor V → List (String × V)
  | 0, _ => []
  | count + 1, cursor =>
    match cursor.next with
    | (some entry, cursor) => entry :: cursor.take count
    | (none, _) => []

/-- All entries that are still to come; there are no more than the arena holds. -/
def toList (cursor : Cursor V) : List (String × V) :=
  cursor.take <| cursor.tree.slots.toList.foldr (fun slot count => slot.leaves.size + count) 0

end Cursor

namespace View

def cursor (view : View V) : Cursor V := ⟨view.tree, [.enter view.tree view.handle ""]⟩

/-- The entries at and below the directory. -/
def entries (view : View V) : List (String × V) := view.cursor.toList

def keys (view : View V) : List String := view.entries.map Prod.fst

def values (view : View V) : List V := view.entries.map Prod.snd

end View
end SymbolTree
