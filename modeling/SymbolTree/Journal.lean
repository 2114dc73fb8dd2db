import SymbolTree.Event

/-!
# Journals

A table of slots that is kept from the events alone. Each row has the segment of its directory, the
slot of its parent, and whether the directory has been cut off.
-/
namespace SymbolTree

/-- Whether an event reports that the tree was emptied as a whole. -/
def Event.isEmptying : Event → Bool
  | .emptied .. => true
  | .created .. | .cleared .. | .resolved .. | .unresolved .. => false

structure Row where
  segment : String
  parent : Option Nat
  detached : Bool
deriving DecidableEq

abbrev Journal := List Row

namespace Journal

/-- The table of a new tree: the root. -/
def start : Journal := [⟨"", none, false⟩]

/-- Whether the way up from slot `node` reaches slot `top` in at most `steps` steps, and at least
one. -/
def isBelow (journal : Journal) (top : Nat) : (steps : Nat) → (node : Nat) → Bool
  | 0, _ => false
  | steps + 1, node =>
    match journal[node]?.bind Row.parent with
    | some parent => parent == top || journal.isBelow top steps parent
    | none => false

/-- Whether slot `node` is live and lies below slot `top`. -/
def isLiveBelow (journal : Journal) (top node : Nat) : Bool :=
  journal[node]?.any (!·.detached) && journal.isBelow top journal.length node

def record (journal : Journal) : Event → Journal
  | .created segment parent _ => journal ++ [⟨segment, some parent, false⟩]
  | .cleared top _ =>
    journal.mapIdx fun node row =>
      if journal.isLiveBelow top node then { row with detached := true } else row
  | .emptied _ _ => start
  | .resolved .. | .unresolved .. => journal

/-- The numbers of an event fit the table so far and the number of emptyings so far. -/
def Fits (journal : Journal) (emptyings : Nat) : Event → Prop
  | .created segment parent node =>
    node = journal.length ∧ (∃ row, journal[parent]? = some row ∧ row.detached = false) ∧
      ∀ row ∈ journal, row.parent = some parent → row.segment = segment → row.detached = true
  | .cleared top detached =>
    detached = (List.range journal.length).countP (journal.isLiveBelow top)
  | .emptied dropped generation =>
    dropped + 1 = journal.length ∧ generation = UInt32.ofNat (emptyings + 1)
  | .resolved .. | .unresolved .. => True

/-- The table after a sequence of events. -/
def replay (journal : Journal) (events : List Event) : Journal := events.foldl record journal

/-- Every event of a sequence fits the table and the number of emptyings of its moment. -/
def Exact (journal : Journal) (emptyings : Nat) : List Event → Prop
  | [] => True
  | event :: events =>
    journal.Fits emptyings event ∧
      (journal.record event).Exact (emptyings + if event.isEmptying then 1 else 0) events

end Journal
end SymbolTree
