import SymbolTree.Event
import SymbolTree.Tree

/-!
# Outcomes

An operation that changes a tree gives its answer, the tree afterwards and the events on the way.
A question leaves the tree alone: it gives an answer and at most reports one event.
-/
namespace SymbolTree

structure Outcome (V α : Type) where
  result : α
  tree : Tree V
  events : List Event

namespace Outcome

variable {V α β : Type}

/-- An answer that nothing had to happen for. -/
def pure (result : α) (tree : Tree V) : Outcome V α := ⟨result, tree, []⟩

/-- Goes on with the answer and the tree; the events follow each other. -/
def andThen (first : Outcome V α) (next : α → Tree V → Outcome V β) : Outcome V β :=
  let second := next first.result first.tree
  { second with events := first.events ++ second.events }

def map (f : α → β) (outcome : Outcome V α) : Outcome V β :=
  { outcome with result := f outcome.result }

@[simp] theorem tree_pure (result : α) (tree : Tree V) : (pure result tree).tree = tree := rfl

@[simp] theorem result_pure (result : α) (tree : Tree V) : (pure result tree).result = result := rfl

@[simp] theorem events_pure (result : α) (tree : Tree V) : (pure result tree).events = [] := rfl

@[simp] theorem tree_andThen (first : Outcome V α) (next : α → Tree V → Outcome V β) :
    (first.andThen next).tree = (next first.result first.tree).tree := rfl

@[simp] theorem result_andThen (first : Outcome V α) (next : α → Tree V → Outcome V β) :
    (first.andThen next).result = (next first.result first.tree).result := rfl

@[simp] theorem events_andThen (first : Outcome V α) (next : α → Tree V → Outcome V β) :
    (first.andThen next).events = first.events ++ (next first.result first.tree).events := rfl

@[simp] theorem tree_map (f : α → β) (outcome : Outcome V α) :
    (outcome.map f).tree = outcome.tree := rfl

@[simp] theorem result_map (f : α → β) (outcome : Outcome V α) :
    (outcome.map f).result = f outcome.result := rfl

@[simp] theorem events_map (f : α → β) (outcome : Outcome V α) :
    (outcome.map f).events = outcome.events := rfl

end Outcome

/-- An answer that is reported by one event. -/
structure Reported (α : Type) where
  result : α
  event : Event

def Reported.map {α β : Type} (f : α → β) (report : Reported α) : Reported β :=
  { report with result := f report.result }

end SymbolTree
