import SymbolTree.View.Edit

/-!
# Loops over worklists

A loop over a worklist in single turns, with no bound on their number: a directory is taken from the
list, and its subdirectories come onto it. A table promises no order, so in a run of a loop the list
may be in any order after each turn.

* `Loop.counting`, `Loop.seeking`, `Loop.cutting`: the three loops over what is at or below a
  directory;
* `Loop.Runs`: the runs of a loop;
* `Loop.Exhausts`: a loop takes each directory of a kind once and comes to its end.
-/
namespace SymbolTree

/-- What a loop does with a directory that it comes to. -/
structure Loop (V : Type) where
  /-- Whether the loop breaks off at the directory. -/
  halt : Slot V → Bool
  /-- What becomes of the directory if the loop takes it. -/
  change : Slot V → Slot V

namespace Loop

variable {V : Type}

/-- Goes through all directories and leaves them as they are. -/
def counting : Loop V := ⟨fun _ => false, id⟩

/-- Breaks off at the first directory with an entry. -/
def seeking : Loop V := ⟨fun slot => !slot.leaves.isEmpty, id⟩

/-- Cuts off every directory that it comes to. -/
def cutting : Loop V := ⟨fun _ => false, Slot.cutOff⟩

/-- `loop.Runs tree pending taken later left`: beginning with `tree` and the worklist `pending`, the
loop takes the directories `taken` in this order, and then there are `later` and `left`. -/
inductive Runs (loop : Loop V) : (tree : Tree V) → (pending taken : List Handle) →
    (later : Tree V) → (left : List Handle) → Prop where
  | start (tree : Tree V) (pending : List Handle) : Runs loop tree pending [] tree pending
  | turn {tree later : Tree V} {dir : Handle} {pending next taken left : List Handle}
      (onward : loop.halt (tree.slot dir) = false)
      (order : next.Perm ((tree.slot dir).children.values ++ pending))
      (rest : Runs loop (tree.modify dir loop.change) next taken later left) :
      Runs loop tree (dir :: pending) (dir :: taken) later left

/-- The loop is at its end if nothing is left, or if it breaks off at what comes next. -/
def Ended (loop : Loop V) (tree : Tree V) : (pending : List Handle) → Prop
  | [] => True
  | dir :: _ => loop.halt (tree.slot dir) = true

end Loop

/-- Each of these directories stands in the list, once, and nothing else. -/
def EachOnce (list : List Handle) (dirs : Handle → Prop) : Prop :=
  list.Nodup ∧ ∀ dir, dir ∈ list ↔ dirs dir

/-- From `tree` and `pending` the loop has to come to its end, in whatever order the worklist is. A
run that leaves nothing has taken each of `dirs` once, and on the way none is taken twice. -/
structure Loop.Exhausts {V : Type} (loop : Loop V) (tree : Tree V) (pending : List Handle)
    (dirs : Handle → Prop) : Prop where
  /-- No run has more turns than there are slots. -/
  bounded : ∀ {taken later left}, loop.Runs tree pending taken later left →
    taken.length ≤ tree.slots.size
  /-- And so, since a loop that is not at its end takes another turn, every run can be finished. -/
  ends : ∀ {taken later left}, loop.Runs tree pending taken later left →
    ∃ more last rest, loop.Runs later left more last rest ∧ loop.Ended last rest
  distinct : ∀ {taken later left}, loop.Runs tree pending taken later left →
    taken.Nodup ∧ ∀ dir ∈ taken, dirs dir
  all : ∀ {taken later}, loop.Runs tree pending taken later [] → EachOnce taken dirs

end SymbolTree
