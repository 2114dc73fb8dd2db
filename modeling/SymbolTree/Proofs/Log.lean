import SymbolTree.Proofs.Lifetimes
import SymbolTree.Proofs.Replay
import SymbolTree.Resolution

/-!
# The log of a run

All events of a run in order, those of commands and those of name resolution between them.

* `mayReport_of_mem`: which call leads to which kind of event;
* `tells_call`, `tells_runCalls`: the events of a call and of a run of calls;
* `log_tells_arena`: a journal that is kept from the log alone is the table of the arena.
-/
namespace SymbolTree

variable {V : Type}

/-! ## Calls -/

/-- What is done with a tree and may be reported: a command, or the resolution of a name in the
directory behind a handle. -/
inductive Call (V : Type) where
  | command (command : Command V)
  | resolution (dir : Handle) (scopes : List String) (name : String)

namespace Call

def run [BEq V] (tree : Tree V) : Call V → Outcome V Unit
  | .command change => (change.run tree).map fun _ => ()
  | .resolution dir scopes name =>
    ⟨(), tree, ((tree.view? dir).map fun view => (view.resolve? scopes name).event).toList⟩

def startsOver : Call V → Bool
  | .command change => change.startsOver
  | .resolution .. => false

/-- The kinds of events that a call may lead to. All other calls lead to none. -/
def mayReport : Call V → Event → Bool
  | .command (.extend _), .created .. => true
  | .command (.inside _ (.insert ..)), .created .. => true
  | .command (.inside _ .clear), .cleared .. => true
  | .command .clear, .emptied .. => true
  | .resolution .., .resolved .. => true
  | .resolution .., .unresolved .. => true
  | _, _ => false

end Call

/-- Makes the calls one after the other. -/
def Tree.runCalls [BEq V] (tree : Tree V) : List (Call V) → Outcome V Unit
  | [] => .pure () tree
  | call :: calls => (call.run tree).andThen fun _ tree => tree.runCalls calls

variable {tree : Tree V} {dir : Handle} {event : Event}

/-! ## Kinds of events -/

namespace Tree

theorem created_of_mem_ensureDirs {path : List String}
    (member : event ∈ (tree.ensureDirs dir path).events) :
    ∃ segment parent node, event = .created segment parent node := by
  induction path generalizing tree dir with
  | nil => cases member
  | cons segment path ih =>
    rcases List.mem_append.mp member with first | rest
    · cases h : tree.child? dir segment with
      | some child =>
        rw [ensureChild_of_link h] at first
        cases first
      | none =>
        rw [ensureChild_of_vacant h] at first
        exact ⟨_, _, _, List.mem_singleton.mp first⟩
    · exact ih rest

theorem created_of_mem_insert {name : String} {value : V}
    (member : event ∈ ((View.mk tree dir).insert name value).events) :
    ∃ segment parent node, event = .created segment parent node := by
  rcases List.mem_append.mp member with made | none
  · exact created_of_mem_ensureDirs made
  · cases none

theorem created_of_mem_extend {entries : List (String × V)}
    (member : event ∈ (tree.extend entries).events) :
    ∃ segment parent node, event = .created segment parent node := by
  induction entries generalizing tree with
  | nil => cases member
  | cons entry entries ih =>
    rcases List.mem_append.mp member with first | rest
    · exact created_of_mem_insert first
    · exact ih rest

end Tree

theorem View.events_eraseIf [BEq V] (view : View V) (name : String) (value : V) :
    (view.eraseIf name value).events = [] := by
  unfold eraseIf
  split
  · exact Tree.WellFormed.events_erase view name
  · rfl

theorem Change.mayReport_of_mem [BEq V] (way : List String) (view : View V) (change : Change V)
    (member : event ∈ (change.apply view).events) :
    (Call.command (.inside way change)).mayReport event = true := by
  cases change with
  | insert name value =>
    rw [apply, Outcome.events_map] at member
    obtain ⟨segment, parent, node, rfl⟩ := Tree.created_of_mem_insert member
    rfl
  | erase name =>
    rw [apply, Outcome.events_map, Tree.WellFormed.events_erase] at member
    cases member
  | eraseIf name value =>
    rw [apply, Outcome.events_map, View.events_eraseIf] at member
    cases member
  | clear =>
    rw [apply, Outcome.events_map, View.clear, List.mem_singleton] at member
    rw [member]
    rfl
  | editAlts edit => cases member

theorem Call.mayReport_of_mem [BEq V] (call : Call V) (member : event ∈ (call.run tree).events) :
    call.mayReport event = true := by
  cases call with
  | resolution dir scopes name =>
    obtain ⟨view, -, rfl⟩ := Option.map_eq_some_iff.mp (Option.mem_toList.mp member)
    unfold View.resolve?
    split <;> rfl
  | command change =>
    rw [run, Outcome.events_map] at member
    cases change with
    | extend entries =>
      obtain ⟨segment, parent, node, rfl⟩ := Tree.created_of_mem_extend member
      rfl
    | clear =>
      rw [Command.run, Outcome.events_map, Tree.clear, List.mem_singleton] at member
      rw [member]
      rfl
    | inside way change =>
      rw [Command.run] at member
      cases reached : tree.root.descend? way with
      | none =>
        rw [reached] at member
        cases member
      | some view =>
        rw [reached] at member
        exact change.mayReport_of_mem way view member

/-- Only the emptying of the tree is reported as one, and it is reported once. -/
theorem Call.countP_run [BEq V] (tree : Tree V) (call : Call V) :
    (call.run tree).events.countP Event.isEmptying = if call.startsOver then 1 else 0 := by
  cases starts : call.startsOver with
  | true =>
    match call, starts with
    | .command .clear, _ => rfl
  | false =>
    rw [if_neg Bool.false_ne_true, List.countP_eq_zero]
    intro event member emptying
    have allowed := call.mayReport_of_mem member
    match call, event, starts, emptying with
    | .command (.extend _), .emptied .., _, _ => cases allowed
    | .command (.inside _ change), .emptied .., _, _ => cases change <;> cases allowed
    | .resolution .., .emptied .., _, _ => cases allowed

/-! ## Runs of calls -/

namespace Tree.WellFormed

variable [BEq V]

theorem wellFormed_call (wf : tree.WellFormed) (call : Call V) :
    (call.run tree).tree.WellFormed := by
  cases call with
  | command change => exact wf.wellFormed_run change
  | resolution dir scopes name => exact wf

/-- The report of a resolution leaves the table as it is. -/
theorem tells_call (wf : tree.WellFormed) (call : Call V) :
    Tells tree (call.run tree).tree (call.run tree).events := by
  cases call with
  | command change => exact wf.tells_run change
  | resolution dir scopes name =>
    simp only [Call.run]
    cases tree.view? dir with
    | none => exact Tells.refl tree
    | some view =>
      simp only [Option.map_some, Option.toList_some]
      unfold View.resolve?
      split
      all_goals exact Tells.single (fun _ _ => trivial) rfl (by simp [Event.isEmptying])

theorem tells_runCalls (wf : tree.WellFormed) (calls : List (Call V)) :
    Tells tree (tree.runCalls calls).tree (tree.runCalls calls).events := by
  induction calls generalizing tree with
  | nil => exact Tells.refl tree
  | cons call calls ih => exact (wf.tells_call call).trans (ih (wf.wellFormed_call call))

end Tree.WellFormed

theorem countP_runCalls [BEq V] (tree : Tree V) (calls : List (Call V)) :
    (tree.runCalls calls).events.countP Event.isEmptying = calls.countP Call.startsOver := by
  induction calls generalizing tree with
  | nil => rfl
  | cons call calls ih =>
    rw [Tree.runCalls, Outcome.events_andThen, List.countP_append, Call.countP_run, ih,
      List.countP_cons, Nat.add_comm]

/-- Keep a journal from the log of any run of calls on the empty tree. Every event fits the journal
and the number of emptyings of its moment, and there are as many emptyings in the log as calls that
empty the tree; after the run the journal has, for each slot of the arena in order, its segment, its
parent and whether it has been cut off. No call leads to an event of another kind than its own: only
insertions make directories known, only the two ways of clearing report that some are gone, and no
other call reports a change. Entries collected into a new tree are a run of one extension,
`Tree.ofList`. -/
theorem log_tells_arena [BEq V] (calls : List (Call V)) :
    let log := (Tree.empty.runCalls calls).events
    let tree := (Tree.empty.runCalls calls).tree
    Journal.start.Exact 0 log ∧
      log.countP Event.isEmptying = calls.countP Call.startsOver ∧
      Journal.start.replay log = tree.slots.toList.map Slot.row ∧
      ∀ call : Call V, ∀ event ∈ (call.run tree).events, call.mayReport event = true := by
  intro log tree
  have wf : (Tree.empty : Tree V).WellFormed := Tree.wellFormed_bare [""] 0
  have told := wf.tells_runCalls calls
  exact ⟨told.exact 0 rfl, countP_runCalls Tree.empty calls, told.replay,
    fun call event member => call.mayReport_of_mem member⟩

end SymbolTree
