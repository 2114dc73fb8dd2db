import SymbolTree.View.Edit

/-!
# Commands

Every way of changing a tree, as data. A run of commands from the empty tree reaches exactly the
trees that can be built with this library.
-/
namespace SymbolTree

/-- What can be changed at one directory. -/
inductive Change (V : Type) where
  | insert (name : String) (value : V)
  | erase (name : String)
  | eraseIf (name : String) (value : V)
  | clear
  | editAlts (edit : List String → List String)

inductive Command (V : Type) where
  | extend (entries : List (String × V))
  | clear
  /-- A change at the directory that the paths lead to, one after the other from the root on. -/
  | inside (way : List String) (change : Change V)

/-- What a command answers. -/
inductive Answer (V : Type) where
  /-- There is no directory to change. -/
  | nowhere
  | done
  /-- The value that an entry had before, if there was one. -/
  | former (value : Option V)
  /-- Whether an entry was taken out. -/
  | verdict (erased : Bool)
  | alts (alts : List String)

variable {V : Type}

def Change.apply [BEq V] (view : View V) : Change V → Outcome V (Answer V)
  | insert name value => (view.insert name value).map .former
  | erase name => (view.erase name).map .former
  | eraseIf name value => (view.eraseIf name value).map .verdict
  | clear => view.clear.map fun _ => .done
  | editAlts edit => (view.editAlts edit).map .alts

/-- The directory reached by following the paths one after the other. -/
def View.descend? (view : View V) (way : List String) : Option (View V) :=
  way.foldlM View.subdir? view

def Command.run [BEq V] (tree : Tree V) : Command V → Outcome V (Answer V)
  | extend entries => (tree.extend entries).map fun _ => .done
  | clear => tree.clear.map fun _ => .done
  | inside way change =>
    match tree.root.descend? way with
    | some view => change.apply view
    | none => .pure .nowhere tree

/-- Runs the commands one after the other. -/
def Tree.runAll [BEq V] (tree : Tree V) : List (Command V) → Outcome V (List (Answer V))
  | [] => .pure [] tree
  | command :: commands =>
    (command.run tree).andThen fun answer tree => (tree.runAll commands).map (answer :: ·)

/-- A tree that some commands build from the empty tree. -/
def Tree.Reachable [BEq V] (tree : Tree V) : Prop :=
  ∃ commands : List (Command V), (empty.runAll commands).tree = tree

end SymbolTree
