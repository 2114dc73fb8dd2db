import SymbolTree.Command

/-!
# The model of a tree

What a tree is to its user, with no arena: one flat table from whole names to values, and for each
path whether there is a directory and which alternatives it has. Paths are lists of segments, so
that the root and its subdirectory under the empty segment are told apart.

`Model.run` says of each command what it does to these two, `Model.runAll` of a run of commands.
-/
namespace SymbolTree

structure Model (V : Type) where
  /-- The value of every name, names taken from the root. -/
  values : Table V
  /-- The alternatives of the directory at a path, if there is a directory. -/
  alts : List String → Option (List String)

namespace Model

variable {V : Type}

def empty : Model V := ⟨.empty, fun path => if path = [] then some [""] else none⟩

/-- A name in the directory at `path`, taken from the root. -/
def whole (path : List String) (name : String) : String := join (path ++ [name])

/-- Whether a name taken from the root lies at or below the directory at `path`. -/
def isUnder (path : List String) (name : String) : Bool :=
  path.isEmpty || (join path ++ ".").toList.isPrefixOf name.toList

/-- Whether `path` is longer than `top` and starts with it. -/
def isBelow (top path : List String) : Bool := top.isPrefixOf path && top.length < path.length

/-- The value goes to the whole name. Directories on the way that are missing come to be, with the
empty alternative. -/
def insert (model : Model V) (path : List String) (name : String) (value : V) : Model V where
  values := model.values.insert (whole path name) value
  alts other :=
    (model.alts other).or <|
      if isBelow path other && other.isPrefixOf (path ++ (Key.parse name).dirs) then some [""]
      else none

def erase (model : Model V) (path : List String) (name : String) : Model V :=
  { model with values := model.values.erase (whole path name) }

/-- Everything below the directory goes; the directory and its alternatives stay. -/
def clear (model : Model V) (path : List String) : Model V where
  values := model.values.filter fun name => !isUnder path name
  alts other := if isBelow path other then none else model.alts other

def apply [BEq V] (model : Model V) (path : List String) : Change V → Model V × Answer V
  | .insert name value =>
    (model.insert path name value, .former (model.values.get? (whole path name)))
  | .erase name => (model.erase path name, .former (model.values.get? (whole path name)))
  | .eraseIf name value =>
    if (model.values.get? (whole path name)).any (· == value) then
      (model.erase path name, .verdict true)
    else (model, .verdict false)
  | .clear => (model.clear path, .done)
  | .editAlts edit =>
    let alts := edit ((model.alts path).getD [])
    ({ model with alts := fun other => if other = path then some alts else model.alts other },
      .alts alts)

def run [BEq V] (model : Model V) : Command V → Model V × Answer V
  | .extend entries =>
    (entries.foldl (fun model (name, value) => model.insert [] name value) model, .done)
  | .clear => (model.clear [], .done)
  | .inside way change =>
    let path := way.flatMap segments
    if (model.alts path).isSome then model.apply path change else (model, .nowhere)

/-- Runs the commands one after the other. -/
def runAll [BEq V] (model : Model V) : List (Command V) → Model V × List (Answer V)
  | [] => (model, [])
  | command :: commands =>
    let (next, answer) := model.run command
    let (last, answers) := next.runAll commands
    (last, answer :: answers)

/-- A tree shows what the model holds: the same values, the same directories, and the same
subdirectories and alternatives in each. -/
structure Shows (model : Model V) (tree : Tree V) : Prop where
  values : ∀ name, tree.root.get? name = model.values.get? name
  alts : ∀ path, (tree.root.subdir? path).map View.alts = model.alts (segments path)
  rootAlts : some tree.root.alts = model.alts []
  size : tree.root.size = model.values.size

end Model
end SymbolTree
