import SymbolTree.View

/-!
# Going through a tree

From a view one comes to other views by paths downward and to parents, one turn after the other.
-/
namespace SymbolTree

variable {V : Type}

/-- A turn from one directory to another. -/
inductive Turn where
  /-- Down along a path. -/
  | down (path : String)
  /-- To the parent. -/
  | up

def View.turn? (view : View V) : Turn → Option (View V)
  | .down path => view.subdir? path
  | .up => view.parent?

/-- Where the turns lead, if there is a directory after each of them. -/
def View.go? (view : View V) (turns : List Turn) : Option (View V) := turns.foldlM View.turn? view

@[simp] theorem View.go?_nil (view : View V) : view.go? [] = some view := rfl

@[simp] theorem View.go?_cons (view : View V) (turn : Turn) (turns : List Turn) :
    view.go? (turn :: turns) = (view.turn? turn).bind (·.go? turns) := by
  simp only [go?, List.foldlM_cons]
  rfl

end SymbolTree
