/-!
# Events

What a tree reports while it is used: every directory made or cut off, every emptying, and how
each name resolution went.
-/
namespace SymbolTree

/-- The four ways in which a name can resolve, in the order in which they are tried. -/
inductive Step where
  /-- Inside a scope, with an alternative in front of the last segment. -/
  | scopeAlt
  /-- Inside a scope, as it is. -/
  | scope
  /-- Outside every scope, with an alternative in front of the last segment. -/
  | qualifiedAlt
  /-- Outside every scope, as it is. -/
  | qualified
deriving DecidableEq

def Step.label : Step → String
  | .scopeAlt => "ScopeAlt"
  | .scope => "Scope"
  | .qualifiedAlt => "QualifiedAlt"
  | .qualified => "Qualified"

inductive Event where
  /-- A directory was made in slot `node` for the one in slot `parent`. -/
  | created (segment : String) (parent node : Nat)
  /-- The tree was emptied as a whole: how many slots went, and the generation that begins. -/
  | emptied (dropped : Nat) (generation : UInt32)
  /-- The directory in slot `node` was emptied: how many directories were cut off. -/
  | cleared (node detached : Nat)
  | resolved (name key : String) (step : Step)
  | unresolved (name : String) (scopes : Nat)
deriving DecidableEq

inductive Level where
  | trace
  | debug
deriving DecidableEq

def Level.label : Level → String
  | .trace => "TRACE"
  | .debug => "DEBUG"

namespace Event

/-- What happens often is traced; what removes directories or finds nothing is a step higher. -/
def level : Event → Level
  | created .. | resolved .. => .trace
  | emptied .. | cleared .. | unresolved .. => .debug

def message : Event → String
  | created .. => "created child node"
  | emptied .. => "cleared directory"
  | cleared .. => "cleared sub directory"
  | resolved .. => "resolved name"
  | unresolved .. => "name not resolved"

end Event
end SymbolTree
