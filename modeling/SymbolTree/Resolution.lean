import SymbolTree.Outcome
import SymbolTree.View

/-!
# Name resolution

A name is resolved in a directory against the scopes that enclose its use, outermost first. The
first hit counts, in this order:

1. for each alternative of the directory, for each scope from the innermost out: the name in that
   scope with the alternative in front of its last segment;
2. for each scope from the innermost out: the name in that scope;
3. for each alternative: the name with the alternative in front of its last segment;
4. the name as it is.

Every resolution is reported by one event.
-/
namespace SymbolTree

/-- A hit: the name that was found, the step that found it, and the value. -/
structure Resolved (V : Type) where
  key : String
  step : Step
  value : V
deriving DecidableEq

namespace View

variable {V : Type}

def hit? (view : View V) (step : Step) (key : String) : Option (Resolved V) :=
  (view.get? key).map fun value => ⟨key, step, value⟩

/-- The first hit, with no report. -/
def firstHit? (view : View V) (scopes : List String) (name : String) : Option (Resolved V) :=
  let inward := scopes.reverse
  let insideAlt := view.alts.findSome? fun alt => inward.findSome? fun scope =>
    view.hit? .scopeAlt (withAlt (within scope name) alt)
  let inside := inward.findSome? fun scope => view.hit? .scope (within scope name)
  let outsideAlt := view.alts.findSome? fun alt => view.hit? .qualifiedAlt (withAlt name alt)
  insideAlt.or (inside.or (outsideAlt.or (view.hit? .qualified name)))

/-- Resolves `name` and tells which name and step were the hit. -/
def resolve? (view : View V) (scopes : List String) (name : String) :
    Reported (Option (Resolved V)) :=
  match view.firstHit? scopes name with
  | some hit => ⟨some hit, .resolved name hit.key hit.step⟩
  | none => ⟨none, .unresolved name scopes.length⟩

/-- Resolves `name` to its value. -/
def value? (view : View V) (scopes : List String) (name : String) : Reported (Option V) :=
  (view.resolve? scopes name).map (·.map Resolved.value)

/-- Resolves `name` to its value, or to `fallback` if there is no hit. -/
def valueD (view : View V) (scopes : List String) (name : String) (fallback : V) : Reported V :=
  (view.value? scopes name).map (·.getD fallback)

/-- Resolves `name` to its value, or to the default value if there is no hit. -/
def valueOrDefault [Inhabited V] (view : View V) (scopes : List String) (name : String) :
    Reported V :=
  view.valueD scopes name default

/-- Resolves `name` outside every scope, with a fallback. -/
def bareValueD (view : View V) (name : String) (fallback : V) : Reported V :=
  view.valueD [] name fallback

/-- Resolves `name` outside every scope, with the default value as fallback. -/
def bareValueOrDefault [Inhabited V] (view : View V) (name : String) : Reported V :=
  view.valueOrDefault [] name

end View
end SymbolTree
