import SymbolTree.Resolution

/-!
# Candidates

All names that a resolution tries, written out in their order.

* `firstHit?_eq_findSome?`: a resolution takes the first candidate that has an entry.
-/
namespace SymbolTree

/-- The names tried for `name` with the given alternatives and scopes, and the step of each. With
no scope there is nothing to try inside a scope. -/
def candidates (alts scopes : List String) (name : String) : List (String × Step) :=
  let inside (scope : String) := within scope name
  let inward := scopes.reverse
  alts.flatMap (fun alt => inward.map fun scope => (withAlt (inside scope) alt, .scopeAlt)) ++
    inward.map (fun scope => (inside scope, .scope)) ++
    alts.map (fun alt => (withAlt name alt, .qualifiedAlt)) ++
    [(name, .qualified)]

/-- To search one list after the other is to search them all in a row. -/
theorem findSome?_flatMap {α β γ : Type} (items : List α) (f : α → List β) (g : β → Option γ) :
    (items.flatMap f).findSome? g = items.findSome? fun item => (f item).findSome? g := by
  induction items with
  | nil => rfl
  | cons item rest ih =>
    rw [List.flatMap_cons, List.findSome?_append, List.findSome?_cons, ih]
    cases (f item).findSome? g <;> rfl

theorem View.firstHit?_eq_findSome? {V : Type} (view : View V) (scopes : List String)
    (name : String) :
    view.firstHit? scopes name =
      (candidates view.alts scopes name).findSome? fun (key, step) => view.hit? step key := by
  have single : [(name, Step.qualified)].findSome? (fun (key, step) => view.hit? step key) =
      view.hit? .qualified name := by
    cases h : view.hit? .qualified name <;> simp [h]
  simp only [firstHit?, candidates, List.findSome?_append, single, List.findSome?_map,
    findSome?_flatMap, Function.comp_def, Option.or_assoc]

end SymbolTree
