import SymbolTree.Proofs.Arrangements
import SymbolTree.Proofs.Prefixed
import SymbolTree.Proofs.Rounds

/-!
# Scopes with a path in front

What a directory finds in a scope, the root finds in the scope with the path of the directory in
front, as long as both have the same alternatives.

* `scopeUnder`, `Resolved.under`: a scope and a hit of a directory, as the root has them;
* `round?_eq_root`: a round of names in the directory is a round at the root;
* `resolve?_eq_qualified`: so are resolutions, up to the hits outside every scope.
-/
namespace SymbolTree

variable {V : Type} {tree : Tree V} {dir : Handle}

/-- A scope of the directory at `path`, taken from the root. The empty scope is the directory
itself. -/
def scopeUnder (path scope : String) : String := if scope = "" then path else path ++ "." ++ scope

/-- A hit of the directory at `path`, taken from the root. -/
def Resolved.under (path : String) (hit : Resolved V) : Resolved V :=
  { hit with key := path ++ "." ++ hit.key }

theorem within_scopeUnder {path : String} (named : path ≠ "") (scope name : String) :
    within (scopeUnder path scope) name = path ++ "." ++ within scope name := by
  by_cases empty : scope = ""
  · simp [scopeUnder, within, empty, named]
  · simp [scopeUnder, within, empty, String.append_assoc]

namespace Resolved

theorem under_inj {path : String} {hit other : Resolved V} (same : hit.under path = other.under path) :
    hit = other := by
  obtain ⟨key, step, value⟩ := hit
  obtain ⟨key', step', value'⟩ := other
  simpa [under] using same

theorem map_under_eq_some_iff {path : String} {found : Option (Resolved V)} {hit : Resolved V} :
    found.map (under path) = some (hit.under path) ↔ found = some hit := by
  rw [Option.map_eq_some_iff]
  constructor
  · rintro ⟨other, rfl, same⟩
    rw [under_inj same]
  · rintro rfl
    exact ⟨hit, rfl, rfl⟩

end Resolved

namespace View

theorem inward_scopeUnder {path : String} (named : path ≠ "") (scopes : List String) (name : String) :
    inward (scopes.map (scopeUnder path)) name = (inward scopes name).map (path ++ "." ++ ·) := by
  simp only [inward, ← List.map_reverse, List.map_map, Function.comp_def, within_scopeUnder named]

/-- The root has a path, the empty one. -/
theorem inner_of_named (wf : tree.WellFormed) (named : (View.mk tree dir).path ≠ "") :
    dir ≠ tree.rootHandle := by
  rintro rfl
  exact named (wf.path_eq (tree.follow_nil _))

theorem round?_eq_root (wf : tree.WellFormed) (live : tree.IsLive dir) (inner : dir ≠ tree.rootHandle)
    (alted plain : Step) (alts names : List String) :
    let view : View V := ⟨tree, dir⟩
    tree.root.round? alted plain alts (names.map (view.path ++ "." ++ ·)) =
      (view.round? alted plain alts names).map (Resolved.under view.path) := by
  intro view
  obtain ⟨path, reach⟩ := wf.exists_way live
  have hits (step : Step) (name : String) : tree.root.hit? step (view.path ++ "." ++ name) =
      (view.hit? step name).map (Resolved.under view.path) := by
    rw [hit?, hit?, Option.map_map, get?_eq_root wf reach, full_eq inner]
    rfl
  exact round?_translate _ _ (hits alted) (hits plain) (withAlt_dot view.path)

/-- The hits of the root in the scopes taken from it are those of the directory. -/
theorem resolve?_scopeUnder (wf : tree.WellFormed) (live : tree.IsLive dir)
    (named : (View.mk tree dir).path ≠ "") (sameAlts : (View.mk tree dir).alts = tree.root.alts)
    (scopes : List String) (name : String) (hit : Resolved V)
    (isInside : hit.step = .scopeAlt ∨ hit.step = .scope) :
    let view : View V := ⟨tree, dir⟩
    (tree.root.resolve? (scopes.map (scopeUnder view.path)) name).result =
        some (hit.under view.path) ↔
      view.round? .scopeAlt .scope view.alts (inward scopes name) = some hit := by
  intro view
  have inner := inner_of_named wf named
  have alsoInside : (hit.under view.path).step = .scopeAlt ∨ (hit.under view.path).step = .scope :=
    isInside
  rw [result_resolve?, search?_eq_inside_iff alsoInside, inward_scopeUnder named,
    round?_eq_root wf live inner, Resolved.map_under_eq_some_iff, ← sameAlts]

/-- In a tree that some commands have built, its tables in any order, let a directory have a path
that is not empty and the alternatives of the root. It finds a name in a scope if and only if the
root finds it in the scope with the path in front: the same value in the same step, under the key
with the path in front. What the directory finds outside every scope, the root finds in the scope
that is the path. -/
theorem resolve?_eq_qualified [BEq V] (arises : tree.Arises) (live : tree.IsLive dir)
    (named : (View.mk tree dir).path ≠ "") (sameAlts : (View.mk tree dir).alts = tree.root.alts)
    (scopes : List String) (name : String) :
    let view : View V := ⟨tree, dir⟩
    let found (scopes : List String) := (view.resolve? scopes name).result
    let foundAtRoot (scopes : List String) := (tree.root.resolve? scopes name).result
    let qualified := scopes.map fun scope =>
      if scope = "" then view.path else view.path ++ "." ++ scope
    ∀ key value,
      (∀ step, step = .scopeAlt ∨ step = .scope →
        (found scopes = some ⟨key, step, value⟩ ↔
          foundAtRoot qualified = some ⟨view.path ++ "." ++ key, step, value⟩)) ∧
      (found [] = some ⟨key, .qualifiedAlt, value⟩ ↔
        foundAtRoot [view.path] = some ⟨view.path ++ "." ++ key, .scopeAlt, value⟩) ∧
      (found [] = some ⟨key, .qualified, value⟩ ↔
        foundAtRoot [view.path] = some ⟨view.path ++ "." ++ key, .scope, value⟩) := by
  intro view found foundAtRoot qualified key value
  have wf := arises.wellFormed
  have inScopes (scopes : List String) (step : Step) (isInside : step = .scopeAlt ∨ step = .scope) :
      foundAtRoot (scopes.map (scopeUnder view.path)) =
          some ⟨view.path ++ "." ++ key, step, value⟩ ↔
        view.round? .scopeAlt .scope view.alts (inward scopes name) = some ⟨key, step, value⟩ :=
    resolve?_scopeUnder wf live named sameAlts scopes name ⟨key, step, value⟩ isInside
  -- Outside every scope the directory makes the round that it would make in the empty scope.
  have outside : found [] = view.round? .qualifiedAlt .qualified view.alts [name] := by
    rw [← search?_nil]
    exact result_resolve? view [] name
  have path : [view.path] = [""].map (scopeUnder view.path) := by simp [scopeUnder]
  refine ⟨?inside, ?alted, ?plain⟩
  case inside =>
    intro step isInside
    calc found scopes = some ⟨key, step, value⟩
        ↔ view.search? view.alts scopes name = some ⟨key, step, value⟩ := by
          rw [← result_resolve?]
      _ ↔ view.round? .scopeAlt .scope view.alts (inward scopes name) = some ⟨key, step, value⟩ :=
        search?_eq_inside_iff isInside
      _ ↔ foundAtRoot qualified = some ⟨view.path ++ "." ++ key, step, value⟩ :=
        (inScopes scopes step isInside).symm
  case alted =>
    rw [outside, path, inScopes _ _ (.inl rfl), inward_blank]
    exact ⟨round?_alted (by decide), round?_alted (by decide)⟩
  case plain =>
    rw [outside, path, inScopes _ _ (.inr rfl), inward_blank]
    exact ⟨round?_plain (by decide), round?_plain (by decide)⟩

/-- A path of two empty segments, and a directory of the same segment at the root. -/
theorem resolve?_eq_qualified_empty_segments :
    let commands : List (Command Nat) :=
      [.extend [("..Foo", 1), ("..N.Foo", 2), ("Foo", 3), ("N.Foo", 4)]]
    let tree := (Tree.empty.runAll commands).tree
    let view : View Nat := ⟨tree, ⟨2, 0⟩⟩
    tree.IsLive view.handle ∧ view.path = "." ∧ view.alts = tree.root.alts ∧
      (tree.root.resolve? [".", "..N"] "Foo").result = some ⟨"..N.Foo", .scope, 2⟩ ∧
      (tree.root.resolve? ["."] "Foo").result = some ⟨"..Foo", .scope, 1⟩ := by
  intro commands tree view
  have arises : tree.Arises := Tree.Reachable.arises ⟨commands, rfl⟩
  have live : tree.IsLive view.handle := by decide +kernel
  have path : view.path = "." := by decide +kernel
  have sameAlts : view.alts = tree.root.alts := by decide +kernel
  have named : view.path ≠ "" := by rw [path]; decide
  have all := resolve?_eq_qualified arises live named sameAlts ["", "N"] "Foo"
  have inScope := (all "N.Foo" 2).1 .scope (.inr rfl)
  have bare := (all "Foo" 1).2.2
  rw [show (View.mk tree view.handle).path = "." from path] at inScope bare
  exact ⟨live, path, sameAlts, inScope.mp (by decide +kernel), bare.mp (by decide +kernel)⟩

end View
end SymbolTree
