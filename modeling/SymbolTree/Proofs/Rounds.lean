import SymbolTree.Proofs.Resolution

/-!
# Resolution in two rounds

A resolution tries the name in every scope and after that the name outside every scope. Both rounds
go the same way: each alternative in front of each name, then each name as it is.

* `round?`, `search?`: one round, and the two of them, with alternatives from anywhere;
* `firstHit?_eq_search?`: a resolution is a search with the alternatives of its directory;
* `round?_translate`: a round under other names and other steps;
* `search?_congr`, `resolve?_congr`, `result_resolve?_editAlts`: what a resolution reads of a tree,
  and how other alternatives change it.
-/
namespace SymbolTree.View

variable {V : Type} {tree : Tree V} {dir : Handle} {view other : View V}

/-- One round: each alternative in front of the last segment of each name, then each name as it
is. -/
def round? (view : View V) (alted plain : Step) (alts names : List String) : Option (Resolved V) :=
  (alts.findSome? fun alt => names.findSome? fun name => view.hit? alted (withAlt name alt)).or
    (names.findSome? fun name => view.hit? plain name)

/-- The name in each of the scopes, from the innermost out. -/
def inward (scopes : List String) (name : String) : List String :=
  scopes.reverse.map (within · name)

/-- The round inside the scopes and the round outside, with the given alternatives. -/
def search? (view : View V) (alts scopes : List String) (name : String) : Option (Resolved V) :=
  (view.round? .scopeAlt .scope alts (inward scopes name)).or
    (view.round? .qualifiedAlt .qualified alts [name])

theorem inward_append (outer inner : List String) (name : String) :
    inward (outer ++ inner) name = inward inner name ++ inward outer name := by
  simp [inward]

theorem inward_insert (outer inner : List String) (scope name : String) :
    inward (outer ++ scope :: inner) name =
      inward inner name ++ within scope name :: inward outer name := by
  simp [inward]

theorem inward_blank (name : String) : inward [""] name = [name] := by
  simp [inward, within]

theorem firstHit?_eq_search? (view : View V) (scopes : List String) (name : String) :
    view.firstHit? scopes name = view.search? view.alts scopes name := by
  simp only [firstHit?, search?, round?, inward, List.findSome?_map, List.findSome?_singleton,
    Option.or_assoc, Function.comp_def]

theorem result_resolve? (view : View V) (scopes : List String) (name : String) :
    (view.resolve? scopes name).result = view.search? view.alts scopes name := by
  rw [resolve?_eq, firstHit?_eq_search?]

/-! ## One round -/

section
variable {alted plain : Step} {alts names : List String}

theorem of_hit? {step : Step} {key : String} {hit : Resolved V}
    (found : view.hit? step key = some hit) : hit.key = key ∧ hit.step = step := by
  obtain ⟨same, -⟩ := (hit?_eq_some_iff view step key hit).mp found
  obtain ⟨keys, steps⟩ := Prod.mk.inj same
  exact ⟨keys.symm, steps.symm⟩

theorem step_of_round? {hit : Resolved V} (found : view.round? alted plain alts names = some hit) :
    hit.step = alted ∨ hit.step = plain := by
  rcases Option.or_eq_some_iff.mp found with inAlt | ⟨-, asIs⟩
  · obtain ⟨alt, -, inNames⟩ := List.exists_of_findSome?_eq_some inAlt
    obtain ⟨name, -, here⟩ := List.exists_of_findSome?_eq_some inNames
    exact .inl (of_hit? here).2
  · obtain ⟨name, -, here⟩ := List.exists_of_findSome?_eq_some asIs
    exact .inr (of_hit? here).2

/-- Whether a round finds anything does not depend on its steps. -/
theorem round?_eq_none_iff :
    view.round? alted plain alts names = none ↔
      ∀ name ∈ names, (∀ alt ∈ alts, view.get? (withAlt name alt) = none) ∧ view.get? name = none := by
  simp only [round?, hit?, Option.or_eq_none_iff, List.findSome?_eq_none_iff, Option.map_eq_none_iff]
  constructor
  · rintro ⟨inAlt, asIs⟩ name member
    exact ⟨fun alt isAlt => inAlt alt isAlt name member, asIs name member⟩
  · intro missing
    exact ⟨fun alt isAlt name member => (missing name member).1 alt isAlt,
      fun name member => (missing name member).2⟩

/-- Where the hits of one view are those of another under other names and other steps, so are the
hits of a round, as long as the names may be changed before the alternative comes in or after. -/
theorem round?_translate {alted' plain' : Step} (rename : String → String)
    (change : Resolved V → Resolved V)
    (altHits : ∀ name, other.hit? alted' (rename name) = (view.hit? alted name).map change)
    (plainHits : ∀ name, other.hit? plain' (rename name) = (view.hit? plain name).map change)
    (commutes : ∀ name alt, withAlt (rename name) alt = rename (withAlt name alt)) :
    other.round? alted' plain' alts (names.map rename) =
      (view.round? alted plain alts names).map change := by
  simp only [round?, Option.map_or, List.map_findSome?, List.findSome?_map, Function.comp_def,
    commutes, altHits, plainHits]

/-- A round with other steps finds the same under those steps. -/
theorem round?_steps {alted' plain' : Step} (differ : alted ≠ plain) :
    view.round? alted' plain' alts names = (view.round? alted plain alts names).map fun hit =>
      { hit with step := if hit.step = alted then alted' else plain' } := by
  let change (hit : Resolved V) : Resolved V :=
    { hit with step := if hit.step = alted then alted' else plain' }
  have altHits (name : String) : view.hit? alted' name = (view.hit? alted name).map change := by
    simp [change, hit?, Option.map_map, Function.comp_def]
  have plainHits (name : String) : view.hit? plain' name = (view.hit? plain name).map change := by
    simp [change, hit?, Option.map_map, Function.comp_def, differ.symm]
  calc view.round? alted' plain' alts names
      = view.round? alted' plain' alts (names.map id) := by rw [List.map_id]
    _ = (view.round? alted plain alts names).map change :=
      round?_translate id change altHits plainHits fun _ _ => rfl

theorem round?_alted {alted' plain' : Step} (differ : alted ≠ plain) {key : String} {value : V}
    (found : view.round? alted plain alts names = some ⟨key, alted, value⟩) :
    view.round? alted' plain' alts names = some ⟨key, alted', value⟩ := by
  rw [round?_steps differ, found]
  simp

theorem round?_plain {alted' plain' : Step} (differ : alted ≠ plain) {key : String} {value : V}
    (found : view.round? alted plain alts names = some ⟨key, plain, value⟩) :
    view.round? alted' plain' alts names = some ⟨key, plain', value⟩ := by
  rw [round?_steps differ, found]
  simp [differ.symm]

end

/-- With no scope there is only the round outside. -/
theorem search?_nil (view : View V) (alts : List String) (name : String) :
    view.search? alts [] name = view.round? .qualifiedAlt .qualified alts [name] := by
  have nothing : view.round? .scopeAlt .scope alts (inward [] name) = none := by
    rw [round?_eq_none_iff]
    simp [inward]
  rw [search?, nothing, Option.none_or]

/-- A hit inside a scope comes from the first round. -/
theorem search?_eq_inside_iff {alts scopes : List String} {name : String} {hit : Resolved V}
    (isInside : hit.step = .scopeAlt ∨ hit.step = .scope) :
    view.search? alts scopes name = some hit ↔
      view.round? .scopeAlt .scope alts (inward scopes name) = some hit := by
  rw [search?, Option.or_eq_some_iff]
  constructor
  · rintro (found | ⟨-, later⟩)
    · exact found
    · rcases step_of_round? later with isOutside | isOutside <;> simp [isOutside] at isInside
  · exact .inl

/-! ## What a search reads -/

theorem search?_congr (same : ∀ name, view.get? name = other.get? name) (alts scopes : List String)
    (name : String) : view.search? alts scopes name = other.search? alts scopes name := by
  simp only [search?, round?, hit?, same]

/-- A resolution reads the alternatives of its directory and the values of names, and nothing
else. -/
theorem resolve?_congr (sameAlts : view.alts = other.alts)
    (same : ∀ name, view.get? name = other.get? name) (scopes : List String) (name : String) :
    view.resolve? scopes name = other.resolve? scopes name := by
  rw [resolve?_eq, resolve?_eq, firstHit?_eq_search?, firstHit?_eq_search?, sameAlts,
    search?_congr same]

theorem get?_editAlts (tree : Tree V) (dir place : Handle) (edit : List String → List String)
    (name : String) :
    (View.mk ((View.mk tree place).editAlts edit).tree dir).get? name =
      (View.mk tree dir).get? name := by
  have same := Tree.WellFormed.sameLinks_editAlts tree place edit
  simp only [get?_eq, same.follow_eq, Tree.WellFormed.leaves_editAlts]

/-- With other alternatives a directory resolves names as before, but with these. -/
theorem result_resolve?_editAlts (live : tree.IsLive dir) (edit : List String → List String)
    (scopes : List String) (name : String) :
    ((View.mk ((View.mk tree dir).editAlts edit).tree dir).resolve? scopes name).result =
      (View.mk tree dir).search? (edit (View.mk tree dir).alts) scopes name := by
  have newAlts : (View.mk ((View.mk tree dir).editAlts edit).tree dir).alts =
      edit (View.mk tree dir).alts := by
    simp only [alts, slot, editAlts, Outcome.tree_pure, Tree.slot_modify_self live.inside]
  rw [result_resolve?, newAlts, search?_congr (get?_editAlts tree dir dir edit)]

end SymbolTree.View
