import SymbolTree.Proofs.Rounds

/-!
# What a resolution does not tell apart

An alternative with a separator behind it is the same alternative, and what has been tried without
a hit need not be tried again.

* `closed_dot`, `withAlt_congr`: alternatives count in their closed form;
* `round?_swap_alt`, `round?_drop_alt`, `round?_drop_name`: a round with one item in another form, or
  without an item that stands further in front;
* `search?_blank`: the empty scope alone is no scope;
* `resolve?_redundant`: all of it for a resolution.
-/
namespace SymbolTree

/-- A separator behind an alternative that has none changes nothing. -/
theorem closed_dot {alt : String} (isOpen : alt.toList.getLast? ≠ some separator) :
    closed (alt ++ ".") = closed alt := by
  have dot : (".".toList : List Char) = [separator] := rfl
  have isClosed : (alt ++ ".").toList.getLast? = some separator := by simp [dot]
  rw [closed, closed, if_pos isClosed, if_neg isOpen]

theorem withAlt_congr {alt other : String} (same : closed alt = closed other) (name : String) :
    withAlt name alt = withAlt name other := by
  simp only [withAlt, same]

/-- An item that gives what an earlier one gives does not have to be tried. -/
theorem findSome?_drop {α β : Type} {f : α → Option β} {before after : List α} {item : α}
    (tried : ∃ earlier ∈ before, f earlier = f item) :
    (before ++ item :: after).findSome? f = (before ++ after).findSome? f := by
  obtain ⟨earlier, member, same⟩ := tried
  rw [List.findSome?_append, List.findSome?_append]
  cases first : before.findSome? f with
  | some hit => rfl
  | none =>
    have missed : f item = none := same ▸ List.findSome?_eq_none_iff.mp first earlier member
    rw [List.findSome?_cons, missed]

namespace View

variable {V : Type} {tree : Tree V} {dir : Handle}

/-! ## Rounds -/

section
variable (view : View V) (alted plain : Step) {alts names before after : List String}

theorem round?_swap_alt {alt other : String} (same : closed alt = closed other) :
    view.round? alted plain (before ++ alt :: after) names =
      view.round? alted plain (before ++ other :: after) names := by
  simp only [round?, List.findSome?_append, List.findSome?_cons, withAlt_congr same]

theorem round?_drop_alt {alt : String} (tried : ∃ earlier ∈ before, closed earlier = closed alt) :
    view.round? alted plain (before ++ alt :: after) names =
      view.round? alted plain (before ++ after) names := by
  obtain ⟨earlier, member, same⟩ := tried
  refine congrArg (Option.or · _) (findSome?_drop ⟨earlier, member, ?_⟩)
  simp only [withAlt_congr same]

theorem round?_drop_name {name : String} (tried : name ∈ before) :
    view.round? alted plain alts (before ++ name :: after) =
      view.round? alted plain alts (before ++ after) := by
  have dropped (f : String → Option (Resolved V)) :
      (before ++ name :: after).findSome? f = (before ++ after).findSome? f :=
    findSome?_drop ⟨name, tried, rfl⟩
  simp only [round?, dropped]

/-- A round with a name among others has found something if the round with this name alone does. -/
theorem round?_single_eq_none {name : String} {alted' plain' : Step} (member : name ∈ names)
    (nothing : view.round? alted plain alts names = none) :
    view.round? alted' plain' alts [name] = none := by
  rw [round?_eq_none_iff] at nothing ⊢
  intro only isName
  rw [List.mem_singleton.mp isName]
  exact nothing name member

end

/-! ## Searches -/

section
variable (view : View V) (scopes : List String) (name : String) {before after : List String}

theorem search?_swap_alt {alt other : String} (same : closed alt = closed other) :
    view.search? (before ++ alt :: after) scopes name =
      view.search? (before ++ other :: after) scopes name := by
  rw [search?, search?, view.round?_swap_alt _ _ same, view.round?_swap_alt _ _ same]

theorem search?_drop_alt {alt : String} (tried : ∃ earlier ∈ before, closed earlier = closed alt) :
    view.search? (before ++ alt :: after) scopes name =
      view.search? (before ++ after) scopes name := by
  rw [search?, search?, view.round?_drop_alt _ _ tried, view.round?_drop_alt _ _ tried]

end

/-- With an empty scope among the scopes the round outside finds nothing new. -/
theorem search?_of_blank (view : View V) (alts : List String) {scopes : List String}
    (blank : "" ∈ scopes) (name : String) :
    view.search? alts scopes name = view.round? .scopeAlt .scope alts (inward scopes name) := by
  have member : name ∈ inward scopes name := by
    refine List.mem_map.mpr ⟨"", List.mem_reverse.mpr blank, ?_⟩
    simp [within]
  rw [search?]
  cases first : view.round? .scopeAlt .scope alts (inward scopes name) with
  | some hit => rfl
  | none => exact view.round?_single_eq_none _ _ member first

/-- The empty scope alone finds what there is outside every scope, in the steps of a scope. -/
theorem search?_blank (view : View V) (alts : List String) (name : String) :
    view.search? alts [""] name = (view.search? alts [] name).map fun hit =>
      { hit with step := if hit.step = .qualifiedAlt then .scopeAlt else .scope } := by
  rw [search?_of_blank view alts List.mem_cons_self, inward_blank, search?_nil]
  exact round?_steps (by decide)

theorem search?_drop_scope (view : View V) (alts : List String) {outer inner : List String}
    {scope : String} (again : scope ∈ inner) (name : String) :
    view.search? alts (outer ++ scope :: inner) name = view.search? alts (outer ++ inner) name := by
  have tried : within scope name ∈ inward inner name :=
    List.mem_map.mpr ⟨scope, List.mem_reverse.mpr again, rfl⟩
  rw [search?, search?, inward_insert, inward_append, round?_drop_name view _ _ tried]

/-- The answer of a directory in a tree does not change

1. when one of its alternatives that does not end in a separator gets one behind it, or loses it;
2. when an alternative goes that is an earlier one up to such a separator;
3. when a scope goes that stands again further inside.

The empty scope qualifies nothing: alone it gives the answer outside every scope under the steps of
a scope, and where it is among the scopes no answer comes from outside them. -/
theorem resolve?_redundant (live : tree.IsLive dir) (scopes : List String) (name : String) :
    let view : View V := ⟨tree, dir⟩
    let found (searched : List String) := (view.resolve? searched name).result
    let foundWith (alts : List String) :=
      ((View.mk (view.editAlts fun _ => alts).tree dir).resolve? scopes name).result
    (∀ before alt after, alt.toList.getLast? ≠ some separator →
      (view.alts = before ++ alt :: after →
        foundWith (before ++ (alt ++ ".") :: after) = found scopes) ∧
      (view.alts = before ++ (alt ++ ".") :: after →
        foundWith (before ++ alt :: after) = found scopes)) ∧
    (∀ before alt after, view.alts = before ++ alt :: after →
      (∃ earlier ∈ before, closed earlier = closed alt) →
        foundWith (before ++ after) = found scopes) ∧
    (∀ outer scope inner, scopes = outer ++ scope :: inner → scope ∈ inner →
      found (outer ++ inner) = found scopes) ∧
    (∀ hit, found [] = some hit → hit.step = .qualifiedAlt ∨ hit.step = .qualified) ∧
    found [""] = ((found []).map fun hit =>
      { hit with step := if hit.step = .qualifiedAlt then .scopeAlt else .scope }) ∧
    ("" ∈ scopes → ∀ hit, found scopes = some hit → hit.step = .scopeAlt ∨ hit.step = .scope) := by
  intro view found foundWith
  have searched (scopes : List String) : found scopes = view.search? view.alts scopes name :=
    result_resolve? view scopes name
  have searchedWith (alts : List String) : foundWith alts = view.search? alts scopes name :=
    result_resolve?_editAlts live (fun _ => alts) scopes name
  refine ⟨?ending, ?alternative, ?scope, ?outside, ?alone, ?among⟩
  case ending =>
    intro before alt after isOpen
    have same : view.search? (before ++ (alt ++ ".") :: after) scopes name =
        view.search? (before ++ alt :: after) scopes name :=
      view.search?_swap_alt scopes name (closed_dot isOpen)
    constructor
    · intro split
      rw [searchedWith, searched, split, same]
    · intro split
      rw [searchedWith, searched, split, same]
  case alternative =>
    intro before alt after split tried
    rw [searchedWith, searched, split, view.search?_drop_alt scopes name tried]
  case scope =>
    intro outer scope inner split again
    rw [searched, searched, split, search?_drop_scope view _ again]
  case outside =>
    intro hit h
    rw [searched, search?_nil] at h
    exact step_of_round? h
  case alone => rw [searched, searched, search?_blank]
  case among =>
    intro blank hit h
    rw [searched, search?_of_blank view _ blank] at h
    exact step_of_round? h

/-- An alternative in two forms and a scope named twice. -/
theorem resolve?_redundant_repeated :
    let commands : List (Command Nat) :=
      [.extend [("N.Over.Foo", 1), ("N.Foo", 2), ("Foo", 3)],
        .inside [] (.editAlts fun _ => ["Over", "Over.", ""])]
    let tree := (Tree.empty.runAll commands).tree
    let view : View Nat := ⟨tree, tree.rootHandle⟩
    let found (searched : List String) := (view.resolve? searched "Foo").result
    let foundWith (alts : List String) :=
      ((View.mk (view.editAlts fun _ => alts).tree view.handle).resolve? ["N", "M", "N"] "Foo").result
    found ["N", "M", "N"] = some ⟨"N.Over.Foo", .scopeAlt, 1⟩ ∧
      foundWith ["Over.", "Over.", ""] = found ["N", "M", "N"] ∧
      foundWith ["Over", "Over", ""] = found ["N", "M", "N"] ∧
      foundWith ["Over", ""] = found ["N", "M", "N"] ∧
      found ["M", "N"] = found ["N", "M", "N"] ∧
      found [""] = some ⟨"Foo", .scope, 3⟩ := by
  intro commands tree view found foundWith
  have live : tree.IsLive view.handle := by decide +kernel
  have alts : view.alts = ["Over", "Over.", ""] := by decide +kernel
  have bare : found [] = some ⟨"Foo", .qualified, 3⟩ := by decide +kernel
  obtain ⟨ending, alternative, scope, -, alone, -⟩ :=
    resolve?_redundant live ["N", "M", "N"] "Foo"
  refine ⟨by decide +kernel, ?_, ?_, ?_, ?_, ?_⟩
  · exact (ending [] "Over" ["Over.", ""] (by decide)).1 alts
  · exact (ending ["Over"] "Over" [""] (by decide)).2 alts
  · exact alternative ["Over"] "Over." [""] alts ⟨"Over", by simp, by decide⟩
  · exact scope [] "N" ["M", "N"] rfl (by simp)
  · exact alone.trans (congrArg (Option.map _) bare)

end View
end SymbolTree
