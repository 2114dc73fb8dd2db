import SymbolTree.Proofs.Arrangements
import SymbolTree.Proofs.Prefixed
import SymbolTree.Proofs.Rounds

/-!
# Shadowing

How far one change reaches into the resolution of a name. A new entry, a new alternative or a new
scope can take the place of the old answer only with a name of its own, and what happens outside the
directory is not seen at all.

* `ChangesOnlyTo`: the old answer, or a hit of a certain kind; rounds and searches keep it;
* `round?_insert_alt`, `round?_insert_name`: one alternative more, and one name more;
* `seen_insert`, `seen_erase`: what an edit at one directory does to look-ups in another;
* `shadowing_confined`: all of it for a resolution.
-/
namespace SymbolTree

/-! ## Answers that change in one way only -/

/-- The new answer is the old one, or a hit of a certain kind. -/
def ChangesOnlyTo {α : Type} (kind : α → Prop) (old new : Option α) : Prop :=
  new = old ∨ ∃ hit, new = some hit ∧ kind hit

namespace ChangesOnlyTo

variable {α β : Type} {kind : α → Prop} {old new old' new' : Option α}

theorem refl (old : Option α) : ChangesOnlyTo kind old old := .inl rfl

/-- A hit may give way to another one, but it is not lost. -/
theorem isSome (changes : ChangesOnlyTo kind old new) (found : old.isSome) : new.isSome := by
  rcases changes with rfl | ⟨hit, rfl, -⟩
  · exact found
  · rfl

theorem mono {wider : α → Prop} (changes : ChangesOnlyTo kind old new)
    (weaken : ∀ hit, kind hit → wider hit) : ChangesOnlyTo wider old new := by
  rcases changes with same | ⟨hit, found, isKind⟩
  · exact .inl same
  · exact .inr ⟨hit, found, weaken hit isKind⟩

theorem or (first : ChangesOnlyTo kind old new) (second : ChangesOnlyTo kind old' new') :
    ChangesOnlyTo kind (old.or old') (new.or new') := by
  rcases first with rfl | ⟨hit, rfl, isKind⟩
  · cases new with
    | none => exact second
    | some hit => exact .inl rfl
  · exact .inr ⟨hit, rfl, isKind⟩

theorem findSome? {items : List β} {f g : β → Option α}
    (each : ∀ item ∈ items, ChangesOnlyTo kind (f item) (g item)) :
    ChangesOnlyTo kind (items.findSome? f) (items.findSome? g) := by
  induction items with
  | nil => exact refl _
  | cons item items ih =>
    have first := each item List.mem_cons_self
    have rest := ih fun other member => each other (List.mem_cons_of_mem _ member)
    have split (h : β → Option α) :
        (item :: items).findSome? h = (h item).or (items.findSome? h) := by
      rw [List.findSome?_cons]
      cases h item <;> rfl
    rw [split, split]
    exact first.or rest

/-- One more item to try changes the answer to what is found at that item. -/
theorem insert {before after : List β} {item : β} {f : β → Option α}
    (isKind : ∀ hit, f item = some hit → kind hit) :
    ChangesOnlyTo kind ((before ++ after).findSome? f) ((before ++ item :: after).findSome? f) := by
  rw [List.findSome?_append, List.findSome?_append]
  refine (refl _).or ?_
  cases here : f item with
  | none =>
    rw [List.findSome?_cons, here]
    exact refl _
  | some hit => exact .inr ⟨hit, by rw [List.findSome?_cons, here], isKind hit here⟩

end ChangesOnlyTo

variable {V : Type} {tree : Tree V} {dir place : Handle}

/-- A name that the alternative `alt` makes out of `name`. -/
def Resolved.UsesAlt (hit : Resolved V) (alt : String) (scopes : List String) (name : String) : Prop :=
  (hit.step = .scopeAlt ∧ ∃ scope ∈ scopes, hit.key = withAlt (within scope name) alt) ∨
    (hit.step = .qualifiedAlt ∧ hit.key = withAlt name alt)

/-- A name that the scope `scope` makes out of `name`. -/
def Resolved.UsesScope (hit : Resolved V) (scope : String) (alts : List String) (name : String) :
    Prop :=
  (hit.step = .scopeAlt ∧ ∃ alt ∈ alts, hit.key = withAlt (within scope name) alt) ∨
    (hit.step = .scope ∧ hit.key = within scope name)

namespace View

/-! ## One alternative or one name more -/

theorem round?_insert_alt (view : View V) (alted plain : Step) (before after names : List String)
    (alt : String) :
    ChangesOnlyTo (fun hit => hit.step = alted ∧ ∃ name ∈ names, hit.key = withAlt name alt)
      (view.round? alted plain (before ++ after) names)
      (view.round? alted plain (before ++ alt :: after) names) := by
  refine (ChangesOnlyTo.insert ?_).or (.refl _)
  intro hit found
  obtain ⟨name, member, here⟩ := List.exists_of_findSome?_eq_some found
  obtain ⟨key, step⟩ := of_hit? here
  exact ⟨step, name, member, key⟩

theorem round?_insert_name (view : View V) (alted plain : Step) (alts before after : List String)
    (name : String) :
    ChangesOnlyTo (fun hit => (hit.step = alted ∧ ∃ alt ∈ alts, hit.key = withAlt name alt) ∨
        (hit.step = plain ∧ hit.key = name))
      (view.round? alted plain alts (before ++ after))
      (view.round? alted plain alts (before ++ name :: after)) := by
  refine (ChangesOnlyTo.findSome? fun alt isAlt => .insert ?inAlt).or (.insert ?asIs)
  case inAlt =>
    intro hit found
    obtain ⟨key, step⟩ := of_hit? found
    exact .inl ⟨step, alt, isAlt, key⟩
  case asIs =>
    intro hit found
    obtain ⟨key, step⟩ := of_hit? found
    exact .inr ⟨step, key⟩

theorem search?_insert_alt (view : View V) (before after scopes : List String) (alt name : String) :
    ChangesOnlyTo (Resolved.UsesAlt · alt scopes name) (view.search? (before ++ after) scopes name)
      (view.search? (before ++ alt :: after) scopes name) := by
  refine ((round?_insert_alt view _ _ before after _ alt).mono ?inside).or
    ((round?_insert_alt view _ _ before after _ alt).mono ?outside)
  case inside =>
    rintro hit ⟨step, inScope, member, key⟩
    obtain ⟨scope, isScope, rfl⟩ := List.mem_map.mp member
    exact .inl ⟨step, scope, List.mem_reverse.mp isScope, key⟩
  case outside =>
    rintro hit ⟨step, bare, member, key⟩
    exact .inr ⟨step, List.mem_singleton.mp member ▸ key⟩

theorem search?_insert_scope (view : View V) (alts outer inner : List String) (scope name : String) :
    ChangesOnlyTo (Resolved.UsesScope · scope alts name) (view.search? alts (outer ++ inner) name)
      (view.search? alts (outer ++ scope :: inner) name) := by
  rw [search?, search?, inward_append, inward_insert]
  exact (round?_insert_name view _ _ alts _ _ _).or (.refl _)

/-- A search follows the change of its hits. -/
theorem search?_changesOnlyTo {kind : Resolved V → Prop} {view later : View V}
    (hits : ∀ step key, ChangesOnlyTo kind (view.hit? step key) (later.hit? step key))
    (alts scopes : List String) (name : String) :
    ChangesOnlyTo kind (view.search? alts scopes name) (later.search? alts scopes name) := by
  have round (alted plain : Step) (names : List String) : ChangesOnlyTo kind
      (view.round? alted plain alts names) (later.round? alted plain alts names) :=
    (ChangesOnlyTo.findSome? fun _ _ => .findSome? fun _ _ => hits _ _).or
      (.findSome? fun _ _ => hits _ _)
  exact (round _ _ _).or (round _ _ _)

/-! ## Edits at another directory -/

theorem get?_eq_valueAt (wf : tree.WellFormed) {path : List String}
    (reach : tree.follow tree.rootHandle path = some dir) (name : String) :
    (View.mk tree dir).get? name = tree.valueAt (Key.inside path name) := by
  have free := wf.follow_free wf.root_live reach
  rw [← get?_whole free reach, Tree.root_get?, Model.parse_whole path free]

/-- Names in two directories are one entry if they are the same name from the root. -/
theorem inside_eq_iff (wf : tree.WellFormed) {path way : List String}
    (reach : tree.follow tree.rootHandle path = some dir)
    (reach' : tree.follow tree.rootHandle way = some place) (name key : String) :
    Key.inside path name = Key.inside way key ↔
      (View.mk tree dir).full name = (View.mk tree place).full key := by
  have parsed : Key.parse ((View.mk tree dir).full name) = Key.inside path name :=
    parse_full wf reach name
  have parsed' : Key.parse ((View.mk tree place).full key) = Key.inside way key :=
    parse_full wf reach' key
  rw [← parsed, ← parsed']
  exact ⟨Key.parse_inj, congrArg Key.parse⟩

theorem alts_eq_of_altsAt {later : Tree V} {path : List String}
    (reach : tree.follow tree.rootHandle path = some dir)
    (laterReach : later.follow later.rootHandle path = some dir)
    (kept : later.altsAt path = tree.altsAt path) :
    (View.mk later dir).alts = (View.mk tree dir).alts := by
  rw [Tree.altsAt_of_follow laterReach, Tree.altsAt_of_follow reach] at kept
  exact Option.some.inj kept

/-- An insertion at one directory, seen from another. -/
theorem seen_insert (wf : tree.WellFormed) (live : tree.IsLive dir) (placeLive : tree.IsLive place)
    (key : String) (value : V) :
    let later := ((View.mk tree place).insert key value).tree
    (View.mk later dir).alts = (View.mk tree dir).alts ∧
      ∀ name, (View.mk later dir).get? name =
        if (View.mk tree dir).full name = (View.mk tree place).full key then some value
        else (View.mk tree dir).get? name := by
  intro later
  obtain ⟨path, reach⟩ := wf.exists_way live
  obtain ⟨way, reach'⟩ := wf.exists_way placeLive
  have more := wf.extends_insert placeLive key value
  have laterWf : later.WellFormed := wf.wellFormed_insert placeLive key value
  have laterReach : later.follow later.rootHandle path = some dir := by
    rw [more.rootHandle_eq]
    exact more.follow reach
  constructor
  · apply alts_eq_of_altsAt reach laterReach
    rw [wf.altsAt_insert reach', Tree.altsAt_of_follow reach, Option.some_or]
  · intro name
    rw [get?_eq_valueAt laterWf laterReach, wf.valueAt_insert reach', get?_eq_valueAt wf reach]
    exact if_congr (inside_eq_iff wf reach reach' name key) rfl rfl

/-- A removal at one directory, seen from another. -/
theorem seen_erase (wf : tree.WellFormed) (live : tree.IsLive dir) (placeLive : tree.IsLive place)
    (key : String) :
    let later := ((View.mk tree place).erase key).tree
    (View.mk later dir).alts = (View.mk tree dir).alts ∧
      ∀ name, (View.mk later dir).get? name =
        if (View.mk tree dir).full name = (View.mk tree place).full key then none
        else (View.mk tree dir).get? name := by
  intro later
  obtain ⟨path, reach⟩ := wf.exists_way live
  obtain ⟨way, reach'⟩ := wf.exists_way placeLive
  have same := Tree.WellFormed.sameLinks_erase tree place key
  have laterWf : later.WellFormed := wf.wellFormed_erase placeLive key
  have laterReach : later.follow later.rootHandle path = some dir := by
    rw [same.rootHandle_eq, same.follow_eq]
    exact reach
  constructor
  · exact alts_eq_of_altsAt reach laterReach (Tree.WellFormed.altsAt_erase tree place key path)
  · intro name
    rw [get?_eq_valueAt laterWf laterReach, wf.valueAt_erase reach', get?_eq_valueAt wf reach]
    exact if_congr (inside_eq_iff wf reach reach' name key) rfl rfl

/-- A name that a directory does not cover is none of the names in it. -/
theorem full_ne_of_not_covers (wf : tree.WellFormed) (live : tree.IsLive dir) {key : String}
    (outside : (View.mk tree dir).covers key = false) (name : String) :
    (View.mk tree dir).full name ≠ key := by
  obtain ⟨path, reach⟩ := wf.exists_way live
  intro same
  have covered := (covers_iff wf reach key).mpr ⟨name, same.symm⟩
  rw [outside] at covered
  cases covered

/-! ## Edits and answers -/

/-- A new entry changes an answer to itself or not at all. -/
theorem resolve?_insert (wf : tree.WellFormed) (live : tree.IsLive dir) (key : String) (value : V)
    (scopes : List String) (name : String) :
    ChangesOnlyTo (fun hit => hit.key = key ∧ hit.value = value)
      ((View.mk tree dir).resolve? scopes name).result
      ((View.mk ((View.mk tree dir).insert key value).tree dir).resolve? scopes name).result := by
  obtain ⟨sameAlts, looked⟩ := seen_insert wf live live key value
  rw [result_resolve?, result_resolve?, sameAlts]
  refine search?_changesOnlyTo ?_ _ scopes name
  intro step other
  rw [hit?, hit?, looked]
  split
  · rename_i same
    exact .inr ⟨⟨other, step, value⟩, rfl, full_inj _ same, rfl⟩
  · exact .refl _

/-- The answer before a removal is the one after it, or it was the entry that is gone. -/
theorem resolve?_erase (wf : tree.WellFormed) (live : tree.IsLive dir) (key : String)
    (scopes : List String) (name : String) :
    ChangesOnlyTo (fun hit => hit.key = key)
      ((View.mk ((View.mk tree dir).erase key).tree dir).resolve? scopes name).result
      ((View.mk tree dir).resolve? scopes name).result := by
  obtain ⟨sameAlts, looked⟩ := seen_erase wf live live key
  rw [result_resolve?, result_resolve?, sameAlts]
  refine search?_changesOnlyTo ?_ _ scopes name
  intro step other
  rw [hit?, hit?, looked]
  split
  · rename_i same
    cases (View.mk tree dir).get? other with
    | none => exact .refl _
    | some value => exact .inr ⟨⟨other, step, value⟩, rfl, full_inj _ same⟩
  · exact .refl _

theorem resolve?_insert_alt (live : tree.IsLive dir) {before after : List String}
    (split : (View.mk tree dir).alts = before ++ after) (alt : String) (scopes : List String)
    (name : String) :
    ChangesOnlyTo (Resolved.UsesAlt · alt scopes name)
      ((View.mk tree dir).resolve? scopes name).result
      ((View.mk ((View.mk tree dir).editAlts fun _ => before ++ alt :: after).tree dir).resolve? scopes
        name).result := by
  rw [result_resolve?_editAlts live, result_resolve?, split]
  exact search?_insert_alt _ before after scopes alt name

theorem resolve?_insert_scope (view : View V) (outer inner : List String) (scope name : String) :
    ChangesOnlyTo (Resolved.UsesScope · scope view.alts name)
      (view.resolve? (outer ++ inner) name).result
      (view.resolve? (outer ++ scope :: inner) name).result := by
  rw [result_resolve?, result_resolve?]
  exact search?_insert_scope view view.alts outer inner scope name

/-- An edit of the alternatives of one directory is not seen in another. -/
theorem resolve?_editAlts_other (live : tree.IsLive dir) (placeLive : tree.IsLive place)
    (apart : place ≠ dir) (edit : List String → List String) (scopes : List String) (name : String) :
    (View.mk ((View.mk tree place).editAlts edit).tree dir).resolve? scopes name =
      (View.mk tree dir).resolve? scopes name := by
  have otherSlot : dir.index ≠ place.index := fun same =>
    apart (live.eq_of_index placeLive.current same).symm
  refine resolve?_congr ?_ (get?_editAlts tree dir place edit) scopes name
  simp only [alts, slot, editAlts, Outcome.tree_pure, Tree.slot_modify_other otherSlot]

/-- An entry outside a directory can come and go without being seen there. -/
theorem resolve?_outside (wf : tree.WellFormed) (live : tree.IsLive dir)
    (placeLive : tree.IsLive place) {key : String}
    (outside : (View.mk tree dir).covers ((View.mk tree place).full key) = false)
    (scopes : List String) (name : String) :
    (∀ value, (View.mk ((View.mk tree place).insert key value).tree dir).resolve? scopes name =
        (View.mk tree dir).resolve? scopes name) ∧
      (View.mk ((View.mk tree place).erase key).tree dir).resolve? scopes name =
        (View.mk tree dir).resolve? scopes name := by
  have apart := full_ne_of_not_covers wf live outside
  constructor
  · intro value
    obtain ⟨sameAlts, looked⟩ := seen_insert wf live placeLive key value
    exact resolve?_congr sameAlts (fun other => by rw [looked, if_neg (apart other)]) scopes name
  · obtain ⟨sameAlts, looked⟩ := seen_erase wf live placeLive key
    exact resolve?_congr sameAlts (fun other => by rw [looked, if_neg (apart other)]) scopes name

/-- In a tree that some commands have built, its tables in any order, let a directory resolve a name.

1. A new entry below it leaves the answer as it is, or is the answer.
2. An entry that is taken out leaves the answer as it is, if it was not the answer.
3. One alternative or one scope more, at any place in its list, leaves the answer as it is, or the
   answer is a name that it makes.
4. Entries that are not below the directory come and go unseen, and so do the alternatives of every
   other directory.

In 1 and 3 a hit stays a hit. -/
theorem shadowing_confined [BEq V] (arises : tree.Arises) (live : tree.IsLive dir)
    (scopes : List String) (name : String) :
    let view : View V := ⟨tree, dir⟩
    let answer (later : Tree V) := ((View.mk later dir).resolve? scopes name).result
    let old := answer tree
    (∀ key value,
      let new := answer (view.insert key value).tree
      ChangesOnlyTo (fun hit => hit.key = key ∧ hit.value = value) old new ∧
        (old.isSome → new.isSome)) ∧
    (∀ key, (∀ hit, old = some hit → hit.key ≠ key) →
      answer (view.erase key).tree = old ∧ ∀ value, answer (view.eraseIf key value).tree = old) ∧
    (∀ before after alt, view.alts = before ++ after →
      let new := answer (view.editAlts fun _ => before ++ alt :: after).tree
      ChangesOnlyTo (Resolved.UsesAlt · alt scopes name) old new ∧ (old.isSome → new.isSome)) ∧
    (∀ outer inner scope, scopes = outer ++ inner →
      let new := (view.resolve? (outer ++ scope :: inner) name).result
      ChangesOnlyTo (Resolved.UsesScope · scope view.alts name) old new ∧
        (old.isSome → new.isSome)) ∧
    (∀ place key, tree.IsLive place → view.covers ((View.mk tree place).full key) = false →
      let there : View V := ⟨tree, place⟩
      (∀ value, answer (there.insert key value).tree = old) ∧ answer (there.erase key).tree = old ∧
        ∀ value, answer (there.eraseIf key value).tree = old) ∧
    ∀ place edit, tree.IsLive place → place ≠ dir →
      answer ((View.mk tree place).editAlts edit).tree = old := by
  intro view answer old
  have wf := arises.wellFormed
  -- Taking out on a condition takes out or does nothing.
  have orNothing (place : Handle) (key : String) (value : V)
      (taken : answer ((View.mk tree place).erase key).tree = old) :
      answer ((View.mk tree place).eraseIf key value).tree = old := by
    rcases Tree.WellFormed.tree_eraseIf ⟨tree, place⟩ key value with same | same
    · rw [same]
      exact taken
    · rw [same]
  refine ⟨?insertion, ?removal, ?alternative, ?scope, ?outside, ?elsewhere⟩
  case insertion =>
    intro key value new
    have changes := resolve?_insert wf live key value scopes name
    exact ⟨changes, changes.isSome⟩
  case removal =>
    intro key notThis
    have taken : answer (view.erase key).tree = old := by
      rcases resolve?_erase wf live key scopes name with same | ⟨hit, found, isKey⟩
      · exact same.symm
      · exact absurd isKey (notThis hit found)
    exact ⟨taken, fun value => orNothing dir key value taken⟩
  case alternative =>
    intro before after alt split new
    have changes : ChangesOnlyTo (Resolved.UsesAlt · alt scopes name) old new :=
      resolve?_insert_alt live split alt scopes name
    exact ⟨changes, changes.isSome⟩
  case scope =>
    intro outer inner scope split new
    have changes : ChangesOnlyTo (Resolved.UsesScope · scope view.alts name)
        (view.resolve? (outer ++ inner) name).result new :=
      resolve?_insert_scope view outer inner scope name
    rw [← split] at changes
    exact ⟨changes, changes.isSome⟩
  case outside =>
    intro place key placeLive outside there
    obtain ⟨inserted, erased⟩ := resolve?_outside wf live placeLive outside scopes name
    have taken : answer (there.erase key).tree = old := congrArg Reported.result erased
    exact ⟨fun value => congrArg Reported.result (inserted value), taken,
      fun value => orNothing place key value taken⟩
  case elsewhere =>
    intro place edit placeLive apart
    exact congrArg Reported.result (resolve?_editAlts_other live placeLive apart edit scopes name)

/-- A new entry takes the place of the answer, one outside the directory does not. One more
alternative and one more scope keep a hit, and the answer stays when another entry goes. -/
theorem shadowing_confined_inner :
    let commands : List (Command Nat) := [.extend [("A.N.Foo", 1), ("A.M.Foo", 2), ("N.Foo", 3)]]
    let tree := (Tree.empty.runAll commands).tree
    let view : View Nat := ⟨tree, ⟨1, 0⟩⟩
    let answer (later : Tree Nat) := ((View.mk later view.handle).resolve? ["N"] "Foo").result
    answer tree = some ⟨"N.Foo", .scope, 1⟩ ∧
      answer (view.insert "N..Foo" 4).tree = some ⟨"N..Foo", .scopeAlt, 4⟩ ∧
      ChangesOnlyTo (fun hit => hit.key = "N..Foo" ∧ hit.value = 4) (answer tree)
        (answer (view.insert "N..Foo" 4).tree) ∧
      answer (view.erase "M.Foo").tree = answer tree ∧
      (answer (view.editAlts fun _ => ["", "Java"]).tree).isSome ∧
      (view.resolve? ["N", "M"] "Foo").result.isSome ∧
      answer (tree.root.insert "N..Foo" 5).tree = answer tree ∧
      answer (tree.root.editAlts fun _ => ["M"]).tree = answer tree := by
  intro commands tree view answer
  have arises : tree.Arises := Tree.Reachable.arises ⟨commands, rfl⟩
  have live : tree.IsLive view.handle := by decide +kernel
  have found : answer tree = some ⟨"N.Foo", .scope, 1⟩ := by decide +kernel
  have isHit : (answer tree).isSome := by
    rw [found]
    rfl
  obtain ⟨inserted, erased, altAdded, scopeAdded, outside, elsewhere⟩ :=
    shadowing_confined arises live ["N"] "Foo"
  have notThis : ∀ hit, answer tree = some hit → hit.key ≠ "M.Foo" := by
    intro hit same
    rw [found] at same
    cases same
    decide
  refine ⟨found, by decide +kernel, (inserted "N..Foo" 4).1, (erased "M.Foo" notThis).1, ?_, ?_, ?_, ?_⟩
  · exact (altAdded [""] [] "Java" (by decide +kernel)).2 isHit
  · exact (scopeAdded ["N"] [] "M" rfl).2 isHit
  · exact (outside tree.rootHandle "N..Foo" (by decide +kernel) (by decide +kernel)).1 5
  · exact elsewhere tree.rootHandle _ (by decide +kernel) (by decide +kernel)

end View
end SymbolTree
