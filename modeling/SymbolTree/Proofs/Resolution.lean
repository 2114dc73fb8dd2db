import SymbolTree.Proofs.Edits
import SymbolTree.Proofs.Enumeration
import SymbolTree.Resolution.Candidates

/-!
# Resolution is the search of the candidates

Which candidate is the hit is said with the entries of the directory alone: the first one whose key
has an entry.

* `IsFirst`: a hit is the first candidate that is among the entries;
* `firstHit?_eq_some_iff`, `firstHit?_eq_none_iff`: the search finds that one, or there is none;
* `report`: the one event of every way of asking.
-/
namespace SymbolTree.View

variable {V : Type} {tree : Tree V} {dir : Handle}

/-- The hit is the first of the names tried that is among the entries; its value stands there. -/
def IsFirst (view : View V) (tried : List (String × Step)) (hit : Resolved V) : Prop :=
  ∃ before after, tried = before ++ (hit.key, hit.step) :: after ∧
    (∀ earlier ∈ before, earlier.1 ∉ view.keys) ∧ (hit.key, hit.value) ∈ view.entries

theorem hit?_eq_some_iff (view : View V) (step : Step) (key : String) (hit : Resolved V) :
    view.hit? step key = some hit ↔
      (key, step) = (hit.key, hit.step) ∧ view.get? hit.key = some hit.value := by
  obtain ⟨found, kind, value⟩ := hit
  rw [hit?, Option.map_eq_some_iff, Prod.mk.injEq]
  constructor
  · rintro ⟨held, looked, same⟩
    cases same
    exact ⟨⟨rfl, rfl⟩, looked⟩
  · rintro ⟨⟨rfl, rfl⟩, looked⟩
    exact ⟨value, looked, rfl⟩

theorem hit?_eq_none_iff (wf : tree.WellFormed) (live : tree.IsLive dir) (step : Step)
    (key : String) : (View.mk tree dir).hit? step key = none ↔ key ∉ (View.mk tree dir).keys := by
  rw [hit?, Option.map_eq_none_iff, keys, List.mem_map, Option.eq_none_iff_forall_ne_some]
  constructor
  · rintro absent ⟨⟨_, value⟩, member, rfl⟩
    exact absent value ((mem_entries_iff wf live _ _).mp member)
  · intro absent value looked
    exact absent ⟨(key, value), (mem_entries_iff wf live _ _).mpr looked, rfl⟩

theorem firstHit?_eq_some_iff (wf : tree.WellFormed) (live : tree.IsLive dir)
    (scopes : List String) (name : String) (hit : Resolved V) :
    (View.mk tree dir).firstHit? scopes name = some hit ↔
      (View.mk tree dir).IsFirst (candidates (View.mk tree dir).alts scopes name) hit := by
  rw [firstHit?_eq_findSome?, List.findSome?_eq_some_iff]
  constructor
  · rintro ⟨before, ⟨key, step⟩, after, listed, found, missed⟩
    obtain ⟨same, looked⟩ := (hit?_eq_some_iff _ _ _ _).mp found
    refine ⟨before, after, same ▸ listed, ?_, (mem_entries_iff wf live _ _).mpr looked⟩
    intro earlier member
    exact (hit?_eq_none_iff wf live _ _).mp (missed earlier member)
  · rintro ⟨before, after, listed, missed, member⟩
    have looked := (mem_entries_iff wf live _ _).mp member
    refine ⟨before, (hit.key, hit.step), after, listed, ?_, ?_⟩
    · exact (hit?_eq_some_iff _ _ _ _).mpr ⟨rfl, looked⟩
    · intro earlier member
      exact (hit?_eq_none_iff wf live _ _).mpr (missed earlier member)

theorem firstHit?_eq_none_iff (wf : tree.WellFormed) (live : tree.IsLive dir)
    (scopes : List String) (name : String) :
    (View.mk tree dir).firstHit? scopes name = none ↔
      ∀ tried ∈ candidates (View.mk tree dir).alts scopes name,
        tried.1 ∉ (View.mk tree dir).keys := by
  rw [firstHit?_eq_findSome?, List.findSome?_eq_none_iff]
  constructor
  · intro missed tried member
    exact (hit?_eq_none_iff wf live _ _).mp (missed tried member)
  · intro absent tried member
    exact (hit?_eq_none_iff wf live _ _).mpr (absent tried member)

/-- The event of a resolution: the hit, or the name and the number of scopes. -/
def report (scopes : List String) (name : String) : Option (Resolved V) → Event
  | some hit => .resolved name hit.key hit.step
  | none => .unresolved name scopes.length

theorem resolve?_eq (view : View V) (scopes : List String) (name : String) :
    view.resolve? scopes name =
      ⟨view.firstHit? scopes name, report scopes name (view.firstHit? scopes name)⟩ := by
  unfold resolve?
  cases view.firstHit? scopes name <;> rfl

/-- In a tree that some commands have built, a directory resolves a name to the first candidate
that its entries have. All ways of asking give the value of that one answer, or the fallback, and
report it by that one event; asking outside every scope is asking with no scope. -/
theorem resolve?_first_candidate [BEq V] (reachable : tree.Reachable) (live : tree.IsLive dir)
    (scopes : List String) (name : String) :
    let view : View V := ⟨tree, dir⟩
    let tried := candidates view.alts scopes name
    let found := (view.resolve? scopes name).result
    (∀ hit, found = some hit ↔ view.IsFirst tried hit) ∧
      (∀ hit, found = some hit → view.get? hit.key = some hit.value) ∧
      (found = none ↔ ∀ candidate ∈ tried, candidate.1 ∉ view.keys) ∧
      (view.resolve? scopes name).event = report scopes name found ∧
      view.value? scopes name = ⟨found.map Resolved.value, report scopes name found⟩ ∧
      (∀ fallback, view.valueD scopes name fallback =
        ⟨(found.map Resolved.value).getD fallback, report scopes name found⟩) ∧
      (∀ [Inhabited V], view.valueOrDefault scopes name =
        ⟨(found.map Resolved.value).getD default, report scopes name found⟩) ∧
      (∀ fallback, view.bareValueD name fallback = view.valueD [] name fallback) ∧
      ∀ [Inhabited V], view.bareValueOrDefault name = view.valueOrDefault [] name := by
  intro view tried found
  have wf := reachable.wellFormed
  have answer := resolve?_eq view scopes name
  have same : found = view.firstHit? scopes name := congrArg Reported.result answer
  have first : ∀ hit, found = some hit ↔ view.IsFirst tried hit := by
    intro hit
    rw [same]
    exact firstHit?_eq_some_iff wf live scopes name hit
  have event : (view.resolve? scopes name).event = report scopes name found := by
    rw [same, answer]
  have asked : view.value? scopes name = ⟨found.map Resolved.value, report scopes name found⟩ := by
    rw [value?, Reported.map, event]
  refine ⟨first, ?value, ?absent, event, asked, ?fallback, ?default, fun _ => rfl, rfl⟩
  case value =>
    intro hit h
    obtain ⟨_, _, _, _, member⟩ := (first hit).mp h
    exact (mem_entries_iff wf live _ _).mp member
  case absent =>
    rw [same]
    exact firstHit?_eq_none_iff wf live scopes name
  case fallback =>
    intro fallback
    rw [valueD, asked, Reported.map]
  case default =>
    intro inhabited
    rw [valueOrDefault, valueD, asked, Reported.map]

/-- A name and the same name in a scope: the scope is tried first. -/
theorem resolve?_in_scope :
    let commands : List (Command Nat) :=
      [.inside [] (.insert "x" 1), .inside [] (.insert "s.x" 2)]
    let view := (Tree.empty.runAll commands).tree.root
    view.IsFirst (candidates view.alts ["s"] "x") ⟨"s.x", .scope, 2⟩ ∧
      (view.valueD ["s"] "x" 0).event = .resolved "x" "s.x" .scope := by
  intro commands view
  have live : view.tree.IsLive view.handle := by decide +kernel
  have found : (view.resolve? ["s"] "x").result = some ⟨"s.x", .scope, 2⟩ := by decide +kernel
  have all := resolve?_first_candidate (⟨commands, rfl⟩ : view.tree.Reachable) live ["s"] "x"
  refine ⟨(all.1 _).mp found, ?_⟩
  exact (congrArg Reported.event (all.2.2.2.2.2.1 0)).trans (congrArg (report ["s"] "x") found)

end SymbolTree.View
