import Mathlib.Data.List.Perm.Basic
import SymbolTree.Proofs.Arrangements
import SymbolTree.Proofs.Paths
import SymbolTree.Proofs.Rounds
import SymbolTree.View.Copy

/-!
# Trees that cannot be told apart

Two trees that agree with one model may differ in their arenas: in the places of the slots, in how
many of them have been cut off, in the generation, and in the order of the tables. Commands keep them
twins, and no question but the lists of a directory tells them apart; the lists differ in the order
of the tables and in nothing else.

* `Twins.evolves`: commands answer alike on twins and leave twins;
* `Twins.alike`: questions answer alike (`View.Alike`);
* `Twins.exists_arrangement`: one of them can be arranged so that it has its tables in the order of
  the other; `SameOrder.listsAs`: lists are then equal (`View.ListsAs`);
* `Twins.rel_go?`: wherever one can go in one of them one can go in the other;
* `Twins.tree_alike`: so the trees answer alike as a whole (`Alike`).
-/
namespace SymbolTree

variable {V : Type}

/-! ## Equal answers -/

/-- Every question about two directories is answered alike, lists apart. -/
structure View.Alike [BEq V] (view other : View V) : Prop where
  get : ∀ name, view.get name = other.get name
  get? : ∀ name, view.get? name = other.get? name
  contains : ∀ name, view.contains name = other.contains name
  holds : ∀ name value, view.holds name value = other.holds name value
  size : view.size = other.size
  isEmpty : view.isEmpty = other.isEmpty
  path : view.path = other.path
  segment : view.segment = other.segment
  alts : view.alts = other.alts
  misfit : ∀ places start,
    (view.copyInto places start).misfit = (other.copyInto places start).misfit
  resolve? : ∀ scopes name, view.resolve? scopes name = other.resolve? scopes name
  value? : ∀ scopes name, view.value? scopes name = other.value? scopes name
  valueD : ∀ scopes name fallback,
    view.valueD scopes name fallback = other.valueD scopes name fallback
  valueOrDefault : ∀ [Inhabited V], ∀ scopes name,
    view.valueOrDefault scopes name = other.valueOrDefault scopes name
  bareValueD : ∀ name fallback, view.bareValueD name fallback = other.bareValueD name fallback
  bareValueOrDefault : ∀ [Inhabited V], ∀ name,
    view.bareValueOrDefault name = other.bareValueOrDefault name

/-- Two directories list the same in the same order. -/
structure View.ListsAs (view other : View V) : Prop where
  entries : view.entries = other.entries
  keys : view.keys = other.keys
  values : view.values = other.values
  leaves : view.leaves = other.leaves
  subdirs : (view.subdirs.map fun (segment, below) => (segment, below.path)) =
    other.subdirs.map fun (segment, below) => (segment, below.path)
  copyInto : ∀ places start, view.copyInto places start = other.copyInto places start

/-! ## Tables in the same order -/

namespace Table

variable {α β : Type}

/-- Tables in which one looks up the same hold the same entries. -/
theorem perm_of_get?_eq {table other : Table α} (same : ∀ key, table.get? key = other.get? key) :
    table.entries.Perm other.entries := by
  rw [List.perm_ext_iff_of_nodup (List.Nodup.of_map Prod.fst table.distinct)
    (List.Nodup.of_map Prod.fst other.distinct)]
  rintro ⟨key, value⟩
  rw [← get?_eq_some_iff, ← get?_eq_some_iff, same]

theorem keys_perm {table : Table α} {other : Table β}
    (same : ∀ key, (table.get? key).isSome = (other.get? key).isSome) :
    table.keys.Perm other.keys := by
  refine (List.perm_ext_iff_of_nodup table.distinct other.distinct).mpr fun key => ?_
  change key ∈ table.keys ↔ key ∈ other.keys
  rw [mem_keys_iff, mem_keys_iff, same]

/-- A table can be arranged in any order of its keys. -/
theorem exists_arranged (table : Table α) {keys : List String} (order : keys.Perm table.keys) :
    ∃ arranged : Table α, arranged.entries.Perm table.entries ∧ arranged.keys = keys := by
  obtain ⟨entries, rfl, same⟩ : Relation.Comp (· = List.map Prod.fst ·) (·.Perm ·) keys
      table.entries := by
    rw [List.eq_map_comp_perm]
    exact order
  exact ⟨⟨entries, order.nodup_iff.mpr table.distinct⟩, same, rfl⟩

/-- What is listed for the entries of a table is found by looking its keys up. -/
theorem flatMap_entries (table : Table α) (list : String → α → List β) :
    (table.entries.flatMap fun (key, value) => list key value) =
      table.keys.flatMap fun key => ((table.get? key).map (list key)).getD [] := by
  rw [keys, List.flatMap_map]
  apply List.flatMap_congr
  rintro ⟨key, value⟩ member
  rw [(table.get?_eq_some_iff key value).mpr member]
  rfl

end Table

namespace Tree

variable {tree other arranged : Tree V} {dir dir' : Handle} {path : List String}

/-- The trees show the same: some model is that of both. -/
def Twins (tree other : Tree V) : Prop :=
  ∃ model : Model V, model.Agrees tree ∧ model.Agrees other

/-- Directories under the same path have their tables in the same order. -/
structure SameOrder (tree other : Tree V) : Prop where
  leaves : ∀ path dir dir', tree.follow tree.rootHandle path = some dir →
    other.follow other.rootHandle path = some dir' →
      (tree.slot dir).leaves = (other.slot dir').leaves
  children : ∀ path dir dir', tree.follow tree.rootHandle path = some dir →
    other.follow other.rootHandle path = some dir' →
      (tree.slot dir).children.keys = (other.slot dir').children.keys

/-- Every question about the trees, or about any directory of them, is answered alike; lists are
equal once the tables of one of them are put in the order of the other's. -/
structure Alike [BEq V] (tree other : Tree V) : Prop where
  isEmpty : tree.isEmpty = other.isEmpty
  views : ∀ turns, Option.Rel View.Alike (tree.root.go? turns) (other.root.go? turns)
  lists : ∃ arranged, tree.Arranges arranged ∧
    ∀ turns, Option.Rel View.ListsAs (arranged.root.go? turns) (other.root.go? turns)

/-- Directories under the same path are the roots, or parents under the same path hold them under
the same segment. -/
theorem holder_cases (reach : tree.follow tree.rootHandle path = some dir)
    (reach' : other.follow other.rootHandle path = some dir') :
    (dir = tree.rootHandle ∧ dir' = other.rootHandle) ∨
      ∃ above segment parent parent', tree.follow tree.rootHandle above = some parent ∧
        other.follow other.rootHandle above = some parent' ∧
        tree.child? parent segment = some dir ∧ other.child? parent' segment = some dir' := by
  cases path using List.reverseRecOn with
  | nil => exact .inl ⟨(Option.some.inj reach).symm, (Option.some.inj reach').symm⟩
  | append_singleton above segment =>
    obtain ⟨parent, toParent, link⟩ := follow_concat_eq_some.mp reach
    obtain ⟨parent', toParent', link'⟩ := follow_concat_eq_some.mp reach'
    exact .inr ⟨above, segment, parent, parent', toParent, toParent', link, link'⟩

namespace Twins

theorem wellFormed (twins : tree.Twins other) : tree.WellFormed ∧ other.WellFormed := by
  obtain ⟨model, agrees, agrees'⟩ := twins
  exact ⟨agrees.wellFormed, agrees'.wellFormed⟩

theorem arranges (twins : tree.Twins other) (order : tree.Arranges arranged) :
    arranged.Twins other := by
  obtain ⟨model, agrees, agrees'⟩ := twins
  exact ⟨model, agrees.arranges order, agrees'⟩

/-- Whatever order the tables are in on the way, commands answer alike and leave twins. -/
theorem evolves [BEq V] (twins : tree.Twins other) {commands : List (Command V)}
    {answers answers' : List (Answer V)} {later later' : Tree V}
    (run : tree.Evolves commands answers later) (run' : other.Evolves commands answers' later') :
    answers = answers' ∧ later.Twins later' := by
  obtain ⟨model, agrees, agrees'⟩ := twins
  obtain ⟨last, told⟩ := agrees.evolves run
  obtain ⟨last', told'⟩ := agrees'.evolves run'
  exact ⟨told.trans told'.symm, _, last, last'⟩

theorem altsAt_eq (twins : tree.Twins other) (path : List String) :
    tree.altsAt path = other.altsAt path := by
  obtain ⟨model, agrees, agrees'⟩ := twins
  exact (agrees.alts path).trans (agrees'.alts path).symm

theorem isSome_follow_eq (twins : tree.Twins other) (path : List String) :
    (tree.follow tree.rootHandle path).isSome = (other.follow other.rootHandle path).isSome := by
  have same := congrArg Option.isSome (twins.altsAt_eq path)
  simpa only [altsAt, Option.isSome_map] using same

/-- Where a way leads somewhere in one tree, it does so in the other. -/
theorem exists_follow (twins : tree.Twins other)
    (reach : tree.follow tree.rootHandle path = some dir) :
    ∃ dir', other.follow other.rootHandle path = some dir' := by
  rw [← Option.isSome_iff_exists, ← twins.isSome_follow_eq, reach]
  rfl

/-! ## Questions -/

section
variable (twins : tree.Twins other) (reach : tree.follow tree.rootHandle path = some dir)
  (reach' : other.follow other.rootHandle path = some dir')
include twins reach reach'

theorem alts_eq : (tree.slot dir).alts = (other.slot dir').alts := by
  have same := twins.altsAt_eq path
  rw [altsAt_of_follow reach, altsAt_of_follow reach'] at same
  exact Option.some.inj same

theorem get?_eq (name : String) : (View.mk tree dir).get? name = (View.mk other dir').get? name := by
  obtain ⟨model, agrees, agrees'⟩ := twins
  rw [agrees.get? reach, agrees'.get? reach']

/-- The own entries are what one finds under names without a separator. -/
theorem leaves_get?_eq (segment : String) :
    (tree.slot dir).leaves.get? segment = (other.slot dir').leaves.get? segment := by
  have held {tree : Tree V} (wf : tree.WellFormed) (dir : Handle) (value : V) :
      (tree.slot dir).leaves.get? segment = some value ↔
        separator ∉ segment.toList ∧ (View.mk tree dir).get? segment = some value := by
    constructor
    · intro found
      have free := wf.leaf_free found
      exact ⟨free, (View.get?_of_free _ segment free).trans found⟩
    · rintro ⟨free, found⟩
      exact (View.get?_of_free _ segment free).symm.trans found
  obtain ⟨wf, wf'⟩ := twins.wellFormed
  apply Option.ext
  intro value
  rw [held wf, held wf', twins.get?_eq reach reach']

/-- A way leads nowhere from both directories, or to directories under the same path. -/
theorem follow_cases (way : List String) :
    (tree.follow dir way = none ∧ other.follow dir' way = none) ∨
      ∃ below below', tree.follow dir way = some below ∧ other.follow dir' way = some below' ∧
        tree.follow tree.rootHandle (path ++ way) = some below ∧
        other.follow other.rootHandle (path ++ way) = some below' := by
  have onward := follow_append tree tree.rootHandle path way
  have onward' := follow_append other other.rootHandle path way
  have same := twins.isSome_follow_eq (path ++ way)
  rw [reach, Option.bind_some] at onward
  rw [reach', Option.bind_some] at onward'
  rw [onward, onward'] at same ⊢
  cases found : tree.follow dir way with
  | none =>
    cases found' : other.follow dir' way with
    | none => exact .inl ⟨rfl, rfl⟩
    | some below' => simp [found, found'] at same
  | some below =>
    cases found' : other.follow dir' way with
    | none => simp [found, found'] at same
    | some below' => exact .inr ⟨below, below', rfl, rfl, rfl, rfl⟩

theorem child?_cases (segment : String) :
    (tree.child? dir segment = none ∧ other.child? dir' segment = none) ∨
      ∃ child child', tree.child? dir segment = some child ∧ other.child? dir' segment = some child' ∧
        tree.follow tree.rootHandle (path ++ [segment]) = some child ∧
        other.follow other.rootHandle (path ++ [segment]) = some child' := by
  simpa using twins.follow_cases reach reach' [segment]

/-- The first missing segment is the same. -/
theorem lookup_eq (leaf : String) (dirs : List String) :
    tree.lookup dir leaf dirs = other.lookup dir' leaf dirs := by
  induction dirs generalizing path dir dir' with
  | nil => simp only [lookup, twins.leaves_get?_eq reach reach']
  | cons segment dirs ih =>
    rcases twins.child?_cases reach reach' segment with
      ⟨missing, missing'⟩ | ⟨child, child', link, link', onward, onward'⟩
    · simp only [lookup, missing, missing']
    · simp only [lookup, link, link']
      exact ih onward onward'

theorem segment_eq : (tree.slot dir).segment = (other.slot dir').segment := by
  obtain ⟨wf, wf'⟩ := twins.wellFormed
  rcases holder_cases reach reach' with
    ⟨rfl, rfl⟩ | ⟨above, segment, parent, parent', toParent, toParent', link, link'⟩
  · rw [wf.root.2.2.1, wf'.root.2.2.1]
  · rw [wf.child_segment (wf.follow_live wf.root_live toParent) link,
      wf'.child_segment (wf'.follow_live wf'.root_live toParent') link']

theorem entries_perm : (View.mk tree dir).entries.Perm (View.mk other dir').entries := by
  obtain ⟨wf, wf'⟩ := twins.wellFormed
  have live := wf.follow_live wf.root_live reach
  have live' := wf'.follow_live wf'.root_live reach'
  rw [List.perm_ext_iff_of_nodup (List.Nodup.of_map Prod.fst (View.nodup_keys_entries wf live))
    (List.Nodup.of_map Prod.fst (View.nodup_keys_entries wf' live'))]
  rintro ⟨key, value⟩
  rw [View.mem_entries_iff wf live, View.mem_entries_iff wf' live', twins.get?_eq reach reach']

theorem size_eq : (View.mk tree dir).size = (View.mk other dir').size := by
  obtain ⟨wf, wf'⟩ := twins.wellFormed
  rw [← View.length_entries wf (wf.follow_live wf.root_live reach),
    ← View.length_entries wf' (wf'.follow_live wf'.root_live reach')]
  exact (twins.entries_perm reach reach').length_eq

theorem isEmpty_eq : (View.mk tree dir).isEmpty = (View.mk other dir').isEmpty := by
  obtain ⟨wf, wf'⟩ := twins.wellFormed
  have same := twins.entries_perm reach reach'
  rw [Bool.eq_iff_iff, View.isEmpty_iff wf (wf.follow_live wf.root_live reach),
    View.isEmpty_iff wf' (wf'.follow_live wf'.root_live reach')]
  constructor
  · intro none
    exact (none ▸ same).symm.eq_nil
  · intro none
    exact (none ▸ same).eq_nil

theorem resolve?_eq (scopes : List String) (name : String) :
    (View.mk tree dir).resolve? scopes name = (View.mk other dir').resolve? scopes name := by
  have sameAlts : (View.mk tree dir).alts = (View.mk other dir').alts := twins.alts_eq reach reach'
  exact View.resolve?_congr sameAlts (twins.get?_eq reach reach') scopes name

theorem alike [BEq V] : (View.mk tree dir).Alike (View.mk other dir') := by
  obtain ⟨wf, wf'⟩ := twins.wellFormed
  have found := twins.get?_eq reach reach'
  have resolved := twins.resolve?_eq reach reach'
  have size := twins.size_eq reach reach'
  have value? (scopes : List String) (name : String) :
      (View.mk tree dir).value? scopes name = (View.mk other dir').value? scopes name := by
    rw [View.value?, View.value?, resolved]
  have valueD (scopes : List String) (name : String) (fallback : V) :
      (View.mk tree dir).valueD scopes name fallback =
        (View.mk other dir').valueD scopes name fallback := by
    rw [View.valueD, View.valueD, value?]
  refine
    { get? := found, size, resolve? := resolved, value?, valueD
      get := ?get, contains := ?contains, holds := ?holds
      isEmpty := twins.isEmpty_eq reach reach'
      path := (wf.path_eq reach).trans (wf'.path_eq reach').symm
      segment := twins.segment_eq reach reach'
      alts := twins.alts_eq reach reach'
      misfit := ?misfit
      valueOrDefault := fun scopes name => valueD scopes name default
      bareValueD := valueD []
      bareValueOrDefault := fun name => valueD [] name default }
  case get =>
    intro name
    rw [View.get, View.get]
    exact congrArg _ (twins.lookup_eq reach reach' _ _)
  case contains =>
    intro name
    rw [View.contains, View.contains, found]
  case holds =>
    intro name value
    rw [View.holds, View.holds, found]
  case misfit =>
    intro places start
    simp only [View.copyInto, size]
    split
    · rfl
    · split <;> rfl

end

/-! ## Going through both trees -/

/-- What holds of any two directories under the same path holds wherever the turns lead. -/
theorem rel_go? (twins : tree.Twins other) {R : View V → View V → Prop}
    (related : ∀ path dir dir', tree.follow tree.rootHandle path = some dir →
      other.follow other.rootHandle path = some dir' → R ⟨tree, dir⟩ ⟨other, dir'⟩)
    (reach : tree.follow tree.rootHandle path = some dir)
    (reach' : other.follow other.rootHandle path = some dir') (turns : List Turn) :
    Option.Rel R ((View.mk tree dir).go? turns) ((View.mk other dir').go? turns) := by
  obtain ⟨wf, wf'⟩ := twins.wellFormed
  induction turns generalizing path dir dir' with
  | nil => exact .some (related path dir dir' reach reach')
  | cons turn turns ih =>
    rw [View.go?_cons, View.go?_cons]
    cases turn with
    | down name =>
      simp only [View.turn?, View.subdir?]
      rcases twins.follow_cases reach reach' (segments name) with
        ⟨missing, missing'⟩ | ⟨below, below', found, found', onward, onward'⟩
      · rw [missing, missing']
        exact .none
      · rw [found, found']
        exact ih onward onward'
    | up =>
      simp only [View.turn?]
      rcases holder_cases reach reach' with
        ⟨rfl, rfl⟩ | ⟨above, segment, parent, parent', toParent, toParent', link, link'⟩
      · rw [← root, ← root, View.parent?_root wf, View.parent?_root wf']
        exact .none
      · rw [View.parent?_child wf (wf.follow_live wf.root_live toParent) link,
          View.parent?_child wf' (wf'.follow_live wf'.root_live toParent') link']
        exact ih toParent toParent'

/-! ## Lists -/

/-- A directory can be arranged so that its tables are in the order of its twin. -/
theorem exists_slot (twins : tree.Twins other) (dir : Handle) :
    ∃ slot, (tree.slot dir).Arranges slot ∧
      ∀ path dir', tree.follow tree.rootHandle path = some dir →
        other.follow other.rootHandle path = some dir' →
          slot.leaves = (other.slot dir').leaves ∧
            slot.children.keys = (other.slot dir').children.keys := by
  obtain ⟨wf, wf'⟩ := twins.wellFormed
  by_cases held : ∃ path, tree.follow tree.rootHandle path = some dir
  · obtain ⟨path, reach⟩ := held
    obtain ⟨dir', reach'⟩ := twins.exists_follow reach
    have leaves := Table.perm_of_get?_eq fun segment => (twins.leaves_get?_eq reach reach' segment).symm
    have keys : (other.slot dir').children.keys.Perm (tree.slot dir).children.keys := by
      refine Table.keys_perm fun segment => ?_
      change (other.child? dir' segment).isSome = (tree.child? dir segment).isSome
      rcases twins.child?_cases reach reach' segment with
        ⟨missing, missing'⟩ | ⟨child, child', link, link', -, -⟩
      · rw [missing, missing']
      · rw [link, link']
        rfl
    obtain ⟨children, order, sameKeys⟩ := (tree.slot dir).children.exists_arranged keys
    refine ⟨{ tree.slot dir with leaves := (other.slot dir').leaves, children },
      ⟨rfl, rfl, rfl, rfl, leaves, order⟩, ?_⟩
    intro way top reachWay reachTop
    obtain rfl := wf.way_unique wf.root_live reachWay reach
    obtain rfl := Option.some.inj (reachTop.symm.trans reach')
    exact ⟨rfl, sameKeys⟩
  · exact ⟨tree.slot dir, Slot.Arranges.refl _, fun path _ reach => absurd ⟨path, reach⟩ held⟩

theorem exists_arrangement (twins : tree.Twins other) :
    ∃ arranged, tree.Arranges arranged ∧ arranged.SameOrder other := by
  choose slot order same using fun place : Fin tree.slots.size =>
    twins.exists_slot ⟨place, tree.generation⟩
  let arranged : Tree V := ⟨Array.ofFn slot, tree.generation⟩
  have slot_eq {dir : Handle} (inside : dir.index < tree.slots.size) :
      arranged.slot dir = slot ⟨dir.index, inside⟩ := by
    simp [arranged, Tree.slot, inside]
  have arranges : tree.Arranges arranged := by
    refine ⟨rfl, Array.size_ofFn, fun dir => ?_⟩
    by_cases inside : dir.index < tree.slots.size
    · rw [slot_eq inside]
      exact order ⟨dir.index, inside⟩
    · rw [slot_eq_outside (Nat.le_of_not_lt inside), slot_eq_outside (by simpa [arranged] using inside)]
      exact Slot.Arranges.refl _
  have both {path : List String} {dir dir' : Handle}
      (reach : arranged.follow arranged.rootHandle path = some dir)
      (reach' : other.follow other.rootHandle path = some dir') :
      (arranged.slot dir).leaves = (other.slot dir').leaves ∧
        (arranged.slot dir).children.keys = (other.slot dir').children.keys := by
    rw [arranges.rootHandle_eq, arranges.follow_eq] at reach
    obtain ⟨wf, -⟩ := twins.wellFormed
    have live := wf.follow_live wf.root_live reach
    have place : dir = ⟨dir.index, tree.generation⟩ := by rw [← live.current]
    have reachPlace := reach.trans (congrArg some place)
    rw [slot_eq live.inside]
    exact same ⟨dir.index, live.inside⟩ path dir' reachPlace reach'
  exact ⟨arranged, arranges, fun _ _ _ reach reach' => (both reach reach').1,
    fun _ _ _ reach reach' => (both reach reach').2⟩

end Twins

namespace SameOrder

/-- The recursion goes through both trees side by side. -/
theorem listed_eq (twins : tree.Twins other) (same : tree.SameOrder other)
    (reach : tree.follow tree.rootHandle path = some dir)
    (reach' : other.follow other.rootHandle path = some dir') (lead : String) :
    tree.listed dir lead = other.listed dir' lead := by
  obtain ⟨wf, wf'⟩ := twins.wellFormed
  have live := wf.follow_live wf.root_live reach
  refine wf.upward_induction (P := fun dir => ∀ path dir' lead,
    tree.follow tree.rootHandle path = some dir → other.follow other.rootHandle path = some dir' →
      tree.listed dir lead = other.listed dir' lead) ?_ live path dir' lead reach reach'
  intro dir live ih path dir' lead reach reach'
  have live' := wf'.follow_live wf'.root_live reach'
  rw [wf.listed_eq live, wf'.listed_eq live', same.leaves path dir dir' reach reach',
    Table.flatMap_entries _ fun segment child => tree.listed child (lead ++ segment ++ "."),
    Table.flatMap_entries _ fun segment child => other.listed child (lead ++ segment ++ "."),
    same.children path dir dir' reach reach']
  congr 1
  apply List.flatMap_congr
  intro segment _
  change ((tree.child? dir segment).map _).getD [] = ((other.child? dir' segment).map _).getD []
  rcases twins.child?_cases reach reach' segment with
    ⟨missing, missing'⟩ | ⟨child, child', link, link', onward, onward'⟩
  · rw [missing, missing']
    rfl
  · rw [link, link']
    exact ih segment child link _ child' _ onward onward'

/-- A directory lists its subdirectories by their segments, each with its path. -/
theorem paths_subdirs (wf : tree.WellFormed) (reach : tree.follow tree.rootHandle path = some dir) :
    ((View.mk tree dir).subdirs.map fun (segment, below) => (segment, below.path)) =
      (tree.slot dir).children.keys.map fun segment => (segment, join (path ++ [segment])) := by
  have live := wf.follow_live wf.root_live reach
  rw [View.subdirs, List.map_map, Table.keys, List.map_map]
  apply List.map_congr_left
  rintro ⟨segment, child⟩ isChild
  obtain ⟨link, -, -⟩ := wf.mem_children live isChild
  have onward := follow_concat_eq_some.mpr ⟨dir, reach, link⟩
  exact congrArg (Prod.mk segment) (wf.path_eq onward)

theorem listsAs (twins : tree.Twins other) (same : tree.SameOrder other)
    (reach : tree.follow tree.rootHandle path = some dir)
    (reach' : other.follow other.rootHandle path = some dir') :
    (View.mk tree dir).ListsAs (View.mk other dir') := by
  obtain ⟨wf, wf'⟩ := twins.wellFormed
  have live := wf.follow_live wf.root_live reach
  have live' := wf'.follow_live wf'.root_live reach'
  have size := twins.size_eq reach reach'
  have entries : (View.mk tree dir).entries = (View.mk other dir').entries := by
    rw [View.entries_eq wf live, View.entries_eq wf' live']
    exact same.listed_eq twins reach reach' ""
  refine ⟨entries, ?keys, ?values, same.leaves path dir dir' reach reach', ?subdirs, ?copyInto⟩
  case keys => rw [View.keys, View.keys, entries]
  case values => rw [View.values, View.values, entries]
  case subdirs =>
    rw [paths_subdirs wf reach, paths_subdirs wf' reach', same.children path dir dir' reach reach']
  case copyInto =>
    intro places start
    rw [View.copyInto, View.copyInto, size, entries]

end SameOrder

/-- The scan of the arena does not tell twins apart either. -/
theorem Twins.isEmpty_tree_eq (twins : tree.Twins other) : tree.isEmpty = other.isEmpty := by
  obtain ⟨wf, wf'⟩ := twins.wellFormed
  have same := twins.isEmpty_eq (follow_nil tree _) (follow_nil other _)
  rw [Bool.eq_iff_iff, View.isEmpty_iff wf wf.root_live, View.isEmpty_iff wf' wf'.root_live] at same
  rw [Bool.eq_iff_iff, wf.isEmpty_iff, wf'.isEmpty_iff]
  exact same

theorem Twins.tree_alike [BEq V] (twins : tree.Twins other) : tree.Alike other where
  isEmpty := twins.isEmpty_tree_eq
  views turns := twins.rel_go? (fun _ _ _ reach reach' => twins.alike reach reach')
    (follow_nil tree _) (follow_nil other _) turns
  lists := by
    obtain ⟨arranged, order, same⟩ := twins.exists_arrangement
    have twins' := twins.arranges order
    exact ⟨arranged, order, fun turns =>
      twins'.rel_go? (fun _ _ _ reach reach' => same.listsAs twins' reach reach')
        (follow_nil arranged _) (follow_nil other _) turns⟩

end Tree
end SymbolTree
