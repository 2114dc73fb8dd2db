import Mathlib.Data.List.Perm.Subperm
import SymbolTree.Proofs.Contents
import SymbolTree.Proofs.Enumeration

/-!
# Trees refine their model

A tree agrees with a model if both hold the same directories, alternatives and values.

* `Agrees.apply`, `Agrees.run`, `Agrees.runAll`: a change, a command and a run keep a tree and a model
  in agreement and give the same answers;
* `View.full`: a name in a directory, taken from the root, and `View.covers`: the names that can be
  such a name, told by their text;
* `View.Reads`: a view reads the one flat table of the model.
-/
namespace SymbolTree

variable {V : Type}

/-! ## Agreement -/

/-- What the tree holds at each path is what the model holds there. -/
structure Model.Agrees (model : Model V) (tree : Tree V) : Prop where
  wellFormed : tree.WellFormed
  alts : ∀ path, tree.altsAt path = model.alts path
  values : ∀ name, tree.valueAt (Key.parse name) = model.values.get? name

namespace Model

variable {model : Model V} {tree : Tree V} {dir : Handle} {path : List String}

theorem isBelow_bool_iff (top path bound : List String) :
    (isBelow top path && path.isPrefixOf bound) = true ↔
      (top <+: path ∧ path ≠ top) ∧ path <+: bound := by
  rw [Bool.and_eq_true, isBelow_iff, List.isPrefixOf_iff_prefix]

/-- A name in a directory of the tree is looked up in the model under its whole name. -/
theorem Agrees.get? (agrees : model.Agrees tree)
    (reach : tree.follow tree.rootHandle path = some dir) (name : String) :
    (View.mk tree dir).get? name = model.values.get? (whole path name) := by
  have free := agrees.wellFormed.follow_free agrees.wellFormed.root_live reach
  rw [← View.get?_whole free reach, Tree.root_get?, agrees.values]

/-- The value that an edit at a directory finds under a name. -/
theorem Agrees.valueAt (agrees : model.Agrees tree)
    (reach : tree.follow tree.rootHandle path = some dir) (name : String) :
    tree.valueAt (Key.inside path name) = model.values.get? (whole path name) := by
  have free := agrees.wellFormed.follow_free agrees.wellFormed.root_live reach
  rw [← parse_whole path free, agrees.values]

theorem Agrees.insert (agrees : model.Agrees tree)
    (reach : tree.follow tree.rootHandle path = some dir) (name : String) (value : V) :
    (model.insert path name value).Agrees ((View.mk tree dir).insert name value).tree ∧
      ((View.mk tree dir).insert name value).result = model.values.get? (whole path name) := by
  have wf := agrees.wellFormed
  have live := wf.follow_live wf.root_live reach
  have free := wf.follow_free wf.root_live reach
  refine ⟨⟨wf.wellFormed_insert live name value, ?alts, ?values⟩, ?answer⟩
  case alts =>
    intro way
    rw [wf.altsAt_insert reach, agrees.alts, ← if_congr (isBelow_bool_iff _ _ _) rfl rfl]
    rfl
  case values =>
    intro other
    have same := whole_eq_iff path free name other
    rw [wf.valueAt_insert reach, agrees.values, ← if_congr same rfl rfl]
    exact (Table.get?_insert _ _ _ _).symm
  case answer => rw [wf.result_insert reach, agrees.valueAt reach]

theorem Agrees.erase (agrees : model.Agrees tree)
    (reach : tree.follow tree.rootHandle path = some dir) (name : String) :
    (model.erase path name).Agrees ((View.mk tree dir).erase name).tree ∧
      ((View.mk tree dir).erase name).result = model.values.get? (whole path name) := by
  have wf := agrees.wellFormed
  have live := wf.follow_live wf.root_live reach
  have free := wf.follow_free wf.root_live reach
  refine ⟨⟨wf.wellFormed_erase live name, ?alts, ?values⟩, ?answer⟩
  case alts =>
    intro way
    rw [Tree.WellFormed.altsAt_erase, agrees.alts]
    rfl
  case values =>
    intro other
    have same := whole_eq_iff path free name other
    rw [wf.valueAt_erase reach, agrees.values, ← if_congr same rfl rfl]
    exact (Table.get?_erase _ _ _).symm
  case answer => rw [Tree.WellFormed.result_erase reach, agrees.valueAt reach]

theorem Agrees.clear (agrees : model.Agrees tree)
    (reach : tree.follow tree.rootHandle path = some dir) :
    (model.clear path).Agrees (tree.cleared dir) := by
  have wf := agrees.wellFormed
  have live := wf.follow_live wf.root_live reach
  have free := wf.follow_free wf.root_live reach
  refine ⟨wf.wellFormed_clear live, ?alts, ?values⟩
  case alts =>
    intro way
    rw [wf.altsAt_clear reach, agrees.alts, ← if_congr (isBelow_iff path way) rfl rfl]
    rfl
  case values =>
    intro other
    have under := isUnder_iff path free other
    rw [wf.valueAt_clear reach, agrees.values, ← if_congr under rfl rfl]
    simp only [Model.clear, Table.get?_filter]
    cases isUnder path other <;> rfl

theorem Agrees.editAlts (agrees : model.Agrees tree)
    (reach : tree.follow tree.rootHandle path = some dir) (edit : List String → List String) :
    ({ model with alts := fun other =>
        if other = path then some (edit ((model.alts path).getD [])) else model.alts other } :
      Model V).Agrees ((View.mk tree dir).editAlts edit).tree ∧
    ((View.mk tree dir).editAlts edit).result = edit ((model.alts path).getD []) := by
  have wf := agrees.wellFormed
  have held : (model.alts path).getD [] = (tree.slot dir).alts := by
    rw [← agrees.alts, Tree.altsAt_of_follow reach]
    rfl
  rw [held]
  refine ⟨⟨wf.wellFormed_editAlts dir edit, ?alts, ?values⟩, rfl⟩
  case alts =>
    intro way
    rw [wf.altsAt_editAlts reach, agrees.alts]
  case values =>
    intro other
    rw [Tree.WellFormed.valueAt_editAlts, agrees.values]

theorem Agrees.startOver (agrees : model.Agrees tree) :
    (model.clear []).Agrees tree.clear.tree := by
  rw [Tree.clear_eq_bare]
  refine ⟨Tree.wellFormed_bare _ _, ?alts, ?values⟩
  case alts =>
    intro way
    rw [Tree.altsAt_bare]
    cases way with
    | nil => exact agrees.alts []
    | cons segment way => rfl
  case values =>
    intro other
    rw [Tree.valueAt_bare, Model.clear, Table.get?_filter]
    rfl

theorem Agrees.extend (agrees : model.Agrees tree) (entries : List (String × V)) :
    (entries.foldl (fun model (name, value) => model.insert [] name value) model).Agrees
      (tree.extend entries).tree := by
  induction entries generalizing model tree with
  | nil => exact agrees
  | cons entry entries ih =>
    rw [Tree.extend, Outcome.tree_andThen]
    exact ih (agrees.insert rfl entry.1 entry.2).1

theorem agrees_empty : (Model.empty : Model V).Agrees Tree.empty where
  wellFormed := Tree.wellFormed_bare [""] 0
  alts := Tree.altsAt_bare [""] 0
  values _ := Tree.valueAt_bare [""] 0 _

/-! ## Commands -/

variable [BEq V]

theorem Agrees.apply (agrees : model.Agrees tree)
    (reach : tree.follow tree.rootHandle path = some dir) (change : Change V) :
    (model.apply path change).1.Agrees (change.apply ⟨tree, dir⟩).tree ∧
      (change.apply ⟨tree, dir⟩).result = (model.apply path change).2 := by
  cases change with
  | insert name value =>
    obtain ⟨after, former⟩ := agrees.insert reach name value
    exact ⟨after, congrArg Answer.former former⟩
  | erase name =>
    obtain ⟨after, former⟩ := agrees.erase reach name
    exact ⟨after, congrArg Answer.former former⟩
  | eraseIf name value =>
    obtain ⟨after, former⟩ := agrees.erase reach name
    simp only [Change.apply, Model.apply, View.eraseIf, View.holds, agrees.get? reach]
    cases held : (model.values.get? (whole path name)).any (· == value) with
    | false => exact ⟨agrees, rfl⟩
    | true =>
      have present : ((View.mk tree dir).erase name).result.isSome = true := by
        rw [former]
        cases h : model.values.get? (whole path name) with
        | none => simp [h] at held
        | some value => rfl
      exact ⟨after, congrArg Answer.verdict present⟩
  | clear => exact ⟨agrees.clear reach, rfl⟩
  | editAlts edit =>
    obtain ⟨after, alts⟩ := agrees.editAlts reach edit
    exact ⟨after, congrArg Answer.alts alts⟩

theorem Agrees.run (agrees : model.Agrees tree) (command : Command V) :
    (model.run command).1.Agrees (command.run tree).tree ∧
      (command.run tree).result = (model.run command).2 := by
  cases command with
  | extend entries => exact ⟨agrees.extend entries, rfl⟩
  | clear => exact ⟨agrees.startOver, rfl⟩
  | inside way change =>
    have held := agrees.alts (way.flatMap segments)
    simp only [Command.run, Model.run, ← held, Tree.altsAt, View.descend?_eq, Tree.root]
    cases reach : tree.follow tree.rootHandle (way.flatMap segments) with
    | none => exact ⟨agrees, rfl⟩
    | some dir => exact agrees.apply reach change

theorem Agrees.runAll (agrees : model.Agrees tree) (commands : List (Command V)) :
    (model.runAll commands).1.Agrees (tree.runAll commands).tree ∧
      (tree.runAll commands).result = (model.runAll commands).2 := by
  induction commands generalizing model tree with
  | nil => exact ⟨agrees, rfl⟩
  | cons command commands ih =>
    obtain ⟨next, answer⟩ := agrees.run command
    obtain ⟨last, answers⟩ := ih next
    exact ⟨last, congrArg₂ List.cons answer answers⟩

end Model

/-! ## Views of the flat table -/

namespace View

/-- A name in the directory, taken from the root. -/
def full (view : View V) (name : String) : String :=
  if view.handle = view.tree.rootHandle then name else view.path ++ "." ++ name

/-- Whether a name taken from the root belongs to the directory or one below it: at the root every
name does, elsewhere those that start with the path and a separator. -/
def covers (view : View V) (name : String) : Bool :=
  view.handle = view.tree.rootHandle || (view.path ++ ".").toList.isPrefixOf name.toList

variable {tree : Tree V} {dir : Handle} {path : List String}

theorem is_root_iff (wf : tree.WellFormed) (reach : tree.follow tree.rootHandle path = some dir) :
    dir = tree.rootHandle ↔ path = [] := by
  constructor
  · rintro rfl
    exact wf.way_back wf.root_live reach
  · rintro rfl
    exact (Option.some.inj reach).symm

theorem whole_eq_full (wf : tree.WellFormed)
    (reach : tree.follow tree.rootHandle path = some dir) (name : String) :
    Model.whole path name = (View.mk tree dir).full name := by
  rw [full, wf.path_eq reach, Model.whole]
  by_cases top : path = []
  · rw [if_pos ((is_root_iff wf reach).mpr top), top, List.nil_append, join_singleton]
  · rw [if_neg fun root => top ((is_root_iff wf reach).mp root), join_append _ _ top (by simp),
      join_singleton]

theorem isUnder_eq_covers (wf : tree.WellFormed)
    (reach : tree.follow tree.rootHandle path = some dir) (name : String) :
    Model.isUnder path name = (View.mk tree dir).covers name := by
  rw [covers, wf.path_eq reach, Model.isUnder]
  congr 1
  rw [Bool.eq_iff_iff, List.isEmpty_iff, decide_eq_true_iff]
  exact (is_root_iff wf reach).symm

theorem full_inj (view : View V) {name other : String} (h : view.full name = view.full other) :
    name = other := by
  unfold full at h
  split at h
  · exact h
  · exact String.append_right_inj _ |>.mp h

/-- The names that a directory covers are the names in it. -/
theorem covers_iff (wf : tree.WellFormed)
    (reach : tree.follow tree.rootHandle path = some dir) (key : String) :
    (View.mk tree dir).covers key = true ↔ ∃ name, key = (View.mk tree dir).full name := by
  have free := wf.follow_free wf.root_live reach
  rw [← isUnder_eq_covers wf reach, Model.isUnder_iff path free, ← Model.exists_whole_iff path free]
  simp only [whole_eq_full wf reach]

/-- Entries with whole names hold those of a directory if they hold what can be looked up there:
then they are the ones that the directory covers. -/
theorem entries_perm_filter (wf : tree.WellFormed)
    (reach : tree.follow tree.rootHandle path = some dir) {all : List (String × V)}
    (distinct : (all.map Prod.fst).Nodup)
    (held : ∀ name value, (View.mk tree dir).get? name = some value ↔
      ((View.mk tree dir).full name, value) ∈ all) :
    ((View.mk tree dir).entries.map fun (name, value) => ((View.mk tree dir).full name, value)).Perm
      (all.filter fun (key, _) => (View.mk tree dir).covers key) := by
  have live := wf.follow_live wf.root_live reach
  rw [List.perm_ext_iff_of_nodup ?left ?right]
  case left =>
    refine (List.Nodup.of_map Prod.fst (nodup_keys_entries wf live)).map ?_
    rintro ⟨name, value⟩ ⟨other, value'⟩ same
    obtain ⟨names, rfl⟩ := Prod.mk.inj same
    rw [full_inj _ names]
  case right => exact (List.Nodup.of_map Prod.fst distinct).filter _
  rintro ⟨key, value⟩
  rw [List.mem_map, List.mem_filter, covers_iff wf reach]
  constructor
  · rintro ⟨⟨name, value'⟩, member, same⟩
    obtain ⟨rfl, rfl⟩ := Prod.mk.inj same
    exact ⟨(held name value').mp ((mem_entries_iff wf live _ _).mp member), name, rfl⟩
  · rintro ⟨member, name, rfl⟩
    exact ⟨(name, value), (mem_entries_iff wf live _ _).mpr ((held name value).mpr member), rfl⟩

variable {model : Model V}

/-- The entries of a directory, under their whole names, are those of the flat table that the
directory covers. -/
theorem entries_perm (agrees : model.Agrees tree)
    (reach : tree.follow tree.rootHandle path = some dir) :
    ((View.mk tree dir).entries.map fun (name, value) => ((View.mk tree dir).full name, value)).Perm
      (model.values.entries.filter fun (key, _) => (View.mk tree dir).covers key) := by
  have wf := agrees.wellFormed
  refine entries_perm_filter wf reach model.values.distinct ?_
  intro name value
  rw [agrees.get? reach, whole_eq_full wf reach, Table.get?_eq_some_iff]

/-- What a view answers is read off the flat table. -/
structure Reads (view : View V) (flat : Table V) : Prop where
  get? : ∀ name, view.get? name = flat.get? (view.full name)
  get : ∀ name, (view.get name).toOption = flat.get? (view.full name)
  entries : (view.entries.map fun (name, value) => (view.full name, value)).Perm
    (flat.entries.filter fun (key, _) => view.covers key)
  size : view.size = (flat.entries.filter fun (key, _) => view.covers key).length
  isEmpty : view.isEmpty = (flat.entries.filter fun (key, _) => view.covers key).isEmpty

theorem reads_of_agrees (agrees : model.Agrees tree)
    (reach : tree.follow tree.rootHandle path = some dir) :
    (View.mk tree dir).Reads model.values := by
  have wf := agrees.wellFormed
  have live := wf.follow_live wf.root_live reach
  have looked (name : String) : (View.mk tree dir).get? name =
      model.values.get? ((View.mk tree dir).full name) := by
    rw [agrees.get? reach, whole_eq_full wf reach]
  have listed := entries_perm agrees reach
  have counted := listed.length_eq
  rw [List.length_map] at counted
  refine ⟨looked, ?get, listed, (length_entries wf live).symm.trans counted, ?isEmpty⟩
  case get =>
    intro name
    exact (toOption_get _ name).trans (looked name)
  case isEmpty =>
    rw [Bool.eq_iff_iff, isEmpty_iff wf live, List.isEmpty_iff, ← List.length_eq_zero_iff, counted,
      List.length_eq_zero_iff]

end View

/-- A run of commands on a tree is a run on one flat table from whole names to values: both give the
same answers, and every directory afterwards is a view of the table. The names that a command is
about in the table are those that its directory gives them, `View.full` for an entry and
`View.covers` for a clear. Every prefix of a run is a run, so this holds at each command. -/
theorem runAll_eq_model [BEq V] (commands : List (Command V)) :
    let tree := (Tree.empty.runAll commands).tree
    let model := (Model.runAll .empty commands).1
    (Tree.empty.runAll commands).result = (Model.runAll .empty commands).2 ∧
      tree.isEmpty = model.values.isEmpty ∧
      ∀ way,
        (tree.root.descend? way).isSome = (model.alts (way.flatMap segments)).isSome ∧
        ∀ view, tree.root.descend? way = some view →
          (∀ name, Model.whole (way.flatMap segments) name = view.full name) ∧
          (∀ key, Model.isUnder (way.flatMap segments) key = view.covers key) ∧
          view.Reads model.values := by
  intro tree model
  obtain ⟨agrees, answers⟩ : model.Agrees tree ∧ _ := Model.agrees_empty.runAll commands
  have wf := agrees.wellFormed
  refine ⟨answers, ?isEmpty, fun way => ⟨?same, ?views⟩⟩
  case isEmpty =>
    have rootReads : tree.root.Reads model.values := View.reads_of_agrees agrees (tree.follow_nil _)
    have all : ∀ key, tree.root.covers key = true := by
      intro key
      simp [View.covers, Tree.root]
    have listed := rootReads.isEmpty
    simp only [all, List.filter_true] at listed
    rw [Table.isEmpty, ← listed, Bool.eq_iff_iff, wf.isEmpty_iff, Tree.root,
      View.isEmpty_iff wf wf.root_live]
  case same =>
    rw [← agrees.alts, Tree.altsAt, View.descend?_eq, Option.isSome_map, Option.isSome_map]
    rfl
  case views =>
    intro view h
    obtain ⟨dir, rfl, -, reach⟩ := wf.descend?_root h
    exact ⟨View.whole_eq_full wf reach, View.isUnder_eq_covers wf reach,
      View.reads_of_agrees agrees reach⟩

/-- An entry and a subdirectory share a segment, and a subdirectory has the empty segment. -/
example :
    let commands : List (Command Nat) :=
      [.inside [] (.insert "a" 1), .inside [] (.insert "a.b" 2), .inside ["a"] .clear,
        .inside [""] (.insert "b" 3), .inside [] (.insert ".b" 4), .inside [""] (.insert "b" 5)]
    (Model.runAll .empty commands).1.values.entries = [("a", 1), (".b", 5)] ∧
      (Tree.empty.runAll commands).tree.root.entries = [(".b", 5), ("a", 1)] := by
  decide +kernel

end SymbolTree
