import Mathlib.Data.Set.Finite.Basic
import SymbolTree.Proofs.Refinement

/-!
# Directories over a run

Which directories a run of commands leaves, and which alternatives each of them has.

* `Agrees.shows`: a tree shows what the model holds that it agrees with;
* `Agrees.finite`: a model of a tree has finitely many directories;
* `mem_keys_subdirs_iff`, `Agrees.subdirs_iff`: the subdirectories that a view lists;
* `alts_run_of_none`: whatever makes a directory, the directory starts with the empty alternative.
-/
namespace SymbolTree

variable {V : Type} {tree : Tree V} {dir : Handle} {path : List String}

/-- Segments taken as paths, one after the other, are the way that they make up. -/
theorem flatMap_segments_of_free (free : Free path) : path.flatMap segments = path := by
  induction path with
  | nil => rfl
  | cons segment path ih =>
    rw [List.flatMap_cons, segments_of_free segment free.head, ih free.tail]
    rfl

/-! ## Subdirectories of a view -/

namespace View

theorem map_alts_subdir? (tree : Tree V) (path : String) :
    (tree.root.subdir? path).map View.alts = tree.altsAt (segments path) := by
  rw [subdir?, Option.map_map]
  rfl

theorem mem_subdirs_iff {segment : String} {below : View V} :
    (segment, below) ∈ (View.mk tree dir).subdirs ↔
      ∃ child, tree.child? dir segment = some child ∧ below = ⟨tree, child⟩ := by
  simp only [subdirs, slot, moveTo, List.mem_map, Prod.exists, Prod.mk.injEq, Tree.child?,
    Table.get?_eq_some_iff]
  constructor
  · rintro ⟨_, child, member, rfl, rfl⟩
    exact ⟨child, member, rfl⟩
  · rintro ⟨child, member, rfl⟩
    exact ⟨segment, child, member, rfl, rfl⟩

theorem nodup_subdirs (view : View V) : (view.subdirs.map Prod.fst).Nodup := by
  rw [subdirs, List.map_map]
  exact view.slot.children.distinct

theorem mem_keys_subdirs_iff {segment : String} :
    segment ∈ (View.mk tree dir).subdirs.map Prod.fst ↔ (tree.child? dir segment).isSome := by
  rw [List.mem_map, Option.isSome_iff_exists]
  constructor
  · rintro ⟨⟨_, below⟩, member, rfl⟩
    obtain ⟨child, link, -⟩ := mem_subdirs_iff.mp member
    exact ⟨child, link⟩
  · rintro ⟨child, link⟩
    exact ⟨(segment, ⟨tree, child⟩), mem_subdirs_iff.mpr ⟨child, link, rfl⟩, rfl⟩

/-- A listed subdirectory is the one that its segment leads to. -/
theorem subdir?_of_mem_subdirs (wf : tree.WellFormed) {segment : String} {below : View V}
    (member : (segment, below) ∈ (View.mk tree dir).subdirs) :
    (View.mk tree dir).subdir? segment = some below := by
  obtain ⟨child, link, rfl⟩ := mem_subdirs_iff.mp member
  simp [subdir?, segments_of_free segment (wf.child_free link), link, moveTo]

end View

/-! ## The directories of a model -/

namespace Model

variable {model : Model V}

/-- The segments listed in a directory are those by which its path goes on in the model. -/
theorem Agrees.subdirs_iff (agrees : model.Agrees tree)
    (reach : tree.follow tree.rootHandle path = some dir) (segment : String) :
    segment ∈ (View.mk tree dir).subdirs.map Prod.fst ↔
      (model.alts (path ++ [segment])).isSome := by
  rw [View.mem_keys_subdirs_iff, ← agrees.alts, Tree.altsAt, Tree.follow_concat, reach,
    Option.isSome_map, Option.bind_some]

theorem Agrees.shows (agrees : model.Agrees tree) : model.Shows tree where
  values name := by rw [Tree.root_get?, agrees.values]
  alts path := by rw [View.map_alts_subdir?, agrees.alts]
  rootAlts := by
    rw [← agrees.alts, Tree.altsAt_of_follow (tree.follow_nil _)]
    rfl
  size := by
    have rootReads : tree.root.Reads model.values :=
      View.reads_of_agrees agrees (tree.follow_nil _)
    have all : ∀ key, tree.root.covers key = true := by
      intro key
      simp [View.covers, Tree.root]
    rw [rootReads.size]
    simp only [all, List.filter_true, Table.size]

/-- Directories differ in their places, and the arena has finitely many of these. -/
theorem Agrees.finite (agrees : model.Agrees tree) : {path | (model.alts path).isSome}.Finite := by
  have wf := agrees.wellFormed
  have reached (path : List String) (held : (model.alts path).isSome) :
      ∃ dir, tree.follow tree.rootHandle path = some dir := by
    rwa [← agrees.alts, Tree.altsAt, Option.isSome_map, Option.isSome_iff_exists] at held
  let place (path : List String) : Nat :=
    ((tree.follow tree.rootHandle path).map Handle.index).getD 0
  refine Set.Finite.of_injOn (f := place) (t := {i | i < tree.slots.size}) ?within
    ?apart (Set.finite_lt_nat _)
  case within =>
    intro path held
    obtain ⟨dir, reach⟩ := reached path held
    simpa [place, reach] using (wf.follow_live wf.root_live reach).inside
  case apart =>
    intro path held other held' same
    obtain ⟨dir, reach⟩ := reached path held
    obtain ⟨dir', reach'⟩ := reached other held'
    simp only [place, reach, reach', Option.map_some, Option.getD_some] at same
    exact (wf.index_eq_iff reach' reach).mp same

/-! ## How directories come to be -/

/-- An insertion gives the empty alternative to the directories that it makes. -/
theorem alts_insert_default {other : List String}
    (fresh : ∀ alts, model.alts other = some alts → alts = [""]) (path : List String)
    (name : String) (value : V) :
    ∀ alts, (model.insert path name value).alts other = some alts → alts = [""] := by
  intro alts held
  simp only [insert] at held
  cases old : model.alts other with
  | some alts' =>
    rw [old, Option.some_or, Option.some.injEq] at held
    exact held ▸ fresh alts' old
  | none =>
    rw [old, Option.none_or] at held
    split at held
    · exact (Option.some.inj held).symm
    · cases held

theorem alts_extend_default {other : List String}
    (fresh : ∀ alts, model.alts other = some alts → alts = [""]) (entries : List (String × V)) :
    let last := entries.foldl (fun model (name, value) => model.insert [] name value) model
    ∀ alts, last.alts other = some alts → alts = [""] := by
  induction entries generalizing model with
  | nil => exact fresh
  | cons entry entries ih => exact ih (alts_insert_default fresh [] entry.1 entry.2)

/-- Where there is no directory, a command makes none or one with the empty alternative. -/
theorem alts_run_of_none [BEq V] {other : List String} (absent : model.alts other = none)
    (command : Command V) :
    ∀ alts, (model.run command).1.alts other = some alts → alts = [""] := by
  have fresh : ∀ alts, model.alts other = some alts → alts = [""] := by
    intro alts held
    rw [absent] at held
    cases held
  cases command with
  | extend entries => exact alts_extend_default fresh entries
  | clear =>
    intro alts held
    simp [run, Model.clear, absent] at held
  | inside way change =>
    intro alts held
    rw [run] at held
    split at held
    · rename_i there
      cases change with
      | insert name value => exact alts_insert_default fresh _ name value alts held
      | erase name => exact fresh alts held
      | eraseIf name value =>
        simp only [apply] at held
        split at held <;> exact fresh alts held
      | clear => simp [apply, Model.clear, absent] at held
      | editAlts edit =>
        have apart : other ≠ way.flatMap segments := by
          rintro rfl
          rw [absent] at there
          cases there
        simp only [apply, if_neg apart] at held
        exact fresh alts held
    · exact fresh alts held

/-- Clearing a directory leaves the alternatives of all directories alone that are not below it:
its own, those of its siblings, and those further up. -/
theorem alts_clear_of_not_below [BEq V] {other : List String} {way : List String}
    (notBelow : isBelow (way.flatMap segments) other = false) :
    (model.run (.inside way .clear)).1.alts other = model.alts other := by
  rw [run]
  split
  · simp [apply, Model.clear, notBelow]
  · rfl

end Model

/-! ## Runs -/

/-- After a run of commands the directories and their alternatives are those of the model of the
run: every path leads to a directory if the model has one there, with the alternatives that the
model has there, and every live directory lists each of its subdirectories once. So a directory
that a command makes starts with the empty alternative, also where there was another one before,
and clearing a directory leaves the ones that are not below it with their alternatives. Every prefix
of a run is a run, so this holds at each command. -/
theorem directories_over_runs [BEq V] (commands : List (Command V)) :
    let tree := (Tree.empty.runAll commands).tree
    let model := (Model.runAll .empty commands).1
    {path | (model.alts path).isSome}.Finite ∧
      model.Shows tree ∧
      (∀ dir, tree.IsLive dir → ∃ way, tree.root.descend? way = some ⟨tree, dir⟩) ∧
      (∀ way view, tree.root.descend? way = some view →
        model.alts (way.flatMap segments) = some view.alts ∧
          (view.subdirs.map Prod.fst).Nodup ∧
          (∀ segment, segment ∈ view.subdirs.map Prod.fst ↔
            (model.alts (way.flatMap segments ++ [segment])).isSome) ∧
          ∀ segment below, (segment, below) ∈ view.subdirs →
            view.subdir? segment = some below) ∧
      (∀ command path view, tree.root.subdir? path = none →
        (Command.run tree command).tree.root.subdir? path = some view → view.alts = [""]) ∧
      ∀ way path, Model.isBelow (way.flatMap segments) (segments path) = false →
        ((Command.run tree (.inside way .clear)).tree.root.subdir? path).map View.alts =
          (tree.root.subdir? path).map View.alts := by
  intro tree model
  obtain ⟨agrees, -⟩ : model.Agrees tree ∧ _ := Model.agrees_empty.runAll commands
  have wf := agrees.wellFormed
  refine ⟨agrees.finite, agrees.shows, ?reached, ?listed, ?made, ?kept⟩
  case reached =>
    intro dir live
    obtain ⟨path, reach⟩ := wf.exists_way live
    refine ⟨path, View.descend?_eq_some.mpr ⟨?_, rfl⟩⟩
    rw [flatMap_segments_of_free (wf.follow_free wf.root_live reach)]
    exact reach
  case listed =>
    intro way view h
    obtain ⟨dir, rfl, -, reach⟩ := wf.descend?_root h
    refine ⟨?_, View.nodup_subdirs _, agrees.subdirs_iff reach, ?_⟩
    · rw [← agrees.alts, Tree.altsAt_of_follow reach]
      rfl
    · intro segment below
      exact View.subdir?_of_mem_subdirs wf
  case made =>
    intro command path view absent present
    have before := congrArg (Option.map View.alts) absent
    have after := congrArg (Option.map View.alts) present
    rw [agrees.shows.alts] at before
    rw [(agrees.run command).1.shows.alts] at after
    exact Model.alts_run_of_none before command view.alts after
  case kept =>
    intro way path notBelow
    rw [(agrees.run _).1.shows.alts, agrees.shows.alts]
    exact Model.alts_clear_of_not_below notBelow

end SymbolTree
