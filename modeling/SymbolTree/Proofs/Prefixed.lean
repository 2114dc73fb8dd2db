import SymbolTree.Proofs.Refinement

/-!
# Views and names with a path in front

What is asked or done in a directory is what is asked or done at the root under the name with the
path of the directory in front.

* `ensureDirs_append`, `lookup_append`: the way to the directory adds nothing of its own;
* `full_eq`, `parse_full`: the name at the root, and its key;
* `entries_perm_root`: the entries of a directory among those of the root;
* `insert_eq_root`, `erase_eq_root`, `eraseIf_eq_root`: the outcomes are the same, the trees and the
  events included.
-/
namespace SymbolTree

variable {V : Type} {tree : Tree V} {dir start : Handle} {path : List String}

/-! ## On the way to a directory -/

namespace Tree

/-- Directories that are there do not have to be made. -/
theorem ensureDirs_append (reach : tree.follow start path = some dir) (more : List String) :
    tree.ensureDirs start (path ++ more) = tree.ensureDirs dir more := by
  induction path generalizing start with
  | nil =>
    obtain rfl := Option.some.inj reach
    rfl
  | cons segment path ih =>
    rw [follow_cons] at reach
    obtain ⟨child, link, rest⟩ := Option.bind_eq_some_iff.mp reach
    rw [List.cons_append, ensureDirs, ensureChild_of_link link]
    exact ih rest

/-- No segment is missing on the way to a directory that is there. -/
theorem lookup_append (reach : tree.follow start path = some dir) (leaf : String)
    (more : List String) : tree.lookup start leaf (path ++ more) = tree.lookup dir leaf more := by
  induction path generalizing start with
  | nil => rw [List.nil_append, Option.some.inj reach]
  | cons segment path ih =>
    rw [follow_cons] at reach
    obtain ⟨child, link, rest⟩ := Option.bind_eq_some_iff.mp reach
    rw [List.cons_append, lookup, link]
    exact ih rest

theorem follow_append_of_follow (reach : tree.follow start path = some dir) (more : List String) :
    tree.follow start (path ++ more) = tree.follow dir more := by
  rw [follow_append, reach, Option.bind_some]

end Tree

namespace View

/-! ## Names taken from the root -/

theorem full_eq (inner : dir ≠ tree.rootHandle) (name : String) :
    (View.mk tree dir).full name = (View.mk tree dir).path ++ "." ++ name :=
  if_neg inner

/-- The key of a name taken from the root goes through the directory. -/
theorem parse_full (wf : tree.WellFormed) (reach : tree.follow tree.rootHandle path = some dir)
    (name : String) :
    Key.parse ((View.mk tree dir).full name) =
      ⟨path ++ (Key.parse name).dirs, (Key.parse name).leaf⟩ := by
  rw [← whole_eq_full wf reach, Model.parse_whole path (wf.follow_free wf.root_live reach)]
  rfl

theorem segments_full (wf : tree.WellFormed) (reach : tree.follow tree.rootHandle path = some dir)
    (name : String) : segments ((View.mk tree dir).full name) = path ++ segments name := by
  rw [← Key.segments_parse, parse_full wf reach, ← Key.segments_parse name]
  simp [Key.segments]

/-! ## Questions -/

theorem get?_eq_root (wf : tree.WellFormed) (reach : tree.follow tree.rootHandle path = some dir)
    (name : String) :
    (View.mk tree dir).get? name = tree.root.get? ((View.mk tree dir).full name) := by
  rw [← whole_eq_full wf reach, get?_whole (wf.follow_free wf.root_live reach) reach]

/-- Both look-ups come to the same value or to the same missing segment. -/
theorem get_eq_root (wf : tree.WellFormed) (reach : tree.follow tree.rootHandle path = some dir)
    (name : String) :
    tree.root.get ((View.mk tree dir).full name) =
      (tree.lookup dir (Key.parse name).leaf (Key.parse name).dirs).mapError
        (.keyNotFound ((View.mk tree dir).full name)) := by
  rw [get, parse_full wf reach]
  exact congrArg _ (Tree.lookup_append reach _ _)

theorem subdir?_eq_root (wf : tree.WellFormed) (reach : tree.follow tree.rootHandle path = some dir)
    (way : String) :
    (View.mk tree dir).subdir? way = tree.root.subdir? ((View.mk tree dir).full way) := by
  rw [subdir?, subdir?, segments_full wf reach]
  exact congrArg _ (Tree.follow_append_of_follow reach _).symm

/-- The entries of a directory, with their names taken from the root, are those of the root that
the directory covers. -/
theorem entries_perm_root (wf : tree.WellFormed)
    (reach : tree.follow tree.rootHandle path = some dir) :
    ((View.mk tree dir).entries.map fun (name, value) => ((View.mk tree dir).full name, value)).Perm
      (tree.root.entries.filter fun (key, _) => (View.mk tree dir).covers key) := by
  refine entries_perm_filter wf reach (nodup_keys_entries wf wf.root_live) ?_
  intro name value
  rw [get?_eq_root wf reach]
  exact (mem_entries_iff wf wf.root_live _ _).symm

/-! ## Edits -/

theorem insert_eq_root (wf : tree.WellFormed) (reach : tree.follow tree.rootHandle path = some dir)
    (name : String) (value : V) :
    (View.mk tree dir).insert name value =
      tree.root.insert ((View.mk tree dir).full name) value := by
  rw [insert, insert, parse_full wf reach]
  exact congrArg (Outcome.andThen · _) (Tree.ensureDirs_append reach _).symm

theorem erase_eq_root (wf : tree.WellFormed) (reach : tree.follow tree.rootHandle path = some dir)
    (name : String) :
    (View.mk tree dir).erase name = tree.root.erase ((View.mk tree dir).full name) := by
  have same := Tree.follow_append_of_follow reach (Key.parse name).dirs
  rw [erase, erase, parse_full wf reach]
  simp only [Tree.root, same]

theorem eraseIf_eq_root [BEq V] (wf : tree.WellFormed)
    (reach : tree.follow tree.rootHandle path = some dir) (name : String) (value : V) :
    (View.mk tree dir).eraseIf name value =
      tree.root.eraseIf ((View.mk tree dir).full name) value := by
  rw [eraseIf, eraseIf, holds, holds, ← get?_eq_root wf reach, ← erase_eq_root wf reach]
  rfl

/-! ## A view and the root -/

/-- In a tree that some commands have built, a directory other than the root answers every question
and takes every edit as the root does under the name with the path of the directory and a separator
in front: the same values, the same missing segment, the same subdirectories, the same entries up to
their order, and the same outcome of an edit, with the whole tree and all events. A subdirectory
under the empty segment is one of them: its path is empty and its names start with a separator. -/
theorem view_eq_prefixed_root [BEq V] (reachable : tree.Reachable) (live : tree.IsLive dir)
    (inner : dir ≠ tree.rootHandle) :
    let view : View V := ⟨tree, dir⟩
    (∀ name, view.get? name = tree.root.get? (view.path ++ "." ++ name)) ∧
      (∀ name, ∃ found : Except String V,
        view.get name = found.mapError (.keyNotFound name) ∧
          tree.root.get (view.path ++ "." ++ name) =
            found.mapError (.keyNotFound (view.path ++ "." ++ name))) ∧
      (∀ way, view.subdir? way = tree.root.subdir? (view.path ++ "." ++ way)) ∧
      (view.entries.map fun (name, value) => (view.path ++ "." ++ name, value)).Perm
        (tree.root.entries.filter fun (key, _) =>
          (view.path ++ ".").toList.isPrefixOf key.toList) ∧
      (∀ name value,
        view.insert name value = tree.root.insert (view.path ++ "." ++ name) value) ∧
      (∀ name, view.erase name = tree.root.erase (view.path ++ "." ++ name)) ∧
      ∀ name value, view.eraseIf name value =
        tree.root.eraseIf (view.path ++ "." ++ name) value := by
  intro view
  have wf := reachable.wellFormed
  obtain ⟨path, reach⟩ := wf.exists_way live
  have named (name : String) : view.path ++ "." ++ name = view.full name :=
    (full_eq inner name).symm
  have covered (key : String) :
      (view.path ++ ".").toList.isPrefixOf key.toList = view.covers key := by
    have notRoot : view.handle ≠ view.tree.rootHandle := inner
    simp [covers, notRoot]
  simp only [named, covered]
  refine ⟨get?_eq_root wf reach, ?get, subdir?_eq_root wf reach, entries_perm_root wf reach,
    insert_eq_root wf reach, erase_eq_root wf reach, eraseIf_eq_root wf reach⟩
  case get =>
    intro name
    exact ⟨_, rfl, get_eq_root wf reach name⟩

/-- The subdirectory under the empty segment, beside an entry of the root under the same name. -/
theorem view_eq_prefixed_root_empty_segment :
    let commands : List (Command Nat) :=
      [.inside [] (.insert "x" 1), .inside [] (.insert ".x" 2), .inside [] (.insert "..x" 3)]
    let tree := (Tree.empty.runAll commands).tree
    let view : View Nat := ⟨tree, ⟨1, 0⟩⟩
    tree.IsLive view.handle ∧ view.handle ≠ tree.rootHandle ∧ view.path = "" ∧
      view.get? "x" = tree.root.get? ("" ++ "." ++ "x") ∧
      view.insert "a.y" 4 = tree.root.insert ("" ++ "." ++ "a.y") 4 := by
  intro commands tree view
  have live : tree.IsLive view.handle := by decide +kernel
  have unnamed : view.path = "" := by decide +kernel
  have inner : view.handle ≠ tree.rootHandle := by decide +kernel
  have all := view_eq_prefixed_root (⟨commands, rfl⟩ : tree.Reachable) live inner
  refine ⟨live, inner, unnamed, ?_, ?_⟩
  · exact unnamed ▸ all.1 "x"
  · exact unnamed ▸ all.2.2.2.2.1 "a.y" 4

end View
end SymbolTree
