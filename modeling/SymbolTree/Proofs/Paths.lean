import SymbolTree.Proofs.Edits
import SymbolTree.View.Turns

/-!
# Paths and directories

The path of a directory, read upward along the parents, and the directory under a path, found
downward, undo each other.

* `segments_path`: the segments of a path are the way from the root;
* `path_child`: the path of a subdirectory goes on from that of its parent;
* `go?_up_iff`: the root is as many parents away as the way has segments.
-/
namespace SymbolTree.View

variable {V : Type} {tree : Tree V} {dir child : Handle} {path : List String} {segment : String}

theorem subdir?_eq_some_iff {view : View V} {name : String} :
    tree.root.subdir? name = some view ↔
      tree.follow tree.rootHandle (segments name) = some view.handle ∧ view.tree = tree := by
  unfold subdir?
  rw [Option.map_eq_some_iff]
  constructor
  · rintro ⟨dir, reach, rfl⟩
    exact ⟨reach, rfl⟩
  · rintro ⟨reach, same⟩
    cases view
    cases same
    exact ⟨_, reach, rfl⟩

/-- The root adds no segment to a path, and an empty segment is one like any other. -/
theorem segments_path (wf : tree.WellFormed) (reach : tree.follow tree.rootHandle path = some dir)
    (longer : path ≠ []) : segments (View.mk tree dir).path = path := by
  rw [wf.path_eq reach]
  exact segments_join path longer (wf.follow_free wf.root_live reach)

theorem subdir?_path (wf : tree.WellFormed) (reach : tree.follow tree.rootHandle path = some dir)
    (longer : path ≠ []) : tree.root.subdir? (View.mk tree dir).path = some ⟨tree, dir⟩ := by
  refine subdir?_eq_some_iff.mpr ⟨?_, rfl⟩
  rw [segments_path wf reach longer]
  exact reach

theorem path_child (wf : tree.WellFormed) (reach : tree.follow tree.rootHandle path = some dir)
    (link : tree.child? dir segment = some child) :
    (View.mk tree child).path =
      if dir = tree.rootHandle then segment else (View.mk tree dir).path ++ "." ++ segment := by
  have onward : tree.follow tree.rootHandle (path ++ [segment]) = some child :=
    Tree.follow_concat_eq_some.mpr ⟨dir, reach, link⟩
  rw [wf.path_eq onward, wf.path_eq reach]
  split
  · rename_i top
    obtain rfl := wf.way_back wf.root_live (top ▸ reach)
    exact join_singleton segment
  · rename_i inner
    have longer : path ≠ [] := by
      rintro rfl
      exact inner (Option.some.inj reach).symm
    rw [join_append path [segment] longer (List.cons_ne_nil _ _), join_singleton]

theorem parent?_child (wf : tree.WellFormed) (live : tree.IsLive dir)
    (link : tree.child? dir segment = some child) :
    (View.mk tree child).parent? = some ⟨tree, dir⟩ := by
  simp [parent?, slot, wf.child_parent live link, moveTo]

theorem parent?_root (wf : tree.WellFormed) : tree.root.parent? = none := by
  simp [parent?, slot, Tree.root, wf.root.2.1]

/-- Every parent is one segment nearer to the root, and beyond the root there is none. -/
theorem go?_up_iff (wf : tree.WellFormed) (reach : tree.follow tree.rootHandle path = some dir)
    (steps : Nat) :
    (View.mk tree dir).go? (List.replicate steps .up) = some tree.root ↔ steps = path.length := by
  induction path using List.reverseRecOn generalizing dir steps with
  | nil =>
    obtain rfl := Option.some.inj reach
    cases steps with
    | zero => exact ⟨fun _ => rfl, fun _ => rfl⟩
    | succ steps =>
      have stuck : (View.mk tree tree.rootHandle).turn? .up = none := parent?_root wf
      simp [List.replicate_succ, stuck]
  | append_singleton path segment ih =>
    obtain ⟨parent, toParent, link⟩ := Tree.follow_concat_eq_some.mp reach
    have parentLive := wf.follow_live wf.root_live toParent
    cases steps with
    | zero =>
      have inner : dir ≠ tree.rootHandle := by
        rintro rfl
        exact List.concat_ne_nil segment path (wf.way_back wf.root_live reach)
      simp [Tree.root, inner]
    | succ steps =>
      have above : (View.mk tree dir).turn? .up = some ⟨tree, parent⟩ :=
        parent?_child wf parentLive link
      rw [List.replicate_succ, go?_cons, above, Option.bind_some, ih toParent, List.length_append,
        List.length_singleton]
      omega

/-- A live directory that is not the root has a parent, which holds it under its segment. -/
theorem exists_parent (wf : tree.WellFormed) (live : tree.IsLive dir)
    (inner : dir ≠ tree.rootHandle) :
    ∃ path parent, tree.follow tree.rootHandle path = some parent ∧
      tree.child? parent (View.mk tree dir).segment = some dir := by
  obtain ⟨parent, -, parentLive, link⟩ := wf.up dir live inner
  obtain ⟨path, reach⟩ := wf.exists_way parentLive
  exact ⟨path, parent, reach, link⟩

theorem path_inj (wf : tree.WellFormed) {other : Handle} {way : List String}
    (reach : tree.follow tree.rootHandle path = some dir) (longer : path ≠ [])
    (reach' : tree.follow tree.rootHandle way = some other) (longer' : way ≠ [])
    (same : (View.mk tree other).path = (View.mk tree dir).path) : other = dir := by
  have ways : way = path := by
    rw [← segments_path wf reach' longer', same, segments_path wf reach longer]
  rw [ways, reach] at reach'
  exact (Option.some.inj reach').symm

/-- An empty path is that of the root or has one segment, the empty one. -/
theorem path_eq_root_iff (wf : tree.WellFormed)
    (reach : tree.follow tree.rootHandle path = some dir)
    (link : tree.child? dir segment = some child) :
    (View.mk tree child).path = tree.root.path ↔ dir = tree.rootHandle ∧ segment = "" := by
  have onward : tree.follow tree.rootHandle (path ++ [segment]) = some child :=
    Tree.follow_concat_eq_some.mpr ⟨dir, reach, link⟩
  have unnamed : tree.root.path = "" := wf.path_eq (tree.follow_nil _)
  rw [unnamed]
  constructor
  · intro empty
    have one : segments "" = [] ++ [""] := rfl
    have parts := segments_path wf onward (List.concat_ne_nil _ _)
    rw [empty, one] at parts
    obtain ⟨top, last⟩ := List.append_inj' parts rfl
    rw [← top] at reach
    exact ⟨(Option.some.inj reach).symm, (List.cons.inj last).1.symm⟩
  · rintro ⟨rfl, rfl⟩
    exact (path_child wf reach link).trans (if_pos rfl)

/-- In a tree that some commands have built, the path of a directory other than the root leads to
that directory, is the path of its parent with its segment behind, and has as many segments as there
are parents up to the root. What a path leads to is not the root and has that path. So no two of
these directories share a path, and of them only the one that the root holds under the empty segment
shares the path of the root. -/
theorem path_subdir?_inverse [BEq V] (reachable : tree.Reachable) :
    (∀ dir, tree.IsLive dir → dir ≠ tree.rootHandle →
      let view : View V := ⟨tree, dir⟩
      tree.root.subdir? view.path = some view ∧
        (∃ parent, view.parent? = some parent ∧
          view.path =
            if parent.handle = tree.rootHandle then view.segment
            else parent.path ++ "." ++ view.segment) ∧
        (∀ steps, view.go? (List.replicate steps .up) = some tree.root ↔
          steps = (segments view.path).length) ∧
        (∀ other, tree.IsLive other → other ≠ tree.rootHandle →
          (View.mk tree other).path = view.path → other = dir) ∧
        (view.path = tree.root.path ↔ view.parent? = some tree.root ∧ view.segment = "")) ∧
      ∀ name view, tree.root.subdir? name = some view →
        tree.view? view.handle = some view ∧ view.handle ≠ tree.rootHandle ∧ view.path = name := by
  have wf := reachable.wellFormed
  constructor
  · intro dir live inner view
    obtain ⟨path, parent, toParent, link⟩ := exists_parent wf live inner
    have reach : tree.follow tree.rootHandle (path ++ [view.segment]) = some dir :=
      Tree.follow_concat_eq_some.mpr ⟨parent, toParent, link⟩
    have longer : path ++ [view.segment] ≠ [] := List.concat_ne_nil _ _
    have above : view.parent? = some ⟨tree, parent⟩ :=
      parent?_child wf (wf.follow_live wf.root_live toParent) link
    refine ⟨subdir?_path wf reach longer, ⟨_, above, path_child wf toParent link⟩, ?steps, ?apart,
      ?unnamed⟩
    case steps =>
      intro steps
      rw [segments_path wf reach longer]
      exact go?_up_iff wf reach steps
    case apart =>
      intro other otherLive otherInner same
      obtain ⟨way, otherParent, toOther, otherLink⟩ := exists_parent wf otherLive otherInner
      exact path_inj wf reach longer
        (Tree.follow_concat_eq_some.mpr ⟨otherParent, toOther, otherLink⟩) (List.concat_ne_nil _ _) same
    case unnamed =>
      have top : (⟨tree, parent⟩ : View V) = tree.root ↔ parent = tree.rootHandle := by
        simp [Tree.root]
      rw [path_eq_root_iff wf toParent link, above, Option.some.injEq, top]
  · intro name view found
    obtain ⟨reach, same⟩ := subdir?_eq_some_iff.mp found
    obtain ⟨tree', dir⟩ := view
    obtain rfl : tree' = tree := same
    refine ⟨?given, ?inner, ?named⟩
    case given => simp [Tree.view?, wf.follow_live wf.root_live reach]
    case inner =>
      rintro rfl
      exact segments_ne_nil name (wf.way_back wf.root_live reach)
    case named => rw [wf.path_eq reach, join_segments]

/-- Two directories under empty segments, the one in the other: the path of the inner one is a lone
separator, and the root is two parents away. -/
theorem path_subdir?_inverse_empty_segments :
    let commands : List (Command Nat) := [.inside [] (.insert "..x" 1)]
    let tree := (Tree.empty.runAll commands).tree
    let view : View Nat := ⟨tree, ⟨2, 0⟩⟩
    tree.IsLive view.handle ∧ view.handle ≠ tree.rootHandle ∧ view.path = "." ∧
      tree.root.subdir? view.path = some view ∧
      ∀ steps, view.go? (List.replicate steps .up) = some tree.root ↔ steps = 2 := by
  intro commands tree view
  have live : tree.IsLive view.handle := by decide +kernel
  have inner : view.handle ≠ tree.rootHandle := by decide +kernel
  have two : (segments view.path).length = 2 := by decide +kernel
  have all := (path_subdir?_inverse (⟨commands, rfl⟩ : tree.Reachable)).1 _ live inner
  exact ⟨live, inner, by decide +kernel, all.1, two ▸ all.2.2.1⟩

end SymbolTree.View
