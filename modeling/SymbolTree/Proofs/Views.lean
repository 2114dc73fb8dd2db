import SymbolTree.Command
import SymbolTree.Proofs.Descent

/-!
# Views and ways

What a view answers, said with the way that leads to its directory.

* `descend?_eq`: following paths one after the other is one way, their segments in a row;
* `get?_of_free`, `get?_dot`: a segment is looked up here, a dotted name one directory further down;
* `get?_whole`: a name in a directory and the same name taken from the root;
* `path_eq`: the path of a view is the way from the root.
-/
namespace SymbolTree

variable {V : Type}

namespace View

theorem descend?_eq (view : View V) (way : List String) :
    view.descend? way = (view.tree.follow view.handle (way.flatMap segments)).map view.moveTo := by
  induction way generalizing view with
  | nil => rfl
  | cons path way ih =>
    rw [List.flatMap_cons, Tree.follow_append]
    change (view.subdir? path).bind (View.descend? · way) = _
    simp only [subdir?]
    cases view.tree.follow view.handle (segments path) with
    | none => rfl
    | some dir => exact ih (view.moveTo dir)

theorem descend?_eq_some {view below : View V} {way : List String} :
    view.descend? way = some below ↔
      view.tree.follow view.handle (way.flatMap segments) = some below.handle ∧
        below.tree = view.tree := by
  rw [descend?_eq, Option.map_eq_some_iff]
  constructor
  · rintro ⟨dir, h, rfl⟩
    exact ⟨h, rfl⟩
  · rintro ⟨h, same⟩
    refine ⟨below.handle, h, ?_⟩
    cases below
    simp_all [moveTo]

theorem get?_eq (view : View V) (name : String) :
    view.get? name = (view.tree.follow view.handle (Key.parse name).dirs).bind fun dir =>
      (view.tree.slot dir).leaves.get? (Key.parse name).leaf := rfl

/-- The two look-ups find the same values. -/
theorem toOption_get (view : View V) (name : String) : (view.get name).toOption = view.get? name := by
  have found (start : Handle) (leaf : String) (dirs : List String) :
      (view.tree.lookup start leaf dirs).toOption =
        (view.tree.follow start dirs).bind fun dir => (view.tree.slot dir).leaves.get? leaf := by
    induction dirs generalizing start with
    | nil =>
      simp only [Tree.lookup, Tree.follow_nil, Option.bind_some]
      cases (view.tree.slot start).leaves.get? leaf <;> rfl
    | cons segment dirs ih =>
      simp only [Tree.lookup, Tree.follow_cons]
      cases view.tree.child? start segment with
      | none => rfl
      | some child => exact ih child
  rw [get?_eq, ← found, get]
  cases view.tree.lookup view.handle (Key.parse name).leaf (Key.parse name).dirs <;> rfl

theorem get_eq_ok_iff (view : View V) (name : String) (value : V) :
    view.get name = .ok value ↔ view.get? name = some value := by
  rw [← toOption_get]
  cases view.get name <;> simp [Except.toOption]

/-- A single segment is an entry of the directory itself. -/
theorem get?_of_free (view : View V) (segment : String) (free : separator ∉ segment.toList) :
    view.get? segment = view.leaves.get? segment := by
  rw [get?_eq, Key.parse_of_free segment free]
  rfl

/-- A dotted name is looked up in the subdirectory under its first segment. -/
theorem get?_dot (view : View V) (segment name : String) (free : separator ∉ segment.toList) :
    view.get? (segment ++ "." ++ name) =
      (view.tree.child? view.handle segment).bind fun child => (view.moveTo child).get? name := by
  rw [get?_eq, Key.parse_dot, segments_of_free segment free]
  simp only [List.cons_append, List.nil_append, Tree.follow_cons]
  cases view.tree.child? view.handle segment <;> rfl

/-- A name in a directory is the same entry as the whole name at the root. -/
theorem get?_whole {tree : Tree V} {dir : Handle} {path : List String} (free : Free path)
    (h : tree.follow tree.rootHandle path = some dir) (name : String) :
    tree.root.get? (Model.whole path name) = (View.mk tree dir).get? name := by
  rw [get?_eq, get?_eq, Model.parse_whole path free]
  simp only [Key.inside, Tree.root, Tree.follow_append, h, Option.bind_some]

end View

namespace Tree.WellFormed

variable {tree : Tree V} {dir : Handle}

/-- The segments on the way up are those on the way down, last first. The root has no parent and
adds none. -/
theorem lineage_segments (wf : tree.WellFormed) {way : List String}
    (h : tree.follow tree.rootHandle way = some dir) {steps : Nat} (enough : way.length < steps) :
    ((tree.lineage steps dir).filter fun handle => (tree.slot handle).parent.isSome).map
      (fun handle => (tree.slot handle).segment) = way.reverse := by
  induction way using List.reverseRecOn generalizing dir steps with
  | nil =>
    obtain rfl := Option.some.inj h
    obtain ⟨steps, rfl⟩ := Nat.exists_eq_add_one_of_ne_zero (Nat.ne_of_gt enough)
    simp [lineage, wf.root.2.1]
  | append_singleton way segment ih =>
    obtain ⟨parent, toParent, link⟩ := follow_concat_eq_some.mp h
    obtain ⟨steps, rfl⟩ := Nat.exists_eq_add_one_of_ne_zero (Nat.ne_of_gt (Nat.zero_lt_of_lt enough))
    have parentLive := wf.follow_live wf.root_live toParent
    have up := ih toParent (show way.length < steps by simp at enough; omega)
    simp [lineage, wf.child_parent parentLive link, wf.child_segment parentLive link, up]

theorem path_eq (wf : tree.WellFormed) {way : List String}
    (h : tree.follow tree.rootHandle way = some dir) : (View.mk tree dir).path = join way := by
  have later := wf.follow_later wf.root_live h
  have inside := (wf.follow_live wf.root_live h).inside
  have up := wf.lineage_segments h (show way.length < tree.slots.size by omega)
  have upViews : ((View.mk tree dir).lineage.filter (·.slot.parent.isSome)).map View.segment =
      way.reverse := by
    rw [← up]
    simp only [View.lineage, List.filter_map, List.map_map]
    rfl
  simp [View.path, upViews]

end Tree.WellFormed
end SymbolTree
