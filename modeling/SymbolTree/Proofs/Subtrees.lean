import Mathlib.Data.List.Nodup
import Mathlib.Data.List.Perm.Subperm
import SymbolTree.Proofs.Descent
import SymbolTree.Tree.Sweep

/-!
# Subtrees

A directory and all below it as a list, by recursion over the subdirectories. The recursion needs a
bound on its depth; the size of the arena is enough.

* `subtree_eq`: the recursion without the bound;
* `mem_subtree_iff_below`, `nodup_subtree`: each directory at or below the start stands there once;
* `sweep_eq`: a sweep goes through the subtrees of its worklist and leaves nothing pending;
* `pending_sweep_singleton`: a sweep that may halt leaves nothing pending if it meets no halt.
-/
namespace SymbolTree.Tree

variable {V : Type} {tree : Tree V} {dir child : Handle} {segment : String}

/-- A directory and those below it down to a depth, each before the ones below it. -/
def family (tree : Tree V) : (depth : Nat) → Handle → List Handle
  | 0, _ => []
  | depth + 1, dir => dir :: (tree.slot dir).children.values.flatMap (tree.family depth)

/-- A directory and all below it. -/
def subtree (tree : Tree V) (dir : Handle) : List Handle := tree.family tree.slots.size dir

theorem mem_values_iff : child ∈ (tree.slot dir).children.values ↔
    ∃ segment, tree.child? dir segment = some child := by
  simp only [child?, Table.get?_eq_some_iff, Table.values, List.mem_map, Prod.exists,
    exists_eq_right]

namespace WellFormed

/-- From a slot on there is no way longer than the rest of the arena. -/
theorem family_eq (wf : tree.WellFormed) (live : tree.IsLive dir) {depth more : Nat}
    (enough : tree.slots.size ≤ dir.index + depth) (enough' : tree.slots.size ≤ dir.index + more) :
    tree.family depth dir = tree.family more dir := by
  induction depth generalizing dir more with
  | zero =>
    have inside := live.inside
    omega
  | succ depth ih =>
    cases more with
    | zero =>
      have inside := live.inside
      omega
    | succ more =>
      have same : ∀ child ∈ (tree.slot dir).children.values,
          tree.family depth child = tree.family more child := by
        intro child member
        obtain ⟨segment, link⟩ := mem_values_iff.mp member
        have later := wf.child_later live link
        exact ih (wf.child_live live link) (by omega) (by omega)
      simp only [family, List.flatMap_congr same]

theorem subtree_eq (wf : tree.WellFormed) (live : tree.IsLive dir) :
    tree.subtree dir = dir :: (tree.slot dir).children.values.flatMap tree.subtree := by
  have inside := live.inside
  have deeper : tree.subtree dir = tree.family (tree.slots.size + 1) dir :=
    wf.family_eq live (by omega) (by omega)
  rw [deeper]
  rfl

/-- The subtree of a directory is what ways lead to from there. -/
theorem mem_subtree_iff (wf : tree.WellFormed) (live : tree.IsLive dir) {other : Handle} :
    other ∈ tree.subtree dir ↔ ∃ way, tree.follow dir way = some other := by
  refine wf.upward_induction (P := fun dir => other ∈ tree.subtree dir ↔
    ∃ way, tree.follow dir way = some other) ?_ live
  intro dir live ih
  rw [wf.subtree_eq live, List.mem_cons, List.mem_flatMap]
  constructor
  · rintro (rfl | ⟨child, member, below⟩)
    · exact ⟨[], rfl⟩
    · obtain ⟨segment, link⟩ := mem_values_iff.mp member
      obtain ⟨way, h⟩ := (ih segment child link).mp below
      exact ⟨segment :: way, by simp [follow_cons, link, h]⟩
  · rintro ⟨way, h⟩
    cases way with
    | nil => exact .inl (Option.some.inj h).symm
    | cons segment way =>
      rw [follow_cons] at h
      obtain ⟨child, link, rest⟩ := Option.bind_eq_some_iff.mp h
      exact .inr ⟨child, mem_values_iff.mpr ⟨segment, link⟩, (ih segment child link).mpr ⟨way, rest⟩⟩

theorem subtree_live (wf : tree.WellFormed) (live : tree.IsLive dir) {other : Handle}
    (member : other ∈ tree.subtree dir) : tree.IsLive other := by
  obtain ⟨way, h⟩ := (wf.mem_subtree_iff live).mp member
  exact wf.follow_live live h

/-- Subdirectories under different segments have nothing in common. -/
theorem subtree_disjoint (wf : tree.WellFormed) (live : tree.IsLive dir) {other : Handle}
    {segment' : String} (link : tree.child? dir segment = some child)
    (link' : tree.child? dir segment' = some other) (ne : segment ≠ segment') :
    List.Disjoint (tree.subtree child) (tree.subtree other) := by
  intro shared member member'
  obtain ⟨way, h⟩ := (wf.mem_subtree_iff (wf.child_live live link)).mp member
  obtain ⟨way', h'⟩ := (wf.mem_subtree_iff (wf.child_live live link')).mp member'
  have toShared : tree.follow dir (segment :: way) = some shared := by simp [link, h]
  have toShared' : tree.follow dir (segment' :: way') = some shared := by simp [link', h']
  exact ne (List.cons.inj (wf.way_unique live toShared toShared')).1

/-- The subdirectories of one directory have no directory below them in common. -/
theorem children_pairwise (wf : tree.WellFormed) (live : tree.IsLive dir) :
    (tree.slot dir).children.values.Pairwise fun child other =>
      List.Disjoint (tree.subtree child) (tree.subtree other) := by
  have distinct := List.pairwise_map.mp (tree.slot dir).children.distinct
  rw [Table.values, List.pairwise_map]
  refine distinct.imp_of_mem ?_
  rintro ⟨segment, child⟩ ⟨segment', other⟩ member member' ne
  exact wf.subtree_disjoint live (((tree.slot dir).children.get?_eq_some_iff _ _).mpr member)
    (((tree.slot dir).children.get?_eq_some_iff _ _).mpr member') ne

theorem nodup_subtree (wf : tree.WellFormed) (live : tree.IsLive dir) : (tree.subtree dir).Nodup := by
  refine wf.upward_induction (P := fun dir => (tree.subtree dir).Nodup) ?_ live
  intro dir live ih
  rw [wf.subtree_eq live, List.nodup_cons, List.nodup_flatMap]
  refine ⟨?_, ?_, wf.children_pairwise live⟩
  · intro member
    obtain ⟨child, isChild, below⟩ := List.mem_flatMap.mp member
    obtain ⟨segment, link⟩ := mem_values_iff.mp isChild
    obtain ⟨way, h⟩ := (wf.mem_subtree_iff (wf.child_live live link)).mp below
    have back : tree.follow dir (segment :: way) = some dir := by simp [link, h]
    exact List.cons_ne_nil _ _ (wf.way_back live back)
  · intro child isChild
    obtain ⟨segment, link⟩ := mem_values_iff.mp isChild
    exact ih segment child link

end WellFormed

/-- No two live directories share a slot. -/
theorem nodup_places {dirs : List Handle} (distinct : dirs.Nodup)
    (live : ∀ dir ∈ dirs, tree.IsLive dir) :
    (dirs.map Handle.index).Nodup ∧ dirs.map Handle.index ⊆ List.range tree.slots.size := by
  constructor
  · refine List.Nodup.map_on ?_ distinct
    intro dir isDir other isOther same
    exact (live dir isDir).eq_of_index (live other isOther).current same
  · intro place member
    obtain ⟨dir, isDir, rfl⟩ := List.mem_map.mp member
    exact List.mem_range.mpr (live dir isDir).inside

theorem length_le_size {dirs : List Handle} (distinct : dirs.Nodup)
    (live : ∀ dir ∈ dirs, tree.IsLive dir) : dirs.length ≤ tree.slots.size := by
  obtain ⟨places, within⟩ := nodup_places distinct live
  simpa using (List.subperm_of_subset places within).length_le

namespace WellFormed

theorem length_subtree_le (wf : tree.WellFormed) (live : tree.IsLive dir) :
    (tree.subtree dir).length ≤ tree.slots.size :=
  length_le_size (wf.nodup_subtree live) fun _ => wf.subtree_live live

/-! ## Sweeps -/

theorem children_live (wf : tree.WellFormed) (live : tree.IsLive dir) :
    ∀ child ∈ (tree.slot dir).children.values, tree.IsLive child := by
  intro child isChild
  obtain ⟨segment, link⟩ := mem_values_iff.mp isChild
  exact wf.child_live live link

/-- A sweep's worklist stays among live directories. -/
theorem next_live (wf : tree.WellFormed) {pending : List Handle}
    (live : ∀ other ∈ dir :: pending, tree.IsLive other) :
    ∀ other ∈ (tree.slot dir).children.values ++ pending, tree.IsLive other := by
  intro other member
  rcases List.mem_append.mp member with isChild | member
  · exact wf.children_live (live dir List.mem_cons_self) other isChild
  · exact live other (List.mem_cons_of_mem _ member)

/-- A sweep of enough steps goes through the subtrees of its worklist, one after the other. -/
theorem sweep_eq (wf : tree.WellFormed) {steps : Nat} {pending : List Handle}
    (live : ∀ dir ∈ pending, tree.IsLive dir)
    (enough : (pending.flatMap tree.subtree).length ≤ steps) :
    tree.sweep (fun _ => false) steps pending = ⟨pending.flatMap tree.subtree, []⟩ := by
  induction steps generalizing pending with
  | zero =>
    cases pending with
    | nil => rfl
    | cons dir pending =>
      rw [List.flatMap_cons, wf.subtree_eq (live dir List.mem_cons_self)] at enough
      simp at enough
  | succ steps ih =>
    cases pending with
    | nil => rfl
    | cons dir pending =>
      rw [List.flatMap_cons, wf.subtree_eq (live dir List.mem_cons_self)] at enough ⊢
      have rest := ih (wf.next_live live) (by simp at enough ⊢; omega)
      simp [sweep, rest]

/-- The worklist of a sweep through a whole subtree is never too long for the arena. -/
theorem sweepAll_singleton (wf : tree.WellFormed) (live : tree.IsLive dir) :
    tree.sweepAll [dir] = tree.subtree dir := by
  have enough : ([dir].flatMap tree.subtree).length ≤ tree.slots.size := by
    simpa using wf.length_subtree_le live
  rw [sweepAll, wf.sweep_eq (by simpa using live) enough]
  simp

/-- A sweep with a halt has nothing left to do if one without a halt has nothing left to do and
meets no directory to halt at. -/
theorem pending_sweep_iff (tree : Tree V) (halt : Slot V → Bool) (steps : Nat)
    (pending : List Handle) :
    (tree.sweep halt steps pending).pending = [] ↔
      (tree.sweep (fun _ => false) steps pending).pending = [] ∧
        ∀ dir ∈ (tree.sweep (fun _ => false) steps pending).visited,
          halt (tree.slot dir) = false := by
  induction steps generalizing pending with
  | zero => simp [sweep]
  | succ steps ih =>
    cases pending with
    | nil => simp [sweep]
    | cons dir pending => cases stop : halt (tree.slot dir) <;> simp [sweep, stop, ih]

/-- Whether a sweep halts is whether it can halt somewhere in the subtree. -/
theorem pending_sweep_singleton (wf : tree.WellFormed) (live : tree.IsLive dir)
    (halt : Slot V → Bool) :
    (tree.sweep halt tree.slots.size [dir]).pending = [] ↔
      ∀ other ∈ tree.subtree dir, halt (tree.slot other) = false := by
  have enough : ([dir].flatMap tree.subtree).length ≤ tree.slots.size := by
    simpa using wf.length_subtree_le live
  rw [pending_sweep_iff, wf.sweep_eq (by simpa using live) enough]
  simp

theorem sweepAll_children (wf : tree.WellFormed) (live : tree.IsLive dir) :
    dir :: tree.sweepAll (tree.slot dir).children.values = tree.subtree dir := by
  have bound := wf.length_subtree_le live
  rw [wf.subtree_eq live, List.length_cons] at bound
  rw [sweepAll, wf.sweep_eq (wf.children_live live) (by omega), wf.subtree_eq live]

/-- The sweep meets no directory twice, and it does not come back to where it starts. -/
theorem nodup_sweepAll_children (wf : tree.WellFormed) (live : tree.IsLive dir) :
    dir ∉ tree.sweepAll (tree.slot dir).children.values ∧
      (tree.sweepAll (tree.slot dir).children.values).Nodup := by
  rw [← List.nodup_cons, wf.sweepAll_children live]
  exact wf.nodup_subtree live

/-- A sweep from the subdirectories of a directory goes through what is below it. -/
theorem mem_sweepAll_children (wf : tree.WellFormed) (live : tree.IsLive dir) {other : Handle} :
    other ∈ tree.sweepAll (tree.slot dir).children.values ↔ tree.Below dir other := by
  have distinct := wf.nodup_sweepAll_children live
  have reached : other ∈ tree.subtree dir ↔ _ := wf.mem_subtree_iff live
  rw [← wf.sweepAll_children live, List.mem_cons] at reached
  rw [below_iff_cons]
  constructor
  · intro member
    obtain ⟨way, h⟩ := reached.mp (.inr member)
    cases way with
    | nil => exact absurd (Option.some.inj h ▸ member) distinct.1
    | cons segment way => exact ⟨segment, way, h⟩
  · rintro ⟨segment, way, h⟩
    rcases reached.mpr ⟨_, h⟩ with rfl | member
    · exact absurd (wf.way_back live h) (List.cons_ne_nil _ _)
    · exact member

theorem mem_subtree_iff_below (wf : tree.WellFormed) (live : tree.IsLive dir) (other : Handle) :
    other ∈ tree.subtree dir ↔ other = dir ∨ tree.Below dir other := by
  rw [← wf.sweepAll_children live, List.mem_cons, wf.mem_sweepAll_children live]

theorem mem_subtree_self (wf : tree.WellFormed) (dir : Handle) : dir ∈ tree.subtree dir := by
  obtain ⟨size, same⟩ := Nat.exists_eq_add_one_of_ne_zero (Nat.ne_of_gt wf.root.1)
  rw [subtree, same]
  exact List.mem_cons_self

theorem sweepAll_eq_flatMap (wf : tree.WellFormed) (live : tree.IsLive dir) :
    tree.sweepAll (tree.slot dir).children.values =
      (tree.slot dir).children.values.flatMap tree.subtree :=
  (List.cons.inj ((wf.sweepAll_children live).trans (wf.subtree_eq live))).2

end WellFormed
end SymbolTree.Tree
