import SymbolTree.Proofs.Links
import SymbolTree.Proofs.Subtrees
import SymbolTree.View.Edit

/-!
# How a tree is pruned

Clearing a directory cuts off what is below it, clearing the tree starts a new one.

* `cutOffAll_of_perm`: the order in which directories are cut off does not matter;
* `slot_clear_self`, `slot_clear_below`, `slot_clear_other`: every slot after a directory has been
  cleared;
* `link_clear_iff`, `isLive_clear_iff`, `follow_clear_iff`: the links, directories and ways that are
  left;
* `wellFormed_clear`, `wellFormed_bare`: what is left is a tree, and so is a lone root.
-/
namespace SymbolTree.Tree

variable {V : Type} {tree : Tree V} {top dir child : Handle} {segment : String}

/-! ## Marking a list of slots -/

/-- The tree with the given directories cut off. -/
def cutOffAll (tree : Tree V) (dirs : List Handle) : Tree V :=
  dirs.foldl (fun tree dir => tree.modify dir Slot.cutOff) tree

@[simp] theorem cutOffAll_nil (tree : Tree V) : tree.cutOffAll [] = tree := rfl

@[simp] theorem cutOffAll_cons (tree : Tree V) (dir : Handle) (dirs : List Handle) :
    tree.cutOffAll (dir :: dirs) = (tree.modify dir Slot.cutOff).cutOffAll dirs := rfl

@[simp] theorem size_cutOffAll (tree : Tree V) (dirs : List Handle) :
    (tree.cutOffAll dirs).slots.size = tree.slots.size := by
  induction dirs generalizing tree with
  | nil => rfl
  | cons marked dirs ih => simpa using ih (tree.modify marked Slot.cutOff)

@[simp] theorem generation_cutOffAll (tree : Tree V) (dirs : List Handle) :
    (tree.cutOffAll dirs).generation = tree.generation := by
  induction dirs generalizing tree with
  | nil => rfl
  | cons marked dirs ih => simpa using ih (tree.modify marked Slot.cutOff)

/-- A slot is marked if it stands in the list, no matter how often. -/
theorem slot_cutOffAll (tree : Tree V) (dirs : List Handle) (dir : Handle) :
    (tree.cutOffAll dirs).slot dir =
      if dir.index ∈ dirs.map Handle.index ∧ dir.index < tree.slots.size then
        (tree.slot dir).cutOff
      else tree.slot dir := by
  have twice (slot : Slot V) : slot.cutOff.cutOff = slot.cutOff := rfl
  induction dirs generalizing tree with
  | nil => simp
  | cons marked dirs ih =>
    rw [cutOffAll_cons, ih, slot_modify, size_modify]
    by_cases here : dir.index = marked.index
    · by_cases inside : marked.index < tree.slots.size
      · by_cases later : marked.index ∈ dirs.map Handle.index
        · simp only [here, inside, later, twice, and_self, List.map_cons, List.mem_cons, or_self,
            ↓reduceIte]
        · simp only [here, inside, later, and_true, and_self, List.map_cons,
            List.mem_cons, true_or, ↓reduceIte]
      · simp [here, inside]
    · simp [here]

theorem cutOffAll_of_perm {dirs others : List Handle} (order : dirs.Perm others) :
    tree.cutOffAll dirs = tree.cutOffAll others :=
  order.foldl_eq' (fun _ _ _ _ tree => modify_comm (fun _ => rfl) tree _ _) tree

/-- A directory may be emptied before others are cut off or afterwards. -/
theorem cutOffAll_modify_emptied (tree : Tree V) (dir : Handle) (dirs : List Handle) :
    (tree.modify dir Slot.emptied).cutOffAll dirs = (tree.cutOffAll dirs).modify dir Slot.emptied := by
  have swap (slot : Slot V) : slot.emptied.cutOff = slot.cutOff.emptied := rfl
  induction dirs generalizing tree with
  | nil => rfl
  | cons other dirs ih =>
    have comm : (tree.modify dir Slot.emptied).modify other Slot.cutOff =
        (tree.modify other Slot.cutOff).modify dir Slot.emptied :=
      modify_comm swap tree other dir
    rw [cutOffAll_cons, cutOffAll_cons, comm, ih]

/-! ## Clearing a directory -/

theorem clear_eq (view : View V) :
    view.clear.tree =
      (view.tree.cutOffAll (view.tree.sweepAll view.slot.children.values)).modify view.handle
        Slot.emptied := rfl

/-- The tree after the directory `top` has been cleared. -/
def cleared (tree : Tree V) (top : Handle) : Tree V := (View.mk tree top).clear.tree

@[simp] theorem generation_cleared (tree : Tree V) (top : Handle) :
    (tree.cleared top).generation = tree.generation := by
  simp [cleared, clear_eq]

@[simp] theorem size_cleared (tree : Tree V) (top : Handle) :
    (tree.cleared top).slots.size = tree.slots.size := by
  simp [cleared, clear_eq]

@[simp] theorem rootHandle_cleared (tree : Tree V) (top : Handle) :
    (tree.cleared top).rootHandle = tree.rootHandle := by
  simp [rootHandle]

namespace WellFormed

theorem mem_below_index_iff (wf : tree.WellFormed) (topLive : tree.IsLive top)
    (current : dir.generation = tree.generation) :
    dir.index ∈ (tree.sweepAll (tree.slot top).children.values).map Handle.index ↔
      tree.Below top dir := by
  simp only [List.mem_map, wf.mem_sweepAll_children topLive]
  constructor
  · rintro ⟨below, isBelow, same⟩
    have belowLive := wf.below_live topLive isBelow
    exact belowLive.eq_of_index current same ▸ isBelow
  · intro isBelow
    exact ⟨dir, isBelow, rfl⟩

theorem slot_clear_self (wf : tree.WellFormed) (topLive : tree.IsLive top) :
    (tree.cleared top).slot top = (tree.slot top).emptied := by
  have notBelow : ¬ tree.Below top top := fun h => Nat.lt_irrefl _ (wf.below_later topLive h)
  have unmarked : ¬ (top.index ∈ (tree.sweepAll (tree.slot top).children.values).map Handle.index ∧
      top.index < tree.slots.size) :=
    fun h => notBelow ((wf.mem_below_index_iff topLive topLive.current).mp h.1)
  rw [cleared, clear_eq, slot_modify_self (by simpa using topLive.inside), slot_cutOffAll]
  exact congrArg _ (if_neg unmarked)

theorem slot_clear_below (wf : tree.WellFormed) (topLive : tree.IsLive top)
    (isBelow : tree.Below top dir) : (tree.cleared top).slot dir = (tree.slot dir).cutOff := by
  have live := wf.below_live topLive isBelow
  have later := wf.below_later topLive isBelow
  rw [cleared, clear_eq, slot_modify_other (Nat.ne_of_gt later), slot_cutOffAll]
  exact if_pos ⟨(wf.mem_below_index_iff topLive live.current).mpr isBelow, live.inside⟩

theorem slot_clear_other (wf : tree.WellFormed) (topLive : tree.IsLive top)
    (current : dir.generation = tree.generation) (ne : dir ≠ top) (notBelow : ¬ tree.Below top dir) :
    (tree.cleared top).slot dir = tree.slot dir := by
  have apart : dir.index ≠ top.index := fun same =>
    ne (topLive.eq_of_index current same.symm).symm
  rw [cleared, clear_eq, slot_modify_other apart, slot_cutOffAll]
  exact if_neg fun h => notBelow ((wf.mem_below_index_iff topLive current).mp h.1)

/-- Clearing a directory leaves segments, parents and alternatives as they are, also those of what
it cuts off. -/
theorem slot_clear_keeps (wf : tree.WellFormed) (topLive : tree.IsLive top)
    (current : dir.generation = tree.generation) :
    ((tree.cleared top).slot dir).segment = (tree.slot dir).segment ∧
      ((tree.cleared top).slot dir).parent = (tree.slot dir).parent ∧
      ((tree.cleared top).slot dir).alts = (tree.slot dir).alts := by
  by_cases self : dir = top
  · rw [self, wf.slot_clear_self topLive]
    exact ⟨rfl, rfl, rfl⟩
  · by_cases isBelow : tree.Below top dir
    · rw [wf.slot_clear_below topLive isBelow]
      exact ⟨rfl, rfl, rfl⟩
    · rw [wf.slot_clear_other topLive current self isBelow]
      exact ⟨rfl, rfl, rfl⟩

theorem isLive_clear_iff (wf : tree.WellFormed) (topLive : tree.IsLive top) :
    (tree.cleared top).IsLive dir ↔ tree.IsLive dir ∧ ¬ tree.Below top dir := by
  constructor
  · rintro ⟨inside, current, attached⟩
    rw [size_cleared] at inside
    rw [generation_cleared] at current
    by_cases isBelow : tree.Below top dir
    · rw [wf.slot_clear_below topLive isBelow] at attached
      cases attached
    · refine ⟨⟨inside, current, ?_⟩, isBelow⟩
      by_cases self : dir = top
      · exact self ▸ topLive.attached
      · rwa [wf.slot_clear_other topLive current self isBelow] at attached
  · rintro ⟨live, notBelow⟩
    refine ⟨by simpa using live.inside, by simpa using live.current, ?_⟩
    by_cases self : dir = top
    · rw [self, wf.slot_clear_self topLive]
      exact topLive.attached
    · rw [wf.slot_clear_other topLive live.current self notBelow]
      exact live.attached

/-- The links that are left are those of the directories that are neither cleared nor cut off. -/
theorem link_clear_iff (wf : tree.WellFormed) (topLive : tree.IsLive top)
    (current : dir.generation = tree.generation) :
    (tree.cleared top).child? dir segment = some child ↔
      tree.child? dir segment = some child ∧ dir ≠ top ∧ ¬ tree.Below top dir := by
  by_cases self : dir = top
  · subst self
    simp [child?, wf.slot_clear_self topLive, Slot.emptied]
  · by_cases isBelow : tree.Below top dir
    · simp [child?, wf.slot_clear_below topLive isBelow, Slot.cutOff, Slot.emptied, isBelow]
    · simp [child?, wf.slot_clear_other topLive current self isBelow, self, isBelow]

theorem follow_clear_iff (wf : tree.WellFormed) (topLive : tree.IsLive top) {way : List String} :
    (tree.cleared top).follow tree.rootHandle way = some dir ↔
      tree.follow tree.rootHandle way = some dir ∧ ¬ tree.Below top dir := by
  induction way using List.reverseRecOn generalizing dir with
  | nil =>
    simp only [follow_nil, Option.some.injEq, iff_self_and]
    rintro rfl
    exact wf.root_not_below topLive
  | append_singleton way segment ih =>
    simp only [follow_concat_eq_some, ih]
    constructor
    · rintro ⟨parent, ⟨toParent, notBelow⟩, link⟩
      have live := wf.follow_live wf.root_live toParent
      obtain ⟨link, ne, -⟩ := (wf.link_clear_iff topLive live.current).mp link
      refine ⟨⟨parent, toParent, link⟩, ?_⟩
      rw [wf.below_link_iff topLive live link]
      exact not_or.mpr ⟨ne, notBelow⟩
    · rintro ⟨⟨parent, toParent, link⟩, notBelow⟩
      have live := wf.follow_live wf.root_live toParent
      rw [wf.below_link_iff topLive live link, not_or] at notBelow
      exact ⟨parent, ⟨toParent, notBelow.2⟩,
        (wf.link_clear_iff topLive live.current).mpr ⟨link, notBelow⟩⟩

/-- A slot of the cleared tree has empty tables or is as it was. -/
theorem slot_clear_cases (wf : tree.WellFormed) (topLive : tree.IsLive top) (dir : Handle) :
    ((tree.cleared top).slot dir).leaves.entries = [] ∧
        ((tree.cleared top).slot dir).children.entries = [] ∨
      (tree.cleared top).slot dir = tree.slot dir := by
  let present : Handle := ⟨dir.index, tree.generation⟩
  have place : dir.index = present.index := rfl
  rw [slot_congr place, slot_congr place]
  by_cases self : present = top
  · rw [self, wf.slot_clear_self topLive]
    exact .inl ⟨rfl, rfl⟩
  · by_cases isBelow : tree.Below top present
    · rw [wf.slot_clear_below topLive isBelow]
      exact .inl ⟨rfl, rfl⟩
    · exact .inr (wf.slot_clear_other topLive rfl self isBelow)

theorem wellFormed_clear (wf : tree.WellFormed) (topLive : tree.IsLive top) :
    (tree.cleared top).WellFormed := by
  refine ⟨?root, ?down, ?up, ?cutOff, ?free⟩
  case root =>
    obtain ⟨named, held, -⟩ := wf.slot_clear_keeps topLive wf.root_live.current
    have rootLive : (tree.cleared top).IsLive tree.rootHandle :=
      (wf.isLive_clear_iff topLive).mpr ⟨wf.root_live, wf.root_not_below topLive⟩
    rw [rootHandle_cleared, named, held]
    exact ⟨by simpa using wf.root.1, wf.root.2.1, wf.root.2.2.1, rootLive.attached⟩
  case down =>
    intro dir child segment current link
    rw [generation_cleared] at current
    obtain ⟨link, ne, notBelow⟩ := (wf.link_clear_iff topLive current).mp link
    obtain ⟨later, childLive, named, held⟩ := wf.down dir child segment current link
    obtain ⟨named', held', -⟩ := wf.slot_clear_keeps topLive childLive.current
    have dirLive := wf.live_of_link current link
    rw [named', held', wf.isLive_clear_iff topLive, wf.below_link_iff topLive dirLive link]
    exact ⟨later, ⟨childLive, not_or.mpr ⟨ne, notBelow⟩⟩, named, held⟩
  case up =>
    intro dir live ne
    obtain ⟨live, notBelow⟩ := (wf.isLive_clear_iff topLive).mp live
    obtain ⟨named, held, -⟩ := wf.slot_clear_keeps topLive live.current
    obtain ⟨parent, isParent, parentLive, link⟩ := wf.up dir live (rootHandle_cleared tree top ▸ ne)
    rw [wf.below_link_iff topLive parentLive link, not_or] at notBelow
    rw [named, held]
    exact ⟨parent, isParent, (wf.isLive_clear_iff topLive).mpr ⟨parentLive, notBelow.2⟩,
      (wf.link_clear_iff topLive parentLive.current).mpr ⟨link, notBelow⟩⟩
  case cutOff =>
    rw [forall_mem_slots]
    intro dir inside detached
    rw [size_cleared] at inside
    rcases wf.slot_clear_cases topLive dir with empty | same
    · exact empty
    · rw [same] at detached ⊢
      exact wf.cutOff _ (mem_slots inside) detached
  case free =>
    rw [forall_mem_slots]
    intro dir inside part member
    rw [size_cleared] at inside
    rcases wf.slot_clear_cases topLive dir with ⟨noLeaf, noChild⟩ | same
    · simp [Table.keys, noLeaf, noChild] at member
    · rw [same] at member
      exact wf.free _ (mem_slots inside) part member

end WellFormed

/-! ## Starting over -/

/-- The tree that is only a root. -/
def bare (alts : List String) (generation : UInt32) : Tree V :=
  ⟨#[{ Slot.fresh "" none with alts }], generation⟩

theorem clear_eq_bare (tree : Tree V) :
    tree.clear.tree = bare (tree.slot tree.rootHandle).alts (tree.generation + 1) := rfl

section
variable (alts : List String) (generation : UInt32)

theorem slot_bare (inside : dir.index < 1) :
    (bare alts generation : Tree V).slot dir = { Slot.fresh "" none with alts } := by
  have first : dir.index = 0 := by omega
  simp [bare, slot, first]

theorem child?_bare (dir : Handle) (segment : String) :
    (bare alts generation : Tree V).child? dir segment = none := by
  by_cases inside : dir.index < 1
  · simp [child?, slot_bare alts generation inside, Slot.fresh]
  · exact child?_outside (Nat.le_of_not_lt inside)

theorem isLive_bare_iff :
    (bare alts generation : Tree V).IsLive dir ↔ dir = ⟨0, generation⟩ := by
  constructor
  · intro live
    have inside : dir.index < 1 := live.inside
    have first : dir.index = 0 := by omega
    have current : dir.generation = generation := live.current
    cases dir
    simp_all
  · rintro rfl
    refine ⟨Nat.one_pos, rfl, ?_⟩
    rw [slot_bare alts generation Nat.one_pos]
    rfl

theorem follow_bare (start : Handle) (way : List String) :
    (bare alts generation : Tree V).follow start way = if way = [] then some start else none := by
  cases way with
  | nil => rfl
  | cons segment way => simp [child?_bare]

theorem wellFormed_bare : (bare alts generation : Tree V).WellFormed where
  root := by
    rw [slot_bare alts generation Nat.one_pos]
    exact ⟨Nat.one_pos, rfl, rfl, rfl⟩
  down dir child segment _ link := by
    rw [child?_bare] at link
    cases link
  up dir live ne := absurd ((isLive_bare_iff alts generation).mp live) ne
  cutOff := by
    rw [forall_mem_slots]
    intro dir inside detached
    rw [slot_bare alts generation inside] at detached
    cases detached
  free := by
    rw [forall_mem_slots]
    intro dir inside part member
    rw [slot_bare alts generation inside] at member
    simp [Slot.fresh, Table.empty, Table.keys] at member

end

end SymbolTree.Tree
