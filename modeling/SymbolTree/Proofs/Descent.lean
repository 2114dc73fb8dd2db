import Mathlib.Data.List.Induction
import Mathlib.Tactic.ByContra
import SymbolTree.Proofs.Names
import SymbolTree.Tree.WellFormed

/-!
# Ways down a tree

In a well-formed tree a live directory and the way to it from the root determine each other.

* `exists_way`: a way leads to every live directory;
* `way_unique`: no two ways from one directory meet;
* `below_iff`: below a directory is what a way with at least one segment leads to;
* `isLive_iff_below`: live are the root and what is below it;
* `holder_unique`: a directory stands in one table of subdirectories, under one segment.
-/
namespace SymbolTree.Tree

variable {V : Type} {tree : Tree V} {dir child start : Handle} {segment : String}

/-! ## Slots -/

theorem slot_eq_getElem (h : dir.index < tree.slots.size) : tree.slot dir = tree.slots[dir.index] := by
  simp [slot, h]

theorem slot_eq_outside (h : tree.slots.size ≤ dir.index) : tree.slot dir = .outside := by
  simp [slot, h]

theorem slot_congr {other : Handle} (h : dir.index = other.index) : tree.slot dir = tree.slot other := by
  simp [slot, h]

/-- What holds of every slot of the arena, said of the handles that point into it. -/
theorem forall_mem_slots {P : Slot V → Prop} :
    (∀ slot ∈ tree.slots, P slot) ↔ ∀ dir : Handle, dir.index < tree.slots.size → P (tree.slot dir) := by
  constructor
  · intro h dir inside
    rw [slot_eq_getElem inside]
    exact h _ (Array.getElem_mem inside)
  · intro h slot member
    obtain ⟨i, inside, rfl⟩ := Array.mem_iff_getElem.mp member
    have handle : (⟨i, 0⟩ : Handle).index < tree.slots.size := inside
    exact slot_eq_getElem handle ▸ h _ handle

theorem mem_slots (inside : dir.index < tree.slots.size) : tree.slot dir ∈ tree.slots := by
  rw [slot_eq_getElem inside]
  exact Array.getElem_mem inside

theorem child?_outside (h : tree.slots.size ≤ dir.index) : tree.child? dir segment = none := by
  simp [child?, slot_eq_outside h, Slot.outside]

theorem index_lt_of_link (link : tree.child? dir segment = some child) : dir.index < tree.slots.size := by
  by_contra h
  simp [child?_outside (Nat.le_of_not_lt h)] at link

theorem IsLive.inside (h : tree.IsLive dir) : dir.index < tree.slots.size := h.1

theorem IsLive.current (h : tree.IsLive dir) : dir.generation = tree.generation := h.2.1

theorem IsLive.attached (h : tree.IsLive dir) : (tree.slot dir).detached = false := h.2.2

/-- A live directory is the only handle of the present generation with its place. -/
theorem IsLive.eq_of_index {other : Handle} (h : tree.IsLive dir)
    (current : other.generation = tree.generation) (same : dir.index = other.index) :
    dir = other := by
  have generations := h.current.trans current.symm
  cases dir
  cases other
  rw [Handle.mk.injEq]
  exact ⟨same, generations⟩

/-! ## Ways and their last segments -/

theorem follow_concat (tree : Tree V) (start : Handle) (way : List String) (segment : String) :
    tree.follow start (way ++ [segment]) =
      (tree.follow start way).bind (tree.child? · segment) := by
  rw [follow_append]
  cases tree.follow start way with
  | none => rfl
  | some dir => simp [follow_cons]

theorem follow_concat_eq_some {way : List String} :
    tree.follow start (way ++ [segment]) = some dir ↔
      ∃ parent, tree.follow start way = some parent ∧ tree.child? parent segment = some dir := by
  rw [follow_concat, Option.bind_eq_some_iff]

/-- Below a directory is what a way with at least one segment leads to. -/
theorem below_iff {top : Handle} :
    tree.Below top dir ↔ ∃ way segment, tree.follow top (way ++ [segment]) = some dir := by
  constructor
  · intro h
    induction h with
    | @child segment dir link => exact ⟨[], segment, by simpa [follow_cons] using link⟩
    | @deeper between dir segment _ link ih =>
      obtain ⟨way, last, toBetween⟩ := ih
      exact ⟨way ++ [last], segment, follow_concat_eq_some.mpr ⟨between, toBetween, link⟩⟩
  · rintro ⟨way, segment, h⟩
    induction way using List.reverseRecOn generalizing segment dir with
    | nil => exact .child (by simpa [follow_cons] using h)
    | append_singleton way last ih =>
      obtain ⟨between, toBetween, link⟩ := follow_concat_eq_some.mp h
      exact .deeper (ih last toBetween) link

/-- The same with the first segment of the way apart. -/
theorem below_iff_cons {top : Handle} :
    tree.Below top dir ↔ ∃ segment way, tree.follow top (segment :: way) = some dir := by
  rw [below_iff]
  constructor
  · rintro ⟨way, segment, h⟩
    obtain ⟨first, others, same⟩ := List.exists_cons_of_ne_nil (List.concat_ne_nil segment way)
    exact ⟨first, others, by simpa [← same] using h⟩
  · rintro ⟨segment, way, h⟩
    rw [← List.dropLast_concat_getLast (List.cons_ne_nil segment way)] at h
    exact ⟨_, _, h⟩

/-! ## One step -/

namespace WellFormed

theorem root_live (wf : tree.WellFormed) : tree.IsLive tree.rootHandle :=
  ⟨wf.root.1, rfl, wf.root.2.2.2⟩

theorem child_live (wf : tree.WellFormed) (live : tree.IsLive dir)
    (link : tree.child? dir segment = some child) : tree.IsLive child :=
  (wf.down dir child segment live.current link).2.1

theorem child_later (wf : tree.WellFormed) (live : tree.IsLive dir)
    (link : tree.child? dir segment = some child) : dir.index < child.index :=
  (wf.down dir child segment live.current link).1

theorem child_segment (wf : tree.WellFormed) (live : tree.IsLive dir)
    (link : tree.child? dir segment = some child) : (tree.slot child).segment = segment :=
  (wf.down dir child segment live.current link).2.2.1

theorem child_parent (wf : tree.WellFormed) (live : tree.IsLive dir)
    (link : tree.child? dir segment = some child) : (tree.slot child).parent = some dir :=
  (wf.down dir child segment live.current link).2.2.2

/-- What holds a subdirectory is live itself: what has been cut off holds none. -/
theorem live_of_link (wf : tree.WellFormed) (current : dir.generation = tree.generation)
    (link : tree.child? dir segment = some child) : tree.IsLive dir := by
  have inside := index_lt_of_link link
  refine ⟨inside, current, ?_⟩
  cases cut : (tree.slot dir).detached with
  | false => rfl
  | true =>
    have noChild := (wf.cutOff _ (mem_slots inside) cut).2
    simp [child?, Table.get?, noChild] at link

theorem child_free (wf : tree.WellFormed) (link : tree.child? dir segment = some child) :
    separator ∉ segment.toList := by
  apply wf.free _ (mem_slots (index_lt_of_link link))
  have entry := ((tree.slot dir).children.get?_eq_some_iff segment child).mp link
  exact List.mem_append_left _ (List.mem_map.mpr ⟨_, entry, rfl⟩)

theorem leaf_free (wf : tree.WellFormed) {value : V}
    (leaf : (tree.slot dir).leaves.get? segment = some value) : separator ∉ segment.toList := by
  have entry := ((tree.slot dir).leaves.get?_eq_some_iff segment value).mp leaf
  by_cases inside : dir.index < tree.slots.size
  · apply wf.free _ (mem_slots inside)
    exact List.mem_append_right _ (List.mem_map.mpr ⟨_, entry, rfl⟩)
  · simp [slot_eq_outside (Nat.le_of_not_lt inside), Slot.outside, Table.empty] at entry

/-- Two tables of subdirectories never lead to the same slot, nor do two segments in one table. -/
theorem holder_unique (wf : tree.WellFormed) {other child' : Handle} {segment' : String}
    (current : dir.generation = tree.generation) (current' : other.generation = tree.generation)
    (link : tree.child? dir segment = some child) (link' : tree.child? other segment' = some child')
    (place : child.index = child'.index) : dir = other ∧ segment = segment' := by
  obtain ⟨-, childLive, held, parent⟩ := wf.down dir child segment current link
  obtain ⟨-, childLive', held', parent'⟩ := wf.down other child' segment' current' link'
  obtain rfl := childLive.eq_of_index childLive'.current place
  rw [parent] at parent'
  exact ⟨Option.some.inj parent', held.symm.trans held'⟩

theorem link_inj (wf : tree.WellFormed) {other : Handle} {segment' : String}
    (live : tree.IsLive dir) (live' : tree.IsLive other)
    (link : tree.child? dir segment = some child) (link' : tree.child? other segment' = some child) :
    dir = other ∧ segment = segment' :=
  wf.holder_unique live.current live'.current link link' rfl

theorem parent_live (wf : tree.WellFormed) (live : tree.IsLive dir) {parent : Handle}
    (held : (tree.slot dir).parent = some parent) : tree.IsLive parent := by
  by_cases h : dir = tree.rootHandle
  · rw [h, wf.root.2.1] at held
    cases held
  · obtain ⟨holder, isHolder, holderLive, -⟩ := wf.up dir live h
    rw [isHolder] at held
    exact Option.some.inj held ▸ holderLive

/-- A live directory is the root, or its parent holds it. -/
theorem root_or_link (wf : tree.WellFormed) (live : tree.IsLive dir) :
    dir = tree.rootHandle ∨
      ∃ parent, tree.IsLive parent ∧ tree.child? parent (tree.slot dir).segment = some dir := by
  by_cases h : dir = tree.rootHandle
  · exact .inl h
  · obtain ⟨parent, -, parentLive, link⟩ := wf.up dir live h
    exact .inr ⟨parent, parentLive, link⟩

/-! ## Ways -/

theorem follow_live (wf : tree.WellFormed) {way : List String} (live : tree.IsLive start)
    (h : tree.follow start way = some dir) : tree.IsLive dir := by
  induction way generalizing start with
  | nil => exact Option.some.inj h ▸ live
  | cons segment way ih =>
    rw [follow_cons] at h
    obtain ⟨next, link, rest⟩ := Option.bind_eq_some_iff.mp h
    exact ih (wf.child_live live link) rest

/-- Each segment of a way leads to a later slot. -/
theorem follow_later (wf : tree.WellFormed) {way : List String} (live : tree.IsLive start)
    (h : tree.follow start way = some dir) : start.index + way.length ≤ dir.index := by
  induction way generalizing start with
  | nil => simp [Option.some.inj h]
  | cons segment way ih =>
    rw [follow_cons] at h
    obtain ⟨next, link, rest⟩ := Option.bind_eq_some_iff.mp h
    have later := wf.child_later live link
    have := ih (wf.child_live live link) rest
    simp only [List.length_cons]
    omega

theorem follow_free (wf : tree.WellFormed) {way : List String} (live : tree.IsLive start)
    (h : tree.follow start way = some dir) : Free way := by
  induction way generalizing start with
  | nil => exact Free.nil
  | cons segment way ih =>
    rw [follow_cons] at h
    obtain ⟨next, link, rest⟩ := Option.bind_eq_some_iff.mp h
    exact (ih (wf.child_live live link) rest).cons (wf.child_free link)

/-- A way back to its own start is empty. -/
theorem way_back (wf : tree.WellFormed) {way : List String} (live : tree.IsLive start)
    (h : tree.follow start way = some start) : way = [] := by
  have := wf.follow_later live h
  exact List.length_eq_zero_iff.mp (by omega)

/-- Two ways down from one directory lead to different places: the last segment of a way is read
off its end, and so is the directory before it. -/
theorem way_unique (wf : tree.WellFormed) {way other : List String} (live : tree.IsLive start)
    (h : tree.follow start way = some dir) (h' : tree.follow start other = some dir) : way = other := by
  induction way using List.reverseRecOn generalizing other dir with
  | nil =>
    obtain rfl := Option.some.inj h
    exact (wf.way_back live h').symm
  | append_singleton way segment ih =>
    obtain ⟨parent, toParent, link⟩ := follow_concat_eq_some.mp h
    cases other using List.reverseRecOn with
    | nil =>
      obtain rfl := Option.some.inj h'
      exact wf.way_back live h
    | append_singleton other segment' =>
      obtain ⟨parent', toParent', link'⟩ := follow_concat_eq_some.mp h'
      obtain ⟨rfl, rfl⟩ := wf.link_inj (wf.follow_live live toParent) (wf.follow_live live toParent')
        link link'
      rw [ih toParent toParent']

/-- Some way leads from the root to every live directory: its parent stands in an earlier slot. -/
theorem exists_way (wf : tree.WellFormed) (live : tree.IsLive dir) :
    ∃ way, tree.follow tree.rootHandle way = some dir := by
  induction place : dir.index using Nat.strongRecOn generalizing dir with
  | ind place ih =>
    rcases wf.root_or_link live with rfl | ⟨parent, parentLive, link⟩
    · exact ⟨[], rfl⟩
    · have later := wf.child_later parentLive link
      obtain ⟨way, toParent⟩ := ih parent.index (by omega) parentLive rfl
      exact ⟨way ++ [(tree.slot dir).segment], follow_concat_eq_some.mpr ⟨parent, toParent, link⟩⟩

/-! ## Induction from the leaves up -/

/-- What holds of a live directory as soon as it holds of all its subdirectories holds of all. -/
theorem upward_induction (wf : tree.WellFormed) {P : Handle → Prop}
    (step : ∀ dir, tree.IsLive dir →
      (∀ segment child, tree.child? dir segment = some child → P child) → P dir)
    (live : tree.IsLive dir) : P dir := by
  induction room : tree.slots.size - dir.index using Nat.strongRecOn generalizing dir with
  | ind room ih =>
    apply step dir live
    intro segment child link
    have later := wf.child_later live link
    have childLive := wf.child_live live link
    have inside := childLive.inside
    exact ih (tree.slots.size - child.index) (by omega) childLive rfl

/-! ## Below -/

theorem below_live (wf : tree.WellFormed) {top : Handle} (live : tree.IsLive top)
    (h : tree.Below top dir) : tree.IsLive dir := by
  obtain ⟨way, segment, h⟩ := below_iff.mp h
  exact wf.follow_live live h

theorem below_later (wf : tree.WellFormed) {top : Handle} (live : tree.IsLive top)
    (h : tree.Below top dir) : top.index < dir.index := by
  obtain ⟨way, segment, h⟩ := below_iff.mp h
  have := wf.follow_later live h
  simp only [List.length_append, List.length_cons, List.length_nil] at this
  omega

/-- A directory that is below another is held by that one or by one below it. -/
theorem below_link_iff (wf : tree.WellFormed) {top : Handle} (topLive : tree.IsLive top)
    (live : tree.IsLive dir) (link : tree.child? dir segment = some child) :
    tree.Below top child ↔ dir = top ∨ tree.Below top dir := by
  constructor
  · intro h
    cases h with
    | child link' => exact .inl (wf.link_inj live topLive link link').1
    | deeper above link' =>
      exact .inr ((wf.link_inj live (wf.below_live topLive above) link link').1 ▸ above)
  · rintro (rfl | h)
    · exact .child link
    · exact .deeper h link

theorem root_not_below (wf : tree.WellFormed) {top : Handle} (live : tree.IsLive top) :
    ¬ tree.Below top tree.rootHandle :=
  fun h => Nat.not_lt_zero _ (wf.below_later live h)

theorem isLive_iff_below (wf : tree.WellFormed) :
    tree.IsLive dir ↔ dir = tree.rootHandle ∨ tree.Below tree.rootHandle dir := by
  constructor
  · intro live
    obtain ⟨way, h⟩ := wf.exists_way live
    cases way using List.reverseRecOn with
    | nil => exact .inl (Option.some.inj h).symm
    | append_singleton way segment => exact .inr (below_iff.mpr ⟨way, segment, h⟩)
  · rintro (rfl | h)
    · exact wf.root_live
    · exact wf.below_live wf.root_live h

end WellFormed
end SymbolTree.Tree
