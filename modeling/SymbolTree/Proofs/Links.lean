import SymbolTree.Proofs.Descent

/-!
# What changes of a tree leave alone

Two relations between a tree and a later one, and what follows from them.

* `SameLinks`: only entries and alternatives differ. Every way leads where it led.
* `Extends`: directories may have been added. Live directories stay live, where they were.
-/
namespace SymbolTree.Tree

variable {V : Type} {tree later : Tree V} {dir start child : Handle} {segment : String}

/-- Every slot has the same place in the tree. -/
structure SameLinks (tree later : Tree V) : Prop where
  generation : later.generation = tree.generation
  size : later.slots.size = tree.slots.size
  segment : ∀ dir, (later.slot dir).segment = (tree.slot dir).segment
  parent : ∀ dir, (later.slot dir).parent = (tree.slot dir).parent
  children : ∀ dir, (later.slot dir).children = (tree.slot dir).children
  detached : ∀ dir, (later.slot dir).detached = (tree.slot dir).detached

/-- Every slot and every link is still there; there may be more slots and more links. -/
structure Extends (tree later : Tree V) : Prop where
  generation : later.generation = tree.generation
  size : tree.slots.size ≤ later.slots.size
  segment : ∀ dir, dir.index < tree.slots.size →
    (later.slot dir).segment = (tree.slot dir).segment
  parent : ∀ dir, dir.index < tree.slots.size → (later.slot dir).parent = (tree.slot dir).parent
  detached : ∀ dir, dir.index < tree.slots.size →
    (later.slot dir).detached = (tree.slot dir).detached
  link : ∀ dir segment child, tree.child? dir segment = some child →
    later.child? dir segment = some child

/-! ## Changes of one slot -/

/-- A change of one slot that leaves its place in the tree alone. -/
theorem sameLinks_modify (tree : Tree V) (dir : Handle) {change : Slot V → Slot V}
    (segment : ∀ slot, (change slot).segment = slot.segment)
    (parent : ∀ slot, (change slot).parent = slot.parent)
    (children : ∀ slot, (change slot).children = slot.children)
    (detached : ∀ slot, (change slot).detached = slot.detached) :
    SameLinks tree (tree.modify dir change) where
  generation := rfl
  size := size_modify tree dir change
  segment other := by rw [slot_modify]; split <;> simp [segment]
  parent other := by rw [slot_modify]; split <;> simp [parent]
  children other := by rw [slot_modify]; split <;> simp [children]
  detached other := by rw [slot_modify]; split <;> simp [detached]

theorem slot_modify_self (inside : dir.index < tree.slots.size) (change : Slot V → Slot V) :
    (tree.modify dir change).slot dir = change (tree.slot dir) := by
  simp [slot_modify, inside]

theorem slot_modify_other {other : Handle} (ne : other.index ≠ dir.index) (change : Slot V → Slot V) :
    (tree.modify dir change).slot other = tree.slot other := by
  simp [slot_modify, ne]

/-- A change that leaves the slot as it is leaves the tree as it is. -/
theorem modify_eq_self {change : Slot V → Slot V} (same : change (tree.slot dir) = tree.slot dir) :
    tree.modify dir change = tree := by
  obtain ⟨slots, generation⟩ := tree
  simp only [modify, Tree.mk.injEq, and_true]
  apply Array.ext
  · simp
  · intro place inside inside'
    rw [Array.getElem_modify]
    split
    · rename_i here
      subst here
      simpa [slot, inside'] using same
    · rfl

/-- The order of two changes does not matter if it does not matter for one slot. -/
theorem modify_comm {change change' : Slot V → Slot V}
    (comm : ∀ slot, change (change' slot) = change' (change slot)) (tree : Tree V)
    (dir other : Handle) :
    (tree.modify other change').modify dir change = (tree.modify dir change).modify other change' := by
  simp only [modify, Tree.mk.injEq, and_true]
  apply Array.ext
  · simp
  · intro place inside inside'
    simp only [Array.getElem_modify]
    split <;> split <;> simp [comm]

/-! ## The same links -/

namespace SameLinks

theorem refl (tree : Tree V) : SameLinks tree tree :=
  ⟨rfl, rfl, fun _ => rfl, fun _ => rfl, fun _ => rfl, fun _ => rfl⟩

theorem rootHandle_eq (same : SameLinks tree later) : later.rootHandle = tree.rootHandle := by
  simp [rootHandle, same.generation]

theorem child?_eq (same : SameLinks tree later) (dir : Handle) (segment : String) :
    later.child? dir segment = tree.child? dir segment := by
  simp [child?, same.children]

theorem follow_eq (same : SameLinks tree later) (start : Handle) (way : List String) :
    later.follow start way = tree.follow start way := by
  induction way generalizing start with
  | nil => rfl
  | cons segment way ih => simp only [follow_cons, same.child?_eq, ih]

theorem isLive_iff (same : SameLinks tree later) : later.IsLive dir ↔ tree.IsLive dir := by
  simp [IsLive, same.size, same.generation, same.detached]

theorem toExtends (same : SameLinks tree later) : Extends tree later where
  generation := same.generation
  size := Nat.le_of_eq same.size.symm
  segment dir _ := same.segment dir
  parent dir _ := same.parent dir
  detached dir _ := same.detached dir
  link dir segment child h := by rw [same.child?_eq, h]

/-- With the same links a tree stays well-formed as long as the entries are in order: none in a
slot that has been cut off, and no separator in their segments. -/
theorem wellFormed (same : SameLinks tree later) (wf : tree.WellFormed)
    (cutOff : ∀ dir, dir.index < tree.slots.size → (tree.slot dir).detached = true →
      (later.slot dir).leaves.entries = [])
    (free : ∀ dir, dir.index < tree.slots.size → Free (later.slot dir).leaves.keys) :
    later.WellFormed where
  root := by
    rw [same.rootHandle_eq, same.size, same.parent, same.segment, same.detached]
    exact wf.root
  down dir child segment current link := by
    rw [same.child?_eq] at link
    rw [same.generation] at current
    rw [same.isLive_iff, same.segment, same.parent]
    exact wf.down dir child segment current link
  up dir live ne := by
    rw [same.isLive_iff] at live
    rw [same.rootHandle_eq] at ne
    simp only [same.parent, same.segment, same.isLive_iff, same.child?_eq]
    exact wf.up dir live ne
  cutOff := by
    rw [forall_mem_slots]
    intro dir inside detached
    rw [same.size] at inside
    rw [same.detached] at detached
    exact ⟨cutOff dir inside detached,
      same.children dir ▸ (wf.cutOff _ (mem_slots inside) detached).2⟩
  free := by
    rw [forall_mem_slots]
    intro dir inside segment member
    rw [same.size] at inside
    rcases List.mem_append.mp member with isChild | isLeaf
    · rw [same.children] at isChild
      exact wf.free _ (mem_slots inside) segment (List.mem_append_left _ isChild)
    · exact free dir inside segment isLeaf

end SameLinks

/-! ## More links -/

namespace Extends

theorem refl (tree : Tree V) : Extends tree tree where
  generation := rfl
  size := Nat.le_refl _
  segment _ _ := rfl
  parent _ _ := rfl
  detached _ _ := rfl
  link _ _ _ h := h

theorem trans {last : Tree V} (first : Extends tree later) (second : Extends later last) :
    Extends tree last where
  generation := second.generation.trans first.generation
  size := Nat.le_trans first.size second.size
  segment dir inside :=
    (second.segment dir (Nat.lt_of_lt_of_le inside first.size)).trans (first.segment dir inside)
  parent dir inside :=
    (second.parent dir (Nat.lt_of_lt_of_le inside first.size)).trans (first.parent dir inside)
  detached dir inside :=
    (second.detached dir (Nat.lt_of_lt_of_le inside first.size)).trans (first.detached dir inside)
  link _ _ _ h := second.link _ _ _ (first.link _ _ _ h)

theorem rootHandle_eq (more : Extends tree later) : later.rootHandle = tree.rootHandle := by
  simp [rootHandle, more.generation]

theorem live (more : Extends tree later) (h : tree.IsLive dir) : later.IsLive dir :=
  ⟨Nat.lt_of_lt_of_le h.inside more.size, h.current.trans more.generation.symm,
    (more.detached dir h.inside).trans h.attached⟩

theorem follow (more : Extends tree later) {way : List String}
    (h : tree.follow start way = some dir) : later.follow start way = some dir := by
  induction way generalizing start with
  | nil => exact h
  | cons segment way ih =>
    rw [follow_cons] at h ⊢
    obtain ⟨next, link, rest⟩ := Option.bind_eq_some_iff.mp h
    rw [more.link _ _ _ link]
    exact ih rest

end Extends
end SymbolTree.Tree
