import SymbolTree.Proofs.Links
import SymbolTree.View.Edit

/-!
# How a tree grows

Directories come into being one at a time, each in the next slot and held by a live directory.

* `attach` is that one step; `wellFormed_attach` and `extends_attach` are what it keeps;
* `child?_ensureChild`: after a directory has been made sure of, its link is there and no other
  link is different;
* `follow_ensureDirs`, `wellFormed_ensureDirs`, `extends_ensureDirs`: the same for a whole way.
-/
namespace SymbolTree.Tree

variable {V : Type} {tree : Tree V} {parent dir : Handle} {segment : String}

/-! ## One new directory -/

/-- The handle that the next directory gets. -/
def nextHandle (tree : Tree V) : Handle := ⟨tree.slots.size, tree.generation⟩

/-- The tree with a new directory, which `parent` holds under `segment`. -/
def attach (tree : Tree V) (parent : Handle) (segment : String) : Tree V :=
  { tree with slots := tree.slots.push (.fresh segment (some parent)) }.modify parent fun slot =>
    { slot with children := slot.children.insert segment tree.nextHandle }

@[simp] theorem generation_attach (tree : Tree V) (parent : Handle) (segment : String) :
    (tree.attach parent segment).generation = tree.generation := rfl

@[simp] theorem size_attach (tree : Tree V) (parent : Handle) (segment : String) :
    (tree.attach parent segment).slots.size = tree.slots.size + 1 := by
  simp [attach]

theorem slot_attach (inside : parent.index < tree.slots.size) (segment : String) (dir : Handle) :
    (tree.attach parent segment).slot dir =
      if dir.index = parent.index then
        { tree.slot dir with
          children := (tree.slot dir).children.insert segment tree.nextHandle }
      else if dir.index = tree.slots.size then .fresh segment (some parent)
      else tree.slot dir := by
  have pushed :
      ({ tree with slots := tree.slots.push (.fresh segment (some parent)) } : Tree V).slot dir =
        if dir.index = tree.slots.size then .fresh segment (some parent) else tree.slot dir := by
    simp only [slot, Array.getD_eq_getD_getElem?, Array.getElem?_push]
    split <;> rfl
  rw [attach, slot_modify, pushed]
  by_cases h : dir.index = parent.index
  · have old : parent.index ≠ tree.slots.size := by omega
    simp [h, old, Nat.lt_succ_of_lt inside]
  · simp [h]

theorem slot_attach_next (inside : parent.index < tree.slots.size) (segment : String) :
    (tree.attach parent segment).slot tree.nextHandle = .fresh segment (some parent) := by
  have new : tree.nextHandle.index ≠ parent.index := Nat.ne_of_gt inside
  rw [slot_attach inside, if_neg new]
  exact if_pos rfl

/-- An old slot keeps all but perhaps its table of subdirectories. -/
theorem slot_attach_old (inside : parent.index < tree.slots.size) (segment : String)
    (old : dir.index < tree.slots.size) :
    ∃ children, (tree.attach parent segment).slot dir = { tree.slot dir with children } := by
  rw [slot_attach inside]
  split
  · exact ⟨_, rfl⟩
  · exact ⟨_, if_neg (Nat.ne_of_lt old)⟩

theorem child?_attach (inside : parent.index < tree.slots.size) (segment : String) (dir : Handle)
    (other : String) :
    (tree.attach parent segment).child? dir other =
      if dir.index = parent.index ∧ other = segment then some tree.nextHandle
      else tree.child? dir other := by
  rw [child?, slot_attach inside]
  by_cases h : dir.index = parent.index
  · simp [h, Table.get?_insert, child?]
  · by_cases new : dir.index = tree.slots.size
    · rw [if_neg h, if_pos new, if_neg (not_and_of_not_left _ h),
        child?_outside (Nat.le_of_eq new.symm)]
      rfl
    · simp [h, new, child?]

theorem leaves_attach (inside : parent.index < tree.slots.size) (segment : String) (dir : Handle) :
    ((tree.attach parent segment).slot dir).leaves = (tree.slot dir).leaves := by
  rw [slot_attach inside]
  by_cases h : dir.index = parent.index
  · simp [h]
  · by_cases new : dir.index = tree.slots.size
    · rw [if_neg h, if_pos new, slot_eq_outside (Nat.le_of_eq new.symm)]
      rfl
    · simp [h, new]

theorem extends_attach (inside : parent.index < tree.slots.size)
    (vacant : tree.child? parent segment = none) : Extends tree (tree.attach parent segment) where
  generation := rfl
  size := by simp
  segment dir old := by
    obtain ⟨children, same⟩ := slot_attach_old inside segment old
    rw [same]
  parent dir old := by
    obtain ⟨children, same⟩ := slot_attach_old inside segment old
    rw [same]
  detached dir old := by
    obtain ⟨children, same⟩ := slot_attach_old inside segment old
    rw [same]
  link dir other child link := by
    rw [child?_attach inside, if_neg]
    · exact link
    · rintro ⟨same, rfl⟩
      rw [child?, slot_congr same, ← child?, vacant] at link
      cases link

theorem nextHandle_live (inside : parent.index < tree.slots.size) (segment : String) :
    (tree.attach parent segment).IsLive tree.nextHandle := by
  refine ⟨by simp [nextHandle], rfl, ?_⟩
  rw [slot_attach_next inside]
  rfl

/-- An old handle is live after the step exactly if it was before. -/
theorem isLive_attach (inside : parent.index < tree.slots.size)
    (vacant : tree.child? parent segment = none) :
    (tree.attach parent segment).IsLive dir ↔ dir = tree.nextHandle ∨ tree.IsLive dir := by
  constructor
  · intro live
    have bound := live.inside
    rw [size_attach] at bound
    by_cases new : dir.index = tree.slots.size
    · exact .inl (live.eq_of_index (nextHandle_live inside segment).current new)
    · have old : dir.index < tree.slots.size := by omega
      exact .inr ⟨old, live.current,
        ((extends_attach inside vacant).detached dir old).symm.trans live.attached⟩
  · rintro (rfl | live)
    · exact nextHandle_live inside segment
    · exact (extends_attach inside vacant).live live

namespace WellFormed

theorem cutOff_attach (wf : tree.WellFormed) (live : tree.IsLive parent) (segment : String) :
    ∀ slot ∈ (tree.attach parent segment).slots, slot.detached = true →
      slot.leaves.entries = [] ∧ slot.children.entries = [] := by
  rw [forall_mem_slots]
  intro dir bound detached
  rw [size_attach] at bound
  rw [slot_attach live.inside] at detached ⊢
  by_cases atParent : dir.index = parent.index
  · rw [if_pos atParent, slot_congr atParent, live.attached] at detached
    cases detached
  · rw [if_neg atParent] at detached ⊢
    by_cases new : dir.index = tree.slots.size
    · rw [if_pos new]
      exact ⟨rfl, rfl⟩
    · rw [if_neg new] at detached ⊢
      exact wf.cutOff _ (mem_slots (by omega)) detached

theorem free_attach (wf : tree.WellFormed) (live : tree.IsLive parent)
    (free : separator ∉ segment.toList) :
    ∀ slot ∈ (tree.attach parent segment).slots,
      ∀ part ∈ slot.children.keys ++ slot.leaves.keys, separator ∉ part.toList := by
  rw [forall_mem_slots]
  intro dir bound part member
  rw [size_attach] at bound
  rw [slot_attach live.inside] at member
  by_cases atParent : dir.index = parent.index
  · have inside : dir.index < tree.slots.size := atParent ▸ live.inside
    have old := wf.free _ (mem_slots inside) part
    rw [if_pos atParent] at member
    rcases List.mem_append.mp member with isChild | isLeaf
    · rcases Table.mem_keys_insert.mp isChild with rfl | isChild
      · exact free
      · exact old (List.mem_append_left _ isChild)
    · exact old (List.mem_append_right _ isLeaf)
  · rw [if_neg atParent] at member
    by_cases new : dir.index = tree.slots.size
    · simp [new, Slot.fresh, Table.empty, Table.keys] at member
    · rw [if_neg new] at member
      exact wf.free _ (mem_slots (by omega)) part member

theorem wellFormed_attach (wf : tree.WellFormed) (live : tree.IsLive parent)
    (free : separator ∉ segment.toList) (vacant : tree.child? parent segment = none) :
    (tree.attach parent segment).WellFormed := by
  have inside := live.inside
  have more := extends_attach inside vacant
  refine ⟨?root, ?down, ?up, wf.cutOff_attach live segment, wf.free_attach live free⟩
  case root =>
    have first := wf.root.1
    rw [more.rootHandle_eq, more.parent _ first, more.segment _ first, more.detached _ first]
    exact ⟨Nat.lt_of_lt_of_le first more.size, wf.root.2⟩
  case down =>
    intro dir child other current link
    rw [child?_attach inside] at link
    split at link
    · rename_i atParent
      obtain ⟨same, rfl⟩ := atParent
      obtain rfl := Option.some.inj link
      obtain rfl := live.eq_of_index current same.symm
      rw [slot_attach_next inside]
      exact ⟨inside, nextHandle_live inside other, rfl, rfl⟩
    · obtain ⟨later, childLive, named, held⟩ := wf.down dir child other current link
      rw [more.segment _ childLive.inside, more.parent _ childLive.inside]
      exact ⟨later, more.live childLive, named, held⟩
  case up =>
    intro dir dirLive ne
    rcases (isLive_attach inside vacant).mp dirLive with rfl | old
    · rw [slot_attach_next inside]
      refine ⟨parent, rfl, more.live live, ?_⟩
      rw [child?_attach inside]
      exact if_pos ⟨rfl, rfl⟩
    · obtain ⟨holder, held, holderLive, link⟩ := wf.up dir old (more.rootHandle_eq ▸ ne)
      rw [more.segment _ old.inside, more.parent _ old.inside]
      exact ⟨holder, held, more.live holderLive, more.link _ _ _ link⟩

end WellFormed

/-! ## Making sure of a directory -/

theorem ensureChild_of_link {child : Handle} (link : tree.child? parent segment = some child) :
    tree.ensureChild parent segment = .pure child tree := by
  simp [ensureChild, link]

theorem ensureChild_of_vacant (vacant : tree.child? parent segment = none) :
    tree.ensureChild parent segment =
      ⟨tree.nextHandle, tree.attach parent segment,
        [.created segment parent.index tree.slots.size]⟩ := by
  simp [ensureChild, vacant, attach, nextHandle]

theorem extends_ensureChild (live : tree.IsLive parent) (segment : String) :
    Extends tree (tree.ensureChild parent segment).tree := by
  cases h : tree.child? parent segment with
  | some child => rw [ensureChild_of_link h]; exact Extends.refl tree
  | none => rw [ensureChild_of_vacant h]; exact extends_attach live.inside h

/-- The link to the directory is there, and no other link is different. -/
theorem child?_ensureChild (live : tree.IsLive parent) (segment : String) (dir : Handle)
    (other : String) :
    (tree.ensureChild parent segment).tree.child? dir other =
      if dir.index = parent.index ∧ other = segment then
        some (tree.ensureChild parent segment).result
      else tree.child? dir other := by
  cases h : tree.child? parent segment with
  | none =>
    rw [ensureChild_of_vacant h]
    exact child?_attach live.inside segment dir other
  | some child =>
    rw [ensureChild_of_link h]
    split
    · rename_i here
      obtain ⟨same, rfl⟩ := here
      rw [Outcome.tree_pure, child?, slot_congr same]
      exact h
    · rfl

theorem leaves_ensureChild (live : tree.IsLive parent) (segment : String) (dir : Handle) :
    ((tree.ensureChild parent segment).tree.slot dir).leaves = (tree.slot dir).leaves := by
  cases h : tree.child? parent segment with
  | some child => rw [ensureChild_of_link h]; rfl
  | none => rw [ensureChild_of_vacant h]; exact leaves_attach live.inside segment dir

/-- An old directory keeps its alternatives. A new one has the empty alternative. -/
theorem alts_ensureChild (live : tree.IsLive parent) (segment : String) :
    (∀ dir, tree.IsLive dir →
      ((tree.ensureChild parent segment).tree.slot dir).alts = (tree.slot dir).alts) ∧
    (tree.child? parent segment = none →
      ((tree.ensureChild parent segment).tree.slot
        (tree.ensureChild parent segment).result).alts = [""]) := by
  cases h : tree.child? parent segment with
  | some child => simp [ensureChild_of_link h]
  | none =>
    rw [ensureChild_of_vacant h]
    refine ⟨fun dir old => ?_, fun _ => ?_⟩
    · obtain ⟨children, same⟩ := slot_attach_old live.inside segment old.inside
      rw [same]
    · simp only [slot_attach_next live.inside, Slot.fresh]

namespace WellFormed

theorem wellFormed_ensureChild (wf : tree.WellFormed) (live : tree.IsLive parent)
    (free : separator ∉ segment.toList) : (tree.ensureChild parent segment).tree.WellFormed := by
  cases h : tree.child? parent segment with
  | some child => rw [ensureChild_of_link h]; exact wf
  | none => rw [ensureChild_of_vacant h]; exact wf.wellFormed_attach live free h

theorem ensureChild_live (wf : tree.WellFormed) (live : tree.IsLive parent) (segment : String) :
    (tree.ensureChild parent segment).tree.IsLive (tree.ensureChild parent segment).result := by
  cases h : tree.child? parent segment with
  | some child => rw [ensureChild_of_link h]; exact wf.child_live live h
  | none => rw [ensureChild_of_vacant h]; exact nextHandle_live live.inside segment

/-! ## Making sure of a way -/

theorem wellFormed_ensureDirs (wf : tree.WellFormed) {start : Handle} (live : tree.IsLive start)
    {path : List String} (free : Free path) : (tree.ensureDirs start path).tree.WellFormed := by
  induction path generalizing tree start with
  | nil => exact wf
  | cons segment path ih =>
    have head := free.head
    exact ih (wf.wellFormed_ensureChild live head) (wf.ensureChild_live live segment) free.tail

theorem extends_ensureDirs (wf : tree.WellFormed) {start : Handle} (live : tree.IsLive start)
    {path : List String} (free : Free path) : Extends tree (tree.ensureDirs start path).tree := by
  induction path generalizing tree start with
  | nil => exact Extends.refl tree
  | cons segment path ih =>
    have head := free.head
    exact (extends_ensureChild live segment).trans
      (ih (wf.wellFormed_ensureChild live head) (wf.ensureChild_live live segment) free.tail)

/-- The way is there afterwards and leads to the directory that is the answer. -/
theorem follow_ensureDirs (wf : tree.WellFormed) {start : Handle} (live : tree.IsLive start)
    {path : List String} (free : Free path) :
    (tree.ensureDirs start path).tree.follow start path = some (tree.ensureDirs start path).result := by
  induction path generalizing tree start with
  | nil => rfl
  | cons segment path ih =>
    have head := free.head
    have tail := free.tail
    have madeWf := wf.wellFormed_ensureChild live head
    have madeLive := wf.ensureChild_live live segment
    have link : (tree.ensureChild start segment).tree.child? start segment =
        some (tree.ensureChild start segment).result := by
      rw [child?_ensureChild live]
      exact if_pos ⟨rfl, rfl⟩
    have kept := (madeWf.extends_ensureDirs madeLive tail).link _ _ _ link
    simp only [ensureDirs, Outcome.tree_andThen, Outcome.result_andThen, follow_cons, kept]
    exact ih madeWf madeLive tail

end WellFormed
end SymbolTree.Tree
