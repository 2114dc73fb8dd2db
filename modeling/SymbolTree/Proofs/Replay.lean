import SymbolTree.Journal
import SymbolTree.Proofs.Edits

/-!
# Events and the table of the arena

What the events of a command tell of the tree, said with the table that a journal keeps.

* `rows`: the table of an arena; `eq_rows`: it has one row for each slot;
* `isLiveBelow_rows_iff`: the way up in the table and the way down in the tree;
* `Tells`: every event fits the table of its moment, and replay leads from the table of one tree to
  that of another;
* `tells_attach`, `tells_clear`, `tells_startOver`: the three events that change the table;
* `tells_run`: the events of a command.
-/
namespace SymbolTree

variable {V : Type}

/-! ## Tables -/

/-- What a journal has of a slot. -/
def Slot.row (slot : Slot V) : Row := ⟨slot.segment, slot.parent.map Handle.index, slot.detached⟩

/-- The table of the arena. -/
def Tree.rows (tree : Tree V) : Journal := tree.slots.toList.map Slot.row

namespace Journal

theorem exact_append (journal : Journal) (emptyings : Nat) (events more : List Event) :
    journal.Exact emptyings (events ++ more) ↔
      journal.Exact emptyings events ∧
        (journal.replay events).Exact (emptyings + events.countP Event.isEmptying) more := by
  induction events generalizing journal emptyings with
  | nil => simp [Exact, replay]
  | cons event events ih =>
    have count : emptyings + (if event.isEmptying then 1 else 0) +
        events.countP Event.isEmptying = emptyings + (event :: events).countP Event.isEmptying := by
      rw [List.countP_cons]
      omega
    simp only [List.cons_append, Exact, ih, count, and_assoc]
    rfl

end Journal

namespace Tree

variable {tree later : Tree V} {top dir parent : Handle} {segment : String}

@[simp] theorem length_rows (tree : Tree V) : tree.rows.length = tree.slots.size := by
  simp [rows]

theorem row_of_inside (inside : dir.index < tree.slots.size) :
    tree.rows[dir.index]? = some (tree.slot dir).row := by
  simp [rows, inside, slot_eq_getElem inside]

/-- A table is that of a tree if it has the row of every slot. -/
theorem eq_rows {journal : Journal} (size : journal.length = tree.slots.size)
    (same : ∀ dir : Handle, dir.index < tree.slots.size →
      journal[dir.index]? = some (tree.slot dir).row) : journal = tree.rows := by
  apply List.ext_getElem?
  intro place
  by_cases inside : place < tree.slots.size
  · have present : (⟨place, 0⟩ : Handle).index < tree.slots.size := inside
    exact (same _ present).trans (row_of_inside present).symm
  · rw [List.getElem?_eq_none (by omega), List.getElem?_eq_none (by simpa using inside)]

theorem rows_congr (size : later.slots.size = tree.slots.size)
    (same : ∀ dir, (later.slot dir).row = (tree.slot dir).row) : tree.rows = later.rows := by
  refine eq_rows (by rw [length_rows, size]) ?_
  intro dir inside
  rw [row_of_inside (size ▸ inside), same]

theorem SameLinks.rows_eq (same : SameLinks tree later) : tree.rows = later.rows := by
  refine rows_congr same.size ?_
  intro dir
  simp only [Slot.row, same.segment, same.parent, same.detached]

theorem rows_attach (inside : parent.index < tree.slots.size) (segment : String) :
    tree.rows ++ [⟨segment, some parent.index, false⟩] = (tree.attach parent segment).rows := by
  refine eq_rows (by simp) ?_
  intro dir bound
  rw [size_attach] at bound
  by_cases old : dir.index < tree.slots.size
  · obtain ⟨children, same⟩ := slot_attach_old inside segment old
    rw [List.getElem?_append_left (by simpa using old), row_of_inside old, same]
    rfl
  · have next : dir.index = tree.nextHandle.index := by
      change dir.index = tree.slots.size
      omega
    rw [slot_congr next, slot_attach_next inside, next,
      List.getElem?_append_right (by simp [nextHandle])]
    simp [nextHandle, Slot.row, Slot.fresh]

/-! ## Below a slot, in the table -/

namespace WellFormed

/-- The way up in the table is the way up in the tree: each step leads to an earlier slot, so there
are no more steps than slots. -/
theorem isBelow_rows_iff (wf : tree.WellFormed) (topLive : tree.IsLive top) (live : tree.IsLive dir)
    {steps : Nat} (enough : dir.index ≤ steps) :
    tree.rows.isBelow top.index steps dir.index = true ↔ tree.Below top dir := by
  induction steps generalizing dir with
  | zero =>
    have first : dir.index = tree.rootHandle.index := Nat.le_zero.mp enough
    obtain rfl := live.eq_of_index wf.root_live.current first
    simpa [Journal.isBelow] using wf.root_not_below topLive
  | succ steps ih =>
    rw [Journal.isBelow, row_of_inside live.inside]
    by_cases isRoot : dir = tree.rootHandle
    · subst isRoot
      simpa [Slot.row, wf.root.2.1] using wf.root_not_below topLive
    · obtain ⟨parent, held, parentLive, link⟩ := wf.up dir live isRoot
      have earlier := wf.child_later parentLive link
      have samePlace : parent.index = top.index ↔ parent = top :=
        ⟨parentLive.eq_of_index topLive.current, congrArg Handle.index⟩
      simp only [Option.bind_some, Slot.row, held, Option.map_some, Bool.or_eq_true, beq_iff_eq,
        ih parentLive (by omega), samePlace]
      exact (wf.below_link_iff topLive parentLive link).symm

theorem isLiveBelow_rows_iff (wf : tree.WellFormed) (topLive : tree.IsLive top)
    (current : dir.generation = tree.generation) :
    tree.rows.isLiveBelow top.index dir.index = true ↔ tree.Below top dir := by
  rw [Journal.isLiveBelow, length_rows, Bool.and_eq_true]
  by_cases inside : dir.index < tree.slots.size
  · rw [row_of_inside inside]
    cases cut : (tree.slot dir).detached with
    | false =>
      have live : tree.IsLive dir := ⟨inside, current, cut⟩
      rw [wf.isBelow_rows_iff topLive live (Nat.le_of_lt inside)]
      simp [Slot.row, cut]
    | true =>
      have notBelow : ¬ tree.Below top dir := by
        intro below
        have attached := (wf.below_live topLive below).attached
        rw [cut] at attached
        cases attached
      simp [Slot.row, cut, notBelow]
  · have notBelow : ¬ tree.Below top dir := fun below =>
      inside (wf.below_live topLive below).inside
    rw [List.getElem?_eq_none (by simpa using inside)]
    simp [notBelow]

/-- What is marked in the table when a directory is cleared is what is cut off in the arena. -/
theorem record_cleared (wf : tree.WellFormed) (topLive : tree.IsLive top) (detached : Nat) :
    tree.rows.record (.cleared top.index detached) = (tree.cleared top).rows := by
  refine eq_rows (by simp [Journal.record]) ?_
  intro dir bound
  rw [size_cleared] at bound
  let present : Handle := ⟨dir.index, tree.generation⟩
  have place : dir.index = present.index := rfl
  have sameSlot : tree.slot dir = tree.slot present := slot_congr place
  rw [slot_congr place, Journal.record, List.getElem?_mapIdx, row_of_inside bound, sameSlot,
    Option.map_some, place]
  congr 1
  by_cases below : tree.Below top present
  · rw [if_pos ((wf.isLiveBelow_rows_iff topLive rfl).mpr below), wf.slot_clear_below topLive below]
    rfl
  · rw [if_neg ((wf.isLiveBelow_rows_iff topLive rfl).not.mpr below)]
    by_cases self : present = top
    · rw [self, wf.slot_clear_self topLive]
      rfl
    · rw [wf.slot_clear_other topLive rfl self below]

/-- The sweep of a clear takes up each slot that is marked in the table, and each once. -/
theorem length_sweepAll_children (wf : tree.WellFormed) (topLive : tree.IsLive top) :
    (tree.sweepAll (tree.slot top).children.values).length =
      (List.range tree.rows.length).countP (tree.rows.isLiveBelow top.index) := by
  have live : ∀ dir ∈ tree.sweepAll (tree.slot top).children.values, tree.IsLive dir :=
    fun dir member => wf.below_live topLive ((wf.mem_sweepAll_children topLive).mp member)
  have places := nodup_places (wf.nodup_sweepAll_children topLive).2 live
  rw [List.countP_eq_length_filter, ← List.length_map Handle.index]
  apply List.Perm.length_eq
  rw [List.perm_ext_iff_of_nodup places.1 (List.nodup_range.filter _)]
  intro place
  let present : Handle := ⟨place, tree.generation⟩
  have current : present.generation = tree.generation := rfl
  have marked : tree.rows.isLiveBelow top.index place = true ↔ tree.Below top present :=
    wf.isLiveBelow_rows_iff topLive current
  have swept : place ∈ (tree.sweepAll (tree.slot top).children.values).map Handle.index ↔
      tree.Below top present := wf.mem_below_index_iff topLive current
  rw [List.mem_filter, marked, swept, length_rows, List.mem_range]
  constructor
  · intro below
    exact ⟨(wf.below_live topLive below).inside, below⟩
  · exact And.right

end WellFormed

/-! ## What events tell -/

/-- The events fit the table of the tree, and their replay leads to the table of the later tree. The
generation goes on by the emptyings that are reported. -/
structure Tells (tree later : Tree V) (events : List Event) : Prop where
  exact : ∀ emptyings, tree.generation = UInt32.ofNat emptyings → tree.rows.Exact emptyings events
  replay : tree.rows.replay events = later.rows
  generation : later.generation =
    tree.generation + UInt32.ofNat (events.countP Event.isEmptying)

theorem Tells.trans {last : Tree V} {events more : List Event} (first : Tells tree later events)
    (second : Tells later last more) : Tells tree last (events ++ more) where
  exact emptyings present := by
    rw [Journal.exact_append, first.replay]
    refine ⟨first.exact emptyings present, second.exact _ ?_⟩
    rw [first.generation, present, UInt32.ofNat_add]
  replay := by
    rw [Journal.replay, List.foldl_append, ← Journal.replay, ← Journal.replay, first.replay,
      second.replay]
  generation := by
    rw [second.generation, first.generation, List.countP_append, UInt32.ofNat_add,
      UInt32.add_assoc]

theorem SameLinks.tells (same : SameLinks tree later) : Tells tree later [] where
  exact _ _ := trivial
  replay := same.rows_eq
  generation := by simpa using same.generation

theorem Tells.refl (tree : Tree V) : Tells tree tree [] := (SameLinks.refl tree).tells

/-- What is told of one event. -/
theorem Tells.single {event : Event}
    (fits : ∀ emptyings, tree.generation = UInt32.ofNat emptyings →
      tree.rows.Fits emptyings event)
    (recorded : tree.rows.record event = later.rows)
    (generation : later.generation = tree.generation + if event.isEmptying then 1 else 0) :
    Tells tree later [event] where
  exact emptyings present := ⟨fits emptyings present, trivial⟩
  replay := recorded
  generation := by
    rw [generation]
    cases event <;> rfl

namespace WellFormed

/-- A row that is not marked is that of a live directory. -/
theorem live_of_row {row : Row} (member : row ∈ tree.rows) (attached : row.detached = false) :
    ∃ dir, tree.IsLive dir ∧ row = (tree.slot dir).row := by
  obtain ⟨place, found⟩ := List.mem_iff_getElem?.mp member
  have inside : place < tree.slots.size := by
    rw [← length_rows]
    exact (List.getElem?_eq_some_iff.mp found).1
  let dir : Handle := ⟨place, tree.generation⟩
  have present : dir.index < tree.slots.size := inside
  obtain rfl : (tree.slot dir).row = row :=
    Option.some.inj ((row_of_inside present).symm.trans found)
  exact ⟨dir, ⟨inside, rfl, attached⟩, rfl⟩

theorem tells_attach (wf : tree.WellFormed) (live : tree.IsLive parent)
    (vacant : tree.child? parent segment = none) :
    Tells tree (tree.attach parent segment)
      [.created segment parent.index tree.slots.size] := by
  refine Tells.single ?fits (rows_attach live.inside segment) (by simp [Event.isEmptying])
  intro emptyings _
  refine ⟨(length_rows tree).symm, ⟨_, row_of_inside live.inside, live.attached⟩, ?vacant⟩
  case vacant =>
    intro row member isChild named
    cases marked : row.detached with
    | true => rfl
    | false =>
      -- A live row under the parent would be linked from it.
      obtain ⟨dir, dirLive, rfl⟩ := live_of_row member marked
      obtain ⟨holder, held, place⟩ := Option.map_eq_some_iff.mp isChild
      have inner : dir ≠ tree.rootHandle := by
        rintro rfl
        rw [wf.root.2.1] at held
        cases held
      obtain ⟨holder', held', holderLive, link⟩ := wf.up dir dirLive inner
      obtain rfl := Option.some.inj (held.symm.trans held')
      obtain rfl := holderLive.eq_of_index live.current place
      rw [show (tree.slot dir).segment = segment from named, vacant] at link
      cases link

theorem tells_clear (wf : tree.WellFormed) (topLive : tree.IsLive top) :
    Tells tree (tree.cleared top) (View.mk tree top).clear.events := by
  refine Tells.single ?fits (wf.record_cleared topLive _) ?generation
  case fits => exact fun _ _ => wf.length_sweepAll_children topLive
  case generation => simp [Event.isEmptying]

theorem tells_startOver (wf : tree.WellFormed) :
    Tells tree tree.clear.tree tree.clear.events := by
  refine Tells.single ?fits rfl rfl
  intro emptyings present
  have first := wf.root.1
  refine ⟨?_, ?_⟩
  · rw [length_rows]
    omega
  · rw [present, UInt32.ofNat_add]
    rfl

/-! ## Edits -/

theorem tells_ensureChild (wf : tree.WellFormed) (live : tree.IsLive parent) (segment : String) :
    Tells tree (tree.ensureChild parent segment).tree
      (tree.ensureChild parent segment).events := by
  cases h : tree.child? parent segment with
  | some child => rw [ensureChild_of_link h]; exact Tells.refl tree
  | none => rw [ensureChild_of_vacant h]; exact wf.tells_attach live h

theorem tells_ensureDirs (wf : tree.WellFormed) (live : tree.IsLive dir) {path : List String}
    (free : Free path) :
    Tells tree (tree.ensureDirs dir path).tree (tree.ensureDirs dir path).events := by
  induction path generalizing tree dir with
  | nil => exact Tells.refl tree
  | cons segment path ih =>
    exact (wf.tells_ensureChild live segment).trans
      (ih (wf.wellFormed_ensureChild live free.head) (wf.ensureChild_live live segment) free.tail)

theorem tells_insert (wf : tree.WellFormed) (live : tree.IsLive dir) (name : String) (value : V) :
    Tells tree ((View.mk tree dir).insert name value).tree
      ((View.mk tree dir).insert name value).events :=
  (wf.tells_ensureDirs live (Key.free_parse name).1).trans
    (sameLinks_leaves _ _ fun leaves => leaves.insert _ value).tells

theorem tells_erase (tree : Tree V) (dir : Handle) (name : String) :
    Tells tree ((View.mk tree dir).erase name).tree ((View.mk tree dir).erase name).events := by
  rw [events_erase]
  exact (sameLinks_erase tree dir name).tells

theorem tells_extend (wf : tree.WellFormed) (entries : List (String × V)) :
    Tells tree (tree.extend entries).tree (tree.extend entries).events := by
  induction entries generalizing tree with
  | nil => exact Tells.refl tree
  | cons entry entries ih =>
    obtain ⟨name, value⟩ := entry
    have first := wf.tells_insert wf.root_live name value
    have rest := ih (wf.wellFormed_insert wf.root_live name value)
    rw [extend, Outcome.tree_andThen, Outcome.events_andThen]
    exact first.trans rest

/-! ## Commands -/

variable [BEq V]

theorem tells_eraseIf (tree : Tree V) (dir : Handle) (name : String) (value : V) :
    Tells tree ((View.mk tree dir).eraseIf name value).tree
      ((View.mk tree dir).eraseIf name value).events := by
  unfold View.eraseIf
  split
  · exact tells_erase tree dir name
  · exact Tells.refl tree

theorem tells_apply (wf : tree.WellFormed) (live : tree.IsLive dir) (change : Change V) :
    Tells tree (change.apply ⟨tree, dir⟩).tree (change.apply ⟨tree, dir⟩).events := by
  cases change with
  | insert name value => exact wf.tells_insert live name value
  | erase name => exact tells_erase tree dir name
  | eraseIf name value => exact tells_eraseIf tree dir name value
  | clear => exact wf.tells_clear live
  | editAlts edit => exact (sameLinks_editAlts tree dir edit).tells

theorem tells_run (wf : tree.WellFormed) (command : Command V) :
    Tells tree (command.run tree).tree (command.run tree).events := by
  cases command with
  | extend entries => exact wf.tells_extend entries
  | clear => exact wf.tells_startOver
  | inside way change =>
    simp only [Command.run]
    cases reached : tree.root.descend? way with
    | none => exact Tells.refl tree
    | some view =>
      obtain ⟨dir, rfl, live, -⟩ := wf.descend?_root reached
      exact wf.tells_apply live change

end WellFormed
end Tree

end SymbolTree
