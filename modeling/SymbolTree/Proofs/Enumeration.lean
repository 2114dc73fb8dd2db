import Mathlib.Data.List.Flatten
import SymbolTree.Proofs.Subtrees
import SymbolTree.Proofs.Views
import SymbolTree.View.Enumeration

/-!
# Enumeration

What a cursor gives, entry by entry, is what the recursion over the subdirectories lists.

* `listed_eq`: the recursion without the bound on its depth;
* `mem_listed_iff`, `nodup_keys_listed`: the list holds the entry of every name that can be looked up,
  each name once;
* `move_keeps`: a move of a cursor gives the next entry of the list or comes closer to it;
* `next_keeps`: a call gives the next entry and leaves the rest of the list;
* `entries_eq`: a cursor has moves enough for the whole list;
* `size_eq_length`, `isEmpty_iff`: the number of entries is counted without looking at them, and so
  is whether there are any.
-/
namespace SymbolTree

variable {V : Type} {tree : Tree V} {dir : Handle}

/-! ## The recursion -/

namespace Tree

/-- The entries at and below a directory, each name with `lead` in front. -/
def listed (tree : Tree V) (dir : Handle) (lead : String) : List (String × V) :=
  tree.enumerate tree.slots.size dir lead

namespace WellFormed

theorem enumerate_eq (wf : tree.WellFormed) (live : tree.IsLive dir) {depth more : Nat}
    (enough : tree.slots.size ≤ dir.index + depth) (enough' : tree.slots.size ≤ dir.index + more)
    (lead : String) : tree.enumerate depth dir lead = tree.enumerate more dir lead := by
  induction depth generalizing dir more lead with
  | zero =>
    have inside := live.inside
    omega
  | succ depth ih =>
    cases more with
    | zero =>
      have inside := live.inside
      omega
    | succ more =>
      have same : ∀ entry ∈ (tree.slot dir).children.entries,
          tree.enumerate depth entry.2 (lead ++ entry.1 ++ ".") =
            tree.enumerate more entry.2 (lead ++ entry.1 ++ ".") := by
        rintro ⟨segment, child⟩ member
        have link := ((tree.slot dir).children.get?_eq_some_iff segment child).mpr member
        have later := wf.child_later live link
        exact ih (wf.child_live live link) (by omega) (by omega) _
      simp only [enumerate, List.flatMap_congr same]

theorem listed_eq (wf : tree.WellFormed) (live : tree.IsLive dir) (lead : String) :
    tree.listed dir lead =
      ((tree.slot dir).children.entries.flatMap fun (segment, child) =>
        tree.listed child (lead ++ segment ++ ".")) ++
      (tree.slot dir).leaves.entries.map fun (segment, value) => (lead ++ segment, value) := by
  have inside := live.inside
  have deeper : tree.listed dir lead = tree.enumerate (tree.slots.size + 1) dir lead :=
    wf.enumerate_eq live (by omega) (by omega) lead
  rw [deeper]
  rfl

theorem mem_children (wf : tree.WellFormed) (live : tree.IsLive dir) {segment : String}
    {child : Handle} (member : (segment, child) ∈ (tree.slot dir).children.entries) :
    tree.child? dir segment = some child ∧ tree.IsLive child ∧ separator ∉ segment.toList := by
  have link := ((tree.slot dir).children.get?_eq_some_iff segment child).mpr member
  exact ⟨link, wf.child_live live link, wf.child_free link⟩

/-- The list holds what can be looked up, and nothing else. -/
theorem mem_listed_iff (wf : tree.WellFormed) (live : tree.IsLive dir) (lead key : String) (value : V) :
    (key, value) ∈ tree.listed dir lead ↔
      ∃ name, key = lead ++ name ∧ (View.mk tree dir).get? name = some value := by
  refine wf.upward_induction (P := fun dir => ∀ lead, (key, value) ∈ tree.listed dir lead ↔
    ∃ name, key = lead ++ name ∧ (View.mk tree dir).get? name = some value) ?_ live lead
  intro dir live ih lead
  rw [wf.listed_eq live, List.mem_append, List.mem_flatMap, List.mem_map]
  constructor
  · rintro (⟨⟨segment, child⟩, isChild, inChild⟩ | ⟨⟨segment, held⟩, isLeaf, same⟩)
    · obtain ⟨link, -, free⟩ := wf.mem_children live isChild
      obtain ⟨name, rfl, found⟩ := (ih segment child link _).mp inChild
      refine ⟨segment ++ "." ++ name, by simp only [String.append_assoc], ?_⟩
      rw [View.get?_dot _ _ _ free]
      simpa [link, View.moveTo] using found
    · have found := ((tree.slot dir).leaves.get?_eq_some_iff segment held).mpr isLeaf
      obtain ⟨rfl, rfl⟩ := Prod.mk.inj same
      exact ⟨segment, rfl, (View.get?_of_free _ segment (wf.leaf_free found)).trans found⟩
  · rintro ⟨name, rfl, found⟩
    induction name using dotted_induction with
    | leaf segment free =>
      rw [View.get?_of_free _ segment free] at found
      exact .inr ⟨_, ((tree.slot dir).leaves.get?_eq_some_iff segment value).mp found, rfl⟩
    | dot segment name free _ =>
      rw [View.get?_dot _ _ _ free] at found
      obtain ⟨child, link, found⟩ := Option.bind_eq_some_iff.mp found
      refine .inl ⟨(segment, child), ((tree.slot dir).children.get?_eq_some_iff _ _).mp link, ?_⟩
      exact (ih segment child link _).mpr ⟨name, by simp only [String.append_assoc], found⟩

/-- Names below different subdirectories differ in the first segment, and a name of a subdirectory
has a separator that the name of an own entry has not. -/
theorem nodup_keys_listed (wf : tree.WellFormed) (live : tree.IsLive dir) (lead : String) :
    ((tree.listed dir lead).map Prod.fst).Nodup := by
  refine wf.upward_induction
    (P := fun dir => ∀ lead, ((tree.listed dir lead).map Prod.fst).Nodup) ?_ live lead
  intro dir live ih lead
  have belowChild {segment : String} {child : Handle} {key : String}
      (isChild : (segment, child) ∈ (tree.slot dir).children.entries)
      (member : key ∈ (tree.listed child (lead ++ segment ++ ".")).map Prod.fst) :
      ∃ name, key = lead ++ (segment ++ "." ++ name) := by
    obtain ⟨⟨_, value⟩, listed, rfl⟩ := List.mem_map.mp member
    obtain ⟨-, childLive, -⟩ := wf.mem_children live isChild
    obtain ⟨name, rfl, -⟩ := (wf.mem_listed_iff childLive _ _ _).mp listed
    exact ⟨name, by simp only [String.append_assoc]⟩
  rw [wf.listed_eq live, List.map_append, List.map_flatMap, List.map_map, List.nodup_append',
    List.nodup_flatMap]
  refine ⟨⟨?_, ?_⟩, ?_, ?_⟩
  · rintro ⟨segment, child⟩ isChild
    obtain ⟨link, -, -⟩ := wf.mem_children live isChild
    exact ih segment child link _
  · refine (List.pairwise_map.mp (tree.slot dir).children.distinct).imp_of_mem ?_
    rintro ⟨segment, child⟩ ⟨segment', other⟩ isChild isChild' ne key member member'
    obtain ⟨-, -, free⟩ := wf.mem_children live isChild
    obtain ⟨-, -, free'⟩ := wf.mem_children live isChild'
    obtain ⟨name, rfl⟩ := belowChild isChild member
    obtain ⟨name', same⟩ := belowChild isChild' member'
    exact ne (dotted_inj free free' ((String.append_right_inj lead).mp same)).1
  · have distinct := (tree.slot dir).leaves.distinct
    have lead_inj : Function.Injective (lead ++ ·) := fun _ _ => (String.append_right_inj lead).mp
    simpa [Function.comp_def] using List.Nodup.map lead_inj distinct
  · intro key member member'
    obtain ⟨⟨segment, child⟩, isChild, inChild⟩ := List.mem_flatMap.mp member
    obtain ⟨⟨leaf, value⟩, isLeaf, rfl⟩ := List.mem_map.mp member'
    obtain ⟨name, same⟩ := belowChild isChild inChild
    have found := ((tree.slot dir).leaves.get?_eq_some_iff leaf value).mpr isLeaf
    have leafFree := wf.leaf_free found
    obtain rfl : leaf = segment ++ "." ++ name := (String.append_right_inj lead).mp same
    exact leafFree (dotted_not_free segment name)

/-- Every directory of the subtree adds the entries that it holds itself. -/
theorem length_listed (wf : tree.WellFormed) (live : tree.IsLive dir) (lead : String) :
    (tree.listed dir lead).length =
      ((tree.subtree dir).flatMap fun other => (tree.slot other).leaves.entries).length := by
  refine wf.upward_induction (P := fun dir => ∀ lead, (tree.listed dir lead).length =
    ((tree.subtree dir).flatMap fun other => (tree.slot other).leaves.entries).length) ?_ live lead
  intro dir live ih lead
  rw [wf.listed_eq live, wf.subtree_eq live, List.length_append, List.length_map, List.flatMap_cons,
    List.length_append, Nat.add_comm]
  congr 1
  have each : ∀ children : List (String × Handle), children ⊆ (tree.slot dir).children.entries →
      (children.flatMap fun entry => tree.listed entry.2 (lead ++ entry.1 ++ ".")).length =
        (((children.map Prod.snd).flatMap tree.subtree).flatMap
          fun other => (tree.slot other).leaves.entries).length := by
    intro children sub
    induction children with
    | nil => rfl
    | cons entry children rest =>
      obtain ⟨link, -, -⟩ := wf.mem_children live (sub List.mem_cons_self)
      have head := ih entry.1 entry.2 link (lead ++ entry.1 ++ ".")
      have tail := rest fun other member => sub (List.mem_cons_of_mem _ member)
      simp only [List.flatMap_cons, List.map_cons, List.length_append, List.flatMap_append, head,
        tail]
  exact each _ fun _ member => member

end WellFormed

/-! ## Counting -/

theorem foldr_eq_length {α β : Type} (items : List α) (part : α → List β) :
    items.foldr (fun item count => (part item).length + count) 0 = (items.flatMap part).length := by
  induction items with
  | nil => rfl
  | cons item items ih => simp [ih]

theorem slots_toList (tree : Tree V) :
    tree.slots.toList = (List.range tree.slots.size).map fun place => tree.slot ⟨place, 0⟩ := by
  apply List.ext_getElem
  · simp
  · intro place inside inside'
    have bound : place < tree.slots.size := by simpa using inside
    simp [slot, bound]

/-- Live directories hold no more entries than there are in the arena. -/
theorem length_entries_le {dirs : List Handle} (distinct : dirs.Nodup)
    (live : ∀ dir ∈ dirs, tree.IsLive dir) :
    (dirs.flatMap fun dir => (tree.slot dir).leaves.entries).length ≤
      (tree.slots.toList.flatMap fun slot => slot.leaves.entries).length := by
  obtain ⟨distinctPlaces, within⟩ := nodup_places distinct live
  obtain ⟨places, perm, sub⟩ := List.subperm_of_subset distinctPlaces within
  let held (place : Nat) : List (String × V) := (tree.slot ⟨place, 0⟩).leaves.entries
  calc (dirs.flatMap fun dir => (tree.slot dir).leaves.entries).length
      = ((dirs.map Handle.index).flatMap held).length := by rw [List.flatMap_map]; rfl
    _ = (places.flatMap held).length := (perm.flatMap_right held).length_eq.symm
    _ ≤ ((List.range tree.slots.size).flatMap held).length := (sub.flatMap held).length_le
    _ = (tree.slots.toList.flatMap fun slot => slot.leaves.entries).length := by
      rw [slots_toList, List.flatMap_map]

end Tree

namespace View

/-- The size of a view is the number of its entries. -/
theorem size_eq_length (wf : tree.WellFormed) (live : tree.IsLive dir) (lead : String) :
    (View.mk tree dir).size = (tree.listed dir lead).length := by
  rw [wf.length_listed live, ← Tree.foldr_eq_length, size, wf.sweepAll_singleton live]
  rfl

end View

/-! ## Cursors -/

/-- What a frame has still to give. -/
def Frame.remaining (tree : Tree V) (frame : Frame V) : List (String × V) :=
  (frame.children.flatMap fun (segment, child) =>
    tree.listed child (frame.lead ++ segment ++ ".")) ++
  frame.leaves.map fun (segment, value) => (frame.lead ++ segment, value)

/-- The moves into the directories that a frame has still to give and out of them, and the move out
of the frame. -/
def Frame.moves (tree : Tree V) (frame : Frame V) : Nat :=
  2 * (frame.children.flatMap fun (_, child) => tree.subtree child).length + 1

namespace Cursor

def remaining (cursor : Cursor V) : List (String × V) :=
  cursor.stack.flatMap (Frame.remaining cursor.tree)

/-- The moves that a cursor makes without giving an entry. -/
def moves (cursor : Cursor V) : Nat :=
  cursor.stack.foldr (fun frame count => frame.moves cursor.tree + count) 0

/-- The cursor moves in a well-formed tree, and its frames hold live directories. -/
structure Sound (cursor : Cursor V) : Prop where
  wellFormed : cursor.tree.WellFormed
  live : ∀ frame ∈ cursor.stack, ∀ entry ∈ frame.children, cursor.tree.IsLive entry.2

/-- What is left after a move. Passing on brings the cursor closer to its next entry. -/
def Keeps (cursor : Cursor V) : Move V → Prop
  | .passing next => next.tree = cursor.tree ∧ next.Sound ∧ next.remaining = cursor.remaining ∧
      next.moves < cursor.moves
  | .found entry next => next.tree = cursor.tree ∧ next.Sound ∧
      cursor.remaining = entry :: next.remaining ∧ next.moves = cursor.moves
  | .finished => cursor.remaining = []

theorem enter_live (wf : tree.WellFormed) (live : tree.IsLive dir) (lead : String) :
    ∀ entry ∈ (Frame.enter tree dir lead).children, tree.IsLive entry.2 :=
  fun _ member => (wf.mem_children live member).2.1

theorem enter_remaining (wf : tree.WellFormed) (live : tree.IsLive dir) (lead : String) :
    (Frame.enter tree dir lead).remaining tree = tree.listed dir lead :=
  (wf.listed_eq live lead).symm

theorem enter_moves (wf : tree.WellFormed) (live : tree.IsLive dir) (lead : String) :
    (Frame.enter tree dir lead).moves tree + 1 = 2 * (tree.subtree dir).length := by
  have below : (Frame.enter tree dir lead).children.flatMap (fun entry => tree.subtree entry.2) =
      (tree.slot dir).children.values.flatMap tree.subtree := by
    rw [Table.values, List.flatMap_map]
    rfl
  rw [Frame.moves, below, wf.subtree_eq live, List.length_cons]
  omega

theorem move_keeps (cursor : Cursor V) (sound : cursor.Sound) : cursor.Keeps cursor.move := by
  obtain ⟨tree, stack⟩ := cursor
  obtain ⟨wf, live⟩ := sound
  match stack with
  | [] => rfl
  | ⟨lead, (segment, child) :: children, leaves⟩ :: outer =>
    have childLive : tree.IsLive child := live _ List.mem_cons_self _ List.mem_cons_self
    refine ⟨rfl, ⟨wf, ?_⟩, ?_, ?_⟩
    · intro frame member entry isChild
      rcases List.mem_cons.mp member with rfl | member
      · exact enter_live wf childLive _ entry isChild
      · rcases List.mem_cons.mp member with rfl | member
        · exact live _ List.mem_cons_self entry (List.mem_cons_of_mem _ isChild)
        · exact live frame (List.mem_cons_of_mem _ member) entry isChild
    · simp only [remaining, List.flatMap_cons, enter_remaining wf childLive]
      simp [Frame.remaining]
    · have entered := enter_moves wf childLive (lead ++ segment ++ ".")
      simp only [moves, List.foldr_cons, Frame.moves, List.flatMap_cons, List.length_append]
        at entered ⊢
      omega
  | ⟨lead, [], (segment, value) :: leaves⟩ :: outer =>
    refine ⟨rfl, ⟨wf, ?_⟩, ?_, ?_⟩
    · intro frame member entry isChild
      rcases List.mem_cons.mp member with rfl | member
      · cases isChild
      · exact live frame (List.mem_cons_of_mem _ member) entry isChild
    · simp [remaining, Frame.remaining]
    · simp [moves, Frame.moves]
  | ⟨lead, [], []⟩ :: outer =>
    refine ⟨rfl, ⟨wf, ?_⟩, ?_, ?_⟩
    · intro frame member entry isChild
      exact live frame (List.mem_cons_of_mem _ member) entry isChild
    · simp [remaining, Frame.remaining]
    · simp [moves, Frame.moves]

/-- With moves enough a cursor comes to its next entry, or sees that there is none. -/
theorem advance_keeps (cursor : Cursor V) (sound : cursor.Sound) {steps : Nat}
    (enough : cursor.moves < steps) :
    match cursor.remaining with
    | [] => cursor.advance steps = .finished
    | entry :: rest => ∃ next, cursor.advance steps = .found entry next ∧ next.tree = cursor.tree ∧
        next.Sound ∧ next.remaining = rest ∧ next.moves ≤ cursor.moves := by
  induction steps generalizing cursor with
  | zero => omega
  | succ steps ih =>
    have kept := cursor.move_keeps sound
    rw [advance]
    cases h : cursor.move with
    | passing next =>
      rw [h] at kept
      obtain ⟨sameTree, nextSound, same, fewer⟩ := kept
      have rest := ih next nextSound (by omega)
      rw [same] at rest
      split at rest
      · exact rest
      · obtain ⟨last, found, lastTree, lastSound, left, fewer'⟩ := rest
        exact ⟨last, found, lastTree.trans sameTree, lastSound, left, by omega⟩
    | found entry next =>
      rw [h] at kept
      obtain ⟨sameTree, nextSound, same, asMany⟩ := kept
      rw [same]
      exact ⟨next, rfl, sameTree, nextSound, rfl, Nat.le_of_eq asMany⟩
    | finished =>
      rw [h] at kept
      rw [show cursor.remaining = [] from kept]

/-- A call takes the next entry off what is left. At the end there is nothing to take. -/
theorem next_keeps (cursor : Cursor V) (sound : cursor.Sound)
    (enough : cursor.moves < 2 * cursor.tree.slots.size + 1) :
    cursor.next.1 = cursor.remaining.head? ∧ cursor.next.2.tree = cursor.tree ∧
      cursor.next.2.Sound ∧ cursor.next.2.remaining = cursor.remaining.tail ∧
      cursor.next.2.moves ≤ cursor.moves := by
  have kept := cursor.advance_keeps sound enough
  unfold next
  cases left : cursor.remaining with
  | nil =>
    rw [left] at kept
    rw [show cursor.advance (2 * cursor.tree.slots.size + 1) = .finished from kept]
    have noFrame : ∀ frame ∈ ({ cursor with stack := [] } : Cursor V).stack,
        ∀ entry ∈ frame.children, cursor.tree.IsLive entry.2 := fun _ member => nomatch member
    exact ⟨rfl, rfl, ⟨sound.wellFormed, noFrame⟩, rfl, Nat.zero_le _⟩
  | cons entry rest =>
    rw [left] at kept
    obtain ⟨next, found, sameTree, nextSound, same, fewer⟩ := kept
    rw [found]
    exact ⟨rfl, sameTree, nextSound, same, fewer⟩

theorem take_eq (cursor : Cursor V) (sound : cursor.Sound)
    (enough : cursor.moves < 2 * cursor.tree.slots.size + 1) (count : Nat) :
    cursor.take count = cursor.remaining.take count := by
  induction count generalizing cursor with
  | zero => simp [take]
  | succ count ih =>
    obtain ⟨answer, sameTree, nextSound, same, fewer⟩ := cursor.next_keeps sound enough
    have rest := ih cursor.next.2 nextSound (by rw [sameTree]; omega)
    rw [same] at rest
    rw [take]
    cases called : cursor.next with
    | mk first after =>
      rw [called] at answer rest
      cases left : cursor.remaining with
      | nil =>
        obtain rfl : first = none := by simpa [left] using answer
        simp
      | cons entry others =>
        obtain rfl : first = some entry := by simpa [left] using answer
        rw [left, List.tail_cons] at rest
        simp [rest]

end Cursor

namespace View

theorem cursor_sound (wf : tree.WellFormed) (live : tree.IsLive dir) :
    (View.mk tree dir).cursor.Sound :=
  ⟨wf, by simpa [cursor] using Cursor.enter_live wf live ""⟩

theorem remaining_cursor (wf : tree.WellFormed) (live : tree.IsLive dir) :
    (View.mk tree dir).cursor.remaining = tree.listed dir "" := by
  simp [cursor, Cursor.remaining, Cursor.enter_remaining wf live]

/-- The bound on the moves of a call is enough for all moves to come. -/
theorem moves_cursor_lt (wf : tree.WellFormed) (live : tree.IsLive dir) :
    (View.mk tree dir).cursor.moves < 2 * tree.slots.size + 1 := by
  have entered := Cursor.enter_moves wf live ""
  have bound := wf.length_subtree_le live
  simp only [cursor, Cursor.moves, List.foldr_cons, List.foldr_nil]
  omega

/-- A cursor lists what the recursion lists, in the same order. -/
theorem entries_eq (wf : tree.WellFormed) (live : tree.IsLive dir) :
    (View.mk tree dir).entries = (View.mk tree dir).enumeration := by
  have all : (tree.listed dir "").length ≤
      tree.slots.toList.foldr (fun slot count => slot.leaves.size + count) 0 := by
    have held := Tree.length_entries_le (wf.nodup_subtree live) fun _ => wf.subtree_live live
    rw [← wf.length_listed live "", ← Tree.foldr_eq_length] at held
    exact held
  rw [entries, Cursor.toList, Cursor.take_eq _ (cursor_sound wf live) (moves_cursor_lt wf live),
    remaining_cursor wf live]
  exact List.take_of_length_le all

theorem mem_entries_iff (wf : tree.WellFormed) (live : tree.IsLive dir) (key : String) (value : V) :
    (key, value) ∈ (View.mk tree dir).entries ↔ (View.mk tree dir).get? key = some value := by
  rw [entries_eq wf live]
  refine (wf.mem_listed_iff live "" key value).trans ?_
  simp

theorem nodup_keys_entries (wf : tree.WellFormed) (live : tree.IsLive dir) :
    ((View.mk tree dir).entries.map Prod.fst).Nodup := by
  rw [entries_eq wf live]
  exact wf.nodup_keys_listed live ""

theorem length_entries (wf : tree.WellFormed) (live : tree.IsLive dir) :
    (View.mk tree dir).entries.length = (View.mk tree dir).size := by
  rw [entries_eq wf live, size_eq_length wf live ""]
  rfl

/-- The early end of the sweep for an entry does not change its answer. -/
theorem isEmpty_iff (wf : tree.WellFormed) (live : tree.IsLive dir) :
    (View.mk tree dir).isEmpty = true ↔ (View.mk tree dir).entries = [] := by
  have count := length_entries wf live
  rw [size_eq_length wf live "", wf.length_listed live ""] at count
  rw [isEmpty, List.isEmpty_iff, wf.pending_sweep_singleton live, ← List.length_eq_zero_iff, count,
    List.length_eq_zero_iff, List.flatMap_eq_nil_iff]
  simp [Table.isEmpty]

end View

/-- The scan of the whole arena finds no more than the sweep from the root: what has been cut off
is empty. -/
theorem Tree.WellFormed.isEmpty_iff (wf : tree.WellFormed) :
    tree.isEmpty = true ↔ tree.root.entries = [] := by
  have rootLive := wf.root_live
  have scan : tree.isEmpty = true ↔ ∀ slot ∈ tree.slots, slot.leaves.isEmpty = true := by
    rw [Tree.isEmpty, Array.all_eq_true']
  rw [scan, Tree.forall_mem_slots, Tree.root, ← View.isEmpty_iff wf rootLive, View.isEmpty,
    List.isEmpty_iff, wf.pending_sweep_singleton rootLive]
  constructor
  · intro all other member
    have inside := (wf.subtree_live rootLive member).inside
    rw [all other inside]
    rfl
  · intro none dir inside
    cases cut : (tree.slot dir).detached with
    | true =>
      have noLeaf := (wf.cutOff _ (Tree.mem_slots inside) cut).1
      rw [Table.isEmpty, noLeaf]
      rfl
    | false =>
      have live : tree.IsLive ⟨dir.index, tree.generation⟩ := ⟨inside, rfl, cut⟩
      obtain ⟨way, reach⟩ := wf.exists_way live
      simpa [Tree.slot] using none _ ((wf.mem_subtree_iff rootLive).mpr ⟨way, reach⟩)

end SymbolTree
