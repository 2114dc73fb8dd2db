import SymbolTree.Proofs.Arrangements

/-!
# Iteration

The calls of a cursor one by one, and the entries that they give.

* `after_keeps`: what is left after some calls;
* `next_after`: the answer of every call, also of those after the last entry;
* `Tree.IsEnumeration`: the recursion over the subdirectories, as an equation;
* `entries_exact`: the entries are what can be looked up;
* `next_eq_recursion`: the calls give what the recursion lists.

Both results are about trees whose tables are in any order.
-/
namespace SymbolTree

variable {V : Type} {tree : Tree V} {dir : Handle}

/-- Each call takes one entry off what is left. -/
theorem Cursor.after_keeps (cursor : Cursor V) (sound : cursor.Sound)
    (enough : cursor.moves < 2 * cursor.tree.slots.size + 1) (calls : Nat) :
    (cursor.after calls).tree = cursor.tree ∧ (cursor.after calls).Sound ∧
      (cursor.after calls).remaining = cursor.remaining.drop calls ∧
      (cursor.after calls).moves ≤ cursor.moves := by
  induction calls generalizing cursor with
  | zero => exact ⟨rfl, sound, rfl, Nat.le_refl _⟩
  | succ calls ih =>
    obtain ⟨-, sameTree, nextSound, same, fewer⟩ := cursor.next_keeps sound enough
    have enoughLeft : cursor.next.2.moves < 2 * cursor.next.2.tree.slots.size + 1 := by
      rw [sameTree]
      omega
    obtain ⟨laterTree, laterSound, left, fewest⟩ := ih cursor.next.2 nextSound enoughLeft
    rw [same, List.drop_tail] at left
    exact ⟨laterTree.trans sameTree, laterSound, left, Nat.le_trans fewest fewer⟩

/-- The calls give what is left one by one, and when nothing is left nothing comes any more. -/
theorem Cursor.next_after (cursor : Cursor V) (sound : cursor.Sound)
    (enough : cursor.moves < 2 * cursor.tree.slots.size + 1) (calls : Nat) :
    (cursor.after calls).next.1 = cursor.remaining[calls]? := by
  obtain ⟨sameTree, laterSound, left, fewer⟩ := cursor.after_keeps sound enough calls
  have enoughLeft : (cursor.after calls).moves < 2 * (cursor.after calls).tree.slots.size + 1 := by
    rw [sameTree]
    omega
  rw [((cursor.after calls).next_keeps laterSound enoughLeft).1, left, List.head?_drop]

namespace Tree

/-- The lists go by recursion: those of the subdirectories one after the other, with the segment put
in front, and then the entries of the directory itself. -/
def IsEnumeration (tree : Tree V) (list : Handle → String → List (String × V)) : Prop :=
  ∀ dir lead, tree.IsLive dir → list dir lead =
    ((tree.slot dir).children.entries.flatMap fun (segment, child) =>
      list child (lead ++ segment ++ ".")) ++
    (tree.slot dir).leaves.entries.map fun (segment, value) => (lead ++ segment, value)

namespace WellFormed

theorem isEnumeration_listed (wf : tree.WellFormed) : tree.IsEnumeration tree.listed :=
  fun _ lead live => wf.listed_eq live lead

/-- There is only one such recursion: subdirectories stand in later slots. -/
theorem eq_listed_of_isEnumeration (wf : tree.WellFormed)
    {list : Handle → String → List (String × V)} (recursion : tree.IsEnumeration list)
    (live : tree.IsLive dir) (lead : String) : list dir lead = tree.listed dir lead := by
  refine wf.upward_induction (P := fun dir => ∀ lead, list dir lead = tree.listed dir lead) ?_
    live lead
  intro dir live ih lead
  have below : ∀ entry ∈ (tree.slot dir).children.entries,
      list entry.2 (lead ++ entry.1 ++ ".") = tree.listed entry.2 (lead ++ entry.1 ++ ".") := by
    rintro ⟨segment, child⟩ isChild
    obtain ⟨link, -, -⟩ := wf.mem_children live isChild
    exact ih segment child link _
  rw [recursion dir lead live, wf.listed_eq live lead, List.flatMap_congr below]

end WellFormed
end Tree

namespace View

theorem next_after_cursor (wf : tree.WellFormed) (live : tree.IsLive dir) (calls : Nat) :
    ((View.mk tree dir).cursor.after calls).next.1 = (tree.listed dir "")[calls]? := by
  rw [← remaining_cursor wf live]
  exact Cursor.next_after _ (cursor_sound wf live) (moves_cursor_lt wf live) calls

/-- In a tree that some commands have built, its tables in any order, the calls of a cursor give the
entries of the directory one by one and then nothing more. They are exactly the names that can be
looked up there with the values that stand there, each name once, and as many as the size says. -/
theorem entries_exact [BEq V] (arises : tree.Arises) (live : tree.IsLive dir) :
    let view : View V := ⟨tree, dir⟩
    (∀ calls, (view.cursor.after calls).next.1 = view.entries[calls]?) ∧
      (∀ key value, (key, value) ∈ view.entries ↔ view.get? key = some value) ∧
      (view.entries.map Prod.fst).Nodup ∧
      view.entries.length = view.size ∧
      ∀ entry ∈ view.entries, view.get entry.1 = .ok entry.2 := by
  intro view
  have wf := arises.wellFormed
  refine ⟨?calls, mem_entries_iff wf live, nodup_keys_entries wf live, length_entries wf live, ?get⟩
  case calls =>
    intro calls
    rw [entries_eq wf live]
    exact next_after_cursor wf live calls
  case get =>
    rintro ⟨key, value⟩ member
    exact (get_eq_ok_iff _ _ _).mpr ((mem_entries_iff wf live key value).mp member)

/-- Names that only separators tell apart, and an entry beside a subdirectory of the same segment. -/
theorem entries_exact_separators :
    let commands : List (Command Nat) :=
      [.extend [("", 1), (".", 2), ("A", 3), ("A.", 4), ("..", 5)]]
    let tree := (Tree.empty.runAll commands).tree
    let view : View Nat := ⟨tree, tree.rootHandle⟩
    view.entries.length = 5 ∧ ("A.", 4) ∈ view.entries ∧ ("A..", 4) ∉ view.entries ∧
      (view.cursor.after 5).next.1 = none := by
  intro commands tree view
  have arises : tree.Arises := Tree.Reachable.arises ⟨commands, rfl⟩
  have live : tree.IsLive tree.rootHandle := by decide +kernel
  obtain ⟨calls, mem, -, count, -⟩ := entries_exact arises live
  have five : view.entries.length = 5 := count.trans (by decide +kernel)
  refine ⟨five, (mem _ _).mpr (by decide +kernel), ?_, ?_⟩
  · exact fun member => absurd ((mem _ _).mp member) (by decide +kernel)
  · exact (calls 5).trans (List.getElem?_eq_none (Nat.le_of_eq five))

/-- In a tree that some commands have built, its tables in any order, let lists go by recursion over
the subdirectories, in the order of the tables. The calls of a cursor give the list of its directory
in that order, and after it nothing, however often one calls; names and values are listed in the
order of the entries. There is exactly one such recursion, `Tree.listed`. -/
theorem next_eq_recursion [BEq V] (arises : tree.Arises) :
    tree.IsEnumeration tree.listed ∧
      ∀ list, tree.IsEnumeration list → ∀ dir, tree.IsLive dir →
        let view : View V := ⟨tree, dir⟩
        (∀ calls, (view.cursor.after calls).next.1 = (list dir "")[calls]?) ∧
          view.keys = (list dir "").map Prod.fst ∧ view.values = (list dir "").map Prod.snd := by
  have wf := arises.wellFormed
  refine ⟨wf.isEnumeration_listed, ?_⟩
  intro list recursion dir live view
  have listed : list dir "" = tree.listed dir "" := wf.eq_listed_of_isEnumeration recursion live ""
  have all : view.entries = tree.listed dir "" := entries_eq wf live
  rw [listed, keys, values, all]
  exact ⟨next_after_cursor wf live, rfl, rfl⟩

/-- Subdirectories come first, those without an entry are passed through, and the end stays. -/
theorem next_eq_recursion_nested :
    let commands : List (Command Nat) :=
      [.extend [("b", 1), ("a.b.c", 2), ("a.d.c", 3)], .inside ["a.b"] (.erase "c")]
    let tree := (Tree.empty.runAll commands).tree
    let view : View Nat := ⟨tree, tree.rootHandle⟩
    view.keys = ["a.d.c", "b"] ∧ (view.cursor.after 1).next.1 = some ("b", 1) ∧
      (view.cursor.after 2).next.1 = none ∧ (view.cursor.after 7).next.1 = none := by
  intro commands tree view
  have arises : tree.Arises := Tree.Reachable.arises ⟨commands, rfl⟩
  have live : tree.IsLive tree.rootHandle := by decide +kernel
  obtain ⟨recursion, all⟩ := next_eq_recursion arises
  obtain ⟨calls, names, -⟩ := all _ recursion _ live
  have listed : tree.listed tree.rootHandle "" = [("a.d.c", 3), ("b", 1)] := by decide +kernel
  rw [listed] at calls names
  exact ⟨names, calls 1, calls 2, calls 7⟩

end View
end SymbolTree
