import Mathlib.Logic.Function.Iterate
import SymbolTree.Proofs.Iteration
import SymbolTree.View.Tour

/-!
# Tours of a tree

A cursor goes once into every directory at and below its start, into each before those below it, and
out of it again.

* `Sound.records`: every move can be recorded, and with the record it keeps what makes a tour sound:
  what has been entered and what is ahead is the subtree of the start, and what has been left and
  what has a frame is what has been entered;
* `Sound.ended`: so at the end everything has been entered and left;
* `Sound.exists_call`, `Sound.exists_next`: every call comes to an entry or to the end;
* `exists_tours`: the tours between the calls of a cursor.
-/
namespace SymbolTree

variable {V : Type} {tree : Tree V} {dir : Handle} {tour : Tour V} {view : View V}

/-- The directories that the frames have still to give, in the order in which they come. -/
def Cursor.ahead (cursor : Cursor V) : List Handle :=
  cursor.stack.flatMap fun frame => frame.children.flatMap fun link => cursor.tree.subtree link.2

namespace Tour

/-- A tour that has begun with the directory of a view. -/
structure Sound (tour : Tour V) (view : View V) : Prop where
  cursor : tour.cursor.Sound
  tree : tour.cursor.tree = view.tree
  /-- The bound on the moves of a call is enough for all moves to come. -/
  enough : tour.cursor.moves < 2 * tour.cursor.tree.slots.size + 1
  frames : tour.inside.length = tour.cursor.stack.length
  /-- What has been entered and what is ahead is everything, each directory before those below. -/
  entered : tour.entered ++ tour.cursor.ahead = view.tree.subtree view.handle
  /-- Of what has been entered, one part has been left and the other has a frame. -/
  left : (tour.left ++ tour.inside).Perm tour.entered

theorem sound_start (wf : tree.WellFormed) (live : tree.IsLive dir) :
    (View.mk tree dir).tour.Sound ⟨tree, dir⟩ where
  cursor := View.cursor_sound wf live
  tree := rfl
  enough := View.moves_cursor_lt wf live
  frames := rfl
  entered := by
    rw [wf.subtree_eq live, Table.values, List.flatMap_map]
    simp [View.tour, View.cursor, Cursor.ahead, Frame.enter]
  left := .refl _

/-- A move can be recorded, and the tour stays sound. At the end there is no frame. -/
theorem Sound.records (sound : tour.Sound view) :
    match tour.cursor.move with
    | .passing cursor | .found _ cursor =>
      ∃ later, later.cursor = cursor ∧ tour.Records later ∧ later.Sound view
    | .finished => tour.cursor.stack = [] := by
  have kept := tour.cursor.move_keeps sound.cursor
  obtain ⟨⟨tree, stack⟩, inside, entered, left⟩ := tour
  obtain ⟨⟨wf, live⟩, same, enough, frames, all, parts⟩ := sound
  -- What the innermost frame has still to give decides on the move: a subdirectory, an entry of its
  -- own, or nothing. Only the first and the last change the number of frames.
  match stack with
  | [] => rfl
  | ⟨lead, (segment, child) :: children, leaves⟩ :: outer =>
    obtain ⟨-, cursorSound, -, fewer⟩ := kept
    refine ⟨⟨_, child :: inside, entered ++ [child], left⟩, rfl, .into rfl rfl rfl, cursorSound,
      same, Nat.lt_trans fewer enough, congrArg Nat.succ frames, ?entered, ?left⟩
    case entered =>
      have childLive : tree.IsLive child := live _ List.mem_cons_self _ List.mem_cons_self
      have opened : tree.subtree child =
          child :: (tree.slot child).children.values.flatMap tree.subtree := wf.subtree_eq childLive
      rw [Table.values, List.flatMap_map] at opened
      rw [← all]
      simp [Cursor.ahead, Frame.enter, opened]
    case left =>
      exact List.perm_middle.trans ((parts.cons child).trans (List.perm_append_singleton _ _).symm)
  | ⟨lead, [], (segment, value) :: leaves⟩ :: outer =>
    obtain ⟨-, cursorSound, -, asMany⟩ := kept
    exact ⟨⟨_, inside, entered, left⟩, rfl, .within rfl rfl, cursorSound, same,
      asMany.symm ▸ enough, frames, all, parts⟩
  | ⟨lead, [], []⟩ :: outer =>
    obtain ⟨-, cursorSound, -, fewer⟩ := kept
    obtain ⟨dir, dirs, rfl⟩ := List.exists_cons_of_length_eq_add_one frames
    refine ⟨⟨_, dirs, entered, left ++ [dir]⟩, rfl, .out rfl rfl, cursorSound, same,
      Nat.lt_trans fewer enough, Nat.succ.inj frames, all, ?_⟩
    simpa using parts

/-- A tour at its end has gone into everything, and out of it again. -/
theorem Sound.ended (sound : tour.Sound view) (ended : tour.cursor.stack = []) :
    tour.entered = view.tree.subtree view.handle ∧
      tour.left.Perm (view.tree.subtree view.handle) := by
  have all := sound.entered
  have parts := sound.left
  have outside : tour.inside = [] := by
    rw [← List.length_eq_zero_iff, sound.frames, ended, List.length_nil]
  rw [Cursor.ahead, ended, List.flatMap_nil, List.append_nil] at all
  rw [outside, List.append_nil] at parts
  exact ⟨all, all ▸ parts⟩

/-! ## Calls -/

/-- With moves enough the cursor comes to its next entry or to the end. -/
theorem Sound.exists_call (sound : tour.Sound view) {steps : Nat}
    (enough : tour.cursor.moves < steps) :
    ∃ later, later.Sound view ∧
      ((∃ entry, tour.cursor.advance steps = .found entry later.cursor ∧
          tour.Call (some entry) later) ∨
        tour.cursor.advance steps = .finished ∧ later.cursor.stack = [] ∧
          tour.Call none later) := by
  induction steps generalizing tour with
  | zero => omega
  | succ steps ih =>
    have kept := tour.cursor.move_keeps sound.cursor
    have recorded := sound.records
    rw [Cursor.advance]
    cases move : tour.cursor.move with
    | passing cursor =>
      rw [move] at kept recorded
      obtain ⟨onward, rfl, record, onwardSound⟩ := recorded
      obtain ⟨-, -, -, fewer⟩ := kept
      obtain ⟨later, laterSound, rest⟩ := ih onwardSound (by omega)
      refine ⟨later, laterSound, ?_⟩
      rcases rest with ⟨entry, found, call⟩ | ⟨finished, noFrame, call⟩
      · exact .inl ⟨entry, found, .passing move record call⟩
      · exact .inr ⟨finished, noFrame, .passing move record call⟩
    | found entry cursor =>
      rw [move] at recorded
      obtain ⟨later, rfl, record, laterSound⟩ := recorded
      exact ⟨later, laterSound, .inl ⟨entry, rfl, .found move record⟩⟩
    | finished =>
      rw [move] at recorded
      exact ⟨tour, sound, .inr ⟨rfl, recorded, .finished move⟩⟩

/-- The bound on the moves of a call is never what ends it. -/
theorem Sound.advance_ne_passing (sound : tour.Sound view) (passed : Cursor V) :
    tour.cursor.advance (2 * tour.cursor.tree.slots.size + 1) ≠ .passing passed := by
  intro passing
  obtain ⟨later, -, ⟨entry, found, -⟩ | ⟨finished, -⟩⟩ := sound.exists_call sound.enough
  · cases passing.symm.trans found
  · cases passing.symm.trans finished

/-- So a call with the bound does what it does without one, and at the end no frame is left. -/
theorem Sound.exists_next (sound : tour.Sound view) :
    ∃ later, later.Sound view ∧ later.cursor = tour.cursor.next.2 ∧
      tour.Call tour.cursor.next.1 later ∧
      (tour.cursor.next.1 = none → later.cursor.stack = []) := by
  obtain ⟨later, laterSound, ended⟩ := sound.exists_call sound.enough
  refine ⟨later, laterSound, ?_⟩
  rw [Cursor.next]
  rcases ended with ⟨entry, found, call⟩ | ⟨finished, noFrame, call⟩
  · rw [found]
    exact ⟨rfl, call, nofun⟩
  · rw [finished]
    refine ⟨?_, call, fun _ => noFrame⟩
    calc later.cursor
        = ⟨later.cursor.tree, later.cursor.stack⟩ := rfl
      _ = ⟨tour.cursor.tree, []⟩ := by rw [noFrame, laterSound.tree, sound.tree]

end Tour

namespace Cursor

theorem after_succ (cursor : Cursor V) (calls : Nat) :
    cursor.after (calls + 1) = (cursor.after calls).next.2 := by
  induction calls generalizing cursor with
  | zero => rfl
  | succ calls ih => rw [after, ih, after]

end Cursor

namespace View

/-- The end is seen after as many entries as the size says. -/
theorem next_eq_none_iff (wf : tree.WellFormed) (live : tree.IsLive dir) (calls : Nat) :
    ((View.mk tree dir).cursor.after calls).next.1 = none ↔ (View.mk tree dir).size ≤ calls := by
  rw [next_after_cursor wf live, List.getElem?_eq_none_iff, size_eq_length wf live ""]

/-- The tours between the calls of a cursor: from each to the next there is one call. -/
theorem exists_tours (wf : tree.WellFormed) (live : tree.IsLive dir) :
    let view : View V := ⟨tree, dir⟩
    ∃ tours : Nat → Tour V, tours 0 = view.tour ∧ ∀ calls, (tours calls).Sound view ∧
      (tours calls).cursor = view.cursor.after calls ∧
      (tours calls).Call (view.cursor.after calls).next.1 (tours (calls + 1)) ∧
      ((view.cursor.after calls).next.1 = none → (tours (calls + 1)).cursor.stack = []) := by
  intro view
  have call : ∀ tour : { tour : Tour V // tour.Sound view }, ∃ later : { tour // tour.Sound view },
      later.1.cursor = tour.1.cursor.next.2 ∧ tour.1.Call tour.1.cursor.next.1 later.1 ∧
        (tour.1.cursor.next.1 = none → later.1.cursor.stack = []) := by
    rintro ⟨tour, sound⟩
    obtain ⟨later, laterSound, called⟩ := sound.exists_next
    exact ⟨⟨later, laterSound⟩, called⟩
  choose next called using call
  let tours (calls : Nat) := next^[calls] ⟨view.tour, Tour.sound_start wf live⟩
  have succ (calls : Nat) : tours (calls + 1) = next (tours calls) :=
    Function.iterate_succ_apply' next calls _
  have cursors (calls : Nat) : (tours calls).1.cursor = view.cursor.after calls := by
    induction calls with
    | zero => rfl
    | succ calls ih => rw [succ, (called (tours calls)).1, ih, Cursor.after_succ]
  refine ⟨fun calls => (tours calls).1, rfl, fun calls => ⟨(tours calls).2, cursors calls, ?_⟩⟩
  have onward := (called (tours calls)).2
  rwa [cursors, ← succ] at onward

end View
end SymbolTree
