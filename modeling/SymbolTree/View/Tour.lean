import SymbolTree.View.Cursor

/-!
# Tours

A cursor on its way, with a record of its frames: for which directory each of them is, and which
directories it has gone into and left. What is recorded is read off the frames of the cursor, before
and after each of its own moves.

* `Tour.Records`: the record of one move;
* `Tour.Call`: one call of the cursor, move by move and with no bound on their number.
-/
namespace SymbolTree

structure Tour (V : Type) where
  cursor : Cursor V
  /-- The directories of the frames, innermost first. -/
  inside : List Handle
  /-- The directories for which a frame has been laid down, first to last. -/
  entered : List Handle
  /-- The directories whose frames have been taken off, first to last. -/
  left : List Handle

variable {V : Type}

/-- The frame of the directory itself is there from the start. -/
def View.tour (view : View V) : Tour V := ⟨view.cursor, [view.handle], [view.handle], []⟩

namespace Tour

/-- The record after a move. Whether there is a frame more, as many or a frame less says which of
the three it is. -/
inductive Records (tour : Tour V) : (later : Tour V) → Prop where
  /-- A subdirectory comes off the innermost frame, and there is a frame for it. -/
  | into {cursor : Cursor V} {frame rest : Frame V} {outer : List (Frame V)} {segment : String}
      {child : Handle} (before : tour.cursor.stack = frame :: outer)
      (first : frame.children = (segment, child) :: rest.children)
      (after : cursor.stack =
        .enter tour.cursor.tree child (frame.lead ++ segment ++ ".") :: rest :: outer) :
      Records tour ⟨cursor, child :: tour.inside, tour.entered ++ [child], tour.left⟩
  /-- There is a frame for each directory that there was one for. -/
  | within {cursor : Cursor V} {frame rest : Frame V} {outer : List (Frame V)}
      (before : tour.cursor.stack = frame :: outer) (after : cursor.stack = rest :: outer) :
      Records tour { tour with cursor }
  /-- The innermost frame has been taken off. -/
  | out {cursor : Cursor V} {frame : Frame V} {dir : Handle} {dirs : List Handle}
      (before : tour.cursor.stack = frame :: cursor.stack) (innermost : tour.inside = dir :: dirs) :
      Records tour ⟨cursor, dirs, tour.entered, tour.left ++ [dir]⟩

/-- `tour.Call answer later`: a call gives `answer` and leaves `later`. The cursor passes through
directories, and its last move finds the entry or sees the end. -/
inductive Call : (tour : Tour V) → (answer : Option (String × V)) → (later : Tour V) → Prop where
  | passing {tour onward later : Tour V} {answer : Option (String × V)}
      (move : tour.cursor.move = .passing onward.cursor) (record : tour.Records onward)
      (rest : Call onward answer later) : Call tour answer later
  | found {tour later : Tour V} {entry : String × V}
      (move : tour.cursor.move = .found entry later.cursor) (record : tour.Records later) :
      Call tour (some entry) later
  | finished {tour : Tour V} (move : tour.cursor.move = .finished) : Call tour none tour

end Tour
end SymbolTree
