import SymbolTree.Proofs.Access
import SymbolTree.Proofs.Iteration

/-!
# Copying entries out

A copy writes all entries of a directory into neighbouring places, or none of them anywhere.

* `overwrite_of_room`: what is written, if there is room for it;
* `copyInto_of_room`: the places after a copy;
* `Checked.copyInto_eq`: no difference on the way is negative;
* `copyInto_exact`: the three outcomes of a copy.
-/
namespace SymbolTree

variable {V : Type} {tree : Tree V} {dir : Handle}

theorem overwrite_of_room {α : Type} {places items : List α} (room : items.length ≤ places.length) :
    overwrite places items = items ++ places.drop items.length := by
  induction items generalizing places with
  | nil => cases places <;> rfl
  | cons item items ih =>
    cases places with
    | nil => simp at room
    | cons place places =>
      have rest := ih (Nat.le_of_succ_le_succ room)
      simp [overwrite, rest]

/-- Items in place of as many others are seen there and nowhere else. -/
theorem getElem?_spliced {α : Type} {places items : List α} {start : Nat}
    (room : start + items.length ≤ places.length) (place : Nat) :
    (places.take start ++ (items ++ places.drop (start + items.length)))[place]? =
      if start ≤ place ∧ place < start + items.length then items[place - start]?
      else places[place]? := by
  have front : (places.take start).length = start := by
    rw [List.length_take]
    omega
  rw [List.getElem?_append, List.getElem?_append, List.getElem?_drop, front]
  by_cases before : place < start
  · rw [if_pos before, if_neg (by omega), List.getElem?_take_of_lt before]
  · rw [if_neg before]
    by_cases among : place - start < items.length
    · rw [if_pos among, if_pos (by omega)]
    · rw [if_neg among, if_neg (by omega)]
      congr 1
      omega

/-- Different items that are laid out from `start` on stand in one place each. -/
theorem mem_iff_existsUnique {α : Type} {items : List α} (distinct : items.Nodup) (start : Nat)
    (item : α) :
    item ∈ items ↔ ∃! place, (start ≤ place ∧ place < start + items.length) ∧
      items[place - start]? = some item := by
  constructor
  · intro member
    obtain ⟨index, stands⟩ := List.mem_iff_getElem?.mp member
    have inside := (List.getElem?_eq_some_iff.mp stands).1
    refine ⟨start + index, ⟨by omega, by rwa [Nat.add_sub_cancel_left]⟩, ?_⟩
    rintro place ⟨among, standsToo⟩
    have same : place - start = index :=
      (List.getElem?_inj (by omega) distinct).mp (standsToo.trans stands.symm)
    omega
  · rintro ⟨place, ⟨-, stands⟩, -⟩
    exact List.mem_of_getElem? stands

namespace View

section
variable {places : List (String × V)} {start : Nat}

theorem copyInto_of_late (late : places.length < start) (view : View V) :
    view.copyInto places start = ⟨places, some (.startPastEnd start places.length)⟩ := if_pos late

theorem copyInto_of_narrow (view : View V) (inside : start ≤ places.length)
    (narrow : places.length - start < view.size) :
    view.copyInto places start =
      ⟨places, some (.tooLittleRoom (places.length - start) view.size)⟩ := by
  rw [copyInto, if_neg (Nat.not_lt.mpr inside)]
  exact if_pos narrow

/-- With room enough the entries stand between what stood in front and behind. -/
theorem copyInto_of_room (wf : tree.WellFormed) (live : tree.IsLive dir)
    (inside : start ≤ places.length)
    (room : (View.mk tree dir).size ≤ places.length - start) :
    (View.mk tree dir).copyInto places start =
      ⟨places.take start ++ ((View.mk tree dir).entries ++
        places.drop (start + (View.mk tree dir).entries.length)), none⟩ := by
  have fits : (View.mk tree dir).entries.length ≤ (places.drop start).length := by
    rw [length_entries wf live, List.length_drop]
    exact room
  rw [copyInto, if_neg (Nat.not_lt.mpr inside)]
  simp only [Nat.not_lt.mpr room, if_false, overwrite_of_room fits, List.drop_drop]

end

end View

theorem Checked.copyInto_eq (wf : tree.WellFormed) (live : tree.IsLive dir)
    (places : List (String × V)) (start : Nat) :
    Checked.copyInto ⟨tree, dir⟩ places start =
      some ((View.mk tree dir).copyInto places start) := by
  unfold Checked.copyInto View.copyInto
  split
  · rfl
  · rename_i inside
    have inside : start ≤ places.length := Nat.not_lt.mp inside
    simp only [size_eq wf live, minus, placesFrom, if_pos inside, entries_eq wf live,
      Option.bind_eq_bind, Option.bind_some]
    split <;> rfl

namespace View

/-- In a tree that some commands have built, its tables in any order, let entries of a directory be
copied into places from one of them on. No difference on the way is negative. If the start is behind
the end of the places, or what is left from there on is less than what is needed, then the failure
says so with both numbers and every place is as before. Otherwise there is no failure; the calls of
a cursor, one by one, give what stands from the start on, and nothing after that; every entry of the
directory stands there in one place, and nothing else; all other places are as before. -/
theorem copyInto_exact [BEq V] (arises : tree.Arises) (live : tree.IsLive dir)
    (places : List (String × V)) (start : Nat) :
    let view : View V := ⟨tree, dir⟩
    let copied := view.copyInto places start
    let room := places.length - start
    let failure := copied.misfit.map Misfit.failure
    Checked.copyInto view places start = some copied ∧
      (places.length < start → copied.places = places ∧
        failure = some (.invalidArgument ("start offset " ++ toString start ++
          " exceeds destination length " ++ toString places.length))) ∧
      (start ≤ places.length → room < view.size → copied.places = places ∧
        failure = some (.invalidArgument ("destination has room for " ++ toString room ++
          " entries, " ++ toString view.size ++ " needed"))) ∧
      (start ≤ places.length → view.size ≤ room → failure = none ∧
        copied.places.length = places.length ∧
        (∀ place, place < start ∨ start + view.size ≤ place →
          copied.places[place]? = places[place]?) ∧
        (∀ call < view.size, ∃ entry, (view.cursor.after call).next.1 = some entry ∧
          copied.places[start + call]? = some entry) ∧
        (view.cursor.after view.size).next.1 = none ∧
        ∀ key value, view.get? key = some value ↔
          ∃! place, (start ≤ place ∧ place < start + view.size) ∧
            copied.places[place]? = some (key, value)) := by
  intro view copied room failure
  have wf := arises.wellFormed
  have count : view.entries.length = view.size := length_entries wf live
  have calls (call : Nat) : (view.cursor.after call).next.1 = view.entries[call]? := by
    rw [show view.entries = tree.listed dir "" from entries_eq wf live]
    exact next_after_cursor wf live call
  refine ⟨Checked.copyInto_eq wf live places start, ?late, ?narrow, ?fits⟩
  case late =>
    intro late
    have same : copied = ⟨places, some (.startPastEnd start places.length)⟩ :=
      copyInto_of_late late view
    exact ⟨congrArg Copied.places same,
      congrArg (fun copied => copied.misfit.map Misfit.failure) same⟩
  case narrow =>
    intro inside narrow
    have same : copied = ⟨places, some (.tooLittleRoom room view.size)⟩ :=
      copyInto_of_narrow view inside narrow
    exact ⟨congrArg Copied.places same,
      congrArg (fun copied => copied.misfit.map Misfit.failure) same⟩
  case fits =>
    intro inside fits
    have same : copied = ⟨places.take start ++
        (view.entries ++ places.drop (start + view.entries.length)), none⟩ :=
      copyInto_of_room wf live inside fits
    have enough : start + view.entries.length ≤ places.length := by
      rw [count]
      omega
    have seen (place : Nat) : copied.places[place]? =
        if start ≤ place ∧ place < start + view.size then view.entries[place - start]?
        else places[place]? := by
      rw [same, ← count]
      exact getElem?_spliced enough place
    refine ⟨congrArg (fun copied => copied.misfit.map Misfit.failure) same, ?length, ?outside,
      ?entries, ?finished, ?each⟩
    case length =>
      rw [same, List.length_append, List.length_append, List.length_take, List.length_drop]
      omega
    case outside =>
      intro place outside
      rw [seen, if_neg (by omega)]
    case entries =>
      intro call earlier
      have inList : call < view.entries.length := count ▸ earlier
      refine ⟨view.entries[call], (calls call).trans (List.getElem?_eq_getElem inList), ?_⟩
      rw [seen, if_pos (by omega), Nat.add_sub_cancel_left, List.getElem?_eq_getElem inList]
    case finished => exact (calls view.size).trans (List.getElem?_eq_none (Nat.le_of_eq count))
    case each =>
      intro key value
      have distinct : view.entries.Nodup := (nodup_keys_entries wf live).of_map Prod.fst
      calc view.get? key = some value
          ↔ (key, value) ∈ view.entries := (mem_entries_iff wf live key value).symm
        _ ↔ ∃! place, (start ≤ place ∧ place < start + view.entries.length) ∧
              view.entries[place - start]? = some (key, value) :=
          mem_iff_existsUnique distinct start (key, value)
        _ ↔ ∃! place, (start ≤ place ∧ place < start + view.size) ∧
              copied.places[place]? = some (key, value) := by
          rw [count]
          exact existsUnique_congr fun place => and_congr_right fun among => by
            rw [seen, if_pos among]

/-- One entry into the last of three places, a start at the end of the places and one far behind it,
and a directory without an entry, for which there is room at the end. -/
theorem copyInto_exact_boundaries :
    let commands : List (Command Nat) :=
      [.extend [("a.b.x", 1), ("a.x", 2), ("y", 3)], .inside ["a.b"] (.erase "x")]
    let tree := (Tree.empty.runAll commands).tree
    let view : View Nat := ⟨tree, ⟨1, 0⟩⟩
    let hollow : View Nat := ⟨tree, ⟨2, 0⟩⟩
    let places := [("", 7), ("", 8), ("", 9)]
    ((view.copyInto places 2).misfit.map Misfit.failure = none ∧
        (view.copyInto places 2).places[1]? = some ("", 8) ∧
        (view.copyInto places 2).places[2]? = some ("x", 2)) ∧
      ((view.copyInto places 3).places = places ∧
        (view.copyInto places 3).misfit.map Misfit.failure =
          some (.invalidArgument "destination has room for 0 entries, 1 needed")) ∧
      ((view.copyInto places 18446744073709551615).places = places ∧
        Checked.copyInto view places 18446744073709551615 =
          some (view.copyInto places 18446744073709551615)) ∧
      (hollow.copyInto places 3).misfit.map Misfit.failure = none := by
  intro commands tree view hollow places
  have arises : tree.Arises := Tree.Reachable.arises ⟨commands, rfl⟩
  have live : tree.IsLive ⟨1, 0⟩ := by decide +kernel
  have hollowLive : tree.IsLive ⟨2, 0⟩ := by decide +kernel
  have one : view.size = 1 := by decide +kernel
  have none : hollow.size = 0 := by decide +kernel
  obtain ⟨-, -, -, fits⟩ := copyInto_exact arises live places 2
  obtain ⟨good, -, others, copies, -⟩ := fits (by decide) (by rw [one]; decide)
  obtain ⟨entry, first, stands⟩ := copies 0 (by rw [one]; decide)
  have isEntry : (view.cursor.after 0).next.1 = some ("x", 2) := by decide +kernel
  obtain rfl := Option.some.inj (first.symm.trans isEntry)
  obtain ⟨-, -, narrow, -⟩ := copyInto_exact arises live places 3
  obtain ⟨same, said⟩ := narrow (by decide) (by rw [one]; decide)
  obtain ⟨checked, late, -⟩ := copyInto_exact arises live places 18446744073709551615
  obtain ⟨-, -, -, hollowFits⟩ := copyInto_exact arises hollowLive places 3
  refine ⟨⟨good, others 1 (.inl (by decide)), stands⟩, ⟨same, said.trans ?_⟩,
    ⟨(late (by decide)).1, checked⟩, (hollowFits (by decide) (by rw [none]; decide)).1⟩
  rw [one]
  decide +kernel

end View
end SymbolTree
