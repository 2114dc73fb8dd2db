import SymbolTree.Proofs.Arrangements
import SymbolTree.Proofs.Lifetimes
import SymbolTree.Proofs.Lookup

/-!
# What an insertion does

An insertion goes down as far as the directories are there. It makes the missing ones in the next
slots of the arena, each below the one before, and puts the entry into the last.

* `station`: the directories on the rest of the way;
* `Prolongs`: every slot of the arena after the way has been prolonged;
* `prolongs_ensureDirs`, `prolongs_insert`: what making the directories and putting in the entry do;
* `insert_exact`: all of this for every tree that arises, with what stays as it was.
-/
namespace SymbolTree

variable {V : Type}

/-- The directory with one entry more, or with another value for an entry. -/
def Slot.store (slot : Slot V) (leaf : String) (value : V) : Slot V :=
  { slot with leaves := slot.leaves.insert leaf value }

namespace Tree

variable {tree later : Tree V} {dir last : Handle} {segment : String} {missing : List String}
  {arrive : Slot V → Slot V}

/-! ## Going on through new slots -/

/-- The directories on a way that goes on from `last` through the next slots of the arena. -/
def station (tree : Tree V) (last : Handle) : (steps : Nat) → Handle
  | 0 => last
  | steps + 1 => ⟨tree.slots.size + steps, tree.generation⟩

/-- What a directory on the way comes to: it gets the next one under its segment, or at the end of
the way what arrives there. -/
def along (tree : Tree V) (last : Handle) (missing : List String) (arrive : Slot V → Slot V)
    (steps : Nat) (slot : Slot V) : Slot V :=
  match missing[steps]? with
  | some segment =>
    { slot with children := slot.children.insert segment (tree.station last (steps + 1)) }
  | none => arrive slot

/-- The later tree has one new directory for each of the `missing` segments, the first below `last`
and each below the one before. Nothing has changed but `last` and the new slots. -/
structure Prolongs (tree later : Tree V) (last : Handle) (missing : List String)
    (arrive : Slot V → Slot V) : Prop where
  generation : later.generation = tree.generation
  size : later.slots.size = tree.slots.size + missing.length
  start : later.slot last = tree.along last missing arrive 0 (tree.slot last)
  made : ∀ steps segment, missing[steps]? = some segment →
    later.slot (tree.station last (steps + 1)) =
      tree.along last missing arrive (steps + 1) (.fresh segment (some (tree.station last steps)))
  other : ∀ other, other.index < tree.slots.size → other.index ≠ last.index →
    later.slot other = tree.slot other

theorem station_attach (tree : Tree V) (last : Handle) (segment : String) (steps : Nat) :
    (tree.attach last segment).station tree.nextHandle steps = tree.station last (steps + 1) := by
  cases steps with
  | zero => rfl
  | succ steps =>
    simp only [station, size_attach, generation_attach, Handle.mk.injEq, and_true]
    omega

theorem along_attach (tree : Tree V) (last : Handle) (segment : String) (missing : List String)
    (arrive : Slot V → Slot V) (steps : Nat) (slot : Slot V) :
    (tree.attach last segment).along tree.nextHandle missing arrive steps slot =
      tree.along last (segment :: missing) arrive (steps + 1) slot := by
  simp only [along, station_attach, List.getElem?_cons_succ]

/-- A way that goes on from a new directory goes on from the one that holds it, by one more. -/
theorem Prolongs.of_attach (inside : last.index < tree.slots.size)
    (rest : (tree.attach last segment).Prolongs later tree.nextHandle missing arrive) :
    tree.Prolongs later last (segment :: missing) arrive := by
  have apart : last.index ≠ tree.nextHandle.index := Nat.ne_of_lt inside
  have still (index : Nat) (old : index < tree.slots.size) :
      index < (tree.attach last segment).slots.size := by
    rw [size_attach]
    omega
  refine ⟨rest.generation, ?size, ?start, ?made, ?other⟩
  case size =>
    rw [rest.size, size_attach, List.length_cons]
    omega
  case start =>
    rw [rest.other last (still _ inside) apart, slot_attach inside, if_pos rfl]
    rfl
  case made =>
    intro steps part next
    cases steps with
    | zero =>
      obtain rfl : segment = part := by simpa using next
      refine rest.start.trans ?_
      rw [slot_attach_next inside, along_attach]
      rfl
    | succ steps =>
      have made := rest.made steps part (by simpa using next)
      rw [along_attach, station_attach, station_attach] at made
      exact made
  case other =>
    intro other old ne
    have notNext := Nat.ne_of_lt old
    rw [rest.other other (still _ old) notNext, slot_attach inside, if_neg ne, if_neg notNext]

/-- Where the first segment is missing, all are, and one directory is made for each of them. A
change of the directory that is the answer is what arrives at the end of the way. -/
theorem prolongs_ensureDirs (inside : last.index < tree.slots.size)
    (vacant : ∀ segment, missing.head? = some segment → tree.child? last segment = none) :
    tree.Prolongs
        ((tree.ensureDirs last missing).tree.modify (tree.ensureDirs last missing).result arrive)
        last missing arrive ∧
      (tree.ensureDirs last missing).result = tree.station last missing.length ∧
      (tree.ensureDirs last missing).events = missing.mapIdx fun steps segment =>
        .created segment (tree.station last steps).index (tree.station last (steps + 1)).index := by
  induction missing generalizing tree last with
  | nil =>
    refine ⟨⟨rfl, size_modify _ _ _, slot_modify_self inside arrive, ?made, ?other⟩, rfl, rfl⟩
    case made =>
      intro steps segment next
      cases next
    case other =>
      intro other _ ne
      exact slot_modify_other ne arrive
  | cons segment missing ih =>
    have firstVacant := vacant segment rfl
    have nextInside : tree.nextHandle.index < (tree.attach last segment).slots.size :=
      (nextHandle_live inside segment).inside
    have nextVacant : ∀ part, missing.head? = some part →
        (tree.attach last segment).child? tree.nextHandle part = none := by
      intro part _
      rw [child?, slot_attach_next inside]
      rfl
    obtain ⟨rest, result, events⟩ := ih nextInside nextVacant
    simp only [ensureDirs, ensureChild_of_vacant firstVacant, Outcome.tree_andThen,
      Outcome.result_andThen, Outcome.events_andThen]
    refine ⟨.of_attach inside rest, result.trans (station_attach _ _ _ _), ?_⟩
    simp only [events, station_attach, List.mapIdx_cons]
    rfl

/-! ## An entry that arrives -/

namespace Prolongs

variable {leaf : String} {value : V}

/-- What belongs neither to the subdirectories nor to the entries stays on the way. -/
theorem along_keeps {α : Type} (field : Slot V → α)
    (apart : ∀ slot children leaves, field { slot with children, leaves } = field slot)
    (steps : Nat) (slot : Slot V) :
    field (tree.along last missing (·.store leaf value) steps slot) = field slot := by
  unfold along
  split
  · exact apart slot _ slot.leaves
  · exact apart slot slot.children _

section
variable (prolongs : tree.Prolongs later last missing (·.store leaf value))
include prolongs

theorem station_live {steps : Nat} (bound : steps < missing.length) :
    later.IsLive (tree.station last (steps + 1)) := by
  refine ⟨?_, prolongs.generation.symm, ?_⟩
  · rw [prolongs.size]
    exact Nat.add_lt_add_left bound _
  · rw [prolongs.made steps _ (List.getElem?_eq_getElem bound)]
    exact along_keeps Slot.detached (fun _ _ _ => rfl) _ _

theorem alts_old {other : Handle} (old : other.index < tree.slots.size) :
    (later.slot other).alts = (tree.slot other).alts := by
  by_cases here : other.index = last.index
  · rw [slot_congr here, prolongs.start, slot_congr here]
    exact along_keeps Slot.alts (fun _ _ _ => rfl) _ _
  · rw [prolongs.other other old here]

/-- At the end of the way the entry is put to the others, of which there are none in a new
directory. -/
theorem leaves_target :
    (later.slot (tree.station last missing.length)).leaves =
      (tree.slot (tree.station last missing.length)).leaves.insert leaf value := by
  cases way : missing.length with
  | zero =>
    obtain rfl := List.length_eq_zero_iff.mp way
    exact congrArg Slot.leaves prolongs.start
  | succ steps =>
    have bound : steps < missing.length := by omega
    have atEnd : missing[steps + 1]? = none := List.getElem?_eq_none (Nat.le_of_eq way)
    have new : tree.slots.size ≤ (tree.station last (steps + 1)).index := Nat.le_add_right _ _
    rw [prolongs.made steps _ (List.getElem?_eq_getElem bound), slot_eq_outside new]
    simp only [along, atEnd]
    rfl

theorem leaves_other (live : tree.IsLive last) {other : Handle} (otherLive : tree.IsLive other)
    (ne : other ≠ tree.station last missing.length) :
    (later.slot other).leaves = (tree.slot other).leaves := by
  by_cases here : other.index = last.index
  · obtain rfl := live.eq_of_index otherLive.current here.symm
    cases missing with
    | nil => exact absurd rfl ne
    | cons segment missing =>
      rw [prolongs.start]
      rfl
  · rw [prolongs.other other otherLive.inside here]

end
end Prolongs

/-! ## Inserting -/

/-- An insertion prolongs the way by the directories that are missing, and the entry arrives at its
end. -/
theorem prolongs_insert (wf : tree.WellFormed) (live : tree.IsLive dir) {name : String}
    {count : Nat} (furthest : tree.IsFurthest dir (Key.parse name).dirs count last) (value : V) :
    tree.Prolongs ((View.mk tree dir).insert name value).tree last
        ((Key.parse name).dirs.drop count) (·.store (Key.parse name).leaf value) ∧
      ((View.mk tree dir).insert name value).tree.follow dir (Key.parse name).dirs =
        some (tree.station last ((Key.parse name).dirs.drop count).length) ∧
      ((View.mk tree dir).insert name value).events =
        ((Key.parse name).dirs.drop count).mapIdx fun steps segment =>
          .created segment (tree.station last steps).index
            (tree.station last (steps + 1)).index := by
  have inside := (furthest.last_live wf live).inside
  obtain ⟨prolongs, result, events⟩ := prolongs_ensureDirs inside fun _ => furthest.vacant
  -- The directories that are there do not have to be made.
  have onward := ensureDirs_append furthest.reach ((Key.parse name).dirs.drop count)
  rw [List.take_append_drop] at onward
  have way := wf.follow_ensureDirs live (Key.free_parse name).1
  rw [onward, result] at way
  have same (made : Tree V) (target : Handle) :=
    WellFormed.sameLinks_leaves made target fun leaves => leaves.insert (Key.parse name).leaf value
  simp only [View.insert, onward, Outcome.tree_andThen, Outcome.events_andThen,
    Outcome.tree_pure, Outcome.events_pure, List.append_nil]
  exact ⟨prolongs, ((same _ _).follow_eq _ _).trans way, events⟩

/-- In a tree that some commands have built, its tables in any order, an insertion through a live
directory follows the directories of the name as far as they are there. For each one that is missing
it makes one in the next slot of the arena, below the one before, and reports it. Each of these is
live and has no subdirectory but the next and no entry; the first is new under its segment. The last
directory on the way gets the entry. No other slot of the arena is touched: what was live is live,
under the same path and with the same alternatives, and but for the last directory on the way with
the same entries. The answer is what a look-up found before; now it finds the value. -/
theorem insert_exact [BEq V] (arises : tree.Arises) (live : tree.IsLive dir) (name : String)
    (value : V) :
    let view : View V := ⟨tree, dir⟩
    let key := Key.parse name
    let outcome := view.insert name value
    segments name = key.dirs ++ [key.leaf] ∧
      ∃ count last, tree.IsFurthest dir key.dirs count last ∧
        let missing := key.dirs.drop count
        let target := tree.station last missing.length
        tree.Prolongs outcome.tree last missing (·.store key.leaf value) ∧
        (∀ segment, missing.head? = some segment → tree.child? last segment = none) ∧
        (outcome.events = missing.mapIdx fun steps segment =>
          .created segment (tree.station last steps).index
            (tree.station last (steps + 1)).index) ∧
        (∀ steps < missing.length, outcome.tree.IsLive (tree.station last (steps + 1))) ∧
        outcome.tree.follow dir key.dirs = some target ∧
        (outcome.tree.slot target).leaves = (tree.slot target).leaves.insert key.leaf value ∧
        (∀ other, tree.IsLive other →
          outcome.tree.IsLive other ∧
          (View.mk outcome.tree other).path = (View.mk tree other).path ∧
          (outcome.tree.slot other).alts = (tree.slot other).alts ∧
          (other ≠ target → (outcome.tree.slot other).leaves = (tree.slot other).leaves)) ∧
        outcome.result = view.get? name ∧
        (View.mk outcome.tree dir).get? name = some value := by
  intro view key outcome
  obtain ⟨model, agrees⟩ := arises.exists_agrees
  have wf := agrees.wellFormed
  obtain ⟨path, reach⟩ := wf.exists_way live
  obtain ⟨after, former⟩ := agrees.insert reach name value
  have more := wf.extends_insert live name value
  obtain ⟨count, last, furthest⟩ := tree.exists_isFurthest dir key.dirs
  have lastLive := furthest.last_live wf live
  obtain ⟨prolongs, way, events⟩ := prolongs_insert wf live furthest value
  refine ⟨(Key.segments_parse name).symm, count, last, furthest, prolongs,
    fun _ => furthest.vacant, events, fun _ bound => prolongs.station_live bound,
    way, prolongs.leaves_target, ?others, former.trans (agrees.get? reach name).symm, ?found⟩
  case others =>
    intro other otherLive
    exact ⟨more.live otherLive, (more.staysPut otherLive).path_eq wf after.wellFormed otherLive,
      prolongs.alts_old otherLive.inside, prolongs.leaves_other lastLive otherLive⟩
  case found =>
    rw [after.get? ((more.staysPut live).way path reach) name]
    simp only [Model.insert, Table.get?_insert, if_true]

/-- Two directories without a name are missing below one that is there. -/
theorem insert_exact_unnamed :
    let tree : Tree Nat := (Tree.empty.runAll [.extend [("a.a.x", 1)]]).tree
    let outcome := (View.mk tree ⟨1, 0⟩).insert "a...a" 2
    tree.IsLive ⟨1, 0⟩ ∧ tree.IsFurthest ⟨1, 0⟩ ["a", "", ""] 1 ⟨2, 0⟩ ∧
      outcome.events = [.created "" 2 3, .created "" 3 4] ∧
      outcome.tree.IsLive ⟨4, 0⟩ ∧ (outcome.tree.slot ⟨4, 0⟩).parent = some ⟨3, 0⟩ ∧
      outcome.result = none ∧ (View.mk outcome.tree ⟨1, 0⟩).get? "a...a" = some 2 := by
  intro tree outcome
  have live : tree.IsLive ⟨1, 0⟩ := by decide +kernel
  have known : tree.IsFurthest ⟨1, 0⟩ ["a", "", ""] 1 ⟨2, 0⟩ :=
    ⟨by decide, by decide +kernel, by decide +kernel⟩
  have arises : tree.Arises := Reachable.arises ⟨_, rfl⟩
  obtain ⟨-, count, last, furthest, prolongs, -, events, made, -, -, -, former, found⟩ :=
    insert_exact arises live "a...a" 2
  obtain ⟨rfl, rfl⟩ := known.unique furthest
  have parent := congrArg Slot.parent (prolongs.made 1 "" (by decide +kernel))
  exact ⟨live, known, events.trans (by decide +kernel), made 1 (by decide +kernel), parent,
    former.trans (by decide +kernel), found⟩

end Tree
end SymbolTree
