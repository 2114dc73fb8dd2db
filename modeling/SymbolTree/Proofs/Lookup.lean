import SymbolTree.Proofs.Prefixed

/-!
# What a look-up misses

A name is looked up along its directories as far as they are there. What is missing first is what a
failed look-up tells.

* `IsFurthest`: how far a way goes, and `vacant`: what stops it;
* `lookup_eq`: a look-up stops there, with the segment that it stops at;
* `erase_of_absent`: taking out what is not there is doing nothing.
-/
namespace SymbolTree

variable {V : Type}

/-! ## How far a way goes -/

namespace Tree

variable {tree : Tree V} {dir start last : Handle} {path : List String} {count : Nat}

/-- Of the segments of `path`, `count` can be followed from `start`, and they lead to `last`; more
of them cannot. -/
structure IsFurthest (tree : Tree V) (start : Handle) (path : List String) (count : Nat)
    (last : Handle) : Prop where
  inside : count ≤ path.length
  reach : tree.follow start (path.take count) = some last
  longest : ∀ more, more ≤ path.length → (tree.follow start (path.take more)).isSome → more ≤ count

theorem exists_isFurthest (tree : Tree V) (start : Handle) (path : List String) :
    ∃ count last, tree.IsFurthest start path count last := by
  induction path generalizing start with
  | nil => exact ⟨0, start, Nat.le_refl 0, rfl, fun more inside _ => inside⟩
  | cons segment path ih =>
    cases link : tree.child? start segment with
    | none =>
      refine ⟨0, start, Nat.zero_le _, rfl, fun more _ reached => ?_⟩
      cases more with
      | zero => exact Nat.le_refl 0
      | succ more => simp [link] at reached
    | some child =>
      obtain ⟨count, last, inside, reach, longest⟩ := ih child
      refine ⟨count + 1, last, Nat.succ_le_succ inside, by simpa [link] using reach, ?_⟩
      intro more insideMore reached
      cases more with
      | zero => exact Nat.zero_le _
      | succ more =>
        have reached' : (tree.follow child (path.take more)).isSome := by
          simpa [link] using reached
        exact Nat.succ_le_succ (longest more (Nat.le_of_succ_le_succ insideMore) reached')

namespace IsFurthest

theorem unique {count' : Nat} {last' : Handle} (furthest : tree.IsFurthest start path count last)
    (other : tree.IsFurthest start path count' last') : count' = count ∧ last' = last := by
  have reached : (tree.follow start (path.take count)).isSome := by simp [furthest.reach]
  have reached' : (tree.follow start (path.take count')).isSome := by simp [other.reach]
  have same : count' = count :=
    Nat.le_antisymm (furthest.longest count' other.inside reached')
      (other.longest count furthest.inside reached)
  refine ⟨same, Option.some.inj ?_⟩
  rw [← other.reach, ← furthest.reach, same]

/-- The next directory on the way is not there. -/
theorem vacant (furthest : tree.IsFurthest start path count last) {segment : String}
    (next : (path.drop count).head? = some segment) : tree.child? last segment = none := by
  rw [List.head?_drop] at next
  cases link : tree.child? last segment with
  | none => rfl
  | some child =>
    have onward : tree.follow start (path.take (count + 1)) = some child := by
      rw [List.take_add_one, next]
      exact follow_concat_eq_some.mpr ⟨last, furthest.reach, link⟩
    have inside : count < path.length := (List.getElem?_eq_some_iff.mp next).1
    have further := furthest.longest (count + 1) inside (by simp [onward])
    omega

theorem last_live (furthest : tree.IsFurthest start path count last) (wf : tree.WellFormed)
    (live : tree.IsLive start) : tree.IsLive last :=
  wf.follow_live live furthest.reach

/-- A look-up goes as far as the way does. It is the next segment that is missing, or the entry. -/
theorem lookup_eq (furthest : tree.IsFurthest start path count last) (leaf : String) :
    tree.lookup start leaf path =
      match path[count]? with
      | some segment => .error segment
      | none =>
        match (tree.slot last).leaves.get? leaf with
        | some value => .ok value
        | none => .error leaf := by
  have onward := lookup_append furthest.reach leaf (path.drop count)
  rw [List.take_append_drop] at onward
  rw [onward, ← List.head?_drop]
  cases rest : path.drop count with
  | nil => rfl
  | cons segment rest' =>
    have missing := furthest.vacant (congrArg List.head? rest)
    simp only [lookup, missing, List.head?_cons]

end IsFurthest

/-! ## Demanding a value -/

theorem demand_eq_error_iff (tree : Tree V) (name message : String) :
    tree.demand name = .error message ↔
      ∃ failure, tree.root.get name = .error failure ∧ message = failure.message := by
  unfold demand
  cases tree.root.get name <;> simp [Except.mapError, eq_comm]

theorem demand_eq_ok_iff (tree : Tree V) (name : String) (value : V) :
    tree.demand name = .ok value ↔ tree.root.get name = .ok value := by
  unfold demand
  cases tree.root.get name <;> simp [Except.mapError]

end Tree

theorem Table.erase_of_absent {α : Type} {table : Table α} {key : String}
    (absent : table.get? key = none) : table.erase key = table := by
  ext1
  refine List.filter_eq_self.mpr ?_
  rintro ⟨other, value⟩ member
  have found := (table.get?_eq_some_iff other value).mpr member
  have apart : other ≠ key := by
    rintro rfl
    simp [absent] at found
  simpa using apart

/-! ## Looking up and taking out -/

namespace View

theorem get_of_isFurthest (view : View V) (name : String) {count : Nat} {last : Handle}
    (furthest : view.tree.IsFurthest view.handle (Key.parse name).dirs count last) :
    view.get name =
      match (Key.parse name).dirs[count]? with
      | some segment => .error (.keyNotFound name segment)
      | none =>
        match (view.tree.slot last).leaves.get? (Key.parse name).leaf with
        | some value => .ok value
        | none => .error (.keyNotFound name (Key.parse name).leaf) := by
  simp only [get, furthest.lookup_eq]
  cases (Key.parse name).dirs[count]? with
  | some segment => rfl
  | none => cases (view.tree.slot last).leaves.get? (Key.parse name).leaf <;> rfl

theorem get_eq_error_iff (view : View V) (name : String) :
    (∃ failure, view.get name = .error failure) ↔ view.get? name = none := by
  rw [← toOption_get]
  cases view.get name <;> simp [Except.toOption]

/-- What is taken out is what a look-up finds. -/
theorem result_erase_eq_get? (view : View V) (name : String) :
    (view.erase name).result = view.get? name := by
  simp only [erase, get?]
  cases view.tree.follow view.handle (Key.parse name).dirs <;> rfl

/-- Taking out what is not there is doing nothing, wherever the look-up ends. -/
theorem erase_of_absent (view : View V) {name : String} (absent : view.get? name = none) :
    view.erase name = .pure none view.tree := by
  cases reached : view.tree.follow view.handle (Key.parse name).dirs with
  | none => simp only [erase, reached]
  | some holder =>
    have noLeaf : (view.tree.slot holder).leaves.get? (Key.parse name).leaf = none := by
      simpa [get?_eq, reached] using absent
    simp only [erase, reached, noLeaf]
    congr 1
    exact Tree.modify_eq_self (by rw [Table.erase_of_absent noLeaf])

/-- Follow the directories of a name as far as they are there. If one is missing, the look-up fails
with its segment; if none is, it gives the entry of the last directory, or fails with the last
segment, no matter whether that one has a subdirectory under it. The failure carries the name as it
was given. All other ways to ask have the same answer: the look-up without a reason, the test for
presence, the demand at the root, which fails with the message of the failure, and taking the entry
out, which changes nothing at all if there is none. -/
theorem get_first_missing (view : View V) (name : String) :
    let key := Key.parse name
    segments name = key.dirs ++ [key.leaf] ∧
      (∃ count last, view.tree.IsFurthest view.handle key.dirs count last ∧
        view.get name =
          match key.dirs[count]? with
          | some segment => .error (.keyNotFound name segment)
          | none =>
            match (view.tree.slot last).leaves.get? key.leaf with
            | some value => .ok value
            | none => .error (.keyNotFound name key.leaf)) ∧
      (∀ value, view.get? name = some value ↔ view.get name = .ok value) ∧
      (view.contains name = true ↔ ∃ value, view.get name = .ok value) ∧
      (∀ message, view.tree.demand name = .error message ↔
        ∃ failure, view.tree.root.get name = .error failure ∧ message = failure.message) ∧
      (∀ value, view.tree.demand name = .ok value ↔ view.tree.root.get name = .ok value) ∧
      (∀ value, (view.erase name).result = some value ↔ view.get name = .ok value) ∧
      ((∃ failure, view.get name = .error failure) → view.erase name = .pure none view.tree) := by
  intro key
  obtain ⟨count, last, furthest⟩ := view.tree.exists_isFurthest view.handle key.dirs
  refine ⟨(Key.segments_parse name).symm,
    ⟨count, last, furthest, view.get_of_isFurthest name furthest⟩,
    fun value => (view.get_eq_ok_iff name value).symm, ?contains,
    view.tree.demand_eq_error_iff name, view.tree.demand_eq_ok_iff name, ?taken, ?untouched⟩
  case contains =>
    simp only [contains, Option.isSome_iff_exists, view.get_eq_ok_iff name]
  case taken =>
    intro value
    rw [view.result_erase_eq_get? name, view.get_eq_ok_iff name]
  case untouched =>
    intro failed
    exact view.erase_of_absent ((view.get_eq_error_iff name).mp failed)

/-- A subdirectory is no entry. -/
example : (Tree.ofList [("System.String", 3)]).tree.root.get "System" =
    .error (.keyNotFound "System" "System") := by decide +kernel

end View
end SymbolTree
