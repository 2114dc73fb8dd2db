import SymbolTree.Model

/-!
# Names below a directory

A name consists of the path to a directory and one last segment.

* `parse_dot`, `parse_of_free`: the key of a dotted name and of a single segment;
* `dotted_induction`: every name is a segment, or a segment in front of a shorter name;
* `withAlt_dot`: an alternative in a name with something in front;
* `parse_whole`, `whole_eq_iff`: a name inside a directory, taken from the root, and the only way in
  which a name can be one;
* `isUnder_iff`: the text of a name tells whether it lies below a directory.
-/
namespace SymbolTree

/-- No separator stands in any of the segments. -/
def Free (path : List String) : Prop := ∀ segment ∈ path, separator ∉ segment.toList

theorem Free.nil : Free [] := by simp [Free]

theorem Free.cons {segment : String} {path : List String} (head : separator ∉ segment.toList)
    (tail : Free path) : Free (segment :: path) := by
  simpa [Free] using ⟨head, tail⟩

theorem Free.head {segment : String} {path : List String} (free : Free (segment :: path)) :
    separator ∉ segment.toList :=
  free segment List.mem_cons_self

theorem Free.tail {segment : String} {path : List String} (free : Free (segment :: path)) :
    Free path :=
  fun part member => free part (List.mem_cons_of_mem _ member)

theorem Free.append {path more : List String} (h : Free path) (h' : Free more) :
    Free (path ++ more) := by
  intro segment member
  rcases List.mem_append.mp member with member | member
  · exact h segment member
  · exact h' segment member

theorem join_append (path more : List String) (h : path ≠ []) (h' : more ≠ []) :
    join (path ++ more) = join path ++ "." ++ join more := by
  induction path with
  | nil => exact absurd rfl h
  | cons segment path ih =>
    cases path with
    | nil =>
      obtain ⟨next, others, rfl⟩ := List.exists_cons_of_ne_nil h'
      simp [join_cons]
    | cons next path =>
      simp only [List.cons_append] at ih ⊢
      rw [join_cons, join_cons, ih (by simp)]
      simp only [String.append_assoc]

namespace Key

theorem parse_eq_iff (name : String) (key : Key) :
    parse name = key ↔ SymbolTree.segments name = key.segments := by
  constructor
  · rintro rfl
    exact (segments_parse name).symm
  · intro h
    simp [parse, h, segments]

theorem free_parse (name : String) :
    Free (parse name).dirs ∧ separator ∉ (parse name).leaf.toList := by
  have free := segments_free name
  rw [← segments_parse] at free
  exact ⟨fun part h => free part (by simp [segments, h]), free _ (by simp [segments])⟩

/-- The segments in front of a separator are directories. -/
theorem parse_dot (left right : String) :
    parse (left ++ "." ++ right) =
      ⟨SymbolTree.segments left ++ (parse right).dirs, (parse right).leaf⟩ := by
  rw [parse_eq_iff, segments_dot, ← segments_parse right]
  simp [segments]

theorem parse_of_free (name : String) (free : separator ∉ name.toList) : parse name = ⟨[], name⟩ := by
  rw [parse_eq_iff, segments_of_free name free]
  rfl

theorem parse_inj {name other : String} (h : parse name = parse other) : name = other := by
  rw [← join_segments name, ← join_segments other, ← segments_parse, ← segments_parse, h]

theorem parse_join (dirs : List String) (free : Free dirs) (leaf : String)
    (leafFree : separator ∉ leaf.toList) : parse (join (dirs ++ [leaf])) = ⟨dirs, leaf⟩ := by
  have allFree : Free (dirs ++ [leaf]) := free.append (Free.nil.cons leafFree)
  rw [parse_eq_iff, segments_join _ (by simp) allFree]
  rfl

theorem join_parse (name : String) : join ((parse name).dirs ++ [(parse name).leaf]) = name := by
  have h := join_segments name
  rwa [← segments_parse] at h

/-- The key, taken from the root, of a name in the directory at `path`. -/
def inside (path : List String) (name : String) : Key :=
  ⟨path ++ (parse name).dirs, (parse name).leaf⟩

end Key

/-- A name is one segment, or a segment and a separator in front of a name. -/
theorem dotted_induction {P : String → Prop} (leaf : ∀ segment, separator ∉ segment.toList → P segment)
    (dot : ∀ segment name, separator ∉ segment.toList → P name → P (segment ++ "." ++ name))
    (name : String) : P name := by
  have all (parts : List String) (nonempty : parts ≠ []) (free : Free parts) : P (join parts) := by
    induction parts with
    | nil => exact absurd rfl nonempty
    | cons part others ih =>
      have headFree := free.head
      cases others with
      | nil => simpa using leaf part headFree
      | cons next others =>
        rw [join_cons]
        exact dot _ _ headFree (ih (by simp) free.tail)
  simpa [join_segments] using all (segments name) (segments_ne_nil name) (segments_free name)

theorem dotted_inj {segment other name more : String} (free : separator ∉ segment.toList)
    (free' : separator ∉ other.toList) (h : segment ++ "." ++ name = other ++ "." ++ more) :
    segment = other ∧ name = more := by
  have same := congrArg segments h
  rw [segments_dot, segments_dot, segments_of_free _ free, segments_of_free _ free'] at same
  simp only [List.cons_append, List.nil_append, List.cons.injEq] at same
  refine ⟨same.1, ?_⟩
  rw [← join_segments name, ← join_segments more, same.2]

theorem dotted_not_free (left right : String) : separator ∈ (left ++ "." ++ right).toList := by
  have dot : (".".toList : List Char) = [separator] := rfl
  simp [dot]

/-! ## Cutting behind a dot -/

/-- What stands in front of a separator is not looked at for the cut. -/
theorem cutLast_dot (left right : List Char) :
    cutLast (left ++ separator :: right) =
      (left ++ separator :: (cutLast right).1, (cutLast right).2) := by
  induction left with
  | nil => simp [cutLast]
  | cons c left ih => simp [cutLast, ih]

/-- An alternative comes in behind whatever stands in front of a name. -/
theorem withAlt_dot (scope name alt : String) :
    withAlt (scope ++ "." ++ name) alt = scope ++ "." ++ withAlt name alt := by
  have dot : (".".toList : List Char) = [separator] := rfl
  apply String.toList_inj.mp
  simp [withAlt, dot, cutLast_dot]

/-! ## Names in a directory -/

namespace Model

theorem parse_whole (path : List String) (free : Free path) (name : String) :
    Key.parse (whole path name) = Key.inside path name := by
  cases path with
  | nil => simp [whole, Key.inside]
  | cons segment path =>
    rw [whole, join_append _ _ (by simp) (by simp), join_singleton, Key.parse_dot,
      segments_join _ (by simp) free]
    rfl

/-- A name taken from the root is one inside the directory at `path` if its key says so. -/
theorem whole_eq_iff (path : List String) (free : Free path) (name other : String) :
    other = whole path name ↔ Key.parse other = Key.inside path name := by
  constructor
  · rintro rfl
    exact parse_whole path free name
  · intro h
    exact Key.parse_inj (h.trans (parse_whole path free name).symm)

/-- The names inside a directory are those whose key goes through it. -/
theorem exists_whole_iff (path : List String) (free : Free path) (other : String) :
    (∃ name, other = whole path name) ↔ path <+: (Key.parse other).dirs := by
  constructor
  · rintro ⟨name, rfl⟩
    rw [parse_whole path free]
    exact List.prefix_append _ _
  · rintro ⟨rest, h⟩
    obtain ⟨dirsFree, leafFree⟩ := Key.free_parse other
    have restFree : Free rest := fun part member =>
      dirsFree part (h ▸ List.mem_append_right path member)
    refine ⟨join (rest ++ [(Key.parse other).leaf]), ?_⟩
    rw [whole_eq_iff path free, Key.inside, Key.parse_join rest restFree _ leafFree, h]

theorem isUnder_iff (path : List String) (free : Free path) (name : String) :
    isUnder path name = true ↔ path <+: (Key.parse name).dirs := by
  cases path with
  | nil => simp [isUnder]
  | cons segment path =>
    simp only [isUnder, List.isEmpty_cons, Bool.false_or, List.isPrefixOf_iff_prefix]
    constructor
    · rintro ⟨rest, h⟩
      have named : name = join (segment :: path) ++ "." ++ String.ofList rest := by
        apply String.toList_inj.mp
        simpa using h.symm
      rw [named, Key.parse_dot, segments_join _ (by simp) free]
      exact List.prefix_append _ _
    · rintro ⟨rest, h⟩
      have named := Key.join_parse name
      rw [← h, List.append_assoc, join_append _ _ (by simp) (by simp)] at named
      rw [← named]
      simp only [String.toList_append]
      exact List.prefix_append _ _

theorem isBelow_iff (top path : List String) :
    isBelow top path = true ↔ top <+: path ∧ path ≠ top := by
  simp only [isBelow, Bool.and_eq_true, List.isPrefixOf_iff_prefix, decide_eq_true_eq]
  constructor
  · rintro ⟨h, lt⟩
    exact ⟨h, by rintro rfl; omega⟩
  · rintro ⟨h, ne⟩
    refine ⟨h, Nat.lt_of_le_of_ne h.length_le fun same => ne (h.eq_of_length same).symm⟩

end Model
end SymbolTree
