/-!
# Dotted names

A name is read as segments between separators. There is no escape: every separator ends a
segment, and an empty segment is a segment like any other.

* `join_segments`, `segments_join`: names and non-empty lists of separator-free segments are the
  same thing, read in two ways;
* `segments_dot`: a separator between two names appends their segments;
* `Key`: a name with its last segment apart;
* `within` puts a name into a scope, `withAlt` puts an alternative in front of a name's last
  segment. Both work on the text alone.
-/
namespace SymbolTree

/-- The character between two segments. -/
def separator : Char := '.'

/-- The text up to the first separator, and the texts behind each separator. One separator more
gives one text more, so there is always a first. -/
def cells : List Char → List Char × List (List Char)
  | [] => ([], [])
  | c :: rest =>
    let (first, others) := cells rest
    if c = separator then ([], first :: others) else (c :: first, others)

/-- The segments of a name, in order. -/
def segments (name : String) : List String :=
  let (first, others) := cells name.toList
  String.ofList first :: others.map String.ofList

/-- The name with the given segments. -/
def join (parts : List String) : String := ".".intercalate parts

theorem segments_ne_nil (name : String) : segments name ≠ [] := by
  simp [segments]

theorem cells_intercalate (text : List Char) :
    [separator].intercalate ((cells text).1 :: (cells text).2) = text := by
  induction text with
  | nil => rfl
  | cons c rest ih =>
    by_cases hc : c = separator
    · subst hc
      simpa [cells, List.intercalate_cons_cons] using ih
    · cases h : (cells rest).2 <;> simp_all [cells, List.intercalate_cons_cons]

theorem cells_free (text : List Char) :
    ∀ cell ∈ (cells text).1 :: (cells text).2, separator ∉ cell := by
  induction text with
  | nil => simp [cells]
  | cons c rest ih =>
    by_cases hc : c = separator
    · subst hc
      simpa [cells] using ih
    · simpa [cells, hc, eq_comm] using ih

theorem cells_dot (left right : List Char) :
    cells (left ++ separator :: right) =
      ((cells left).1, (cells left).2 ++ (cells right).1 :: (cells right).2) := by
  induction left with
  | nil => simp [cells]
  | cons c rest ih => by_cases hc : c = separator <;> simp [cells, ih, hc]

theorem cells_of_free (text : List Char) (free : separator ∉ text) : cells text = (text, []) := by
  induction text with
  | nil => rfl
  | cons c rest ih =>
    obtain ⟨hc, hrest⟩ := not_or.mp (mt List.mem_cons.mpr free)
    simp [cells, ih hrest, Ne.symm hc]

/-- A separator between two names appends their segments. -/
theorem segments_dot (left right : String) :
    segments (left ++ "." ++ right) = segments left ++ segments right := by
  have dot : (".".toList : List Char) = [separator] := rfl
  simp [segments, dot, cells_dot]

theorem segments_of_free (name : String) (free : separator ∉ name.toList) :
    segments name = [name] := by
  simp [segments, cells_of_free _ free]

theorem segments_free (name : String) : ∀ part ∈ segments name, separator ∉ part.toList := by
  intro part member
  have free := cells_free name.toList
  simp only [segments, List.mem_cons, List.mem_map] at member
  rcases member with rfl | ⟨cell, member, rfl⟩
  · simpa using free _ List.mem_cons_self
  · simpa using free _ (List.mem_cons_of_mem _ member)

@[simp] theorem join_singleton (part : String) : join [part] = part := by
  simp [join]

theorem join_cons (part next : String) (others : List String) :
    join (part :: next :: others) = part ++ "." ++ join (next :: others) := by
  simp [join, String.intercalate_cons_cons]

/-- Nothing of a name is lost in its segments. -/
theorem join_segments (name : String) : join (segments name) = name := by
  apply String.toList_inj.mp
  have dot : (".".toList : List Char) = [separator] := rfl
  simp [join, segments, dot, cells_intercalate, Function.comp_def]

/-- Every non-empty list of separator-free texts is the list of segments of one name. -/
theorem segments_join (parts : List String) (nonempty : parts ≠ [])
    (free : ∀ part ∈ parts, separator ∉ part.toList) : segments (join parts) = parts := by
  induction parts with
  | nil => exact absurd rfl nonempty
  | cons part others ih =>
    cases others with
    | nil => simpa using segments_of_free part (free part (by simp))
    | cons next others =>
      rw [join_cons, segments_dot, ih (by simp) (fun p hp => free p (List.mem_cons_of_mem _ hp)),
        segments_of_free part (free part (by simp))]
      rfl

/-- A name with its last segment apart. -/
structure Key where
  /-- The directories to walk through, outermost first. -/
  dirs : List String
  /-- The entry to look for in the last of them. -/
  leaf : String
deriving DecidableEq

namespace Key

def segments (key : Key) : List String := key.dirs ++ [key.leaf]

def parse (name : String) : Key :=
  let parts := SymbolTree.segments name
  ⟨parts.dropLast, parts.getLastD ""⟩

theorem segments_parse (name : String) : (parse name).segments = SymbolTree.segments name := by
  rw [← List.dropLast_concat_getLast (segments_ne_nil name)]
  simp [parse, segments, List.getLastD_eq_getLast?,
    List.getLast?_eq_some_getLast (segments_ne_nil name)]

end Key

/-- The name `name` inside `scope`. The empty scope qualifies nothing. -/
def within (scope name : String) : String :=
  if scope = "" then name else scope ++ "." ++ name

/-- An alternative as it stands inside a name: ended by a separator, which is added if it is not
there. The empty alternative is a lone separator, an empty segment. -/
def closed (alt : String) : String :=
  if alt.toList.getLast? = some separator then alt else alt ++ "."

/-- A text cut behind its last separator. Without a separator all of it is the second part. -/
def cutLast : List Char → List Char × List Char
  | [] => ([], [])
  | c :: rest =>
    let (dirs, leaf) := cutLast rest
    if dirs = [] ∧ c ≠ separator then ([], c :: leaf) else (c :: dirs, leaf)

/-- `name` with the alternative `alt` in front of its last segment. -/
def withAlt (name alt : String) : String :=
  let (dirs, leaf) := cutLast name.toList
  String.ofList dirs ++ closed alt ++ String.ofList leaf

end SymbolTree
