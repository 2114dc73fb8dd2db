import Mathlib.Data.Set.Function
import SymbolTree.Key.Splitting
import SymbolTree.Proofs.Names

/-!
# Segments

A name and the list of its segments are the same thing. What the operations on names do to the text
is said here of the segments.

* `closed_eq_stem`: an alternative inside a name is its stem and a separator;
* `segments_within`, `segments_withAlt`: scopes and alternatives add segments;
* `segments_bijOn`: the correspondence, and both operations under it.
-/
namespace SymbolTree

/-- An alternative without the separator at its end, if there is one; of several it loses one. -/
def stem (alt : String) : String :=
  if alt.toList.getLast? = some separator then String.ofList alt.toList.dropLast else alt

theorem closed_eq_stem (alt : String) : closed alt = stem alt ++ "." := by
  have dot : (".".toList : List Char) = [separator] := rfl
  unfold closed stem
  split
  · rename_i isClosed
    obtain ⟨front, text⟩ := List.getLast?_eq_some_iff.mp isClosed
    apply String.toList_inj.mp
    rw [text, String.toList_append, String.toList_ofList, List.dropLast_concat, dot]
  · rfl

/-- A scope puts its segments in front of those of a name, and the empty scope puts none. -/
theorem segments_within (scope name : String) :
    segments (within scope name) =
      if scope = "" then segments name else segments scope ++ segments name := by
  unfold within
  split
  · rfl
  · exact segments_dot scope name

theorem cutLast_of_free {text : List Char} (free : separator ∉ text) : cutLast text = ([], text) := by
  induction text with
  | nil => rfl
  | cons c rest ih =>
    obtain ⟨hc, restFree⟩ := not_or.mp (mt List.mem_cons.mpr free)
    simp [cutLast, ih restFree, Ne.symm hc]

/-- An alternative stands in front of a name that is one segment. -/
theorem withAlt_of_free {name : String} (free : separator ∉ name.toList) (alt : String) :
    withAlt name alt = stem alt ++ "." ++ name := by
  rw [withAlt, cutLast_of_free free, closed_eq_stem]
  simp

/-- An alternative puts the segments of its stem between the directories of a name and its leaf. -/
theorem segments_withAlt (name alt : String) :
    segments (withAlt name alt) =
      (Key.parse name).dirs ++ segments (stem alt) ++ [(Key.parse name).leaf] := by
  refine dotted_induction (P := fun name => segments (withAlt name alt) =
    (Key.parse name).dirs ++ segments (stem alt) ++ [(Key.parse name).leaf]) ?leaf ?dot name
  case leaf =>
    intro segment free
    rw [withAlt_of_free free, segments_dot, segments_of_free segment free,
      Key.parse_of_free segment free]
    rfl
  case dot =>
    intro segment name _ ih
    rw [withAlt_dot, segments_dot, ih, Key.parse_dot]
    simp only [List.append_assoc]

/-- Of the separators behind a stem one is lost, and an empty leaf is a segment. -/
example : segments (withAlt "A." "B..") = ["A", "B", "", ""] := by decide +kernel

/-- The last segment is the leaf, and the directories are all the others. -/
theorem leaf_parse (name : String) :
    (Key.parse name).leaf = (segments name).getLast (segments_ne_nil name) := by
  simp only [← Key.segments_parse name, Key.segments, List.getLast_concat]

/-- Splitting a name at its first separator, then the rest at its first one, and so on to the last
rest, gives a non-empty list of texts without a separator; joined again they are the name. In this
way names and such lists correspond one to one. A scope that is not empty puts its segments in front
of those of a name; an alternative puts the segments of its stem in front of the last one; and so an
alternative comes in behind whatever stands in front of a name, be it only a separator. -/
theorem segments_bijOn :
    (∀ name, splits name = segments name) ∧
      (∀ name, segments name ≠ [] ∧ Free (segments name) ∧ join (segments name) = name) ∧
      Set.BijOn segments Set.univ {parts | parts ≠ [] ∧ Free parts} ∧
      Set.InvOn join segments Set.univ {parts | parts ≠ [] ∧ Free parts} ∧
      (∀ scope name, segments (within scope name) =
        if scope = "" then segments name else segments scope ++ segments name) ∧
      (∀ name alt, segments (withAlt name alt) =
        (segments name).dropLast ++ segments (stem alt) ++
          [(segments name).getLast (segments_ne_nil name)]) ∧
      ∀ scope name alt, withAlt (scope ++ "." ++ name) alt = scope ++ "." ++ withAlt name alt := by
  have inverse : Set.InvOn join segments Set.univ {parts | parts ≠ [] ∧ Free parts} :=
    ⟨fun name _ => join_segments name, fun parts list => segments_join parts list.1 list.2⟩
  have valid : Set.MapsTo segments Set.univ {parts | parts ≠ [] ∧ Free parts} :=
    fun name _ => ⟨segments_ne_nil name, segments_free name⟩
  refine ⟨splits_eq_segments, ?_, inverse.bijOn valid (Set.mapsTo_univ _ _), inverse,
    segments_within, ?_, withAlt_dot⟩
  · exact fun name => ⟨segments_ne_nil name, segments_free name, join_segments name⟩
  · intro name alt
    rw [segments_withAlt, leaf_parse]
    rfl

end SymbolTree
