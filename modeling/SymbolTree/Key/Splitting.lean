import SymbolTree.Key

/-!
# Splitting names

The segments of a name as a walk finds them: what stands in front of the first separator, and then
the segments of the rest. A rest without a separator is the last segment.

* `splitFirst?_eq_some_iff`, `splitFirst?_eq_none_iff`: what one split gives;
* `splits_eq_segments`: the splits, one after the other, give the segments.
-/
namespace SymbolTree

/-- A text in two at its first separator, if there is one. -/
def cutFirst? : List Char → Option (List Char × List Char)
  | [] => none
  | c :: rest =>
    if c = separator then some ([], rest)
    else (cutFirst? rest).map fun cut => (c :: cut.1, cut.2)

/-- A name in two at its first separator, if there is one. -/
def splitFirst? (name : String) : Option (String × String) :=
  (cutFirst? name.toList).map fun cut => (String.ofList cut.1, String.ofList cut.2)

theorem cutFirst?_eq_none_iff {text : List Char} : cutFirst? text = none ↔ separator ∉ text := by
  induction text with
  | nil => simp [cutFirst?]
  | cons c rest ih =>
    by_cases hc : c = separator
    · simp [cutFirst?, hc]
    · simp [cutFirst?, hc, Ne.symm hc, ih]

theorem cutFirst?_dot {head : List Char} (free : separator ∉ head) (rest : List Char) :
    cutFirst? (head ++ separator :: rest) = some (head, rest) := by
  induction head with
  | nil => simp [cutFirst?]
  | cons c head ih =>
    obtain ⟨hc, tailFree⟩ := not_or.mp (mt List.mem_cons.mpr free)
    simp [cutFirst?, Ne.symm hc, ih tailFree]

theorem cutFirst?_eq_some_iff {text head rest : List Char} :
    cutFirst? text = some (head, rest) ↔ text = head ++ separator :: rest ∧ separator ∉ head := by
  constructor
  · intro cut
    have dotted : separator ∈ text := by
      refine Classical.not_not.mp fun free => ?_
      simp [cutFirst?_eq_none_iff.mpr free] at cut
    obtain ⟨front, behind, rfl, free⟩ := List.eq_append_cons_of_mem dotted
    obtain ⟨rfl, rfl⟩ := Prod.mk.inj (Option.some.inj ((cutFirst?_dot free behind).symm.trans cut))
    exact ⟨rfl, free⟩
  · rintro ⟨rfl, free⟩
    exact cutFirst?_dot free rest

theorem splitFirst?_eq_none_iff {name : String} :
    splitFirst? name = none ↔ separator ∉ name.toList := by
  rw [splitFirst?, Option.map_eq_none_iff, cutFirst?_eq_none_iff]

theorem splitFirst?_eq_some_iff {name head rest : String} :
    splitFirst? name = some (head, rest) ↔
      name = head ++ "." ++ rest ∧ separator ∉ head.toList := by
  have dot : (".".toList : List Char) = [separator] := rfl
  have texts : name = head ++ "." ++ rest ↔
      name.toList = head.toList ++ separator :: rest.toList := by
    rw [← String.toList_inj]
    simp [dot]
  rw [texts, ← cutFirst?_eq_some_iff, splitFirst?, Option.map_eq_some_iff]
  constructor
  · rintro ⟨⟨front, behind⟩, cut, same⟩
    obtain ⟨rfl, rfl⟩ := Prod.mk.inj same
    simpa using cut
  · intro cut
    exact ⟨_, cut, by simp⟩

/-- A split leaves less of the name. -/
theorem length_lt_of_splitFirst? {name head rest : String}
    (split : splitFirst? name = some (head, rest)) : rest.toList.length < name.toList.length := by
  rw [(splitFirst?_eq_some_iff.mp split).1]
  simp
  omega

/-- The heads of the splits of a name, of its rest, and so on, and the last rest behind them. -/
def splits (name : String) : List String :=
  match _split : splitFirst? name with
  | none => [name]
  | some (head, rest) => head :: splits rest
termination_by name.toList.length
decreasing_by exact length_lt_of_splitFirst? _split

theorem splits_eq_segments (name : String) : splits name = segments name := by
  fun_induction splits name with
  | case1 name split => exact (segments_of_free name (splitFirst?_eq_none_iff.mp split)).symm
  | case2 name head rest split ih =>
    obtain ⟨rfl, free⟩ := splitFirst?_eq_some_iff.mp split
    rw [segments_dot, segments_of_free head free, ih]
    rfl

end SymbolTree
