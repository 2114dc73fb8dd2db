import SymbolTree.Proofs.Edits

/-!
# Contents of a tree

What a tree holds at each path from the root, with no handles: whether there is a directory, which
alternatives it has (`altsAt`), and which value each of its entries has (`valueAt`). One lemma for
each edit says what it does to the one, and one what it does to the other.
-/
namespace SymbolTree.Tree

variable {V : Type} {tree : Tree V} {dir : Handle} {path : List String}

/-- The alternatives of the directory at a path from the root, if there is a directory. -/
def altsAt (tree : Tree V) (path : List String) : Option (List String) :=
  (tree.follow tree.rootHandle path).map fun dir => (tree.slot dir).alts

/-- The value of the entry with a key from the root, if there is an entry. -/
def valueAt (tree : Tree V) (key : Key) : Option V :=
  (tree.follow tree.rootHandle key.dirs).bind fun dir => (tree.slot dir).leaves.get? key.leaf

theorem root_get? (tree : Tree V) (name : String) :
    tree.root.get? name = tree.valueAt (Key.parse name) := rfl

theorem altsAt_of_follow (reach : tree.follow tree.rootHandle path = some dir) :
    tree.altsAt path = some (tree.slot dir).alts := by
  simp [altsAt, reach]

theorem valueAt_of_follow (reach : tree.follow tree.rootHandle path = some dir) (leaf : String) :
    tree.valueAt ⟨path, leaf⟩ = (tree.slot dir).leaves.get? leaf := by
  simp [valueAt, reach]

namespace WellFormed

/-- Places in the arena and paths from the root tell the same directories apart. -/
theorem index_eq_iff (wf : tree.WellFormed) {other : Handle} {way : List String}
    (reach : tree.follow tree.rootHandle path = some dir)
    (reach' : tree.follow tree.rootHandle way = some other) :
    other.index = dir.index ↔ way = path := by
  have live := wf.follow_live wf.root_live reach
  have live' := wf.follow_live wf.root_live reach'
  constructor
  · intro same
    obtain rfl := live'.eq_of_index live.current same
    exact wf.way_unique wf.root_live reach' reach
  · rintro rfl
    rw [reach] at reach'
    rw [Option.some.inj reach']

/-- One directory is below another if the path of the other leads to it on its way. -/
theorem below_iff_prefix (wf : tree.WellFormed) {other : Handle} {way : List String}
    (reach : tree.follow tree.rootHandle path = some dir)
    (reach' : tree.follow tree.rootHandle way = some other) :
    tree.Below dir other ↔ path <+: way ∧ way ≠ path := by
  rw [below_iff_cons]
  constructor
  · rintro ⟨segment, rest, down⟩
    have along : tree.follow tree.rootHandle (path ++ segment :: rest) = some other := by
      rw [follow_append, reach]
      exact down
    obtain rfl := wf.way_unique wf.root_live reach' along
    exact ⟨List.prefix_append _ _, by simp⟩
  · rintro ⟨⟨rest, rfl⟩, ne⟩
    rw [follow_append, reach] at reach'
    cases rest with
    | nil => simp at ne
    | cons segment rest => exact ⟨segment, rest, reach'⟩

/-! ## Making directories -/

theorem follow_attach (wf : tree.WellFormed)
    (reach : tree.follow tree.rootHandle path = some dir) {segment : String}
    (vacant : tree.child? dir segment = none) (way : List String) :
    (tree.attach dir segment).follow tree.rootHandle way =
      if way = path ++ [segment] then some tree.nextHandle
      else tree.follow tree.rootHandle way := by
  have inside := (wf.follow_live wf.root_live reach).inside
  have nowhere : tree.follow tree.rootHandle (path ++ [segment]) = none := by
    rw [follow_concat, reach]
    exact vacant
  induction way using List.reverseRecOn with
  | nil => simp
  | append_singleton way last ih =>
    rw [follow_concat, follow_concat, ih]
    by_cases here : way = path ++ [segment]
    · -- The new directory has no subdirectories, and there was none in its place.
      have apart : tree.nextHandle.index ≠ dir.index := Nat.ne_of_gt inside
      have longer : path ++ [segment] ++ [last] ≠ path ++ [segment] := by simp
      rw [here, if_pos rfl, if_neg longer, nowhere, Option.bind_some, child?_attach inside,
        if_neg fun same => apart same.1]
      exact child?_outside (Nat.le_refl _)
    · rw [if_neg here]
      cases reach' : tree.follow tree.rootHandle way with
      | none =>
        have ne : way ++ [last] ≠ path ++ [segment] := by
          intro same
          obtain ⟨rfl, -⟩ := List.append_inj' same rfl
          rw [reach] at reach'
          cases reach'
        rw [if_neg ne]
        rfl
      | some other =>
        have same : (other.index = dir.index ∧ last = segment) ↔
            way ++ [last] = path ++ [segment] := by
          rw [wf.index_eq_iff reach reach']
          simp
        rw [Option.bind_some, Option.bind_some, child?_attach inside]
        simp only [same]

theorem follow_ensureChild (wf : tree.WellFormed)
    (reach : tree.follow tree.rootHandle path = some dir) (segment : String) (way : List String) :
    (tree.ensureChild dir segment).tree.follow tree.rootHandle way =
      if way = path ++ [segment] then some (tree.ensureChild dir segment).result
      else tree.follow tree.rootHandle way := by
  cases h : tree.child? dir segment with
  | none =>
    rw [ensureChild_of_vacant h]
    exact wf.follow_attach reach h way
  | some child =>
    rw [ensureChild_of_link h]
    by_cases here : way = path ++ [segment]
    · rw [if_pos here, here]
      exact follow_concat_eq_some.mpr ⟨dir, reach, h⟩
    · rw [if_neg here]
      rfl

theorem reach_ensureChild (wf : tree.WellFormed)
    (reach : tree.follow tree.rootHandle path = some dir) (segment : String) :
    (tree.ensureChild dir segment).tree.follow (tree.ensureChild dir segment).tree.rootHandle
      (path ++ [segment]) = some (tree.ensureChild dir segment).result := by
  have live := wf.follow_live wf.root_live reach
  rw [(extends_ensureChild live segment).rootHandle_eq, wf.follow_ensureChild reach, if_pos rfl]

theorem altsAt_ensureChild (wf : tree.WellFormed)
    (reach : tree.follow tree.rootHandle path = some dir) (segment : String) (way : List String) :
    (tree.ensureChild dir segment).tree.altsAt way =
      (tree.altsAt way).or (if way = path ++ [segment] then some [""] else none) := by
  have live := wf.follow_live wf.root_live reach
  have sameRoot := (extends_ensureChild live segment).rootHandle_eq
  obtain ⟨oldAlts, newAlts⟩ := alts_ensureChild live segment
  rw [altsAt, sameRoot, wf.follow_ensureChild reach]
  by_cases here : way = path ++ [segment]
  · subst here
    simp only [if_true, Option.map_some, altsAt, follow_concat, reach, Option.bind_some]
    cases h : tree.child? dir segment with
    | none => simp [newAlts h]
    | some child =>
      rw [ensureChild_of_link h]
      rfl
  · simp only [here, if_false, Option.or_none, altsAt]
    cases reach' : tree.follow tree.rootHandle way with
    | none => rfl
    | some other => simp [oldAlts other (wf.follow_live wf.root_live reach')]

theorem valueAt_ensureChild (wf : tree.WellFormed)
    (reach : tree.follow tree.rootHandle path = some dir) (segment : String) (key : Key) :
    (tree.ensureChild dir segment).tree.valueAt key = tree.valueAt key := by
  have live := wf.follow_live wf.root_live reach
  have sameRoot := (extends_ensureChild live segment).rootHandle_eq
  simp only [valueAt, sameRoot, wf.follow_ensureChild reach, leaves_ensureChild live]
  by_cases here : key.dirs = path ++ [segment]
  · rw [if_pos here, here, follow_concat, reach, Option.bind_some, Option.bind_some]
    cases h : tree.child? dir segment with
    | none =>
      rw [ensureChild_of_vacant h, Option.bind_none, slot_eq_outside (Nat.le_refl _)]
      rfl
    | some child =>
      rw [ensureChild_of_link h]
      rfl
  · rw [if_neg here]

/-- The paths between `path` and a path further down: the next one, and those behind it. -/
theorem between_cons_iff {segment : String} {rest way : List String} :
    (way = path ++ [segment] ∨
        (path ++ [segment] <+: way ∧ way ≠ path ++ [segment]) ∧ way <+: path ++ [segment] ++ rest) ↔
      (path <+: way ∧ way ≠ path) ∧ way <+: path ++ segment :: rest := by
  have same : path ++ [segment] ++ rest = path ++ segment :: rest := by simp
  rw [same]
  constructor
  · rintro (rfl | ⟨⟨longer, -⟩, bounded⟩)
    · exact ⟨⟨List.prefix_append _ _, by simp⟩, rest, same⟩
    · refine ⟨⟨(List.prefix_append _ _).trans longer, ?_⟩, bounded⟩
      rintro rfl
      have := longer.length_le
      rw [List.length_append, List.length_singleton] at this
      omega
  · rintro ⟨⟨⟨more, rfl⟩, ne⟩, bounded⟩
    rw [List.prefix_append_right_inj] at bounded
    cases more with
    | nil => simp at ne
    | cons next more =>
      obtain ⟨rfl, -⟩ := List.cons_prefix_cons.mp bounded
      by_cases last : more = []
      · exact .inl (by rw [last])
      · refine .inr ⟨⟨⟨more, by simp⟩, by simpa using last⟩, ?_⟩
        exact (List.prefix_append_right_inj path).mpr bounded

theorem not_between_nil {way : List String} : ¬ ((path <+: way ∧ way ≠ path) ∧ way <+: path) := by
  rintro ⟨⟨longer, ne⟩, bounded⟩
  exact ne (bounded.eq_of_length_le longer.length_le)

/-- The directories that come to be are the missing ones on the way down from `path`. -/
theorem altsAt_ensureDirs (wf : tree.WellFormed)
    (reach : tree.follow tree.rootHandle path = some dir) {dirs : List String} (free : Free dirs)
    (way : List String) :
    (tree.ensureDirs dir dirs).tree.altsAt way =
      (tree.altsAt way).or
        (if (path <+: way ∧ way ≠ path) ∧ way <+: path ++ dirs then some [""] else none) := by
  induction dirs generalizing tree dir path with
  | nil =>
    rw [List.append_nil, if_neg not_between_nil, Option.or_none]
    rfl
  | cons segment dirs ih =>
    have live := wf.follow_live wf.root_live reach
    have madeWf := wf.wellFormed_ensureChild live free.head
    have made := wf.reach_ensureChild reach segment
    have rest := ih madeWf made free.tail
    rw [ensureDirs, Outcome.tree_andThen, rest, wf.altsAt_ensureChild reach, Option.or_assoc]
    congr 1
    rw [← if_congr between_cons_iff rfl rfl]
    by_cases next : way = path ++ [segment]
    · simp [next]
    · simp [next]

theorem valueAt_ensureDirs (wf : tree.WellFormed)
    (reach : tree.follow tree.rootHandle path = some dir) {dirs : List String} (free : Free dirs)
    (key : Key) : (tree.ensureDirs dir dirs).tree.valueAt key = tree.valueAt key := by
  induction dirs generalizing tree dir path with
  | nil => rfl
  | cons segment dirs ih =>
    have live := wf.follow_live wf.root_live reach
    have madeWf := wf.wellFormed_ensureChild live free.head
    have made := wf.reach_ensureChild reach segment
    have rest := ih madeWf made free.tail
    exact rest.trans (wf.valueAt_ensureChild reach segment key)

theorem reach_ensureDirs (wf : tree.WellFormed)
    (reach : tree.follow tree.rootHandle path = some dir) {dirs : List String} (free : Free dirs) :
    (tree.ensureDirs dir dirs).tree.follow (tree.ensureDirs dir dirs).tree.rootHandle
      (path ++ dirs) = some (tree.ensureDirs dir dirs).result := by
  have live := wf.follow_live wf.root_live reach
  have more := wf.extends_ensureDirs live free
  rw [more.rootHandle_eq, follow_append, more.follow reach]
  exact wf.follow_ensureDirs live free

/-! ## Changing one directory -/

/-- Other entries in one directory: no alternative changes, and no value elsewhere. -/
theorem altsAt_leaves (tree : Tree V) (dir : Handle) (change : Table V → Table V)
    (way : List String) :
    (tree.modify dir fun slot => { slot with leaves := change slot.leaves }).altsAt way =
      tree.altsAt way := by
  have same := sameLinks_leaves tree dir change
  have kept (other : Handle) : ((tree.modify dir fun slot =>
      { slot with leaves := change slot.leaves }).slot other).alts = (tree.slot other).alts := by
    rw [slot_modify]
    split <;> rfl
  simp only [altsAt, same.rootHandle_eq, same.follow_eq, kept]

theorem valueAt_leaves (wf : tree.WellFormed)
    (reach : tree.follow tree.rootHandle path = some dir) (change : Table V → Table V) (key : Key) :
    (tree.modify dir fun slot => { slot with leaves := change slot.leaves }).valueAt key =
      if key.dirs = path then (change (tree.slot dir).leaves).get? key.leaf
      else tree.valueAt key := by
  have live := wf.follow_live wf.root_live reach
  have same := sameLinks_leaves tree dir change
  rw [valueAt, same.rootHandle_eq, same.follow_eq]
  by_cases here : key.dirs = path
  · rw [if_pos here, here, reach, Option.bind_some, slot_modify_self live.inside]
  · rw [if_neg here, valueAt]
    cases reach' : tree.follow tree.rootHandle key.dirs with
    | none => rfl
    | some other =>
      have apart : other.index ≠ dir.index := mt (wf.index_eq_iff reach reach').mp here
      rw [Option.bind_some, Option.bind_some, slot_modify_other apart]

/-! ## Edits -/

theorem altsAt_insert (wf : tree.WellFormed)
    (reach : tree.follow tree.rootHandle path = some dir) (name : String) (value : V)
    (way : List String) :
    ((View.mk tree dir).insert name value).tree.altsAt way =
      (tree.altsAt way).or
        (if (path <+: way ∧ way ≠ path) ∧ way <+: path ++ (Key.parse name).dirs then some [""]
        else none) := by
  rw [tree_insert]
  refine (altsAt_leaves _ _ (fun leaves => leaves.insert _ value) way).trans ?_
  exact wf.altsAt_ensureDirs reach (Key.free_parse name).1 way

theorem valueAt_insert (wf : tree.WellFormed)
    (reach : tree.follow tree.rootHandle path = some dir) (name : String) (value : V) (key : Key) :
    ((View.mk tree dir).insert name value).tree.valueAt key =
      if key = Key.inside path name then some value
      else tree.valueAt key := by
  have free := (Key.free_parse name).1
  have live := wf.follow_live wf.root_live reach
  have homeWf : (home tree dir name).tree.WellFormed := wf.wellFormed_ensureDirs live free
  have atHome := wf.reach_ensureDirs reach free
  have kept : (home tree dir name).tree.valueAt key = tree.valueAt key :=
    wf.valueAt_ensureDirs reach free key
  rw [tree_insert]
  refine (homeWf.valueAt_leaves atHome (fun leaves => leaves.insert _ value) key).trans ?_
  obtain ⟨dirs, leaf⟩ := key
  by_cases here : dirs = path ++ (Key.parse name).dirs
  · have old : tree.valueAt ⟨dirs, leaf⟩ =
        ((home tree dir name).tree.slot (home tree dir name).result).leaves.get? leaf := by
      rw [← kept, here]
      exact valueAt_of_follow atHome leaf
    simp only [Key.inside, Key.mk.injEq, here, true_and, if_true, Table.get?_insert] at old ⊢
    rw [old]
    rfl
  · simp only [Key.inside, Key.mk.injEq, here, false_and, if_false]
    exact kept

/-- The answer of an insertion is what stood at its key. -/
theorem result_insert (wf : tree.WellFormed)
    (reach : tree.follow tree.rootHandle path = some dir) (name : String) (value : V) :
    ((View.mk tree dir).insert name value).result =
      tree.valueAt (Key.inside path name) := by
  have free := (Key.free_parse name).1
  rw [← wf.valueAt_ensureDirs reach free, Key.inside,
    valueAt_of_follow (wf.reach_ensureDirs reach free)]
  simp only [View.insert, Outcome.result_andThen, Outcome.result_pure]

theorem altsAt_erase (tree : Tree V) (dir : Handle) (name : String) (way : List String) :
    ((View.mk tree dir).erase name).tree.altsAt way = tree.altsAt way := by
  cases found : tree.follow dir (Key.parse name).dirs with
  | none => rw [erase_of_missing found]; rfl
  | some holder =>
    rw [erase_of_found found]
    exact altsAt_leaves tree holder (fun leaves => leaves.erase _) way

theorem valueAt_erase (wf : tree.WellFormed)
    (reach : tree.follow tree.rootHandle path = some dir) (name : String) (key : Key) :
    ((View.mk tree dir).erase name).tree.valueAt key =
      if key = Key.inside path name then none
      else tree.valueAt key := by
  have down := follow_append tree tree.rootHandle path (Key.parse name).dirs
  rw [reach, Option.bind_some] at down
  obtain ⟨dirs, leaf⟩ := key
  by_cases here : dirs = path ++ (Key.parse name).dirs
  · subst here
    simp only [Key.inside, Key.mk.injEq, true_and]
    cases found : tree.follow dir (Key.parse name).dirs with
    | none =>
      rw [found] at down
      rw [erase_of_missing found, Outcome.tree_pure, valueAt, down]
      simp
    | some holder =>
      rw [found] at down
      rw [erase_of_found found, valueAt_of_follow down]
      refine (wf.valueAt_leaves down (fun leaves => leaves.erase _) _).trans ?_
      rw [if_pos rfl, Table.get?_erase]
  · simp only [Key.inside, Key.mk.injEq, here, false_and, if_false]
    cases found : tree.follow dir (Key.parse name).dirs with
    | none => rw [erase_of_missing found]; rfl
    | some holder =>
      rw [found] at down
      rw [erase_of_found found]
      refine (wf.valueAt_leaves down (fun leaves => leaves.erase _) _).trans ?_
      exact if_neg here

theorem result_erase (reach : tree.follow tree.rootHandle path = some dir) (name : String) :
    ((View.mk tree dir).erase name).result =
      tree.valueAt (Key.inside path name) := by
  have down := follow_append tree tree.rootHandle path (Key.parse name).dirs
  rw [reach, Option.bind_some] at down
  cases found : tree.follow dir (Key.parse name).dirs with
  | none => simp [erase_of_missing found, valueAt, Key.inside, down, found]
  | some holder => simp [erase_of_found found, valueAt, Key.inside, down, found]

theorem follow_clear (wf : tree.WellFormed)
    (reach : tree.follow tree.rootHandle path = some dir) (way : List String) :
    (tree.cleared dir).follow tree.rootHandle way =
      if path <+: way ∧ way ≠ path then none else tree.follow tree.rootHandle way := by
  have live := wf.follow_live wf.root_live reach
  apply Option.ext
  intro other
  rw [wf.follow_clear_iff live]
  constructor
  · rintro ⟨reach', notBelow⟩
    rw [wf.below_iff_prefix reach reach'] at notBelow
    rwa [if_neg notBelow]
  · intro h
    split at h
    · cases h
    · rename_i notBelow
      exact ⟨h, (wf.below_iff_prefix reach h).not.mpr notBelow⟩

theorem altsAt_clear (wf : tree.WellFormed)
    (reach : tree.follow tree.rootHandle path = some dir) (way : List String) :
    (tree.cleared dir).altsAt way =
      if path <+: way ∧ way ≠ path then none else tree.altsAt way := by
  have live := wf.follow_live wf.root_live reach
  rw [altsAt, rootHandle_cleared, wf.follow_clear reach]
  split
  · rfl
  · rw [altsAt]
    cases reach' : tree.follow tree.rootHandle way with
    | none => rfl
    | some other =>
      have current := (wf.follow_live wf.root_live reach').current
      simp only [Option.map_some, (wf.slot_clear_keeps live current).2.2]

theorem valueAt_clear (wf : tree.WellFormed)
    (reach : tree.follow tree.rootHandle path = some dir) (key : Key) :
    (tree.cleared dir).valueAt key = if path <+: key.dirs then none else tree.valueAt key := by
  have live := wf.follow_live wf.root_live reach
  rw [valueAt, rootHandle_cleared, wf.follow_clear reach]
  by_cases self : key.dirs = path
  · rw [if_neg fun h => h.2 self, self, reach, Option.bind_some, wf.slot_clear_self live,
      if_pos (List.prefix_refl path)]
    rfl
  · by_cases under : path <+: key.dirs
    · rw [if_pos ⟨under, self⟩, if_pos under]
      rfl
    · rw [if_neg fun h => under h.1, if_neg under, valueAt]
      cases reach' : tree.follow tree.rootHandle key.dirs with
      | none => rfl
      | some other =>
        have current := (wf.follow_live wf.root_live reach').current
        have apart : other ≠ dir := fun same =>
          self ((wf.index_eq_iff reach reach').mp (congrArg Handle.index same))
        have notBelow : ¬ tree.Below dir other :=
          (wf.below_iff_prefix reach reach').not.mpr fun h => under h.1
        rw [Option.bind_some, Option.bind_some, wf.slot_clear_other live current apart notBelow]

theorem altsAt_editAlts (wf : tree.WellFormed)
    (reach : tree.follow tree.rootHandle path = some dir) (edit : List String → List String)
    (way : List String) :
    ((View.mk tree dir).editAlts edit).tree.altsAt way =
      if way = path then some (edit (tree.slot dir).alts) else tree.altsAt way := by
  have live := wf.follow_live wf.root_live reach
  have same := sameLinks_editAlts tree dir edit
  rw [altsAt, same.rootHandle_eq, same.follow_eq]
  by_cases here : way = path
  · rw [if_pos here, here, reach, Option.map_some]
    simp only [View.editAlts, Outcome.tree_pure, slot_modify_self live.inside]
    rfl
  · rw [if_neg here, altsAt]
    cases reach' : tree.follow tree.rootHandle way with
    | none => rfl
    | some other =>
      have apart : other.index ≠ dir.index := mt (wf.index_eq_iff reach reach').mp here
      simp only [View.editAlts, Outcome.tree_pure, Option.map_some, slot_modify_other apart]

theorem valueAt_editAlts (tree : Tree V) (dir : Handle) (edit : List String → List String)
    (key : Key) : ((View.mk tree dir).editAlts edit).tree.valueAt key = tree.valueAt key := by
  have same := sameLinks_editAlts tree dir edit
  simp only [valueAt, same.rootHandle_eq, same.follow_eq, leaves_editAlts]

end WellFormed

/-! ## Starting over -/

section
variable (alts : List String) (generation : UInt32)

theorem altsAt_bare (way : List String) :
    (bare alts generation : Tree V).altsAt way = if way = [] then some alts else none := by
  rw [altsAt, follow_bare]
  split
  · rw [Option.map_some, slot_bare alts generation Nat.one_pos]
  · rfl

theorem valueAt_bare (key : Key) : (bare alts generation : Tree V).valueAt key = none := by
  rw [valueAt, follow_bare]
  split
  · rw [Option.bind_some, slot_bare alts generation Nat.one_pos]
    rfl
  · rfl

end
end SymbolTree.Tree
