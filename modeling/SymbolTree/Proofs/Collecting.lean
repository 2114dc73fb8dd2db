import Mathlib.Data.List.Dedup
import SymbolTree.Proofs.Arrangements
import SymbolTree.Proofs.Directories
import SymbolTree.Proofs.Paths

/-!
# Trees of entries

A tree that is made of a list of entries lists the last entry of every key, and of the directories
it has those that the keys go through and no others. A tree that is made of what another one lists
has lost the empty directories and the alternatives, and nothing else.

* `Model.collect`: the model of a tree of entries, with `get?_collect` and `isSome_alts_collect`;
* `Tree.Collects`: what a tree of entries is seen to be; `Model.Agrees.collects`: that it is;
* `Tree.WellFormed.collects_entries`: what a tree of another tree's entries keeps;
* `collecting_listing_inverse`: from a list to a tree and back, and from a tree to a list and back.
-/
namespace SymbolTree

variable {V : Type}

/-- The directories that a key goes through are its dotted prefixes. -/
theorem segments_isPrefix_iff (path key : String) :
    segments path <+: (Key.parse key).dirs ↔ ∃ rest, key = path ++ "." ++ rest := by
  rw [← Model.exists_whole_iff _ (segments_free path)]
  simp only [Model.whole, join_append _ _ (segments_ne_nil path) (List.cons_ne_nil _ _),
    join_segments, join_singleton]

/-- A key has a last entry if it has one at all. -/
theorem isSome_lookup_reverse {entries : List (String × V)} {key : String} :
    (entries.reverse.lookup key).isSome ↔ key ∈ entries.map Prod.fst := by
  simp only [List.lookup_isSome_iff, List.mem_reverse, beq_iff_eq, List.mem_map]
  exact exists_congr fun entry => and_congr_right fun _ => eq_comm

/-- A reordering that keeps the last value of every key keeps all last values: it has no keys of its
own. -/
theorem lookup_reverse_of_perm {entries reordered : List (String × V)}
    (perm : reordered.Perm entries)
    (same : ∀ key ∈ entries.map Prod.fst,
      reordered.reverse.lookup key = entries.reverse.lookup key) (key : String) :
    reordered.reverse.lookup key = entries.reverse.lookup key := by
  by_cases member : key ∈ entries.map Prod.fst
  · exact same key member
  · have missing : key ∉ reordered.map Prod.fst := by
      rwa [(perm.map Prod.fst).mem_iff]
    rw [← isSome_lookup_reverse, Option.not_isSome_iff_eq_none] at member missing
    rw [member, missing]

/-- Among distinct keys each entry is the last one of its key. -/
theorem lookup_reverse_of_nodup {entries : List (String × V)}
    (distinct : (entries.map Prod.fst).Nodup) (key : String) (value : V) :
    entries.reverse.lookup key = some value ↔ (key, value) ∈ entries := by
  have turned : (entries.reverse.map Prod.fst).Nodup := by
    rwa [List.map_reverse, List.nodup_reverse]
  exact (Table.get?_eq_some_iff ⟨entries.reverse, turned⟩ key value).trans List.mem_reverse

/-! ## The model of a list of entries -/

namespace Model

variable {entries : List (String × V)} {tree : Tree V}

/-- The model of the tree that is made of the entries. -/
def collect (entries : List (String × V)) : Model V :=
  entries.foldl (fun model entry => model.insert [] entry.1 entry.2) .empty

theorem agrees_collect (entries : List (String × V)) :
    (collect entries).Agrees (Tree.ofList entries).tree :=
  agrees_empty.extend entries

theorem collect_concat (entries : List (String × V)) (entry : String × V) :
    collect (entries ++ [entry]) = (collect entries).insert [] entry.1 entry.2 := by
  simp only [collect, List.foldl_append, List.foldl_cons, List.foldl_nil]

theorem get?_collect (entries : List (String × V)) (key : String) :
    (collect entries).values.get? key = entries.reverse.lookup key := by
  induction entries using List.reverseRecOn with
  | nil => rfl
  | append_singleton entries entry ih =>
    have atRoot : whole [] entry.1 = entry.1 := join_singleton entry.1
    rw [collect_concat, insert, atRoot, Table.get?_insert, ih, List.reverse_concat,
      List.lookup_cons]
    by_cases last : key = entry.1
    · rw [if_pos last, last, beq_self_eq_true]
    · rw [if_neg last, beq_false_of_ne last]

/-- There is the root, and a directory wherever a key goes through. -/
theorem isSome_alts_collect (entries : List (String × V)) (path : List String) :
    ((collect entries).alts path).isSome ↔
      path = [] ∨ ∃ key ∈ entries.map Prod.fst, path <+: (Key.parse key).dirs := by
  induction entries using List.reverseRecOn with
  | nil => by_cases top : path = [] <;> simp [collect, empty, top]
  | append_singleton entries entry ih =>
    have grown : ((collect (entries ++ [entry])).alts path).isSome ↔
        ((collect entries).alts path).isSome ∨ path ≠ [] ∧ path <+: (Key.parse entry.1).dirs := by
      have below := isBelow_bool_iff [] path (Key.parse entry.1).dirs
      simp only [collect_concat, insert, List.nil_append, Option.isSome_or, Bool.or_eq_true]
      refine or_congr Iff.rfl ?_
      split <;> simp_all
    have split : (∃ key ∈ (entries ++ [entry]).map Prod.fst, path <+: (Key.parse key).dirs) ↔
        (∃ key ∈ entries.map Prod.fst, path <+: (Key.parse key).dirs) ∨
          path <+: (Key.parse entry.1).dirs := by
      simp only [List.map_append, List.mem_append, List.map_cons, List.map_nil, List.mem_singleton,
        or_and_right, exists_or, exists_eq_left]
    rw [grown, ih, split]
    by_cases top : path = [] <;> simp [top]

theorem alts_collect (entries : List (String × V)) {path : List String} {alts : List String}
    (held : (collect entries).alts path = some alts) : alts = [""] := by
  have fresh : ∀ alts, (empty : Model V).alts path = some alts → alts = [""] := by
    intro alts held
    by_cases top : path = [] <;> simp_all [empty]
  exact alts_extend_default fresh entries alts held

/-- The last entries of the keys settle the directories, and these have nothing but the empty
alternative. -/
theorem alts_collect_congr {reordered : List (String × V)}
    (same : ∀ key, reordered.reverse.lookup key = entries.reverse.lookup key) (path : List String) :
    (collect reordered).alts path = (collect entries).alts path := by
  have keys (key : String) : key ∈ reordered.map Prod.fst ↔ key ∈ entries.map Prod.fst := by
    rw [← isSome_lookup_reverse, ← isSome_lookup_reverse, same]
  have dirs : ((collect reordered).alts path).isSome ↔ ((collect entries).alts path).isSome := by
    simp only [isSome_alts_collect, keys]
  cases held : (collect entries).alts path with
  | none => simpa [held] using dirs
  | some alts =>
    obtain ⟨alts', held'⟩ := Option.isSome_iff_exists.mp (dirs.mpr (by rw [held]; rfl))
    rw [held', alts_collect entries held, alts_collect reordered held']

end Model

/-! ## The tree of a list of entries -/

/-- The tree lists each key of the entries once, with the last value of the key. It has a directory
at each dotted prefix of a key and no others but the root, all with the empty alternative alone. -/
structure Tree.Collects (tree : Tree V) (entries : List (String × V)) : Prop where
  keys : (tree.root.entries.map Prod.fst).Perm (entries.map Prod.fst).dedup
  listed : ∀ key value,
    (key, value) ∈ tree.root.entries ↔ entries.reverse.lookup key = some value
  size : tree.root.size = (entries.map Prod.fst).dedup.length
  dirs : ∀ path, (tree.root.subdir? path).isSome ↔
    ∃ key ∈ entries.map Prod.fst, ∃ rest, key = path ++ "." ++ rest
  inner : ∀ dir, tree.IsLive dir → dir ≠ tree.rootHandle →
    ∃ path, tree.root.subdir? path = some ⟨tree, dir⟩
  alts : ∀ dir, tree.IsLive dir → (View.mk tree dir).alts = [""]

theorem Model.Agrees.collects {entries : List (String × V)} {tree : Tree V}
    (agrees : (Model.collect entries).Agrees tree) : tree.Collects entries := by
  have wf := agrees.wellFormed
  have listed (key : String) (value : V) :
      (key, value) ∈ tree.root.entries ↔ entries.reverse.lookup key = some value := by
    rw [← Model.get?_collect, ← agrees.shows.values]
    exact View.mem_entries_iff wf wf.root_live key value
  have keys : (tree.root.entries.map Prod.fst).Perm (entries.map Prod.fst).dedup := by
    refine (List.perm_ext_iff_of_nodup (View.nodup_keys_entries wf wf.root_live)
      (List.nodup_dedup _)).mpr fun key => ?_
    calc key ∈ tree.root.entries.map Prod.fst
      _ ↔ ∃ value, (key, value) ∈ tree.root.entries := by
        simp only [List.mem_map, Prod.exists, exists_and_right, exists_eq_right]
      _ ↔ (entries.reverse.lookup key).isSome := by
        simp only [listed, Option.isSome_iff_exists]
      _ ↔ key ∈ (entries.map Prod.fst).dedup := by
        rw [isSome_lookup_reverse, List.mem_dedup]
  refine ⟨keys, listed, ?size, ?dirs, ?inner, ?alts⟩
  case size =>
    rw [← keys.length_eq, List.length_map]
    exact (View.length_entries wf wf.root_live).symm
  case dirs =>
    intro path
    have shown := congrArg Option.isSome (agrees.shows.alts path)
    rw [Option.isSome_map] at shown
    rw [shown, Model.isSome_alts_collect]
    simp only [segments_ne_nil path, false_or, segments_isPrefix_iff]
  case inner =>
    intro dir live inner
    obtain ⟨path, parent, toParent, link⟩ := View.exists_parent wf live inner
    exact ⟨_, View.subdir?_path wf (Tree.follow_concat_eq_some.mpr ⟨parent, toParent, link⟩)
      (List.concat_ne_nil _ _)⟩
  case alts =>
    intro dir live
    obtain ⟨path, reach⟩ := wf.exists_way live
    have held := agrees.alts path
    rw [Tree.altsAt_of_follow reach] at held
    exact Model.alts_collect entries held.symm

/-! ## What another tree lists -/

variable {tree : Tree V}

namespace View

theorem get?_below (view : View V) (path name : String) :
    view.get? (path ++ "." ++ name) = (view.subdir? path).bind (·.get? name) := by
  simp only [get?, subdir?, Key.parse_dot, Tree.follow_append, Option.bind_assoc, Option.bind_map]
  rfl

theorem isEmpty_eq_false_iff (wf : tree.WellFormed) {dir : Handle} (live : tree.IsLive dir) :
    (View.mk tree dir).isEmpty = false ↔ ∃ name, ((View.mk tree dir).get? name).isSome := by
  rw [Bool.eq_false_iff, Ne, isEmpty_iff wf live]
  simp only [List.eq_nil_iff_forall_not_mem, Prod.forall, mem_entries_iff wf live,
    Option.isSome_iff_exists, not_forall, not_not]

end View

namespace Tree

/-- There is an entry under a path if the path leads to a directory that is not empty. -/
theorem WellFormed.exists_below_iff (wf : tree.WellFormed) (path : String) :
    (∃ name, (tree.root.get? (path ++ "." ++ name)).isSome) ↔
      ∃ view, tree.root.subdir? path = some view ∧ view.isEmpty = false := by
  simp only [View.get?_below]
  cases there : tree.root.subdir? path with
  | none => simp
  | some view =>
    obtain ⟨reach, same⟩ := View.subdir?_eq_some_iff.mp there
    obtain ⟨tree', dir⟩ := view
    obtain rfl : tree' = tree := same
    have filled := View.isEmpty_eq_false_iff wf (wf.follow_live wf.root_live reach)
    simpa using filled.symm

/-- A tree that is made of what another one lists has its values and the directories in which it
has any. -/
theorem WellFormed.collects_entries (wf : tree.WellFormed) {listed : List (String × V)}
    {collected : Tree V} (order : listed.Perm tree.root.entries)
    (agrees : (Model.collect listed).Agrees collected) :
    (∀ name, collected.root.get? name = tree.root.get? name) ∧
      ∀ path, (collected.root.subdir? path).isSome ↔
        ∃ view, tree.root.subdir? path = some view ∧ view.isEmpty = false := by
  have distinct : (listed.map Prod.fst).Nodup :=
    (order.map Prod.fst).nodup_iff.mpr (View.nodup_keys_entries wf wf.root_live)
  have values (name : String) : collected.root.get? name = tree.root.get? name := by
    apply Option.ext
    intro value
    calc collected.root.get? name = some value
      _ ↔ listed.reverse.lookup name = some value := by
        rw [agrees.shows.values, Model.get?_collect]
      _ ↔ (name, value) ∈ tree.root.entries := by
        rw [lookup_reverse_of_nodup distinct, order.mem_iff]
      _ ↔ tree.root.get? name = some value := View.mem_entries_iff wf wf.root_live name value
  have keys (key : String) : key ∈ listed.map Prod.fst ↔ (tree.root.get? key).isSome := by
    rw [← isSome_lookup_reverse, ← values, agrees.shows.values, Model.get?_collect]
  refine ⟨values, fun path => ?_⟩
  rw [agrees.collects.dirs, ← wf.exists_below_iff]
  simp only [keys]
  constructor
  · rintro ⟨_, there, name, rfl⟩
    exact ⟨name, there⟩
  · rintro ⟨name, there⟩
    exact ⟨_, there, name, rfl⟩

end Tree

/-! ## There and back -/

/-- The last entries of the keys settle what a tree of entries lists, which directories it has, and
their alternatives. -/
theorem Model.Agrees.collect_congr {entries reordered : List (String × V)} {tree other : Tree V}
    (same : ∀ key, reordered.reverse.lookup key = entries.reverse.lookup key)
    (agrees : (Model.collect entries).Agrees tree)
    (agrees' : (Model.collect reordered).Agrees other) :
    other.root.entries.Perm tree.root.entries ∧
      ∀ path, (other.root.subdir? path).map View.alts = (tree.root.subdir? path).map View.alts := by
  have wf := agrees.wellFormed
  have wf' := agrees'.wellFormed
  constructor
  · refine (List.perm_ext_iff_of_nodup
      (.of_map Prod.fst (View.nodup_keys_entries wf' wf'.root_live))
      (.of_map Prod.fst (View.nodup_keys_entries wf wf.root_live))).mpr ?_
    rintro ⟨key, value⟩
    exact (agrees'.collects.listed key value).trans
      (same key ▸ (agrees.collects.listed key value).symm)
  · intro path
    rw [agrees'.shows.alts, agrees.shows.alts, Model.alts_collect_congr same]

/-- A tree that is made of a list of entries lists every key of the list once, with the last value
of the key; its size is the number of different keys, and apart from the root its directories are
the dotted prefixes of the keys. A reordering that leaves the last value of every key last gives
the same entries in some order, the same directories and the same alternatives. A tree that is made
of what another one lists, in whatever order that comes, has the same value under every name; it has
a directory if the other one has it and it is not empty; and its alternatives are the empty one
everywhere. In all of this the tables may be in any order. -/
theorem collecting_listing_inverse [BEq V] :
    (∀ (entries : List (String × V)) collected,
      (Tree.ofList entries).tree.Arranges collected →
        collected.Collects entries ∧
        ∀ reordered other, reordered.Perm entries →
          (∀ key ∈ entries.map Prod.fst,
            reordered.reverse.lookup key = entries.reverse.lookup key) →
          (Tree.ofList reordered).tree.Arranges other →
            other.root.entries.Perm collected.root.entries ∧
            ∀ path, (other.root.subdir? path).map View.alts =
              (collected.root.subdir? path).map View.alts) ∧
    ∀ tree : Tree V, tree.Arises → ∀ listed collected, listed.Perm tree.root.entries →
      (Tree.ofList listed).tree.Arranges collected →
        (∀ name, collected.root.get? name = tree.root.get? name) ∧
        (∀ path, (collected.root.subdir? path).isSome ↔
          ∃ view, tree.root.subdir? path = some view ∧ view.isEmpty = false) ∧
        ∀ dir, collected.IsLive dir → (View.mk collected dir).alts = [""] := by
  constructor
  · intro entries collected order
    have agrees := (Model.agrees_collect entries).arranges order
    refine ⟨agrees.collects, fun reordered other perm same order' => ?_⟩
    exact agrees.collect_congr (lookup_reverse_of_perm perm same)
      ((Model.agrees_collect reordered).arranges order')
  · intro tree arises listed collected turned order
    have agrees := (Model.agrees_collect listed).arranges order
    obtain ⟨values, dirs⟩ := arises.wellFormed.collects_entries turned agrees
    exact ⟨values, dirs, agrees.collects.alts⟩

/-- A list with one key twice, with keys that start others and with empty segments, in two orders;
and a tree with an empty directory and changed alternatives, listed backwards. -/
theorem collecting_listing_inverse_repeated_key :
    let entries : List (String × Nat) :=
      [("a.b.x", 1), ("a", 2), (".b", 3), ("a.b.x", 4), ("a.b", 5), ("c.", 6)]
    let reordered : List (String × Nat) :=
      [("c.", 6), ("a.b.x", 1), ("a.b", 5), ("a.b.x", 4), ("a", 2), (".b", 3)]
    let commands : List (Command Nat) :=
      [.extend [("a.b.x", 1), (".", 2), ("d.e", 3)], .inside ["d"] .clear,
        .inside ["a"] (.editAlts fun _ => ["Over"])]
    let tree := (Tree.empty.runAll commands).tree
    let collected := (Tree.ofList tree.root.entries.reverse).tree
    ((Tree.ofList entries).tree.Collects entries ∧
      (Tree.ofList entries).tree.root.size = 5 ∧
      (Tree.ofList reordered).tree.root.entries ≠ (Tree.ofList entries).tree.root.entries ∧
      (Tree.ofList reordered).tree.root.entries.Perm (Tree.ofList entries).tree.root.entries) ∧
    (∀ name, collected.root.get? name = tree.root.get? name) ∧
      (tree.root.subdir? "d").isSome ∧ ¬ (collected.root.subdir? "d").isSome ∧
      (collected.root.subdir? "").isSome ∧
      (tree.root.subdir? "a").map View.alts = some ["Over"] ∧
      (collected.root.subdir? "a").map View.alts = some [""] := by
  intro entries reordered commands tree collected
  obtain ⟨collects, congr⟩ :=
    collecting_listing_inverse.1 entries _ (Tree.Arranges.refl (Tree.ofList entries).tree)
  obtain ⟨perm, -⟩ := congr reordered _ (by decide) (by decide)
    (Tree.Arranges.refl (Tree.ofList reordered).tree)
  have arises : tree.Arises := Tree.Reachable.arises ⟨commands, rfl⟩
  obtain ⟨values, dirs, -⟩ := collecting_listing_inverse.2 tree arises _ _
    (List.reverse_perm tree.root.entries) (Tree.Arranges.refl collected)
  refine ⟨⟨collects, collects.size.trans (by decide +kernel), by decide +kernel, perm⟩, values,
    by decide +kernel, ?_, ?_, by decide +kernel, by decide +kernel⟩
  · rw [dirs]
    decide +kernel
  · rw [dirs]
    decide +kernel

end SymbolTree
