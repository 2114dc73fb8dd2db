import SymbolTree.Command
import SymbolTree.Proofs.Growth
import SymbolTree.Proofs.Pruning
import SymbolTree.Proofs.Views

/-!
# Runs of commands keep a tree well-formed

* one lemma for each edit through a view: the tree stays well-formed, and every edit but a clear
  extends it;
* `wellFormed_run`: one command; `wellFormed_runAll`: a run of them;
* `Reachable.wellFormed`: what can be built is well-formed.
-/
namespace SymbolTree

variable {V : Type}

namespace Tree.WellFormed

variable {tree : Tree V} {dir : Handle}

/-! ## Edits through a view -/

theorem sameLinks_leaves (tree : Tree V) (dir : Handle) (change : Table V → Table V) :
    SameLinks tree (tree.modify dir fun slot => { slot with leaves := change slot.leaves }) :=
  sameLinks_modify tree dir (fun _ => rfl) (fun _ => rfl) (fun _ => rfl) (fun _ => rfl)

theorem leaves_free (wf : tree.WellFormed) (inside : dir.index < tree.slots.size) :
    Free (tree.slot dir).leaves.keys :=
  fun segment isKey => wf.free _ (mem_slots inside) segment (List.mem_append_right _ isKey)

/-- The entries of a live directory may change if no separator comes into their segments. -/
theorem wellFormed_leaves (wf : tree.WellFormed) (live : tree.IsLive dir)
    (change : Table V → Table V) (free : Free (change (tree.slot dir).leaves).keys) :
    (tree.modify dir fun slot => { slot with leaves := change slot.leaves }).WellFormed := by
  refine (sameLinks_leaves tree dir change).wellFormed wf ?_ ?_
  · intro other inside detached
    by_cases here : other.index = dir.index
    · rw [slot_congr here, live.attached] at detached
      cases detached
    · rw [slot_modify_other here]
      exact (wf.cutOff _ (mem_slots inside) detached).1
  · intro other inside
    by_cases here : other.index = dir.index
    · rw [slot_congr here, slot_modify_self live.inside]
      exact free
    · rw [slot_modify_other here]
      exact wf.leaves_free inside

/-- The directory that is to hold a name, in the tree that has it. -/
def home (tree : Tree V) (dir : Handle) (name : String) : Outcome V Handle :=
  tree.ensureDirs dir (Key.parse name).dirs

theorem home_live (wf : tree.WellFormed) (live : tree.IsLive dir) (name : String) :
    (home tree dir name).tree.IsLive (home tree dir name).result := by
  have free := (Key.free_parse name).1
  exact (wf.wellFormed_ensureDirs live free).follow_live
    ((wf.extends_ensureDirs live free).live live) (wf.follow_ensureDirs live free)

theorem tree_insert (dir : Handle) (name : String) (value : V) :
    ((View.mk tree dir).insert name value).tree =
      (home tree dir name).tree.modify (home tree dir name).result fun slot =>
        { slot with leaves := slot.leaves.insert (Key.parse name).leaf value } := rfl

theorem wellFormed_insert (wf : tree.WellFormed) (live : tree.IsLive dir) (name : String) (value : V) :
    ((View.mk tree dir).insert name value).tree.WellFormed := by
  have homeWf := wf.wellFormed_ensureDirs live (Key.free_parse name).1
  have homeLive := wf.home_live live name
  rw [tree_insert]
  refine homeWf.wellFormed_leaves homeLive (fun leaves => leaves.insert _ value) ?_
  intro segment isKey
  rcases Table.mem_keys_insert.mp isKey with rfl | old
  · exact (Key.free_parse name).2
  · exact homeWf.leaves_free homeLive.inside segment old

theorem extends_insert (wf : tree.WellFormed) (live : tree.IsLive dir) (name : String) (value : V) :
    Extends tree ((View.mk tree dir).insert name value).tree := by
  rw [tree_insert]
  exact (wf.extends_ensureDirs live (Key.free_parse name).1).trans
    (sameLinks_leaves _ _ fun leaves => leaves.insert _ value).toExtends

theorem erase_of_missing {name : String} (missing : tree.follow dir (Key.parse name).dirs = none) :
    (View.mk tree dir).erase name = .pure none tree := by
  simp [View.erase, missing]

theorem erase_of_found {name : String} {holder : Handle}
    (found : tree.follow dir (Key.parse name).dirs = some holder) :
    (View.mk tree dir).erase name =
      .pure ((tree.slot holder).leaves.get? (Key.parse name).leaf)
        (tree.modify holder fun slot =>
          { slot with leaves := slot.leaves.erase (Key.parse name).leaf }) := by
  simp [View.erase, found]

/-- Taking out an entry is not reported. -/
theorem events_erase (view : View V) (name : String) : (view.erase name).events = [] := by
  obtain ⟨tree, dir⟩ := view
  cases h : tree.follow dir (Key.parse name).dirs with
  | none => rw [erase_of_missing h]; rfl
  | some holder => rw [erase_of_found h]; rfl

theorem sameLinks_erase (tree : Tree V) (dir : Handle) (name : String) :
    SameLinks tree ((View.mk tree dir).erase name).tree := by
  cases h : tree.follow dir (Key.parse name).dirs with
  | none => rw [erase_of_missing h]; exact SameLinks.refl tree
  | some holder =>
    rw [erase_of_found h]
    exact sameLinks_leaves tree holder fun leaves => leaves.erase (Key.parse name).leaf

theorem wellFormed_erase (wf : tree.WellFormed) (live : tree.IsLive dir) (name : String) :
    ((View.mk tree dir).erase name).tree.WellFormed := by
  cases h : tree.follow dir (Key.parse name).dirs with
  | none => rw [erase_of_missing h]; exact wf
  | some holder =>
    rw [erase_of_found h]
    have holderLive := wf.follow_live live h
    refine wf.wellFormed_leaves holderLive (fun leaves => leaves.erase _) ?_
    intro segment isKey
    apply wf.leaves_free holderLive.inside segment
    exact (List.filter_sublist.map Prod.fst).subset isKey

/-- Taking out on a condition is taking out, or nothing. -/
theorem tree_eraseIf [BEq V] (view : View V) (name : String) (value : V) :
    (view.eraseIf name value).tree = (view.erase name).tree ∨
      (view.eraseIf name value).tree = view.tree := by
  unfold View.eraseIf
  split
  · exact .inl rfl
  · exact .inr rfl

theorem sameLinks_editAlts (tree : Tree V) (dir : Handle) (edit : List String → List String) :
    SameLinks tree ((View.mk tree dir).editAlts edit).tree :=
  sameLinks_modify tree dir (fun _ => rfl) (fun _ => rfl) (fun _ => rfl) (fun _ => rfl)

theorem leaves_editAlts (tree : Tree V) (dir other : Handle) (edit : List String → List String) :
    (((View.mk tree dir).editAlts edit).tree.slot other).leaves = (tree.slot other).leaves := by
  simp only [View.editAlts, Outcome.tree_pure, slot_modify]
  split <;> rfl

theorem wellFormed_editAlts (wf : tree.WellFormed) (dir : Handle) (edit : List String → List String) :
    ((View.mk tree dir).editAlts edit).tree.WellFormed := by
  refine (sameLinks_editAlts tree dir edit).wellFormed wf ?_ ?_
  · intro other inside detached
    rw [leaves_editAlts]
    exact (wf.cutOff _ (mem_slots inside) detached).1
  · intro other inside
    rw [leaves_editAlts]
    exact wf.leaves_free inside

/-! ## Commands -/

/-- The paths of a command lead to a live directory or nowhere. -/
theorem descend?_root (wf : tree.WellFormed) {way : List String} {view : View V}
    (h : tree.root.descend? way = some view) :
    ∃ dir, view = ⟨tree, dir⟩ ∧ tree.IsLive dir ∧
      tree.follow tree.rootHandle (way.flatMap segments) = some dir := by
  obtain ⟨reached, same⟩ := View.descend?_eq_some.mp h
  refine ⟨view.handle, ?_, wf.follow_live wf.root_live reached, reached⟩
  cases view
  cases same
  rfl

theorem wellFormed_extend (wf : tree.WellFormed) (entries : List (String × V)) :
    (tree.extend entries).tree.WellFormed := by
  induction entries generalizing tree with
  | nil => exact wf
  | cons entry entries ih =>
    rw [extend, Outcome.tree_andThen]
    exact ih (wf.wellFormed_insert wf.root_live entry.1 entry.2)

variable [BEq V]

theorem wellFormed_apply (wf : tree.WellFormed) (live : tree.IsLive dir) (change : Change V) :
    (change.apply ⟨tree, dir⟩).tree.WellFormed := by
  cases change with
  | insert name value => exact wf.wellFormed_insert live name value
  | erase name => exact wf.wellFormed_erase live name
  | eraseIf name value =>
    rcases tree_eraseIf ⟨tree, dir⟩ name value with same | same
    · simpa [Change.apply, same] using wf.wellFormed_erase live name
    · simpa [Change.apply, same] using wf
  | clear => exact wf.wellFormed_clear live
  | editAlts edit => exact wf.wellFormed_editAlts dir edit

theorem wellFormed_run (wf : tree.WellFormed) (command : Command V) :
    (command.run tree).tree.WellFormed := by
  cases command with
  | extend entries => exact wf.wellFormed_extend entries
  | clear => exact wellFormed_bare _ _
  | inside way change =>
    simp only [Command.run]
    cases h : tree.root.descend? way with
    | none => exact wf
    | some view =>
      obtain ⟨dir, rfl, live, -⟩ := wf.descend?_root h
      exact wf.wellFormed_apply live change

theorem wellFormed_runAll (wf : tree.WellFormed) (commands : List (Command V)) :
    (tree.runAll commands).tree.WellFormed := by
  induction commands generalizing tree with
  | nil => exact wf
  | cons command commands ih => exact ih (wf.wellFormed_run command)

end Tree.WellFormed

namespace Tree

theorem Reachable.wellFormed [BEq V] {tree : Tree V} (h : tree.Reachable) : tree.WellFormed := by
  obtain ⟨commands, rfl⟩ := h
  exact (wellFormed_bare [""] 0).wellFormed_runAll commands

end Tree
end SymbolTree
