import Mathlib.Data.List.Nodup
import SymbolTree.Proofs.Lifetimes

/-!
# Handles over a run

Which handles a run gives out is read off its events: every directory made gets one, and every
emptying gives one to the new root.

* `gives_run`: a command that does not start over gives out the handles of its new slots, in order;
* `register_runAll`: what is known of all handles given out so far, carried through a run: above all
  that none of them is given out twice.

With the lifetimes of handles this says how long a handle is good for.
-/
namespace SymbolTree

variable {V : Type}

/-- The handle that an event reports, in a tree of the given generation. -/
def Event.handle? (generation : UInt32) : Event → Option Handle
  | .created _ _ node => some ⟨node, generation⟩
  | .emptied _ next => some ⟨0, next⟩
  | .cleared .. | .resolved .. | .unresolved .. => none

namespace Tree

/-- The handles that a run gives out, in order. -/
def issued [BEq V] (tree : Tree V) : List (Command V) → List Handle
  | [] => []
  | command :: commands =>
    let outcome := command.run tree
    outcome.events.filterMap (Event.handle? outcome.tree.generation) ++
      outcome.tree.issued commands

/-- The handles of the next `count` slots. -/
def nextHandles (tree : Tree V) (count : Nat) : List Handle :=
  (List.range' tree.slots.size count).map fun place => ⟨place, tree.generation⟩

/-- The events give out one handle for each slot that the later tree has more. -/
def Gives (tree later : Tree V) (events : List Event) : Prop :=
  ∃ count, later.generation = tree.generation ∧ later.slots.size = tree.slots.size + count ∧
    events.filterMap (Event.handle? tree.generation) = tree.nextHandles count

variable {tree later : Tree V}

theorem mem_nextHandles_iff {count : Nat} {handle : Handle} :
    handle ∈ tree.nextHandles count ↔
      tree.slots.size ≤ handle.index ∧ handle.index < tree.slots.size + count ∧
        handle.generation = tree.generation := by
  rw [nextHandles, List.mem_map]
  constructor
  · rintro ⟨place, member, rfl⟩
    rw [List.mem_range'_1] at member
    exact ⟨member.1, member.2, rfl⟩
  · rintro ⟨low, high, current⟩
    refine ⟨handle.index, List.mem_range'_1.mpr ⟨low, high⟩, ?_⟩
    rw [← current]

theorem nodup_nextHandles (tree : Tree V) (count : Nat) : (tree.nextHandles count).Nodup := by
  refine List.Nodup.map ?_ List.nodup_range'
  intro place other same
  exact congrArg Handle.index same

theorem Gives.of_size (generation : later.generation = tree.generation)
    (size : later.slots.size = tree.slots.size) : Gives tree later [] :=
  ⟨0, generation, size, rfl⟩

theorem Gives.refl (tree : Tree V) : Gives tree tree [] := Gives.of_size rfl rfl

theorem Gives.trans {last : Tree V} {events more : List Event} (first : Gives tree later events)
    (second : Gives later last more) : Gives tree last (events ++ more) := by
  obtain ⟨count, generation, size, given⟩ := first
  obtain ⟨count', generation', size', given'⟩ := second
  refine ⟨count + count', generation'.trans generation, by omega, ?_⟩
  rw [generation, nextHandles, generation, size] at given'
  rw [List.filterMap_append, given, given', nextHandles, nextHandles, ← List.range'_append_1,
    List.map_append]

theorem gives_ensureChild (tree : Tree V) (dir : Handle) (segment : String) :
    Gives tree (tree.ensureChild dir segment).tree (tree.ensureChild dir segment).events := by
  cases h : tree.child? dir segment with
  | some child =>
    rw [ensureChild_of_link h]
    exact Gives.refl tree
  | none =>
    rw [ensureChild_of_vacant h]
    exact ⟨1, rfl, size_attach tree dir segment, rfl⟩

theorem gives_ensureDirs (tree : Tree V) (dir : Handle) (path : List String) :
    Gives tree (tree.ensureDirs dir path).tree (tree.ensureDirs dir path).events := by
  induction path generalizing tree dir with
  | nil => exact Gives.refl tree
  | cons segment path ih => exact (gives_ensureChild tree dir segment).trans (ih _ _)

theorem gives_insert (tree : Tree V) (dir : Handle) (name : String) (value : V) :
    Gives tree ((View.mk tree dir).insert name value).tree
      ((View.mk tree dir).insert name value).events := by
  have made := gives_ensureDirs tree dir (Key.parse name).dirs
  have same := WellFormed.sameLinks_leaves (tree.ensureDirs dir (Key.parse name).dirs).tree
    (tree.ensureDirs dir (Key.parse name).dirs).result
    fun leaves => leaves.insert (Key.parse name).leaf value
  exact made.trans (Gives.of_size same.generation same.size)

theorem gives_extend (tree : Tree V) (entries : List (String × V)) :
    Gives tree (tree.extend entries).tree (tree.extend entries).events := by
  induction entries generalizing tree with
  | nil => exact Gives.refl tree
  | cons entry entries ih =>
    rw [extend, Outcome.tree_andThen, Outcome.events_andThen]
    exact (gives_insert tree _ entry.1 entry.2).trans (ih _)

theorem gives_erase (tree : Tree V) (dir : Handle) (name : String) :
    Gives tree ((View.mk tree dir).erase name).tree ((View.mk tree dir).erase name).events := by
  have same := WellFormed.sameLinks_erase tree dir name
  rw [WellFormed.events_erase]
  exact Gives.of_size same.generation same.size

theorem gives_clear (tree : Tree V) (dir : Handle) :
    Gives tree (tree.cleared dir) (View.mk tree dir).clear.events :=
  ⟨0, generation_cleared tree dir, size_cleared tree dir, rfl⟩

/-! ## The handles given out so far -/

/-- What is known of the handles given out on the way to a tree that has been emptied a number of
times: they differ, none is of a later generation, those of the present generation stand in the
arena, and every slot has one. -/
structure Register (given : List Handle) (emptied : Nat) (tree : Tree V) : Prop where
  generation : tree.generation = UInt32.ofNat emptied
  distinct : given.Nodup
  past : ∀ handle ∈ given, handle.generation.toNat ≤ emptied
  inside : ∀ handle ∈ given, handle.generation = tree.generation →
    handle.index < tree.slots.size
  all : ∀ place, place < tree.slots.size → ⟨place, tree.generation⟩ ∈ given

theorem Register.gives {given : List Handle} {emptied : Nat} {events : List Event}
    (register : Register given emptied tree) (few : emptied < UInt32.size)
    (gives : Gives tree later events) :
    Register (given ++ events.filterMap (Event.handle? later.generation)) emptied later := by
  obtain ⟨count, generation, size, new⟩ := gives
  rw [generation, new]
  have present : tree.generation.toNat = emptied := by
    rw [register.generation, UInt32.toNat_ofNat', Nat.mod_eq_of_lt few]
  refine ⟨generation.trans register.generation, ?distinct, ?past, ?inside, ?all⟩
  case distinct =>
    rw [List.nodup_append]
    refine ⟨register.distinct, nodup_nextHandles tree count, ?_⟩
    rintro old isOld handle member rfl
    obtain ⟨low, -, current⟩ := mem_nextHandles_iff.mp member
    have := register.inside old isOld current
    omega
  case past =>
    intro handle member
    rcases List.mem_append.mp member with old | new
    · exact register.past handle old
    · have current := (mem_nextHandles_iff.mp new).2.2
      exact Nat.le_of_eq ((congrArg UInt32.toNat current).trans present)
  case inside =>
    intro handle member current
    rcases List.mem_append.mp member with old | new
    · have := register.inside handle old (current.trans generation)
      omega
    · rw [size]
      exact (mem_nextHandles_iff.mp new).2.1
  case all =>
    intro place inside
    rw [generation, List.mem_append]
    rw [size] at inside
    by_cases old : place < tree.slots.size
    · exact .inl (register.all place old)
    · exact .inr (mem_nextHandles_iff.mpr ⟨Nat.le_of_not_lt old, inside, rfl⟩)

theorem Register.startOver {given : List Handle} {emptied : Nat}
    (register : Register given emptied tree) (few : emptied + 1 < UInt32.size) :
    Register (given ++ [⟨0, tree.generation + 1⟩]) (emptied + 1) tree.clear.tree := by
  have next : tree.generation + 1 = UInt32.ofNat (emptied + 1) := by
    rw [register.generation, UInt32.ofNat_add]
    rfl
  have number : (tree.generation + 1).toNat = emptied + 1 := by
    rw [next, UInt32.toNat_ofNat', Nat.mod_eq_of_lt few]
  have older : ∀ handle ∈ given, handle.generation ≠ tree.generation + 1 := by
    intro handle member same
    have past := register.past handle member
    rw [same, number] at past
    omega
  refine ⟨next, ?distinct, ?past, ?inside, ?all⟩
  case distinct =>
    rw [List.nodup_append]
    refine ⟨register.distinct, List.nodup_singleton _, ?_⟩
    rintro old isOld handle member rfl
    exact older old isOld (congrArg Handle.generation (List.mem_singleton.mp member))
  case past =>
    intro handle member
    rcases List.mem_append.mp member with old | new
    · exact Nat.le_succ_of_le (register.past handle old)
    · have same := congrArg Handle.generation (List.mem_singleton.mp new)
      exact Nat.le_of_eq ((congrArg UInt32.toNat same).trans number)
  case inside =>
    intro handle member current
    rcases List.mem_append.mp member with old | new
    · exact absurd current (older handle old)
    · rw [List.mem_singleton.mp new]
      exact Nat.one_pos
  case all =>
    intro place inside
    have first : place = 0 := Nat.lt_one_iff.mp inside
    rw [first]
    exact List.mem_append_right _ (List.mem_singleton.mpr rfl)

theorem register_empty : Register [⟨0, 0⟩] 0 (empty : Tree V) where
  generation := rfl
  distinct := List.nodup_singleton _
  past handle member := by
    have same := congrArg Handle.generation (List.mem_singleton.mp member)
    exact Nat.le_of_eq (congrArg UInt32.toNat same)
  inside handle member _ := by
    rw [List.mem_singleton.mp member]
    exact Nat.one_pos
  all place inside := by
    have first : place = 0 := Nat.lt_one_iff.mp inside
    rw [first]
    exact List.mem_singleton.mpr rfl

/-! ## Runs -/

variable [BEq V]

theorem gives_eraseIf (tree : Tree V) (dir : Handle) (name : String) (value : V) :
    Gives tree ((View.mk tree dir).eraseIf name value).tree
      ((View.mk tree dir).eraseIf name value).events := by
  unfold View.eraseIf
  split
  · exact gives_erase tree dir name
  · exact Gives.refl tree

theorem gives_apply (tree : Tree V) (dir : Handle) (change : Change V) :
    Gives tree (change.apply ⟨tree, dir⟩).tree (change.apply ⟨tree, dir⟩).events := by
  cases change with
  | insert name value => exact gives_insert tree dir name value
  | erase name => exact gives_erase tree dir name
  | eraseIf name value => exact gives_eraseIf tree dir name value
  | clear => exact gives_clear tree dir
  | editAlts edit =>
    have same := WellFormed.sameLinks_editAlts tree dir edit
    exact Gives.of_size same.generation same.size

theorem gives_run (tree : Tree V) {command : Command V} (calm : command.startsOver = false) :
    Gives tree (command.run tree).tree (command.run tree).events := by
  cases command with
  | clear => cases calm
  | extend entries => exact gives_extend tree entries
  | inside way change =>
    simp only [Command.run]
    cases reached : tree.root.descend? way with
    | none => exact Gives.refl tree
    | some view =>
      obtain ⟨-, same⟩ := View.descend?_eq_some.mp reached
      cases view
      cases same
      exact gives_apply tree _ change

theorem register_runAll {given : List Handle} {emptied : Nat}
    (register : Register given emptied tree) (commands : List (Command V))
    (few : emptied + emptyings commands < UInt32.size) :
    Register (given ++ tree.issued commands) (emptied + emptyings commands)
      (tree.runAll commands).tree := by
  induction commands generalizing tree given emptied with
  | nil => simpa [issued, emptyings, runAll] using register
  | cons command commands ih =>
    rw [issued, ← List.append_assoc]
    cases kind : command.startsOver with
    | false =>
      have count : emptyings (command :: commands) = emptyings commands := by
        simp [emptyings, kind]
      rw [count] at few ⊢
      have step := register.gives (by omega) (gives_run tree kind)
      exact ih step few
    | true =>
      have count : emptyings (command :: commands) = emptyings commands + 1 := by
        simp [emptyings, kind]
      have shift : emptied + (emptyings commands + 1) = emptied + 1 + emptyings commands := by omega
      rw [count, shift] at few ⊢
      cases command with
      | clear => exact ih (register.startOver (by omega)) few
      | extend | inside => cases kind

/-! ## How long a handle is good for -/

/-- Take a handle of a directory and run commands with fewer emptyings than there are generations.
The handle then gives a view if no command has cut the directory off; the view has the segment, the
path and the parent it had; and once the handle gives none, it gives none ever after. In a run from
the empty tree no handle is given out twice, and every slot has one that was given out. -/
theorem handles_over_runs (reachable : tree.Reachable) {dir : Handle} (live : tree.IsLive dir)
    (commands : List (Command V)) (few : emptyings commands < UInt32.size) :
    let later := (tree.runAll commands).tree
    ((later.view? dir).isSome ↔ tree.Spared dir commands) ∧
      (∀ view, later.view? dir = some view →
        view.handle = dir ∧ view.segment = (View.mk tree dir).segment ∧
          view.path = (View.mk tree dir).path ∧
          view.parent?.map View.handle = (View.mk tree dir).parent?.map View.handle) ∧
      (∀ more, emptyings (commands ++ more) < UInt32.size → later.view? dir = none →
        (tree.runAll (commands ++ more)).tree.view? dir = none) ∧
      ∀ run : List (Command V), emptyings run < UInt32.size →
        let given := rootHandle (empty : Tree V) :: issued empty run
        let last := (empty.runAll run).tree
        given.Nodup ∧ ∀ place, place < last.slots.size → ⟨place, last.generation⟩ ∈ given := by
  intro later
  have wf := reachable.wellFormed
  have laterWf : later.WellFormed := wf.wellFormed_runAll commands
  refine ⟨?spared, ?same, ?ended, ?distinct⟩
  case spared => rw [isSome_view?_iff, wf.isLive_runAll_iff live few]
  case same =>
    intro view h
    have laterLive : later.IsLive dir := by
      rw [← isSome_view?_iff, h]
      rfl
    have kept := wf.staysPut_runAll live ((wf.isLive_runAll_iff live few).mp laterLive)
    rw [view?, if_pos laterLive] at h
    obtain rfl := Option.some.inj h
    refine ⟨rfl, kept.segment, kept.path_eq wf laterWf live, ?_⟩
    have parents : (later.slot dir).parent = (tree.slot dir).parent := kept.parent
    simp [View.parent?, View.slot, parents, View.moveTo, Function.comp_def]
  case ended =>
    intro more fewMore dead
    rw [view?_eq_none_iff, wf.isLive_runAll_iff live few] at dead
    rw [view?_eq_none_iff, wf.isLive_runAll_iff live fewMore]
    exact fun spared => dead spared.of_append
  case distinct =>
    intro run fewRun given last
    have register := register_runAll register_empty run (by omega)
    exact ⟨register.distinct, register.all⟩

/-- A directory is cut off and one is made again under its path: the old handle stays dead. -/
theorem handles_over_runs_made_again :
    let first : List (Command Nat) := [.inside [] (.insert "a.b.x" 1)]
    let commands : List (Command Nat) := [.inside ["a"] .clear, .inside [] (.insert "a.b.x" 2)]
    let tree := (empty.runAll first).tree
    ¬ tree.Spared ⟨2, 0⟩ commands ∧ (tree.runAll (commands ++ first)).tree.view? ⟨2, 0⟩ = none := by
  intro first commands tree
  have live : tree.IsLive ⟨2, 0⟩ := by decide +kernel
  have dead : ¬ (tree.runAll commands).tree.IsLive ⟨2, 0⟩ := by decide +kernel
  obtain ⟨spared, -, ended, -⟩ :=
    handles_over_runs (⟨first, rfl⟩ : tree.Reachable) live commands (by decide)
  constructor
  · rw [← spared, isSome_view?_iff]
    exact dead
  · exact ended first (by decide) ((view?_eq_none_iff _ _).mpr dead)

end Tree
end SymbolTree
