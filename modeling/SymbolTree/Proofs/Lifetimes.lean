import Mathlib.Tactic.ByContra
import SymbolTree.Proofs.Edits

/-!
# Lifetimes of handles

A live directory stays where it is until a command cuts it off; what has been cut off stays so.

* `Command.CutsOff`: the commands that end a handle's life, read off the tree of that moment;
* `run_cases`: a command starts over, clears one directory or only adds to the tree;
* `StaysPut`: what a directory that is spared keeps;
* `isLive_runAll_iff`: a handle is live after a run if no command of the run has cut it off.
-/
namespace SymbolTree

variable {V : Type}

/-- Whether a command empties the tree as a whole. -/
def Command.startsOver : Command V → Bool
  | .clear => true
  | .extend _ | .inside _ _ => false

/-- The command empties the tree, or a directory that the one behind the handle is below. -/
def Command.CutsOff (tree : Tree V) (dir : Handle) : Command V → Prop
  | .clear => True
  | .inside way .clear => ∃ view, tree.root.descend? way = some view ∧ tree.Below view.handle dir
  | .extend _ | .inside _ (.insert ..) | .inside _ (.erase _) | .inside _ (.eraseIf ..)
  | .inside _ (.editAlts _) => False

/-- How many commands of a run empty the tree as a whole. -/
def emptyings (commands : List (Command V)) : Nat := commands.countP Command.startsOver

theorem calm_of_emptyings {command : Command V} {commands : List (Command V)}
    (none : emptyings (command :: commands) = 0) :
    command.startsOver = false ∧ emptyings commands = 0 := by
  simp only [emptyings, List.countP_eq_zero] at none ⊢
  constructor
  · simpa using none command List.mem_cons_self
  · exact fun c member => none c (List.mem_cons_of_mem _ member)

namespace Tree

/-- No command of the run cuts the directory off when its turn comes. -/
def Spared [BEq V] (tree : Tree V) (dir : Handle) (commands : List (Command V)) : Prop :=
  ∀ before command after, commands = before ++ command :: after →
    ¬ command.CutsOff (tree.runAll before).tree dir

/-- The directory is live in the later tree and stands where it stood. -/
structure StaysPut (tree later : Tree V) (dir : Handle) : Prop where
  live : later.IsLive dir
  segment : (later.slot dir).segment = (tree.slot dir).segment
  parent : (later.slot dir).parent = (tree.slot dir).parent
  way : ∀ path, tree.follow tree.rootHandle path = some dir →
    later.follow later.rootHandle path = some dir

/-- The directory has been cut off, and the tree has not been emptied since it was made. -/
def IsGone (tree : Tree V) (dir : Handle) : Prop :=
  dir.index < tree.slots.size ∧ dir.generation = tree.generation ∧
    (tree.slot dir).detached = true

variable {tree later : Tree V} {dir : Handle}

theorem isSome_view?_iff (tree : Tree V) (dir : Handle) :
    (tree.view? dir).isSome ↔ tree.IsLive dir := by
  unfold view?
  by_cases live : tree.IsLive dir <;> simp [live]

theorem view?_eq_none_iff (tree : Tree V) (dir : Handle) :
    tree.view? dir = none ↔ ¬ tree.IsLive dir := by
  unfold view?
  by_cases live : tree.IsLive dir <;> simp [live]

theorem IsGone.not_live (gone : tree.IsGone dir) : ¬ tree.IsLive dir := by
  intro live
  have attached := live.attached
  rw [gone.2.2] at attached
  cases attached

theorem StaysPut.refl (live : tree.IsLive dir) : StaysPut tree tree dir :=
  ⟨live, rfl, rfl, fun _ reach => reach⟩

theorem StaysPut.trans {last : Tree V} (first : StaysPut tree later dir)
    (second : StaysPut later last dir) : StaysPut tree last dir where
  live := second.live
  segment := second.segment.trans first.segment
  parent := second.parent.trans first.parent
  way path reach := second.way path (first.way path reach)

/-- A directory that stays put keeps its path. -/
theorem StaysPut.path_eq (wf : tree.WellFormed) (laterWf : later.WellFormed)
    (live : tree.IsLive dir) (kept : StaysPut tree later dir) :
    (View.mk later dir).path = (View.mk tree dir).path := by
  obtain ⟨way, reach⟩ := wf.exists_way live
  rw [wf.path_eq reach, laterWf.path_eq (kept.way way reach)]

theorem Extends.staysPut (more : Extends tree later) (live : tree.IsLive dir) :
    StaysPut tree later dir where
  live := more.live live
  segment := more.segment dir live.inside
  parent := more.parent dir live.inside
  way path reach := by
    rw [more.rootHandle_eq]
    exact more.follow reach

theorem Extends.isGone (more : Extends tree later) (gone : tree.IsGone dir) : later.IsGone dir := by
  obtain ⟨inside, current, detached⟩ := gone
  refine ⟨Nat.lt_of_lt_of_le inside more.size, current.trans more.generation.symm, ?_⟩
  rw [more.detached dir inside]
  exact detached

section
variable [BEq V]

theorem spared_nil (tree : Tree V) (dir : Handle) : tree.Spared dir [] := by
  intro before command after split
  simp at split

theorem spared_cons_iff (tree : Tree V) (dir : Handle) (command : Command V)
    (commands : List (Command V)) :
    tree.Spared dir (command :: commands) ↔
      ¬ command.CutsOff tree dir ∧ (command.run tree).tree.Spared dir commands := by
  constructor
  · intro spared
    refine ⟨spared [] command commands rfl, ?_⟩
    intro before later after split
    exact spared (command :: before) later after (by rw [split]; rfl)
  · rintro ⟨first, rest⟩ before later after split
    cases before with
    | nil =>
      obtain ⟨rfl, -⟩ := List.cons.inj split
      exact first
    | cons first' before =>
      obtain ⟨rfl, others⟩ := List.cons.inj split
      exact rest before later after others

theorem Spared.of_append {commands more : List (Command V)}
    (spared : tree.Spared dir (commands ++ more)) : tree.Spared dir commands := by
  rintro before command after rfl
  exact spared before command (after ++ more) (by simp)

end

namespace WellFormed

theorem staysPut_clear (wf : tree.WellFormed) {top : Handle} (topLive : tree.IsLive top)
    (live : tree.IsLive dir) (notBelow : ¬ tree.Below top dir) :
    StaysPut tree (tree.cleared top) dir := by
  obtain ⟨segment, parent, -⟩ := wf.slot_clear_keeps topLive live.current
  refine ⟨(wf.isLive_clear_iff topLive).mpr ⟨live, notBelow⟩, segment, parent, ?_⟩
  intro path reach
  rw [rootHandle_cleared]
  exact (wf.follow_clear_iff topLive).mpr ⟨reach, notBelow⟩

theorem isGone_clear_below (wf : tree.WellFormed) {top : Handle} (topLive : tree.IsLive top)
    (isBelow : tree.Below top dir) : (tree.cleared top).IsGone dir := by
  have live := wf.below_live topLive isBelow
  refine ⟨by simpa using live.inside, by simpa using live.current, ?_⟩
  rw [wf.slot_clear_below topLive isBelow]
  rfl

theorem isGone_clear (wf : tree.WellFormed) {top : Handle} (topLive : tree.IsLive top)
    (gone : tree.IsGone dir) : (tree.cleared top).IsGone dir := by
  obtain ⟨inside, current, detached⟩ := gone
  have notTop : dir ≠ top := by
    rintro rfl
    exact IsGone.not_live ⟨inside, current, detached⟩ topLive
  have notBelow : ¬ tree.Below top dir := fun isBelow =>
    IsGone.not_live ⟨inside, current, detached⟩ (wf.below_live topLive isBelow)
  refine ⟨by simpa using inside, by simpa using current, ?_⟩
  rw [wf.slot_clear_other topLive current notTop notBelow]
  exact detached

theorem extends_extend (wf : tree.WellFormed) (entries : List (String × V)) :
    Extends tree (tree.extend entries).tree := by
  induction entries generalizing tree with
  | nil => exact Extends.refl tree
  | cons entry entries ih =>
    rw [extend, Outcome.tree_andThen]
    exact (wf.extends_insert wf.root_live entry.1 entry.2).trans
      (ih (wf.wellFormed_insert wf.root_live entry.1 entry.2))

variable [BEq V]

/-- All that a command can do to the arena: it starts over, it clears one live directory, or it
keeps every directory and cuts nothing off. -/
theorem run_cases (wf : tree.WellFormed) (command : Command V) :
    command = .clear ∨
      (∃ way top, command = .inside way .clear ∧ tree.IsLive top ∧
        tree.root.descend? way = some ⟨tree, top⟩ ∧ (command.run tree).tree = tree.cleared top) ∨
      command.startsOver = false ∧ (∀ dir, ¬ command.CutsOff tree dir) ∧
        Extends tree (command.run tree).tree := by
  cases command with
  | clear => exact .inl rfl
  | extend entries => exact .inr (.inr ⟨rfl, fun _ h => h, wf.extends_extend entries⟩)
  | inside way change =>
    right
    simp only [Command.run]
    cases reached : tree.root.descend? way with
    | none =>
      right
      refine ⟨rfl, ?_, Extends.refl tree⟩
      intro dir cut
      cases change with
      | clear =>
        obtain ⟨view, h, -⟩ := cut
        rw [reached] at h
        cases h
      | insert | erase | eraseIf | editAlts => exact cut
    | some view =>
      obtain ⟨top, rfl, live, -⟩ := wf.descend?_root reached
      cases change with
      | clear => exact .inl ⟨way, top, rfl, live, reached, rfl⟩
      | insert name value => exact .inr ⟨rfl, fun _ h => h, wf.extends_insert live name value⟩
      | erase name => exact .inr ⟨rfl, fun _ h => h, (sameLinks_erase tree top name).toExtends⟩
      | eraseIf name value =>
        refine .inr ⟨rfl, fun _ h => h, ?_⟩
        rcases tree_eraseIf ⟨tree, top⟩ name value with same | same
        · simpa [Change.apply, same] using (sameLinks_erase tree top name).toExtends
        · simpa [Change.apply, same] using Extends.refl tree
      | editAlts edit =>
        exact .inr ⟨rfl, fun _ h => h, (sameLinks_editAlts tree top edit).toExtends⟩

theorem generation_run (wf : tree.WellFormed) (command : Command V) :
    (command.run tree).tree.generation =
      if command.startsOver then tree.generation + 1 else tree.generation := by
  rcases wf.run_cases command with rfl | ⟨way, top, rfl, -, -, after⟩ | ⟨calm, -, more⟩
  · rfl
  · rw [after]
    exact generation_cleared tree top
  · rw [calm, more.generation]
    rfl

theorem generation_runAll (wf : tree.WellFormed) (commands : List (Command V)) :
    (tree.runAll commands).tree.generation =
      tree.generation + UInt32.ofNat (emptyings commands) := by
  induction commands generalizing tree with
  | nil => simp [runAll, emptyings]
  | cons command commands ih =>
    have rest := ih (wf.wellFormed_run command)
    have first := wf.generation_run command
    simp only [runAll, Outcome.tree_andThen, Outcome.tree_map, emptyings, List.countP_cons] at rest ⊢
    rw [rest, first]
    split
    · rw [UInt32.ofNat_add, UInt32.add_assoc, UInt32.add_comm 1]
      rfl
    · rw [Nat.add_zero]

/-- A handle from before an emptying is not live, unless the generation has come round. -/
theorem not_live_of_emptied (wf : tree.WellFormed) (current : dir.generation = tree.generation)
    {commands : List (Command V)} (emptied : 0 < emptyings commands)
    (few : emptyings commands < UInt32.size) : ¬ (tree.runAll commands).tree.IsLive dir := by
  intro live
  have later := live.current
  rw [wf.generation_runAll, current] at later
  have places := congrArg UInt32.toNat later
  rw [UInt32.toNat_add, UInt32.toNat_ofNat'] at places
  have bound := tree.generation.toNat_lt
  unfold UInt32.size at few
  omega

/-! ## One command -/

theorem staysPut_run (wf : tree.WellFormed) (live : tree.IsLive dir) {command : Command V}
    (spared : ¬ command.CutsOff tree dir) : StaysPut tree (command.run tree).tree dir := by
  rcases wf.run_cases command with rfl | ⟨way, top, rfl, topLive, reached, after⟩ | ⟨-, -, more⟩
  · exact absurd trivial spared
  · rw [after]
    exact wf.staysPut_clear topLive live fun isBelow => spared ⟨_, reached, isBelow⟩
  · exact more.staysPut live

theorem isGone_run_of_cutsOff (wf : tree.WellFormed) {command : Command V}
    (calm : command.startsOver = false) (cut : command.CutsOff tree dir) :
    (command.run tree).tree.IsGone dir := by
  rcases wf.run_cases command with rfl | ⟨way, top, rfl, topLive, reached, after⟩ | ⟨-, none, -⟩
  · cases calm
  · obtain ⟨view, h, isBelow⟩ := cut
    obtain rfl := Option.some.inj (reached.symm.trans h)
    rw [after]
    exact wf.isGone_clear_below topLive isBelow
  · exact absurd cut (none dir)

theorem isGone_run (wf : tree.WellFormed) {command : Command V}
    (calm : command.startsOver = false) (gone : tree.IsGone dir) :
    (command.run tree).tree.IsGone dir := by
  rcases wf.run_cases command with rfl | ⟨way, top, rfl, topLive, -, after⟩ | ⟨-, -, more⟩
  · cases calm
  · rw [after]
    exact wf.isGone_clear topLive gone
  · exact more.isGone gone

/-! ## Runs -/

theorem isGone_runAll (wf : tree.WellFormed) (gone : tree.IsGone dir) {commands : List (Command V)}
    (none : emptyings commands = 0) : (tree.runAll commands).tree.IsGone dir := by
  induction commands generalizing tree with
  | nil => exact gone
  | cons command commands ih =>
    obtain ⟨calm, rest⟩ := calm_of_emptyings none
    exact ih (wf.wellFormed_run command) (wf.isGone_run calm gone) rest

theorem staysPut_runAll (wf : tree.WellFormed) (live : tree.IsLive dir)
    {commands : List (Command V)} (spared : tree.Spared dir commands) :
    StaysPut tree (tree.runAll commands).tree dir := by
  induction commands generalizing tree with
  | nil => exact StaysPut.refl live
  | cons command commands ih =>
    obtain ⟨first, rest⟩ := (spared_cons_iff tree dir command commands).mp spared
    have kept := wf.staysPut_run live first
    exact kept.trans (ih (wf.wellFormed_run command) kept.live rest)

/-- A directory that one of the commands cuts off is gone after the last of them, as long as the
tree is not emptied. -/
theorem isGone_of_not_spared (wf : tree.WellFormed) (live : tree.IsLive dir)
    {commands : List (Command V)} (none : emptyings commands = 0)
    (cut : ¬ tree.Spared dir commands) : (tree.runAll commands).tree.IsGone dir := by
  induction commands generalizing tree with
  | nil => exact absurd (spared_nil tree dir) cut
  | cons command commands ih =>
    obtain ⟨calm, rest⟩ := calm_of_emptyings none
    have nextWf := wf.wellFormed_run command
    by_cases first : command.CutsOff tree dir
    · exact nextWf.isGone_runAll (wf.isGone_run_of_cutsOff calm first) rest
    · have kept := wf.staysPut_run live first
      refine ih nextWf kept.live rest fun spared => cut ?_
      exact (spared_cons_iff tree dir command commands).mpr ⟨first, spared⟩

/-- Fewer emptyings than there are generations: the handle is live afterwards if no command has cut
the directory off. -/
theorem isLive_runAll_iff (wf : tree.WellFormed) (live : tree.IsLive dir)
    {commands : List (Command V)} (few : emptyings commands < UInt32.size) :
    (tree.runAll commands).tree.IsLive dir ↔ tree.Spared dir commands := by
  constructor
  · intro later
    by_contra cut
    by_cases none : emptyings commands = 0
    · exact (wf.isGone_of_not_spared live none cut).not_live later
    · exact wf.not_live_of_emptied live.current (Nat.pos_of_ne_zero none) few later
  · intro spared
    exact (wf.staysPut_runAll live spared).live

end WellFormed
end Tree
end SymbolTree
