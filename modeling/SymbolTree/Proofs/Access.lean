import SymbolTree.Checked
import SymbolTree.Proofs.Edits
import SymbolTree.Proofs.Enumeration

/-!
# Accesses to the arena

In a well-formed tree and from a live directory, no operation goes outside the arena: each checked
operation has the outcome that the operation has without the checks.
-/
namespace SymbolTree.Checked

open SymbolTree.Tree

variable {V : Type} {tree : Tree V} {dir : Handle}

theorem at?_eq (inside : dir.index < tree.slots.size) : tree.at? dir = some (tree.slot dir) := by
  simp [at?, slot, inside]

theorem change?_eq (inside : dir.index < tree.slots.size) (change : Slot V → Slot V) :
    tree.change? dir change = some (tree.modify dir change) := if_pos inside

theorem mapM_at? {dirs : List Handle} (inside : ∀ dir ∈ dirs, dir.index < tree.slots.size) :
    dirs.mapM tree.at? = some (dirs.map tree.slot) := by
  induction dirs with
  | nil => rfl
  | cons dir dirs ih =>
    simp [at?_eq (inside dir List.mem_cons_self), ih fun d h => inside d (List.mem_cons_of_mem _ h)]

/-! ## Walks -/

theorem child?_eq (inside : dir.index < tree.slots.size) (segment : String) :
    child? tree dir segment = some (tree.child? dir segment) := by
  simp [child?, at?_eq inside, Tree.child?]

theorem follow_eq (wf : tree.WellFormed) (live : tree.IsLive dir) (way : List String) :
    follow tree dir way = some (tree.follow dir way) := by
  induction way generalizing dir with
  | nil => rfl
  | cons segment way ih =>
    simp only [follow, child?_eq live.inside, follow_cons, Option.bind_eq_bind, Option.bind_some]
    cases link : tree.child? dir segment with
    | none => rfl
    | some child => exact ih (wf.child_live live link)

theorem lookup_eq (wf : tree.WellFormed) (live : tree.IsLive dir) (leaf : String)
    (dirs : List String) : lookup tree dir leaf dirs = some (tree.lookup dir leaf dirs) := by
  induction dirs generalizing dir with
  | nil =>
    simp only [lookup, Tree.lookup, at?_eq live.inside, Option.bind_eq_bind, Option.bind_some]
    cases (tree.slot dir).leaves.get? leaf <;> rfl
  | cons segment dirs ih =>
    simp only [lookup, Tree.lookup, child?_eq live.inside, Option.bind_eq_bind, Option.bind_some]
    cases link : tree.child? dir segment with
    | none => rfl
    | some child => exact ih (wf.child_live live link)

/-- The way up stays among live directories. -/
theorem lineage_live (wf : tree.WellFormed) (live : tree.IsLive dir) (steps : Nat) :
    ∀ handle ∈ tree.lineage steps dir, tree.IsLive handle := by
  induction steps generalizing dir with
  | zero => simp [Tree.lineage]
  | succ steps ih =>
    intro handle member
    rcases List.mem_cons.mp member with rfl | member
    · exact live
    · cases held : (tree.slot dir).parent with
      | none => simp [held] at member
      | some parent =>
        rw [held] at member
        exact ih (wf.parent_live live held) handle member

theorem lineage_eq (wf : tree.WellFormed) (live : tree.IsLive dir) (steps : Nat) :
    lineage tree steps dir = some (tree.lineage steps dir) := by
  induction steps generalizing dir with
  | zero => rfl
  | succ steps ih =>
    simp only [lineage, Tree.lineage, at?_eq live.inside, Option.bind_eq_bind, Option.bind_some]
    cases held : (tree.slot dir).parent with
    | none => rfl
    | some parent => simp [ih (wf.parent_live live held)]

theorem sweep_live (wf : tree.WellFormed) (halt : Slot V → Bool) (steps : Nat)
    {pending : List Handle} (live : ∀ handle ∈ pending, tree.IsLive handle) :
    ∀ handle ∈ (tree.sweep halt steps pending).visited, tree.IsLive handle := by
  induction steps generalizing pending with
  | zero => simp [Tree.sweep]
  | succ steps ih =>
    cases pending with
    | nil => simp [Tree.sweep]
    | cons dir pending =>
      rw [Tree.sweep]
      split
      · simp
      · intro handle member
        rcases List.mem_cons.mp member with rfl | member
        · exact live handle List.mem_cons_self
        · exact ih (wf.next_live live) handle member

theorem sweep_eq (wf : tree.WellFormed) (halt : Slot V → Bool) (steps : Nat)
    {pending : List Handle} (live : ∀ handle ∈ pending, tree.IsLive handle) :
    sweep tree halt steps pending = some (tree.sweep halt steps pending) := by
  induction steps generalizing pending with
  | zero => rfl
  | succ steps ih =>
    cases pending with
    | nil => rfl
    | cons dir pending =>
      have inside := (live dir List.mem_cons_self).inside
      simp only [sweep, Tree.sweep, at?_eq inside, Option.bind_eq_bind, Option.bind_some]
      split
      · rfl
      · simp [ih (wf.next_live live)]

/-! ## Questions -/

theorem get?_eq (wf : tree.WellFormed) (live : tree.IsLive dir) (name : String) :
    get? ⟨tree, dir⟩ name = some ((View.mk tree dir).get? name) := by
  simp only [get?, follow_eq wf live, View.get?_eq, Option.bind_eq_bind, Option.bind_some]
  cases found : tree.follow dir (Key.parse name).dirs with
  | none => rfl
  | some holder => simp [at?_eq (wf.follow_live live found).inside]

theorem get_eq (wf : tree.WellFormed) (live : tree.IsLive dir) (name : String) :
    get ⟨tree, dir⟩ name = some ((View.mk tree dir).get name) := by
  simp [get, lookup_eq wf live, View.get]

theorem subdir?_eq (wf : tree.WellFormed) (live : tree.IsLive dir) (path : String) :
    subdir? ⟨tree, dir⟩ path = some ((View.mk tree dir).subdir? path) := by
  simp [subdir?, follow_eq wf live, View.subdir?]

theorem path_eq (wf : tree.WellFormed) (live : tree.IsLive dir) :
    path ⟨tree, dir⟩ = some (View.mk tree dir).path := by
  have inside := fun handle member => (lineage_live wf live tree.slots.size handle member).inside
  simp only [path, lineage_eq wf live, mapM_at? inside, Option.bind_eq_bind, Option.bind_some,
    View.path, View.lineage, List.filter_map, List.map_map]
  rfl

theorem size_eq (wf : tree.WellFormed) (live : tree.IsLive dir) :
    size ⟨tree, dir⟩ = some (View.mk tree dir).size := by
  have start : ∀ handle ∈ [dir], tree.IsLive handle := by simpa using live
  have inside := fun handle member =>
    (sweep_live wf (fun _ => false) tree.slots.size start handle member).inside
  simp only [size, sweep_eq wf _ _ start, mapM_at? inside, Option.bind_eq_bind, Option.bind_some,
    List.foldr_map]
  rfl

theorem isEmpty_eq (wf : tree.WellFormed) (live : tree.IsLive dir) :
    isEmpty ⟨tree, dir⟩ = some (View.mk tree dir).isEmpty := by
  have start : ∀ handle ∈ [dir], tree.IsLive handle := by simpa using live
  simp [isEmpty, sweep_eq wf _ _ start, View.isEmpty]

/-! ## Enumeration -/

theorem enter_eq (inside : dir.index < tree.slots.size) (lead : String) :
    enter tree dir lead = some (.enter tree dir lead) := by
  simp [enter, at?_eq inside, Frame.enter]

theorem move_eq (cursor : Cursor V) (sound : cursor.Sound) : move cursor = some cursor.move := by
  obtain ⟨tree, stack⟩ := cursor
  match stack with
  | ⟨lead, (segment, child) :: children, leaves⟩ :: outer =>
    have childLive := sound.live _ List.mem_cons_self _ List.mem_cons_self
    simp [move, enter_eq childLive.inside, Cursor.move]
  | [] => rfl
  | ⟨_, [], _⟩ :: _ => rfl

theorem advance_eq (cursor : Cursor V) (sound : cursor.Sound) (moves : Nat) :
    advance moves cursor = some (cursor.advance moves) := by
  induction moves generalizing cursor with
  | zero => rfl
  | succ moves ih =>
    have kept := cursor.move_keeps sound
    simp only [advance, Cursor.advance, move_eq cursor sound, Option.bind_eq_bind, Option.bind_some]
    cases h : cursor.move with
    | passing next =>
      rw [h] at kept
      exact ih next kept.2.1
    | found entry next => rfl
    | finished => rfl

theorem advance_sound (cursor : Cursor V) (sound : cursor.Sound) (moves : Nat)
    {entry : String × V} {next : Cursor V} (found : cursor.advance moves = .found entry next) :
    next.Sound := by
  induction moves generalizing cursor with
  | zero => cases found
  | succ moves ih =>
    have kept := cursor.move_keeps sound
    rw [Cursor.advance] at found
    cases h : cursor.move with
    | passing passed =>
      rw [h] at kept found
      exact ih passed kept.2.1 found
    | found entry' next' =>
      rw [h] at kept found
      obtain ⟨rfl, rfl⟩ := Move.found.inj found
      exact kept.2.1
    | finished =>
      rw [h] at found
      cases found

theorem take_eq (cursor : Cursor V) (sound : cursor.Sound) (count : Nat) :
    take count cursor = some (cursor.take count) := by
  induction count generalizing cursor with
  | zero => rfl
  | succ count ih =>
    simp only [take, Cursor.take, Cursor.next, advance_eq cursor sound, Option.bind_eq_bind,
      Option.bind_some]
    cases h : cursor.advance (2 * cursor.tree.slots.size + 1) with
    | passing next => rfl
    | found entry next => simp [ih next (advance_sound cursor sound _ h)]
    | finished => rfl

theorem entries_eq (wf : tree.WellFormed) (live : tree.IsLive dir) :
    entries ⟨tree, dir⟩ = some (View.mk tree dir).entries := by
  simp only [entries, enter_eq live.inside, Option.bind_eq_bind, Option.bind_some]
  exact take_eq _ (View.cursor_sound wf live) _

/-! ## Resolution -/

theorem hit?_eq (wf : tree.WellFormed) (live : tree.IsLive dir) (step : Step) (key : String) :
    hit? ⟨tree, dir⟩ step key = some ((View.mk tree dir).hit? step key) := by
  simp [hit?, get?_eq wf live, View.hit?]

theorem firstHit?_eq (wf : tree.WellFormed) (live : tree.IsLive dir) (scopes : List String)
    (name : String) :
    firstHit? ⟨tree, dir⟩ scopes name = some ((View.mk tree dir).firstHit? scopes name) := by
  have pure_hit? (step : Step) (key : String) : hit? ⟨tree, dir⟩ step key =
      pure ((View.mk tree dir).hit? step key) := hit?_eq wf live step key
  simp only [firstHit?, at?_eq live.inside, pure_hit?, List.findSomeM?_pure, pure_bind,
    Option.bind_eq_bind, Option.bind_some]
  rfl

/-! ## Edits -/

theorem ensureChild_eq (live : tree.IsLive dir) (segment : String) :
    ensureChild tree dir segment = some (tree.ensureChild dir segment) := by
  have grown : dir.index < (tree.slots.push (.fresh segment (some dir))).size := by
    have inside := live.inside
    rw [Array.size_push]
    omega
  simp only [ensureChild, Tree.ensureChild, child?_eq live.inside, Option.bind_eq_bind,
    Option.bind_some]
  cases tree.child? dir segment with
  | some child => rfl
  | none =>
    rw [change?_eq grown]
    rfl

theorem ensureDirs_eq (wf : tree.WellFormed) (live : tree.IsLive dir) {path : List String}
    (free : Free path) : ensureDirs tree dir path = some (tree.ensureDirs dir path) := by
  induction path generalizing tree dir with
  | nil => rfl
  | cons segment path ih =>
    have rest := ih (wf.wellFormed_ensureChild live free.head)
      (wf.ensureChild_live live segment) free.tail
    simp [ensureDirs, Tree.ensureDirs, ensureChild_eq live, rest, Outcome.andThen]

theorem insert_eq (wf : tree.WellFormed) (live : tree.IsLive dir) (name : String) (value : V) :
    insert ⟨tree, dir⟩ name value = some ((View.mk tree dir).insert name value) := by
  have inside := (wf.home_live live name).inside
  simp only [WellFormed.home] at inside
  simp [insert, ensureDirs_eq wf live (Key.free_parse name).1, at?_eq inside, change?_eq inside,
    View.insert, Outcome.andThen, Outcome.pure]

theorem erase_eq (wf : tree.WellFormed) (live : tree.IsLive dir) (name : String) :
    erase ⟨tree, dir⟩ name = some ((View.mk tree dir).erase name) := by
  simp only [erase, follow_eq wf live, Option.bind_eq_bind, Option.bind_some]
  cases found : tree.follow dir (Key.parse name).dirs with
  | none => rw [WellFormed.erase_of_missing found]; rfl
  | some holder =>
    have inside := (wf.follow_live live found).inside
    rw [WellFormed.erase_of_found found]
    simp [at?_eq inside, change?_eq inside]

theorem eraseIf_eq [BEq V] (wf : tree.WellFormed) (live : tree.IsLive dir) (name : String)
    (value : V) : eraseIf ⟨tree, dir⟩ name value = some ((View.mk tree dir).eraseIf name value) := by
  have same : ((View.mk tree dir).get? name).any (· == value) =
      (View.mk tree dir).holds name value := rfl
  simp only [eraseIf, View.eraseIf, get?_eq wf live, erase_eq wf live, same, Option.bind_eq_bind,
    Option.bind_some]
  by_cases held : (View.mk tree dir).holds name value = true
  · rw [if_pos held, if_pos held]
    rfl
  · rw [if_neg held, if_neg held]
    rfl

theorem foldlM_change? {dirs : List Handle} (inside : ∀ dir ∈ dirs, dir.index < tree.slots.size) :
    dirs.foldlM (fun tree dir => tree.change? dir Slot.cutOff) tree = some (tree.cutOffAll dirs) := by
  induction dirs generalizing tree with
  | nil => rfl
  | cons dir dirs ih =>
    have later : ∀ d ∈ dirs, d.index < (tree.modify dir Slot.cutOff).slots.size := by
      simpa using fun d member => inside d (List.mem_cons_of_mem _ member)
    simp only [List.foldlM_cons, change?_eq (inside dir List.mem_cons_self), Option.bind_eq_bind,
      Option.bind_some, ih later]
    rfl

theorem clear_eq (wf : tree.WellFormed) (live : tree.IsLive dir) :
    clear ⟨tree, dir⟩ = some (View.mk tree dir).clear := by
  have childrenLive := wf.children_live live
  have inside : ∀ below ∈ tree.sweepAll (tree.slot dir).children.values,
      below.index < tree.slots.size := fun below member =>
    (sweep_live wf (fun _ => false) tree.slots.size childrenLive below member).inside
  have pruned : dir.index < (tree.cutOffAll
      (tree.sweepAll (tree.slot dir).children.values)).slots.size := by
    rw [size_cutOffAll]
    exact live.inside
  have cut := foldlM_change? inside
  have last := change?_eq pruned Slot.emptied
  simp only [sweepAll] at cut last
  simp only [clear, at?_eq live.inside, sweep_eq wf _ _ childrenLive, cut, last,
    Option.bind_eq_bind, Option.bind_some]
  rfl

theorem editAlts_eq (live : tree.IsLive dir) (edit : List String → List String) :
    editAlts ⟨tree, dir⟩ edit = some ((View.mk tree dir).editAlts edit) := by
  simp [editAlts, at?_eq live.inside, change?_eq live.inside, View.editAlts, View.alts, View.slot]

theorem startOver_eq (wf : tree.WellFormed) : startOver tree = some tree.clear := by
  have first : 1 ≤ tree.slots.size := wf.root.1
  simp [startOver, at?_eq wf.root_live.inside, minus, first, Tree.clear]

/-! ## Commands -/

theorem extend_eq (wf : tree.WellFormed) (entries : List (String × V)) :
    extend tree entries = some (tree.extend entries) := by
  induction entries generalizing tree with
  | nil => rfl
  | cons entry entries ih =>
    have rest := ih (wf.wellFormed_insert wf.root_live entry.1 entry.2)
    have first := insert_eq wf wf.root_live entry.1 entry.2
    simp only [extend, Tree.extend, Tree.root, first, rest, Option.bind_eq_bind, Option.bind_some]
    rfl

theorem descend?_eq (wf : tree.WellFormed) (live : tree.IsLive dir) (way : List String) :
    descend? ⟨tree, dir⟩ way = some ((View.mk tree dir).descend? way) := by
  induction way generalizing dir with
  | nil => rfl
  | cons path way ih =>
    simp only [descend?, subdir?_eq wf live, View.descend?, List.foldlM_cons, Option.bind_eq_bind,
      Option.bind_some]
    cases h : (View.mk tree dir).subdir? path with
    | none => rfl
    | some view =>
      obtain ⟨child, found, rfl⟩ := Option.map_eq_some_iff.mp h
      exact ih (wf.follow_live live found)

variable [BEq V]

theorem apply_eq (wf : tree.WellFormed) (live : tree.IsLive dir) (change : Change V) :
    apply ⟨tree, dir⟩ change = some (change.apply ⟨tree, dir⟩) := by
  cases change with
  | insert name value => simp [apply, insert_eq wf live, Change.apply]
  | erase name => simp [apply, erase_eq wf live, Change.apply]
  | eraseIf name value => simp [apply, eraseIf_eq wf live, Change.apply]
  | clear => simp [apply, clear_eq wf live, Change.apply]
  | editAlts edit => simp [apply, editAlts_eq live, Change.apply]

theorem run_eq (wf : tree.WellFormed) (command : Command V) :
    run tree command = some (command.run tree) := by
  cases command with
  | extend entries => simp [run, extend_eq wf, Command.run]
  | clear => simp [run, startOver_eq wf, Command.run]
  | inside way change =>
    simp only [run, Command.run, Tree.root, descend?_eq wf wf.root_live, Option.bind_eq_bind,
      Option.bind_some]
    cases h : tree.root.descend? way with
    | none =>
      rw [Tree.root] at h
      rw [h]
      rfl
    | some view =>
      obtain ⟨dir, rfl, live, -⟩ := wf.descend?_root h
      rw [Tree.root] at h
      rw [h]
      exact apply_eq wf live change

end SymbolTree.Checked
