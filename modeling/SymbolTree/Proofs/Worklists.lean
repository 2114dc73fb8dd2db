import SymbolTree.Proofs.Pruning
import SymbolTree.View.Loop

/-!
# Runs over worklists

In a well-formed tree a loop over a worklist comes to its end, in whatever order the worklist is:
what has been taken and what is below the directories that are left make up the subtrees of the
directories at the start, each directory once.

* `partition`: this invariant of a run, also while the loop changes what it takes;
* `exhausts_singleton`, `exhausts_children`: loops that begin with a directory or with what it holds;
* `runs_sweep`, `ended_sweep`: a sweep is a run, and it is not its bound that ends it;
* `size_eq_of_eachOnce`, `isEmpty_iff_of_ended`, `clear_eq_of_eachOnce`: what the loops are for does
  not depend on their order.
-/
namespace SymbolTree

variable {V : Type} {tree now later last : Tree V} {dir : Handle}
  {pending taken left more rest : List Handle} {loop : Loop V}

namespace Loop

/-! ## Runs -/

/-- A run goes on where another one stops. -/
theorem Runs.trans (run : loop.Runs tree pending taken later left)
    (onward : loop.Runs later left more last rest) :
    loop.Runs tree pending (taken ++ more) last rest := by
  induction run with
  | start => exact onward
  | turn free order _ ih => exact .turn free order (ih onward)

/-- What a run does to the tree, it does to the directories that it takes. -/
theorem Runs.later_eq (run : loop.Runs tree pending taken later left) :
    later = taken.foldl (fun tree dir => tree.modify dir loop.change) tree := by
  induction run with
  | start => rfl
  | turn _ _ _ ih => exact ih

theorem Runs.later_eq_self (run : loop.Runs tree pending taken later left)
    (idle : loop.change = id) : later = tree := by
  induction run with
  | start => rfl
  | turn _ _ _ ih => rw [ih, idle, Tree.modify_eq_self rfl]

/-- A loop that changes nothing has broken off at no directory that it has taken. -/
theorem Runs.onward_of_mem (run : loop.Runs tree pending taken later left)
    (idle : loop.change = id) : ∀ dir ∈ taken, loop.halt (tree.slot dir) = false := by
  induction run with
  | start => simp
  | @turn tree later dir pending next taken left onward _ _ ih =>
    rw [idle, Tree.modify_eq_self rfl] at ih
    intro other member
    rcases List.mem_cons.mp member with rfl | member
    · exact onward
    · exact ih other member

/-- A loop that is not at its end takes another turn. -/
theorem ended_or_turn (loop : Loop V) (tree : Tree V) (pending : List Handle) :
    loop.Ended tree pending ∨ ∃ dir later left, loop.Runs tree pending [dir] later left := by
  cases pending with
  | nil => exact .inl trivial
  | cons dir pending =>
    cases halted : loop.halt (tree.slot dir) with
    | true => exact .inl halted
    | false => exact .inr ⟨dir, _, _, .turn halted (List.Perm.refl _) (.start _ _)⟩

/-- A loop that is bounded in its turns can come to its end. -/
theorem exists_ended (most : Nat)
    (bounded : ∀ {taken later left}, loop.Runs tree pending taken later left → taken.length ≤ most) :
    ∃ taken later left, loop.Runs tree pending taken later left ∧ loop.Ended later left := by
  induction most generalizing tree pending with
  | zero =>
    rcases loop.ended_or_turn tree pending with ended | ⟨dir, later, left, turn⟩
    · exact ⟨[], tree, pending, .start _ _, ended⟩
    · exact absurd (bounded turn) (by simp)
  | succ most ih =>
    rcases loop.ended_or_turn tree pending with ended | ⟨dir, later, left, turn⟩
    · exact ⟨[], tree, pending, .start _ _, ended⟩
    · have fewer {taken last rest} (run : loop.Runs later left taken last rest) :
          taken.length ≤ most := Nat.le_of_succ_le_succ (bounded (turn.trans run))
      obtain ⟨taken, last, rest, run, ended⟩ := ih fewer
      exact ⟨_, last, rest, turn.trans run, ended⟩

end Loop

namespace Tree.WellFormed

/-- The directories taken and the subtrees of those that are left are the subtrees of those at the
start. The loop may change what it takes: it does not come back to it. -/
theorem partition (wf : tree.WellFormed) (run : loop.Runs now pending taken later left)
    (live : ∀ dir ∈ pending, tree.IsLive dir) (distinct : (pending.flatMap tree.subtree).Nodup)
    (same : ∀ dir ∈ pending.flatMap tree.subtree, now.slot dir = tree.slot dir) :
    (taken ++ left.flatMap tree.subtree).Perm (pending.flatMap tree.subtree) := by
  induction run with
  | start => exact .refl _
  | @turn now later dir pending next taken left _ order _ ih =>
    have dirLive := live dir List.mem_cons_self
    have opened : (dir :: pending).flatMap tree.subtree =
        dir :: ((tree.slot dir).children.values ++ pending).flatMap tree.subtree := by
      rw [List.flatMap_cons, wf.subtree_eq dirLive, List.flatMap_append, List.cons_append]
    rw [opened] at distinct same ⊢
    rw [same dir List.mem_cons_self] at order
    have nextLive : ∀ other ∈ next, tree.IsLive other := fun other member =>
      wf.next_live live other (order.mem_iff.mp member)
    have subtrees : (next.flatMap tree.subtree).Perm
        (((tree.slot dir).children.values ++ pending).flatMap tree.subtree) :=
      order.flatMap_right _
    obtain ⟨apart, distinctNext⟩ := List.nodup_cons.mp distinct
    have nextSame : ∀ other ∈ next.flatMap tree.subtree,
        (now.modify dir loop.change).slot other = tree.slot other := by
      intro other member
      have ahead := subtrees.mem_iff.mp member
      obtain ⟨top, isTop, below⟩ := List.mem_flatMap.mp member
      have otherLive := wf.subtree_live (nextLive top isTop) below
      have elsewhere : other.index ≠ dir.index := fun index =>
        apart (dirLive.eq_of_index otherLive.current index.symm ▸ ahead)
      rw [slot_modify_other elsewhere]
      exact same other (List.mem_cons_of_mem _ ahead)
    have onward := ih nextLive (subtrees.nodup_iff.mpr distinctNext) nextSame
    exact (onward.trans subtrees).cons dir

/-- A loop over distinct subtrees takes what is in them. -/
theorem exhausts (wf : tree.WellFormed) {dirs : Handle → Prop}
    (live : ∀ dir ∈ pending, tree.IsLive dir) (distinct : (pending.flatMap tree.subtree).Nodup)
    (same : ∀ dir ∈ pending.flatMap tree.subtree, now.slot dir = tree.slot dir)
    (size : now.slots.size = tree.slots.size)
    (isDirs : ∀ dir, dir ∈ pending.flatMap tree.subtree ↔ dirs dir) :
    loop.Exhausts now pending dirs := by
  have once {taken later left} (run : loop.Runs now pending taken later left) :
      taken.Nodup ∧ ∀ dir ∈ taken, dir ∈ pending.flatMap tree.subtree := by
    have all := wf.partition run live distinct same
    exact ⟨(List.nodup_append.mp (all.nodup_iff.mpr distinct)).1,
      fun dir member => all.subset (List.mem_append_left _ member)⟩
  have bounded {taken later left} (run : loop.Runs now pending taken later left) :
      taken.length ≤ now.slots.size := by
    rw [size]
    refine length_le_size (once run).1 ?_
    intro dir member
    obtain ⟨top, isTop, below⟩ := List.mem_flatMap.mp ((once run).2 dir member)
    exact wf.subtree_live (live top isTop) below
  refine ⟨bounded, ?ends, ?distinct, ?all⟩
  case ends =>
    intro taken later left run
    refine Loop.exists_ended now.slots.size ?_
    intro more last rest onward
    have longer := bounded (run.trans onward)
    rw [List.length_append] at longer
    omega
  case distinct =>
    intro taken later left run
    exact ⟨(once run).1, fun dir member => (isDirs dir).mp ((once run).2 dir member)⟩
  case all =>
    intro taken later run
    have all := wf.partition run live distinct same
    rw [List.flatMap_nil, List.append_nil] at all
    exact ⟨(once run).1, fun dir => all.mem_iff.trans (isDirs dir)⟩

/-! ## At and below a directory -/

/-- A loop that begins with a directory takes it and what is below it. -/
theorem exhausts_singleton (wf : tree.WellFormed) (live : tree.IsLive dir) (loop : Loop V) :
    loop.Exhausts tree [dir] fun other => other = dir ∨ tree.Below dir other := by
  have one : [dir].flatMap tree.subtree = tree.subtree dir := List.flatMap_singleton ..
  refine wf.exhausts (by simpa using live) (one ▸ wf.nodup_subtree live) (fun _ _ => rfl) rfl ?_
  intro other
  rw [one]
  exact wf.mem_subtree_iff_below live other

/-- A loop that begins with the subdirectories, in any order, takes what is below the directory. What
happens to the directory itself makes no difference. -/
theorem exhausts_children (wf : tree.WellFormed) (live : tree.IsLive dir) (loop : Loop V)
    (change : Slot V → Slot V) (order : pending.Perm (tree.slot dir).children.values) :
    loop.Exhausts (tree.modify dir change) pending (tree.Below dir) := by
  have subtrees : (pending.flatMap tree.subtree).Perm
      (tree.sweepAll (tree.slot dir).children.values) := by
    rw [wf.sweepAll_eq_flatMap live]
    exact order.flatMap_right _
  have isBelow (other : Handle) : other ∈ pending.flatMap tree.subtree ↔ tree.Below dir other :=
    subtrees.mem_iff.trans (wf.mem_sweepAll_children live)
  refine wf.exhausts ?_ (subtrees.nodup_iff.mpr (wf.nodup_sweepAll_children live).2) ?_
    (size_modify _ _ _) isBelow
  · intro other member
    exact wf.children_live live other (order.mem_iff.mp member)
  · intro other member
    have later := wf.below_later live ((isBelow other).mp member)
    exact slot_modify_other (Nat.ne_of_gt later) change

end Tree.WellFormed

/-! ## Sweeps -/

/-- A sweep is a run of a loop that changes nothing. -/
theorem runs_sweep (idle : loop.change = id) (tree : Tree V) (steps : Nat) (pending : List Handle) :
    let swept := tree.sweep loop.halt steps pending
    loop.Runs tree pending swept.visited tree swept.pending ∧
      (swept.visited.length = steps ∨ loop.Ended tree swept.pending) := by
  induction steps generalizing pending with
  | zero => exact ⟨.start _ _, .inl rfl⟩
  | succ steps ih =>
    cases pending with
    | nil => exact ⟨.start _ _, .inr trivial⟩
    | cons dir pending =>
      obtain ⟨run, ending⟩ := ih ((tree.slot dir).children.values ++ pending)
      cases halted : loop.halt (tree.slot dir) with
      | true =>
        simp only [Tree.sweep, halted, if_true]
        exact ⟨.start _ _, .inr halted⟩
      | false =>
        have unchanged : tree.modify dir loop.change = tree := by
          rw [idle, Tree.modify_eq_self rfl]
        simp only [Tree.sweep, halted, Bool.false_eq_true, if_false, List.length_cons,
          Nat.add_right_cancel_iff]
        refine ⟨.turn halted (List.Perm.refl _) ?_, ending⟩
        rw [unchanged]
        exact run

/-- The bound on the steps is not what ends a sweep. -/
theorem ended_sweep (idle : loop.change = id) {dirs : Handle → Prop}
    (exhausts : loop.Exhausts tree pending dirs) :
    loop.Ended tree (tree.sweep loop.halt tree.slots.size pending).pending := by
  obtain ⟨run, full | ended⟩ := runs_sweep idle tree tree.slots.size pending
  · rcases loop.ended_or_turn tree (tree.sweep loop.halt tree.slots.size pending).pending with
      ended | ⟨dir, later, left, turn⟩
    · exact ended
    · have longer := exhausts.bounded (run.trans turn)
      rw [List.length_append, full, List.length_singleton] at longer
      omega
  · exact ended

/-! ## What the loops are for -/

namespace View

/-- Adding up is the same in every order. -/
theorem size_eq_of_eachOnce (wf : tree.WellFormed) (live : tree.IsLive dir)
    (each : EachOnce taken fun other => other = dir ∨ tree.Below dir other) :
    (View.mk tree dir).size =
      taken.foldr (fun other count => (tree.slot other).leaves.size + count) 0 := by
  have order : taken.Perm (tree.subtree dir) := by
    rw [List.perm_ext_iff_of_nodup each.1 (wf.nodup_subtree live)]
    exact fun other => (each.2 other).trans (wf.mem_subtree_iff_below live other).symm
  rw [size, wf.sweepAll_singleton live]
  refine (order.foldr_eq' ?_ 0).symm
  omega

/-- Whether a loop breaks off at an entry is the same in every order. -/
theorem isEmpty_iff_of_ended (wf : tree.WellFormed) (live : tree.IsLive dir)
    (run : Loop.seeking.Runs tree [dir] taken later left) (ended : Loop.seeking.Ended later left) :
    (View.mk tree dir).isEmpty = true ↔ left = [] := by
  rw [isEmpty, List.isEmpty_iff, wf.pending_sweep_singleton live]
  constructor
  · intro noEntry
    cases left with
    | nil => rfl
    | cons other rest =>
      have one : [dir].flatMap tree.subtree = tree.subtree dir := List.flatMap_singleton ..
      have parts := wf.partition run (by simpa using live) (one ▸ wf.nodup_subtree live)
        fun _ _ => rfl
      have isLeft : other ∈ (other :: rest).flatMap tree.subtree :=
        List.mem_flatMap.mpr ⟨other, List.mem_cons_self, wf.mem_subtree_self other⟩
      have below := one ▸ parts.subset (List.mem_append_right taken isLeft)
      rw [run.later_eq_self rfl] at ended
      exact absurd ((noEntry other below).symm.trans ended) Bool.false_ne_true
  · rintro rfl other below
    have taken := ((wf.exhausts_singleton live _).all run).2 other
    exact run.onward_of_mem rfl other (taken.mpr ((wf.mem_subtree_iff_below live other).mp below))

/-- Cutting off what is below an emptied directory clears it, in every order. -/
theorem clear_eq_of_eachOnce (wf : tree.WellFormed) (live : tree.IsLive dir)
    (each : EachOnce taken (tree.Below dir)) :
    (View.mk tree dir).clear =
      ⟨(), (tree.modify dir Slot.emptied).cutOffAll taken, [.cleared dir.index taken.length]⟩ := by
  have order : taken.Perm (tree.sweepAll (tree.slot dir).children.values) := by
    rw [List.perm_ext_iff_of_nodup each.1 (wf.nodup_sweepAll_children live).2]
    exact fun other => (each.2 other).trans (wf.mem_sweepAll_children live).symm
  have trees : (View.mk tree dir).clear.tree = (tree.modify dir Slot.emptied).cutOffAll taken := by
    rw [Tree.clear_eq, Tree.cutOffAll_modify_emptied, Tree.cutOffAll_of_perm order]
    rfl
  rw [← trees, order.length_eq]
  rfl

end View
end SymbolTree
