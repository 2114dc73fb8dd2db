import SymbolTree.Arrangement
import SymbolTree.Proofs.Refinement

/-!
# Trees in any arrangement

An arrangement of a tree has the same ways and holds the same, so a tree that a run builds agrees
with its model whatever the tables do.

* `Arranges.follow_eq`, `Arranges.isLive_iff`: ways and live directories;
* `Arranges.wellFormed`, `Model.Agrees.arranges`: what an arrangement keeps;
* `Model.Agrees.evolves`: a run with arrangements agrees with the run of the model;
* `Arises.wellFormed`: what arises is well-formed; `Reachable.arises`: a run without arrangements is
  one of them.
-/
namespace SymbolTree

variable {V : Type}

theorem Slot.Arranges.refl (slot : Slot V) : slot.Arranges slot :=
  ⟨rfl, rfl, rfl, rfl, .refl _, .refl _⟩

namespace Tree

variable {tree arranged : Tree V} {dir : Handle}

namespace Arranges

theorem refl (tree : Tree V) : tree.Arranges tree := ⟨rfl, rfl, fun _ => Slot.Arranges.refl _⟩

theorem rootHandle_eq (order : tree.Arranges arranged) : arranged.rootHandle = tree.rootHandle := by
  simp [rootHandle, order.generation]

theorem child?_eq (order : tree.Arranges arranged) (dir : Handle) (segment : String) :
    arranged.child? dir segment = tree.child? dir segment :=
  Table.get?_of_perm (order.slot dir).children segment

theorem follow_eq (order : tree.Arranges arranged) (start : Handle) (way : List String) :
    arranged.follow start way = tree.follow start way := by
  induction way generalizing start with
  | nil => rfl
  | cons segment way ih => simp only [follow_cons, order.child?_eq, ih]

theorem isLive_iff (order : tree.Arranges arranged) : arranged.IsLive dir ↔ tree.IsLive dir := by
  simp [IsLive, order.size, order.generation, (order.slot dir).detached]

theorem wellFormed (order : tree.Arranges arranged) (wf : tree.WellFormed) : arranged.WellFormed where
  root := by
    have atRoot := order.slot tree.rootHandle
    rw [order.rootHandle_eq, order.size, atRoot.parent, atRoot.segment, atRoot.detached]
    exact wf.root
  down dir child segment current link := by
    rw [order.child?_eq] at link
    rw [order.generation] at current
    rw [order.isLive_iff, (order.slot child).segment, (order.slot child).parent]
    exact wf.down dir child segment current link
  up dir live ne := by
    rw [order.isLive_iff] at live
    rw [order.rootHandle_eq] at ne
    simp only [(order.slot dir).parent, (order.slot dir).segment, order.isLive_iff, order.child?_eq]
    exact wf.up dir live ne
  cutOff := by
    rw [forall_mem_slots]
    intro dir inside detached
    rw [order.size] at inside
    rw [(order.slot dir).detached] at detached
    obtain ⟨noLeaf, noChild⟩ := wf.cutOff _ (mem_slots inside) detached
    exact ⟨(noLeaf ▸ (order.slot dir).leaves).eq_nil, (noChild ▸ (order.slot dir).children).eq_nil⟩
  free := by
    rw [forall_mem_slots]
    intro dir inside segment member
    rw [order.size] at inside
    apply wf.free _ (mem_slots inside) segment
    have sameChildren := (order.slot dir).children.map Prod.fst
    have sameLeaves := (order.slot dir).leaves.map Prod.fst
    exact (sameChildren.append sameLeaves).mem_iff.mp member

end Arranges
end Tree

/-! ## Agreement with a model -/

namespace Model

variable {model : Model V} {tree arranged later : Tree V}

theorem Agrees.arranges (agrees : model.Agrees tree) (order : tree.Arranges arranged) :
    model.Agrees arranged where
  wellFormed := order.wellFormed agrees.wellFormed
  alts path := by
    rw [← agrees.alts, Tree.altsAt, Tree.altsAt, order.rootHandle_eq, order.follow_eq]
    simp only [(order.slot _).alts]
  values name := by
    rw [← agrees.values, Tree.valueAt, Tree.valueAt, order.rootHandle_eq, order.follow_eq]
    simp only [Table.get?_of_perm (order.slot _).leaves]

/-- A run with arrangements ends in agreement with the run of the model, with the same answers. -/
theorem Agrees.evolves [BEq V] {commands : List (Command V)} {answers : List (Answer V)}
    (agrees : model.Agrees tree) (run : tree.Evolves commands answers later) :
    (model.runAll commands).1.Agrees later ∧ answers = (model.runAll commands).2 := by
  induction run generalizing model with
  | done order => exact ⟨agrees.arranges order, rfl⟩
  | @run tree arranged later command commands answers order rest ih =>
    obtain ⟨next, answer⟩ := (agrees.arranges order).run command
    obtain ⟨last, others⟩ := ih next
    exact ⟨last, congrArg₂ List.cons answer others⟩

end Model

namespace Tree

variable [BEq V] {tree : Tree V}

theorem Arises.exists_agrees (arises : tree.Arises) : ∃ model : Model V, model.Agrees tree := by
  obtain ⟨commands, answers, run⟩ := arises
  exact ⟨_, (Model.agrees_empty.evolves run).1⟩

theorem Arises.wellFormed (arises : tree.Arises) : tree.WellFormed := by
  obtain ⟨model, agrees⟩ := arises.exists_agrees
  exact agrees.wellFormed

/-- A run in which no table is touched but by the commands. -/
theorem evolves_runAll (tree : Tree V) (commands : List (Command V)) :
    tree.Evolves commands (tree.runAll commands).result (tree.runAll commands).tree := by
  induction commands generalizing tree with
  | nil => exact .done (Arranges.refl tree)
  | cons command commands ih => exact .run (Arranges.refl tree) (ih (command.run tree).tree)

theorem Reachable.arises (reachable : tree.Reachable) : tree.Arises := by
  obtain ⟨commands, rfl⟩ := reachable
  exact ⟨commands, _, evolves_runAll empty commands⟩

end Tree
end SymbolTree
