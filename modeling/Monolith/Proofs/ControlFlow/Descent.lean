import Mathlib.Algebra.BigOperators.Group.Finset.Basic
import Mathlib.Algebra.Order.Ring.Nat
import Mathlib.Logic.Relation
import Monolith.Proofs.ControlFlow.Traversal

/-! # Descending with a stack

The descent takes one step after the other and keeps the blocks that it is not done with on a
stack. Every step uses up some of the work that is left, so the stack gets empty. From entering
a block to being done with it, the descent does what a visit of the block does, whatever stands
below it on the stack.
-/

namespace Monolith.Function

namespace Descent

variable {f : Function}

def Step (f : Function) (d d' : Descent) : Prop := d.step? f = some d'

/-! ## What a step does -/

section

variable {t : Traversal} {id target : BlockId} {next : Nat} {below : List (BlockId × Nat)}

/-- A block is done with when all of its successors have been looked at. -/
theorem step_done (h : (f.successors id)[next]? = none) :
    Step f ⟨t, (id, next) :: below⟩ ⟨{ t with order := id :: t.order }, below⟩ := by
  simp only [Step, step?, h]

/-- A successor that is new is entered. -/
theorem step_enter (h : (f.successors id)[next]? = some target) (hblock : f.hasBlock target = true)
    (hnew : target ∉ t.visited) :
    Step f ⟨t, (id, next) :: below⟩
      ⟨{ t with visited := target :: t.visited }, (target, 0) :: (id, next + 1) :: below⟩ := by
  have hcontains : t.visited.contains target = false := by simpa using hnew
  simp only [Step, step?, h, hblock, hcontains, Bool.not_false, Bool.and_self, if_true]

/-- A successor that is missing or has been visited is passed over. -/
theorem step_skip (h : (f.successors id)[next]? = some target)
    (hskip : f.hasBlock target = true → target ∈ t.visited) :
    Step f ⟨t, (id, next) :: below⟩ ⟨t, (id, next + 1) :: below⟩ := by
  have hold : (f.hasBlock target && !t.visited.contains target) = false := by
    cases hblock : f.hasBlock target with
    | false => rfl
    | true => simpa using hskip hblock
  simp only [Step, step?, h, hold, Bool.false_eq_true, if_false]

theorem step?_eq_none {d : Descent} (h : d.stack = []) : d.step? f = none := by
  simp only [step?, h]

end

/-! ## The end of a descent -/

/-- The steps that are left for a block, if it is on the stack with the given number. -/
def workAt (f : Function) (id : BlockId) (next : Nat) : Nat := (f.successors id).length - next + 1

def unvisited (f : Function) (d : Descent) : Finset BlockId :=
  (Finset.range f.blocks.length).filter (· ∉ d.visited)

/-- The steps that are left at most: those for the blocks that may still be entered, and those
for the blocks on the stack. -/
def work (f : Function) (d : Descent) : Nat :=
  ∑ id ∈ d.unvisited f, workAt f id 0 + (d.stack.map fun entry => workAt f entry.1 entry.2).sum

theorem work_step {d d' : Descent} (h : Step f d d') : d'.work f < d.work f := by
  obtain ⟨t, stack⟩ := d
  cases stack with
  | nil => simp [Step, step?] at h
  | cons top below =>
      obtain ⟨id, next⟩ := top
      cases htarget : (f.successors id)[next]? with
      | none =>
          obtain rfl := Option.some.inj ((step_done htarget).symm.trans h)
          simp only [work, unvisited, List.map_cons, List.sum_cons, workAt]
          omega
      | some target =>
          have hnext : next < (f.successors id).length := (List.getElem?_eq_some_iff.mp htarget).1
          by_cases hskip : f.hasBlock target = true → target ∈ t.visited
          · obtain rfl := Option.some.inj ((step_skip htarget hskip).symm.trans h)
            simp only [work, unvisited, List.map_cons, List.sum_cons, workAt]
            omega
          · obtain ⟨hblock, hnew⟩ := Classical.not_imp.mp hskip
            obtain rfl := Option.some.inj ((step_enter htarget hblock hnew).symm.trans h)
            -- the steps for the block that is entered are now those of the stack
            have hmem : target ∈ unvisited f ⟨t, (id, next) :: below⟩ := by
              simpa [unvisited, hnew, hasBlock] using hblock
            have herase : unvisited f ⟨{ t with visited := target :: t.visited },
                (target, 0) :: (id, next + 1) :: below⟩ =
                (unvisited f ⟨t, (id, next) :: below⟩).erase target := by
              ext b
              simp only [unvisited, Finset.mem_filter, Finset.mem_erase, List.mem_cons, not_or]
              tauto
            have hsum := Finset.add_sum_erase _ (fun b => workAt f b 0) hmem
            simp only [work, herase, List.map_cons, List.sum_cons] at hsum ⊢
            simp only [workAt] at hsum ⊢
            omega

/-- A descent is at its end when it has had the steps that were left. -/
theorem run_eq_of_steps {d last : Descent} {steps : Nat}
    (h : Relation.ReflTransGen (Step f) d last) (hlast : last.stack = [])
    (hsteps : d.work f ≤ steps) : run f steps d = last := by
  induction h using Relation.ReflTransGen.head_induction_on generalizing steps with
  | refl => cases steps <;> simp [run, step?_eq_none hlast]
  | head hstep _ ih =>
      have hless := work_step hstep
      cases steps with
      | zero => omega
      | succ steps =>
          rw [run, show step? f _ = some _ from hstep]
          exact ih (by omega)

theorem work_start (f : Function) : (start f).work f ≤ f.traversalSteps := by
  have htotal : ∑ id ∈ Finset.range f.blocks.length, workAt f id 0 + 1 = f.traversalSteps := by
    have hblocks : (f.blocks.map fun block => block.terminator.targets.length + 1) =
        (List.range f.blocks.length).map fun id => workAt f id 0 := by
      refine List.ext_getElem (by simp) fun id hid _ => ?_
      have hlt : id < f.blocks.length := by simpa using hid
      simp [workAt, successors, block?, hlt]
    have hsum : (f.blocks.flatMap fun block => block.terminator.targets).length +
        f.blocks.length = (f.blocks.map fun block => block.terminator.targets.length + 1).sum := by
      simp [List.length_flatMap, List.sum_map_add]
    rw [traversalSteps, hsum, hblocks]
    rfl
  have hunvisited : (start f).unvisited f = (Finset.range f.blocks.length).erase f.entry := by
    ext b
    simp [unvisited, start, and_comm]
  have hwork : (start f).work f =
      ∑ id ∈ (Finset.range f.blocks.length).erase f.entry, workAt f id 0 +
        workAt f f.entry 0 := by
    rw [work, hunvisited]
    simp [start]
  rw [hwork]
  by_cases hentry : f.entry ∈ Finset.range f.blocks.length
  · have hsum : workAt f f.entry 0 +
        ∑ id ∈ (Finset.range f.blocks.length).erase f.entry, workAt f id 0 =
          ∑ id ∈ Finset.range f.blocks.length, workAt f id 0 :=
      Finset.add_sum_erase _ (fun id => workAt f id 0) hentry
    omega
  · -- an entry that is no block has no successors
    rw [Finset.erase_eq_of_notMem hentry]
    have hnone : f.successors f.entry = [] := by
      have hge : f.blocks.length ≤ f.entry := by simpa using hentry
      simp [successors, block?, hge]
    have hone : workAt f f.entry 0 = 1 := by simp [workAt, hnone]
    omega

/-! ## What a descent does -/

/-- The descent passes over missing successors up to the next that exists, or to the end. -/
theorem exists_next (f : Function) (t : Traversal) (id : BlockId) (below : List (BlockId × Nat))
    (next : Nat) :
    ∃ next', Relation.ReflTransGen (Step f) ⟨t, (id, next) :: below⟩ ⟨t, (id, next') :: below⟩ ∧
      (((f.successors id).drop next).filter f.hasBlock = [] ∧ (f.successors id)[next']? = none ∨
        ∃ target, (f.successors id)[next']? = some target ∧ f.hasBlock target = true ∧
          ((f.successors id).drop next).filter f.hasBlock =
            target :: ((f.successors id).drop (next' + 1)).filter f.hasBlock) := by
  induction hleft : (f.successors id).length - next generalizing next with
  | zero =>
      have hend : (f.successors id).length ≤ next := by omega
      refine ⟨next, .refl, .inl ⟨?_, List.getElem?_eq_none hend⟩⟩
      rw [List.drop_eq_nil_of_le hend, List.filter_nil]
  | succ left ih =>
      have hlt : next < (f.successors id).length := by omega
      have htarget := List.getElem?_eq_getElem hlt
      rw [List.drop_eq_getElem_cons hlt]
      cases hblock : f.hasBlock (f.successors id)[next] with
      | true =>
          refine ⟨next, .refl, .inr ⟨_, htarget, hblock, ?_⟩⟩
          rw [List.filter_cons_of_pos hblock]
      | false =>
          obtain ⟨next', hsteps, hnext'⟩ := ih (next + 1) (by omega)
          rw [List.filter_cons_of_neg (by simp [hblock])]
          refine ⟨next', .head (step_skip htarget fun htrue => ?_) hsteps, hnext'⟩
          rw [hblock] at htrue
          cases htrue

end Descent

open Descent

mutual

/-- A block that is entered is done with when it has been visited. -/
theorem Visits.steps {f : Function} {t t' : Traversal} {id : BlockId} :
    Visits f t id t' → id ∉ t.visited → ∀ below : List (BlockId × Nat),
      Relation.ReflTransGen (Step f)
        ⟨{ t with visited := id :: t.visited }, (id, 0) :: below⟩ ⟨t', below⟩
  | .seen hseen, hnew, _ => absurd hseen hnew
  | .enter _ hinner, _, below => hinner.steps id 0 below rfl

/-- So it is with the successors that have not been looked at. -/
theorem VisitsAll.steps {f : Function} {t t' : Traversal} {ids : List BlockId} :
    VisitsAll f t ids t' → ∀ (id : BlockId) (next : Nat) (below : List (BlockId × Nat)),
      ids = ((f.successors id).drop next).filter f.hasBlock →
      Relation.ReflTransGen (Step f)
        ⟨t, (id, next) :: below⟩ ⟨{ t' with order := id :: t'.order }, below⟩
  | .nil, id, next, below, hids => by
      obtain ⟨next', hsteps, ⟨_, hnone⟩ | ⟨_, _, _, hsome⟩⟩ := exists_next f _ id below next
      · exact hsteps.tail (step_done hnone)
      · cases hids.trans hsome
  | @VisitsAll.cons _ t _ _ first _ hfirst hrest, id, next, below, hids => by
      obtain ⟨next', hsteps, ⟨hnil, _⟩ | ⟨target, htarget, hblock, hsome⟩⟩ :=
        exists_next f _ id below next
      · cases hids.trans hnil
      · obtain ⟨heq, hids'⟩ := List.cons.inj (hids.trans hsome)
        rw [← heq] at htarget hblock
        have hafter := hrest.steps id (next' + 1) below hids'
        refine hsteps.trans ?_
        by_cases hseen : first ∈ t.visited
        · cases hfirst with
          | seen => exact .head (step_skip htarget fun _ => hseen) hafter
          | enter hnew => exact absurd hseen hnew
        · exact .head (step_enter htarget hblock hseen)
            ((hfirst.steps hseen _).trans hafter)

end

/-- A descent from the entry ends when the entry has been visited. -/
theorem Visits.run_start {f : Function} {t : Traversal} {steps : Nat}
    (h : Visits f {} f.entry t) (hsteps : f.traversalSteps ≤ steps) :
    Descent.run f steps (.start f) = ⟨t, []⟩ :=
  run_eq_of_steps (h.steps List.not_mem_nil []) rfl ((work_start f).trans hsteps)

end Monolith.Function
