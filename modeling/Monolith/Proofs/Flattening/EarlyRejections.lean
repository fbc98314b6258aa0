import Monolith.Proofs.CallGraph.Cycles
import Monolith.Proofs.CallGraph.InlinePlan
import Monolith.Proofs.Flattening.FailingPasses

/-! # Rejections before the first change

A module is rejected without a change if it is malformed, if it has no root with a body, or if
its other functions cannot all be inlined: one is a library routine, or they call each other in
a cycle. These are the first checks of flattening, and nothing after them fails for one of
their reasons.
-/

namespace Monolith

variable {id : FunctionId}

namespace Module

def Inlinable (m : Module) (root id : FunctionId) : Prop :=
  id ≠ root ∧ ∃ f, m.function? id = some f ∧ f.isDeclaration = false

def CallsDirectly (m : Module) (id callee : FunctionId) : Prop :=
  ∃ f, m.function? id = some f ∧ .const (.function callee) ∈ f.callees

/-- A cycle of direct calls between functions that are not the root. -/
structure Recursion (m : Module) (root : FunctionId) (path : List FunctionId) : Prop where
  closed : ∃ id between, path = id :: (between ++ [id])
  inlinable : ∀ id ∈ path, m.Inlinable root id
  calls : path.IsChain m.CallsDirectly

structure IsRoutine (m : Module) (config : Config) (root id : FunctionId) : Prop where
  inlinable : m.Inlinable root id
  covered : (m.function? id).any config.library.table.coversFunction = true

structure Rooted (m : Module) (config : Config) (root : FunctionId) : Prop where
  verified : m.defects = []
  resolved : config.resolveRoot m = some root
  body : ∃ f, m.function? root = some f ∧ f.isDeclaration = false

def planOrder (m : Module) (root : FunctionId) : List FunctionId :=
  Plan.orderOf (CallGraph.ofModule m) root (m.definitions.map Prod.fst)

/-- The checks that come before the first change. -/
def checkPlan (m : Module) (config : Config) : Except Failure Plan := do
  m.checkInput
  let plan ← Plan.compute config m (CallGraph.ofModule m)
  plan.validate config m (CallGraph.ofModule m)
  return plan

/-- What comes of the checks of the functions that are to be inlined, with the reason. -/
inductive PlanChecked (m : Module) (config : Config) (root : FunctionId) :
    Except Failure Plan → Prop where
  | libraryRoutine {id : FunctionId} {front back : List FunctionId}
      (horder : m.planOrder root = front ++ id :: back) (hid : m.IsRoutine config root id)
      (hfront : ∀ other ∈ front, ¬m.IsRoutine config root other) :
      PlanChecked m config root (.error (.rejected (.libraryRoutine (m.functionName id))))
  | recursiveInline {id : FunctionId} {between : List FunctionId}
      (hroutine : ∀ id, ¬m.IsRoutine config root id)
      (hcycle : m.Recursion root (id :: (between ++ [id]))) :
      PlanChecked m config root (.error (.rejected (.recursiveInline (m.functionName id)
        ((id :: (between ++ [id])).map m.functionName))))
  | admitted {plan : Plan} (hroutine : ∀ id, ¬m.IsRoutine config root id)
      (hcycle : ∀ path, ¬m.Recursion root path) : PlanChecked m config root (.ok plan)

/-- What comes of all checks, with the reason. -/
inductive Checked (m : Module) (config : Config) : Except Failure Plan → Prop where
  | malformedInput (hdefects : m.defects ≠ []) :
      Checked m config (.error (.rejected (.malformedInput m.defects)))
  | noRoot (hverified : m.defects = []) (hroot : config.resolveRoot m = none) :
      Checked m config (.error (.rejected (.noRoot (config.rootName m))))
  | rootIsDeclaration {root : FunctionId} {f : Function} (hverified : m.defects = [])
      (hroot : config.resolveRoot m = some root) (hf : m.function? root = some f)
      (hbody : f.isDeclaration = true) :
      Checked m config (.error (.rejected (.rootIsDeclaration f.name)))
  | rooted {root : FunctionId} {outcome : Except Failure Plan} (hroot : m.Rooted config root)
      (houtcome : m.PlanChecked config root outcome) : Checked m config outcome

end Module

theorem forall_mem_closed_path {p : FunctionId → Prop} {between : List FunctionId} :
    (∀ other ∈ id :: (between ++ [id]), p other) ↔ p id ∧ ∀ other ∈ between, p other := by
  rw [List.forall_mem_cons, List.forall_mem_append, List.forall_mem_singleton]
  exact ⟨fun ⟨hid, hbetween, _⟩ => ⟨hid, hbetween⟩, fun ⟨hid, hbetween⟩ => ⟨hid, hbetween, hid⟩⟩

/-! ## The plan -/

namespace Plan

variable {config : Config} {m : Module} {plan : Plan}

theorem mem_forced_iff_forces : id ∈ plan.forced ↔ plan.forces id = true := by
  simp [forced, forces]

section

variable {graph : CallGraph} (h : compute config m graph = .ok plan)
include h

theorem forces_iff_inlinable : plan.forces id = true ↔ m.Inlinable plan.root id := by
  rw [← mem_forced_iff_forces, mem_forced h, Module.get?_kinds, Option.map_eq_some_iff]
  exact and_comm

theorem isRoutine_iff :
    plan.forces id = true ∧ (m.function? id).any config.library.table.coversFunction = true ↔
      m.IsRoutine config plan.root id := by
  rw [forces_iff_inlinable h]
  exact ⟨fun ⟨hinlinable, hcovered⟩ => ⟨hinlinable, hcovered⟩,
    fun hid => ⟨hid.inlinable, hid.covered⟩⟩

end

variable (h : compute config m (CallGraph.ofModule m) = .ok plan)
include h

/-- The order of the plan is the one that its root asks for. -/
theorem order_eq : plan.order = m.planOrder plan.root := by
  unfold compute at h
  split at h
  next => cases h
  next =>
    split at h
    next => cases h
    next =>
      obtain rfl := Except.ok.inj h
      rfl

/-- The cycles that are searched for are the cycles of direct calls past the root. -/
theorem cycle_iff_recursion {path : List FunctionId} (hid : plan.forces id = true) :
    (CallGraph.ofModule m).Cycle plan.forces id path ↔
      path.head? = some id ∧ m.Recursion plan.root path := by
  constructor
  · rintro ⟨⟨between, rfl, hbetween⟩, hcalls⟩
    refine ⟨rfl, ⟨id, between, rfl⟩, ?_, hcalls.imp ?_⟩
    · simp only [← forces_iff_inlinable h]
      exact forall_mem_closed_path.mpr ⟨hid, hbetween⟩
    · intro f g hcall
      obtain ⟨body, hbody, hcallee, _⟩ := CallGraph.mem_callees_ofModule.mp hcall
      exact ⟨body, hbody, hcallee⟩
  · rintro ⟨hhead, ⟨first, between, rfl⟩, hinlinable, hcalls⟩
    obtain rfl := Option.some.inj hhead
    refine ⟨⟨between, rfl, fun other hother => ?_⟩, ?_⟩
    · exact (forces_iff_inlinable h).mpr ((forall_mem_closed_path.mp hinlinable).2 other hother)
    · refine hcalls.imp_of_mem_imp ?_
      rintro f g _ hg ⟨body, hbody, hcallee⟩
      obtain ⟨_, callee, hcalleeBody, _⟩ := hinlinable g hg
      exact CallGraph.mem_callees_ofModule.mpr ⟨body, hbody, hcallee, by rw [hcalleeBody]; rfl⟩

/-- What the plan is checked for. -/
theorem planChecked_validate :
    m.PlanChecked config plan.root (do
      plan.validate config m (CallGraph.ofModule m)
      return plan) := by
  unfold validate
  dsimp only
  split
  next id hid =>
    rw [forced, List.find?_filter] at hid
    obtain ⟨hcovered, front, back, horder, hfront⟩ := List.find?_eq_some_iff_append.mp hid
    rw [decide_eq_true_iff, isRoutine_iff h] at hcovered
    refine .libraryRoutine (order_eq h ▸ horder) hcovered fun other hother => ?_
    rw [← isRoutine_iff h, ← decide_eq_false_iff_not, ← Bool.not_eq_true']
    exact hfront other hother
  next hroutine =>
    have hroutine : ∀ id, ¬m.IsRoutine config plan.root id := by
      intro id hid
      have hforced := mem_forced_iff_forces.mpr ((forces_iff_inlinable h).mpr hid.inlinable)
      exact List.find?_eq_none.mp hroutine id hforced hid.covered
    split
    next id cycle hfound =>
      obtain ⟨other, hother, hcycle⟩ := List.exists_of_findSome?_eq_some hfound
      obtain ⟨path, hpath, heq⟩ := Option.map_eq_some_iff.mp hcycle
      obtain ⟨rfl, rfl⟩ := Prod.mk.inj heq
      have hforces := mem_forced_iff_forces.mp hother
      obtain ⟨_, _, hcycle, _⟩ := CallGraph.findCycle_eq_some hpath
      obtain ⟨hhead, hrecursion⟩ := (cycle_iff_recursion h hforces).mp hcycle
      obtain ⟨first, between, rfl⟩ := hrecursion.closed
      obtain rfl := Option.some.inj hhead
      exact .recursiveInline hroutine hrecursion
    next hnone =>
      refine .admitted hroutine fun path hpath => ?_
      obtain ⟨id, between, rfl⟩ := hpath.closed
      have hforces := (forces_iff_inlinable h).mpr (hpath.inlinable id List.mem_cons_self)
      have hsearch := Option.map_eq_none_iff.mp
        (List.findSome?_eq_none_iff.mp hnone id (mem_forced_iff_forces.mpr hforces))
      exact CallGraph.findCycle_eq_none_iff.mp hsearch _
        ((cycle_iff_recursion h hforces).mpr ⟨rfl, hpath⟩)

end Plan

/-! ## The order of the checks -/

namespace Module

variable {m : Module} {config : Config} {budget : Nat} {reason : Rejection}

/-- The checks end in one of the ways described. -/
theorem checked_checkPlan (m : Module) (config : Config) :
    m.Checked config (m.checkPlan config) := by
  unfold checkPlan checkInput
  split
  next hverified =>
    change m.Checked config (do
      let plan ← Plan.compute config m (CallGraph.ofModule m)
      plan.validate config m (CallGraph.ofModule m)
      return plan)
    have hstale := (defects_eq_nil_iff.mp hverified).1
    cases hplan : Plan.compute config m (CallGraph.ofModule m) with
    | ok plan =>
        refine .rooted ⟨hverified, (Plan.compute_eq_ok hplan).1, ?_⟩
          (Plan.planChecked_validate hplan)
        simpa [get?_kinds] using Plan.kinds_root hstale hplan
    | error failure =>
        unfold Plan.compute at hplan
        split at hplan
        next hroot =>
          obtain rfl := Except.error.inj hplan
          exact .noRoot hverified hroot
        next root hroot =>
          split at hplan
          next hbody =>
            obtain rfl := Except.error.inj hplan
            obtain ⟨f, hf, hbody⟩ := (Option.any_eq_true _ _).mp hbody
            have hname : m.functionName root = f.name := by
              rw [functionName, hf]
              rfl
            rw [hname]
            exact .rootIsDeclaration hverified hroot hf hbody
          next => cases hplan
  next defects hdefects => exact .malformedInput hdefects

theorem checkPlan_eq_ok {plan : Plan} (h : m.checkPlan config = .ok plan) :
    m.checkInput = .ok () ∧ Plan.compute config m (CallGraph.ofModule m) = .ok plan ∧
      plan.validate config m (CallGraph.ofModule m) = .ok () := by
  obtain ⟨_, hinput, h⟩ := bind_eq_ok.mp h
  obtain ⟨plan, hplan, h⟩ := bind_eq_ok.mp h
  obtain ⟨_, hvalid, h⟩ := bind_eq_ok.mp h
  obtain rfl := Except.ok.inj h
  exact ⟨hinput, hplan, hvalid⟩

theorem checkPlan_of_checks {plan : Plan} (hinput : m.checkInput = .ok ())
    (hplan : Plan.compute config m (CallGraph.ofModule m) = .ok plan)
    (hvalid : plan.validate config m (CallGraph.ofModule m) = .ok ()) :
    m.checkPlan config = .ok plan := by
  apply bind_eq_ok.mpr ⟨(), hinput, _⟩
  apply bind_eq_ok.mpr ⟨plan, hplan, _⟩
  exact bind_eq_ok.mpr ⟨(), hvalid, rfl⟩

/-- Nothing is changed where a check fails. -/
theorem flatten_of_checkPlan {failure : Failure} (h : m.checkPlan config = .error failure) :
    m.flatten config budget = (.error failure, m) := by
  rcases bind_eq_error.mp h with hinput | ⟨_, hinput, h⟩
  · rw [flatten, hinput]
  · have hpass : (Pass.inlining config budget).run { module := m } =
        .error { failure, left := { module := m } } := by
      rcases bind_eq_error.mp h with hplan | ⟨plan, hplan, h⟩
      · simp only [Pass.inlining, hplan]
        rfl
      · rcases bind_eq_error.mp h with hvalid | ⟨_, _, h⟩
        · simp only [Pass.inlining, hplan]
          change (leaving _ (plan.validate config m (CallGraph.ofModule m)) >>= _) = _
          rw [hvalid]
          rfl
        · cases h
    rw [flatten, hinput]
    dsimp only
    rw [Pass.standard, Pass.runAll_of_error hpass]
    rfl

/-- Once all checks have passed, other reasons are left. -/
theorem origin_of_checkPlan {plan : Plan} (h : m.checkPlan config = .ok plan) :
    RejectsIn [.inlining, .globals, .result] (m.flatten config budget).1 := by
  obtain ⟨hinput, hplan, hvalid⟩ := checkPlan_eq_ok h
  have hpass : RejectsIn [.inlining, .globals, .result]
      (Pass.inlining config budget { module := m }) := by
    rw [Pass.inlining_outcome, hplan]
    change RejectsIn _ (plan.validate config m (CallGraph.ofModule m) >>= _)
    rw [hvalid]
    refine ((plan.inlineAll_rejects _ _).mono (by simp)).bind fun _ => ?_
    exact .bind (.mapError (plan.logging_rejects _ _)) fun _ => .ok _
  have hrun : RejectsIn [.inlining, .globals, .result]
      (Pass.runAll (Pass.standard config budget) { module := m }).1 := by
    refine Pass.runAll_rejects hpass fun first => ?_
    refine Pass.runAll_rejects ((Pass.localization_rejects first).mono (by simp)) fun second => ?_
    refine Pass.runAll_rejects (.ok _) fun third => ?_
    exact Pass.runAll_rejects ((Pass.integrity_rejects third).mono (by simp)) fun _ => .ok _
  intro failure hfailure
  rw [flatten, hinput] at hfailure
  exact hrun failure (map_eq_error.mp hfailure)

variable (m config budget) in
def RejectedFor (reason : Rejection) : Prop :=
  (m.flatten config budget).1 = .error (.rejected reason)

/-- A module is rejected for a reason of the checks if these give it. -/
theorem rejectedFor_iff (hreason : reason.origin = .input ∨ reason.origin = .plan) :
    m.RejectedFor config budget reason ↔ m.checkPlan config = .error (.rejected reason) := by
  constructor
  · intro h
    cases hcheck : m.checkPlan config with
    | error failure =>
        rw [RejectedFor, flatten_of_checkPlan hcheck] at h
        exact congrArg _ (Except.error.inj h)
    | ok plan =>
        have horigin : reason.origin ∈ [_, _, _] := origin_of_checkPlan hcheck _ h
        rcases hreason with hreason | hreason <;> simp [hreason] at horigin
  · intro h
    rw [RejectedFor, flatten_of_checkPlan h]

/-! ## What each outcome tells -/

namespace PlanChecked

variable {root : FunctionId} {outcome : Except Failure Plan}

theorem libraryRoutine_iff (h : m.PlanChecked config root outcome) :
    (∃ name, outcome = .error (.rejected (.libraryRoutine name))) ↔
      ∃ id, m.IsRoutine config root id := by
  constructor
  · rintro ⟨name, rfl⟩
    cases h with
    | libraryRoutine _ hid => exact ⟨_, hid⟩
  · rintro ⟨id, hid⟩
    cases h with
    | libraryRoutine => exact ⟨_, rfl⟩
    | recursiveInline hroutine => exact absurd hid (hroutine id)
    | admitted hroutine => exact absurd hid (hroutine id)

theorem recursiveInline_iff (h : m.PlanChecked config root outcome) :
    (∃ name path, outcome = .error (.rejected (.recursiveInline name path))) ↔
      (∀ id, ¬m.IsRoutine config root id) ∧ ∃ path, m.Recursion root path := by
  constructor
  · rintro ⟨name, path, rfl⟩
    cases h with
    | recursiveInline hroutine hcycle => exact ⟨hroutine, _, hcycle⟩
  · rintro ⟨hnone, path, hpath⟩
    cases h with
    | libraryRoutine _ hid => exact absurd hid (hnone _)
    | recursiveInline => exact ⟨_, _, rfl⟩
    | admitted _ hcycle => exact absurd hpath (hcycle path)

end PlanChecked

namespace Checked

variable {outcome : Except Failure Plan} (h : m.Checked config outcome)
include h

theorem malformedInput_iff {defects : List Defect} :
    outcome = .error (.rejected (.malformedInput defects)) ↔
      m.defects ≠ [] ∧ defects = m.defects := by
  constructor
  · rintro rfl
    cases h with
    | malformedInput hdefects => exact ⟨hdefects, rfl⟩
    | rooted _ houtcome => cases houtcome
  · rintro ⟨hdefects, rfl⟩
    cases h with
    | malformedInput => rfl
    | noRoot hverified => exact absurd hverified hdefects
    | rootIsDeclaration hverified => exact absurd hverified hdefects
    | rooted hroot => exact absurd hroot.verified hdefects

theorem noRoot_iff {name : String} :
    outcome = .error (.rejected (.noRoot name)) ↔
      m.defects = [] ∧ config.resolveRoot m = none ∧ name = config.rootName m := by
  constructor
  · rintro rfl
    cases h with
    | noRoot hverified hroot => exact ⟨hverified, hroot, rfl⟩
    | rooted _ houtcome => cases houtcome
  · rintro ⟨hverified, hnone, rfl⟩
    cases h with
    | malformedInput hdefects => exact absurd hverified hdefects
    | noRoot => rfl
    | rootIsDeclaration _ hroot => cases hnone.symm.trans hroot
    | rooted hroot => cases hnone.symm.trans hroot.resolved

theorem rootIsDeclaration_iff {name : String} :
    outcome = .error (.rejected (.rootIsDeclaration name)) ↔
      m.defects = [] ∧ ∃ root f, config.resolveRoot m = some root ∧ m.function? root = some f ∧
        f.isDeclaration = true ∧ name = f.name := by
  constructor
  · rintro rfl
    cases h with
    | rootIsDeclaration hverified hroot hf hbody => exact ⟨hverified, _, _, hroot, hf, hbody, rfl⟩
    | rooted _ houtcome => cases houtcome
  · rintro ⟨hverified, root, f, hroot, hf, hbody, rfl⟩
    cases h with
    | malformedInput hdefects => exact absurd hverified hdefects
    | noRoot _ hnone => cases hnone.symm.trans hroot
    | rootIsDeclaration _ hother hg =>
        obtain rfl := Option.some.inj (hroot.symm.trans hother)
        obtain rfl := Option.some.inj (hf.symm.trans hg)
        rfl
    | rooted hother =>
        obtain rfl := Option.some.inj (hroot.symm.trans hother.resolved)
        obtain ⟨g, hg, hfull⟩ := hother.body
        obtain rfl := Option.some.inj (hf.symm.trans hg)
        simp [hbody] at hfull

theorem planChecked {root : FunctionId} (hroot : m.Rooted config root) :
    m.PlanChecked config root outcome := by
  cases h with
  | malformedInput hdefects => exact absurd hroot.verified hdefects
  | noRoot _ hnone => cases hnone.symm.trans hroot.resolved
  | rootIsDeclaration _ hother hg hbody =>
      obtain ⟨f, hf, hfull⟩ := hroot.body
      obtain rfl := Option.some.inj (hroot.resolved.symm.trans hother)
      obtain rfl := Option.some.inj (hf.symm.trans hg)
      simp [hbody] at hfull
  | rooted hother houtcome =>
      obtain rfl := Option.some.inj (hroot.resolved.symm.trans hother.resolved)
      exact houtcome

theorem libraryRoutine_iff :
    (∃ name, outcome = .error (.rejected (.libraryRoutine name))) ↔
      ∃ root, m.Rooted config root ∧ ∃ id, m.IsRoutine config root id := by
  constructor
  · rintro ⟨name, rfl⟩
    cases h with
    | rooted hroot houtcome => exact ⟨_, hroot, houtcome.libraryRoutine_iff.mp ⟨_, rfl⟩⟩
  · rintro ⟨root, hroot, hid⟩
    exact (h.planChecked hroot).libraryRoutine_iff.mpr hid

theorem recursiveInline_iff :
    (∃ name path, outcome = .error (.rejected (.recursiveInline name path))) ↔
      ∃ root, m.Rooted config root ∧ (∀ id, ¬m.IsRoutine config root id) ∧
        ∃ path, m.Recursion root path := by
  constructor
  · rintro ⟨name, path, rfl⟩
    cases h with
    | rooted hroot houtcome => exact ⟨_, hroot, houtcome.recursiveInline_iff.mp ⟨_, _, rfl⟩⟩
  · rintro ⟨root, hroot, hcycle⟩
    exact (h.planChecked hroot).recursiveInline_iff.mpr hcycle

end Checked

/-- A malformed module is rejected as such; of the others, one without a root, then one whose
root has no body, then one with a library routine to be inlined, where the first in the order of
the plan is named, then one with a cycle of calls past the root, where such a cycle is named. All
of them are left as they were. -/
theorem rejected_up_front (m : Module) (config : Config) (budget : Nat) :
    (∀ defects, m.RejectedFor config budget (.malformedInput defects) ↔
      m.defects ≠ [] ∧ defects = m.defects) ∧
    (∀ name, m.RejectedFor config budget (.noRoot name) ↔
      m.defects = [] ∧ config.resolveRoot m = none ∧ name = config.rootName m) ∧
    (∀ name, m.RejectedFor config budget (.rootIsDeclaration name) ↔
      m.defects = [] ∧ ∃ root f, config.resolveRoot m = some root ∧ m.function? root = some f ∧
        f.isDeclaration = true ∧ name = f.name) ∧
    ((∃ name, m.RejectedFor config budget (.libraryRoutine name)) ↔
      ∃ root, m.Rooted config root ∧ ∃ id, m.IsRoutine config root id) ∧
    (∀ name, m.RejectedFor config budget (.libraryRoutine name) → ∃ root front id back,
      m.Rooted config root ∧ m.planOrder root = front ++ id :: back ∧
        m.IsRoutine config root id ∧ (∀ other ∈ front, ¬m.IsRoutine config root other) ∧
        name = m.functionName id) ∧
    ((∃ name path, m.RejectedFor config budget (.recursiveInline name path)) ↔
      ∃ root, m.Rooted config root ∧ (∀ id, ¬m.IsRoutine config root id) ∧
        ∃ path, m.Recursion root path) ∧
    (∀ name path, m.RejectedFor config budget (.recursiveInline name path) →
      ∃ root id between, m.Rooted config root ∧ m.Recursion root (id :: (between ++ [id])) ∧
        name = m.functionName id ∧ path = (id :: (between ++ [id])).map m.functionName) ∧
    ∀ reason, reason.origin = .input ∨ reason.origin = .plan →
      m.RejectedFor config budget reason → (m.flatten config budget).2 = m := by
  have hchecked := m.checked_checkPlan config
  refine ⟨fun defects => ?_, fun name => ?_, fun name => ?_, ?_, fun name h => ?_, ?_,
    fun name path h => ?_, fun reason hreason h => ?_⟩
  · rw [rejectedFor_iff (.inl rfl), hchecked.malformedInput_iff]
  · rw [rejectedFor_iff (.inr rfl), hchecked.noRoot_iff]
  · rw [rejectedFor_iff (.inr rfl), hchecked.rootIsDeclaration_iff]
  · exact (exists_congr fun _ => rejectedFor_iff (.inr rfl)).trans hchecked.libraryRoutine_iff
  · rw [(rejectedFor_iff (.inr rfl)).mp h] at hchecked
    cases hchecked with
    | rooted hroot houtcome =>
        cases houtcome with
        | libraryRoutine horder hid hfront => exact ⟨_, _, _, _, hroot, horder, hid, hfront, rfl⟩
  · exact (exists_congr fun _ => exists_congr fun _ => rejectedFor_iff (.inr rfl)).trans
      hchecked.recursiveInline_iff
  · rw [(rejectedFor_iff (.inr rfl)).mp h] at hchecked
    cases hchecked with
    | rooted hroot houtcome =>
        cases houtcome with
        | recursiveInline _ hcycle => exact ⟨_, _, _, hroot, hcycle, rfl, rfl⟩
  · rw [flatten_of_checkPlan ((rejectedFor_iff hreason).mp h)]

/-- Calls a function that can be inlined, and then one that cannot. -/
def halfway : Module :=
  rebuildNames
    { name := "halfway"
      functions := [
        some { name := "tick", returnType := .void, blocks := [{ terminator := .ret none }] },
        some { name := "log", returnType := .void, isVarArg := true
               blocks := [{ terminator := .ret none }] },
        some { name := "main", returnType := .void
               blocks := [
                { instructions := [
                    { op := .call none .void (.const (.function 0)) [] },
                    { op := .call none .void (.const (.function 1)) [] }]
                  terminator := .ret none }] }] }

-- a rejection for a reason of a later part leaves the first call inlined
example : (halfway.flatten {} 2).1 = .error (.rejected (.varArgInline "main" "log")) ∧
    (halfway.flatten {} 2).2 ≠ halfway := by
  have hplan : Plan.compute {} halfway (CallGraph.ofModule halfway) =
      .ok { root := 2, order := [0, 1, 2] } :=
    Plan.compute_of_pairwise rfl rfl (by decide) (by decide)
  unfold flatten Pass.standard Pass.runAll Pass.inlining
  simp only [hplan]
  decide +kernel

end Module

end Monolith
