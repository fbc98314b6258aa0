import Monolith.Pipeline
import Monolith.Proofs.Module.Census

/-! # Runs of passes

Flattening is a run of passes. It ends well if all of them do, and a pass that does is taken apart
here into what it has computed. Where one fails, the run ends as that pass does, and leaves what
that pass leaves.
-/

namespace Monolith

variable {stage next : Stage} {pass : Pass} {modified : Bool} {rest : List Pass} {config : Config}
  {budget : Nat} {m : Module}

namespace Pass

theorem outcome_eq_ok {result : Stage × Bool} :
    pass stage = .ok result ↔ pass.run stage = .ok result := mapError_eq_ok

/-- How inlining ends depends on the plan, on the calls, and on what is logged. -/
theorem inlining_outcome (config : Config) (budget : Nat) (stage : Stage) :
    inlining config budget stage = (do
      let plan ← Plan.compute config stage.module (CallGraph.ofModule stage.module)
      plan.validate config stage.module (CallGraph.ofModule stage.module)
      let (inlined, count) ← plan.inlineAll budget stage.module
      let remaining ← (plan.forced.foldlM (Plan.eraseInlined config.logLevel) inlined).mapError
        Aborted.failure
      let erased := (plan.forced.filterMap stage.module.function?).map Function.name
      let functionsPruned := remaining.unusedFunctions.length
      let globalsPruned := remaining.unusedGlobals.length
      let report := { stage.report with
        root := stage.module.functionName plan.root
        callsInlined := stage.report.callsInlined + count
        functionsErased := stage.report.functionsErased ++ erased
        functionsPruned := stage.report.functionsPruned + functionsPruned
        globalsPruned := stage.report.globalsPruned + globalsPruned }
      return ({ module := remaining.prune, report },
        count > 0 || !erased.isEmpty || functionsPruned > 0 || globalsPruned > 0)) := by
  simp only [outcome, inlining, mapError_bind, failure_leaving, failure_map]
  rfl

theorem localization_outcome (stage : Stage) :
    localization stage = (do
      let owners ← stage.module.owners
      let (m, names) ← (stage.module.localize owners).mapError Aborted.failure
      let report := { stage.report with
        globalsLocalized := stage.report.globalsLocalized ++ names }
      return ({ module := m, report }, !owners.isEmpty)) := by
  simp only [outcome, localization, mapError_bind, failure_leaving, failure_map]
  rfl

theorem integrity_outcome (stage : Stage) :
    integrity stage = (match stage.module.defects with
      | [] => .ok (stage, false)
      | defects => do reject (.malformedModule defects (← faulting stage.module.text))) := by
  unfold outcome integrity
  dsimp only
  cases stage.module.defects with
  | nil => rfl
  | cons => exact failure_leaving _ _

/-- A run ends as its first pass does, if this fails, and else as the others do. -/
theorem runAll_cons_fst (pass : Pass) (rest : List Pass) (stage : Stage) :
    (runAll (pass :: rest) stage).1 = (do
      let (next, modified) ← pass stage
      (runAll rest next).1.map (modified || ·)) := by
  rw [runAll, outcome]
  cases pass.run stage <;> rfl

/-- A run leaves what its first pass leaves, if this fails. -/
theorem runAll_of_error {aborted : Aborted Stage} (h : pass.run stage = .error aborted) :
    runAll (pass :: rest) stage = (.error aborted.failure, aborted.left) := by
  rw [runAll, h]

/-- Passes that succeed go on from one another. -/
theorem exists_of_runAll_cons {last : Stage}
    (h : runAll (pass :: rest) stage = (.ok modified, last)) :
    ∃ next first others, pass stage = .ok (next, first) ∧
      runAll rest next = (.ok others, last) := by
  unfold runAll at h
  split at h
  next => cases h
  next next first hpass =>
    cases hrest : runAll rest next with
    | mk result reached =>
        rw [hrest] at h
        obtain ⟨hresult, rfl⟩ := Prod.mk.inj h
        cases result with
        | error failure => cases hresult
        | ok others => exact ⟨next, first, others, outcome_eq_ok.mpr hpass, hrest⟩

/-- What inlining has computed where it succeeds. -/
theorem exists_of_inlining (h : inlining config budget stage = .ok (next, modified)) :
    ∃ plan inlined count,
      Plan.compute config stage.module (CallGraph.ofModule stage.module) = .ok plan ∧
      plan.inlineAll budget stage.module = .ok (inlined, count) ∧
      next.module = (plan.eraseForced inlined).prune ∧
      next.report = { stage.report with
        root := stage.module.functionName plan.root
        callsInlined := stage.report.callsInlined + count
        functionsErased := stage.report.functionsErased ++
          (plan.forced.filterMap stage.module.function?).map Function.name
        functionsPruned :=
          stage.report.functionsPruned + (plan.eraseForced inlined).unusedFunctions.length
        globalsPruned :=
          stage.report.globalsPruned + (plan.eraseForced inlined).unusedGlobals.length } := by
  rw [inlining_outcome] at h
  obtain ⟨plan, hplan, h⟩ := bind_eq_ok.mp h
  obtain ⟨_, _, h⟩ := bind_eq_ok.mp h
  obtain ⟨⟨inlined, count⟩, hinlined, h⟩ := bind_eq_ok.mp h
  obtain ⟨remaining, hremaining, h⟩ := bind_eq_ok.mp h
  obtain rfl := Plan.eraseForced_of_eq_ok (mapError_eq_ok.mp hremaining)
  obtain ⟨rfl, _⟩ := Prod.mk.inj (Except.ok.inj h)
  exact ⟨plan, inlined, count, hplan, hinlined, rfl, rfl⟩

theorem exists_of_localization (h : localization stage = .ok (next, modified)) :
    ∃ owners names, stage.module.owners = .ok owners ∧
      stage.module.localize owners = .ok (next.module, names) ∧
      next.report =
        { stage.report with globalsLocalized := stage.report.globalsLocalized ++ names } := by
  rw [localization_outcome] at h
  obtain ⟨owners, howners, h⟩ := bind_eq_ok.mp h
  obtain ⟨⟨localized, names⟩, hlocalized, h⟩ := bind_eq_ok.mp h
  obtain ⟨rfl, _⟩ := Prod.mk.inj (Except.ok.inj h)
  exact ⟨owners, names, howners, mapError_eq_ok.mp hlocalized, rfl⟩

theorem of_integrity (h : integrity stage = .ok (next, modified)) :
    next = stage ∧ stage.module.defects = [] := by
  rw [integrity_outcome] at h
  split at h
  next hnone =>
    obtain ⟨rfl, _⟩ := Prod.mk.inj (Except.ok.inj h)
    exact ⟨rfl, hnone⟩
  next =>
    obtain ⟨_, _, h⟩ := bind_eq_ok.mp h
    cases h

theorem runAll_cons {last : Stage} {others : Bool} (h : pass stage = .ok (next, modified))
    (hrest : runAll rest next = (.ok others, last)) :
    runAll (pass :: rest) stage = (.ok (modified || others), last) := by
  rw [runAll, outcome_eq_ok.mp h]
  dsimp only
  rw [hrest]
  rfl

theorem integrity_of_verified (h : stage.module.defects = []) :
    integrity stage = .ok (stage, false) := by
  rw [integrity_outcome, h]

theorem exists_of_sweeping (stage : Stage) :
    ∃ next modified, sweeping stage = .ok (next, modified) ∧
      next.module = stage.module.sweep ∧ next.report = { stage.report with
        deadCallsSwept := stage.report.deadCallsSwept + stage.module.deadCallCount } :=
  ⟨_, _, rfl, rfl, rfl⟩

end Pass

namespace Module

theorem defects_of_checkInput (h : m.checkInput = .ok ()) : m.defects = [] := by
  unfold checkInput at h
  split at h
  next hnone => exact hnone
  next => cases h

/-- Flattening succeeds if and only if inlining and localization do and what is left after
sweeping is verified. -/
theorem flatten_eq_ok_iff {n : Module} {report : Report} :
    m.flatten config budget = (.ok report, n) ↔
      m.defects = [] ∧ ∃ first inlined second localized,
        Pass.inlining config budget { module := m } = .ok (first, inlined) ∧
        Pass.localization first = .ok (second, localized) ∧
        n = second.module.sweep ∧ n.defects = [] ∧
        report = { second.report with
          deadCallsSwept := second.report.deadCallsSwept + second.module.deadCallCount } := by
  unfold flatten
  constructor
  · intro h
    split at h
    next => cases h
    next hinput =>
      cases hrun : Pass.runAll (Pass.standard config budget) { module := m } with
      | mk result last =>
          rw [hrun] at h
          obtain ⟨hresult, rfl⟩ := Prod.mk.inj h
          cases result with
          | error failure => cases hresult
          | ok modified =>
              obtain rfl := Except.ok.inj hresult
              obtain ⟨first, inlined, _, hinlining, hrun⟩ := Pass.exists_of_runAll_cons hrun
              obtain ⟨second, localized, _, hlocalization, hrun⟩ := Pass.exists_of_runAll_cons hrun
              obtain ⟨third, _, _, hsweeping, hrun⟩ := Pass.exists_of_runAll_cons hrun
              obtain ⟨fourth, _, _, hintegrity, hrun⟩ := Pass.exists_of_runAll_cons hrun
              obtain ⟨rfl, _⟩ := Prod.mk.inj (Except.ok.inj hsweeping)
              obtain ⟨rfl, hverified⟩ := Pass.of_integrity hintegrity
              obtain ⟨_, rfl⟩ := Prod.mk.inj hrun
              exact ⟨defects_of_checkInput hinput, first, inlined, second, localized, hinlining,
                hlocalization, rfl, hverified, rfl⟩
  · rintro ⟨hinput, first, inlined, second, localized, hinlining, hlocalization, rfl, hverified,
      rfl⟩
    obtain ⟨third, swept, hsweeping, hmodule, hreport⟩ := Pass.exists_of_sweeping second
    rw [← hmodule] at hverified ⊢
    rw [← hreport]
    have hdone : Pass.runAll [] third = (.ok false, third) := rfl
    have hintegrity := Pass.runAll_cons (Pass.integrity_of_verified hverified) hdone
    have hrun := Pass.runAll_cons hinlining
      (Pass.runAll_cons hlocalization (Pass.runAll_cons hsweeping hintegrity))
    rw [checkInput, hinput]
    dsimp only
    rw [Pass.standard, hrun]
    rfl

/-- What flattening has computed where it succeeds. -/
theorem exists_of_flatten {n : Module} {report : Report}
    (h : m.flatten config budget = (.ok report, n)) :
    m.defects = [] ∧ n.defects = [] ∧ ∃ plan inlined count owners localized,
      Plan.compute config m (CallGraph.ofModule m) = .ok plan ∧
      plan.inlineAll budget m = .ok (inlined, count) ∧
      (plan.eraseForced inlined).prune.owners = .ok owners ∧
      (plan.eraseForced inlined).prune.localize owners =
        .ok (localized, report.globalsLocalized) ∧
      n = localized.sweep ∧
      report.functionsErased = (plan.forced.filterMap m.function?).map Function.name ∧
      report.functionsPruned = (plan.eraseForced inlined).unusedFunctions.length ∧
      report.globalsPruned = (plan.eraseForced inlined).unusedGlobals.length ∧
      report.deadCallsSwept = localized.deadCallCount ∧
      report.root = m.functionName plan.root := by
  obtain ⟨hverified, first, _, second, _, hinlining, hlocalization, rfl, hdefects, rfl⟩ :=
    flatten_eq_ok_iff.mp h
  obtain ⟨plan, inlined, count, hplan, hinlined, hfirst, hreport⟩ :=
    Pass.exists_of_inlining hinlining
  obtain ⟨owners, names, howners, hlocalized, hsecond⟩ :=
    Pass.exists_of_localization hlocalization
  rw [hfirst] at howners hlocalized
  rw [hreport] at hsecond
  refine ⟨hverified, hdefects, plan, inlined, count, owners, second.module, hplan,
    hinlined, howners, ?_, rfl, ?_⟩
  · rw [hlocalized, hsecond]
    rfl
  · rw [hsecond]
    exact ⟨rfl, Nat.zero_add _, Nat.zero_add _, Nat.zero_add _, rfl⟩

end Module

end Monolith
