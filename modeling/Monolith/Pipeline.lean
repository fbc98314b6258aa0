import Monolith.DeadCalls
import Monolith.Globals.Localize
import Monolith.Inlining.Run
import Monolith.Liveness
import Monolith.Module.Text
import Monolith.Verify

/-! # Flattening

A pass changes a module and adds to the report. If it fails, it leaves both as
far as it has come, and such a module must not be used. Flattening checks the
module and runs the standard passes: all calls are inlined into the root and the
other functions erased, globals move into the root, calls of what was erased are
swept, and the result is checked.
-/

namespace Monolith

structure Report where
  root : String := ""
  callsInlined : Nat := 0
  functionsErased : List String := []
  globalsLocalized : List String := []
  deadCallsSwept : Nat := 0
  functionsPruned : Nat := 0
  globalsPruned : Nat := 0
  deriving DecidableEq, Inhabited

def Report.toJson (report : Report) : Json :=
  .object [("root", .string report.root), ("calls_inlined", .nat report.callsInlined),
    ("functions_erased", .arr (report.functionsErased.map .string)),
    ("globals_localized", .arr (report.globalsLocalized.map .string)),
    ("dead_calls_swept", .nat report.deadCallsSwept),
    ("dce_functions_removed", .nat report.functionsPruned),
    ("dce_globals_removed", .nat report.globalsPruned)]

/-- A module on its way through the passes. -/
structure Stage where
  module : Module
  report : Report := {}

/-- A change of a stage. The result is the next stage, and whether the module counts
as modified. -/
structure Pass where
  run : Stage → Except (Aborted Stage) (Stage × Bool)

/-- How a pass ends, without the stage that a failure leaves. -/
def Pass.outcome (pass : Pass) (stage : Stage) : Except Failure (Stage × Bool) :=
  (pass.run stage).mapError Aborted.failure

instance : CoeFun Pass fun _ => Stage → Except Failure (Stage × Bool) := ⟨Pass.outcome⟩

namespace Plan

/-- The placeholder for a function that was inlined everywhere. -/
def placeholder : Constant := .poison .ptr

/-- Logs the text of a function that has been erased. -/
def logErased (level : LogLevel) (f : Function) : Except Fault Unit :=
  if level = .trace then (f.text 0).map fun _ => () else .ok ()

/-- Erases a function that was inlined. -/
def eraseInlined (level : LogLevel) (m : Module) (id : FunctionId) :
    Except (Aborted Module) Module := do
  let replaced := m.replaceFunction id placeholder
  let next := replaced.eraseFunction id
  match replaced.function? id with
  | none => return next
  | some f =>
      leaving next (faulting (logErased level f))
      return next

end Plan

namespace Pass

/-- Inlines all calls that the plan forces, at most `budget` of them, erases what
was inlined, and prunes what is not used. -/
def inlining (config : Config) (budget : Nat) : Pass where
  run stage := do
    let m := stage.module
    let graph := CallGraph.ofModule m
    let plan ← leaving stage (Plan.compute config m graph)
    leaving stage (plan.validate config m graph)
    let started := { stage.report with root := m.functionName plan.root }
    let (inlined, count) ← (plan.inlineCalls budget m).mapError
      (.map ({ module := ·, report := started }))
    let report := { started with callsInlined := stage.report.callsInlined + count }
    let erased := (plan.forced.filterMap m.function?).map Function.name
    let remaining ← (plan.forced.foldlM (Plan.eraseInlined config.logLevel) inlined).mapError
      (.map ({ module := ·, report }))
    let functionsPruned := remaining.unusedFunctions.length
    let globalsPruned := remaining.unusedGlobals.length
    let report := { report with
      functionsErased := stage.report.functionsErased ++ erased
      functionsPruned := stage.report.functionsPruned + functionsPruned
      globalsPruned := stage.report.globalsPruned + globalsPruned }
    return ({ module := remaining.prune, report },
      count > 0 || !erased.isEmpty || functionsPruned > 0 || globalsPruned > 0)

/-- Moves all globals into their owners. -/
def localization : Pass where
  run stage := do
    let moved := fun (m : Module) names =>
      { module := m
        report := { stage.report with
          globalsLocalized := stage.report.globalsLocalized ++ names } : Stage }
    let owners ← leaving stage stage.module.owners
    let (m, names) ← (stage.module.localize owners).mapError (.map fun (m, names) => moved m names)
    return (moved m names, !owners.isEmpty)

/-- Removes the dead calls. -/
def sweeping : Pass where
  run stage :=
    let swept := stage.module.deadCallCount
    let report := { stage.report with deadCallsSwept := stage.report.deadCallsSwept + swept }
    .ok ({ module := stage.module.sweep, report }, swept > 0)

/-- Refuses a module that has defects. -/
def integrity : Pass where
  run stage :=
    match stage.module.defects with
    | [] => .ok (stage, false)
    | defects => leaving stage do
        reject (.malformedModule defects (← faulting stage.module.text))

def standard (config : Config) (budget : Nat) : List Pass :=
  [inlining config budget, localization, sweeping, integrity]

/-- Runs the passes in order up to the first that fails. -/
def runAll : List Pass → Stage → Except Failure Bool × Stage
  | [], stage => (.ok false, stage)
  | pass :: rest, stage =>
      match pass.run stage with
      | .error aborted => (.error aborted.failure, aborted.left)
      | .ok (next, modified) =>
          let (result, last) := runAll rest next
          (result.map (modified || ·), last)

end Pass

/-- Refuses a module that cannot be worked on. -/
def Module.checkInput (m : Module) : Except Failure Unit :=
  match m.defects with
  | [] => .ok ()
  | defects => reject (.malformedInput defects)

/-- Flattens a module into its root. After a failure the module is given as far as it
has been rewritten. -/
def Module.flatten (config : Config) (budget : Nat) (m : Module) :
    Except Failure Report × Module :=
  match m.checkInput with
  | .error failure => (.error failure, m)
  | .ok () =>
      let (result, stage) := Pass.runAll (Pass.standard config budget) { module := m }
      (result.map fun _ => stage.report, stage.module)

end Monolith
