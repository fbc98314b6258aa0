import Mathlib.Logic.Relation
import Monolith.Proofs.Flattening.FlattenedModule
import Monolith.Proofs.Globals.LocalizedModule

/-! # Flattening step by step

Flattening is made of small changes: a call is inlined, a function gives way to a placeholder,
something is erased, globals get storage in a function, the dead calls are swept. What each of
them keeps is kept by flattening.
-/

namespace Monolith.Module

/-- One of the changes that flattening is made of. -/
inductive Step : Module → Module → Prop
  | inline {m n : Module} {caller : FunctionId} {b : BlockId} {index : Nat}
      (h : m.inlineCall caller b index = .ok (some n)) : Step m n
  | replace (m : Module) (id : FunctionId) : Step m (m.replaceFunction id Plan.placeholder)
  | eraseFunction (m : Module) (id : FunctionId) : Step m (m.eraseFunction id)
  | eraseGlobal (m : Module) (id : GlobalId) : Step m (m.eraseGlobal id)
  | localize {m : Module} {owner : FunctionId} {ids : List GlobalId} {f g : Function}
      (hf : m.function? owner = some f)
      (hg : Localized.localizeInto { globals := m.globalsAt ids, function := f.name } f = .ok g) :
      Step m (m.setFunction owner g)
  | sweep (m : Module) : Step m m.sweep

abbrev Steps : Module → Module → Prop := Relation.ReflTransGen Step

variable {m n : Module}

/-- What each change keeps is kept by any number of them. -/
theorem Steps.keeps {P : Module → Prop} (h : m.Steps n)
    (hstep : ∀ ⦃m n⦄, Step m n → P m → P n) (hm : P m) : P n := by
  induction h with
  | refl => exact hm
  | tail _ hlast ih => exact hstep hlast ih

theorem steps_inlineAll {plan : Plan} {budget count : Nat}
    (h : plan.inlineAll budget m = .ok (n, count)) : m.Steps n := by
  apply inlineAll_induction (P := m.Steps) ?_ .refl h
  exact fun hsteps hcall => hsteps.tail (.inline hcall)

/-- Erasing globals takes one change for each of them. -/
theorem steps_foldl_eraseGlobal (m : Module) (ids : List GlobalId) :
    m.Steps (ids.foldl Module.eraseGlobal m) :=
  List.foldlRecOn ids _ .refl fun n hn id _ => hn.tail (.eraseGlobal n id)

theorem steps_eraseForced (plan : Plan) (m : Module) : m.Steps (plan.eraseForced m) :=
  List.foldlRecOn plan.forced _ .refl fun n hn id _ =>
    (hn.tail (.replace n id)).tail (.eraseFunction _ id)

/-- Pruning erases functions and then globals. -/
theorem steps_prune (m : Module) : m.Steps m.prune :=
  List.foldlRecOn m.unusedFunctions _ (m.steps_foldl_eraseGlobal _) fun n hn id _ =>
    hn.tail (.eraseFunction n id)

/-- A function is rewritten, and then the globals of its group are erased. -/
theorem steps_localizeGroup {owner : FunctionId} {ids : List GlobalId} {names : List String}
    (h : m.localizeGroup owner ids = .ok (n, names)) : m.Steps n := by
  rcases exists_of_localizeGroup h with ⟨_, rfl⟩ | ⟨f, g, hf, hg, rfl, _⟩
  · exact .refl
  · exact Relation.ReflTransGen.head (.localize hf hg) (steps_foldl_eraseGlobal _ ids)

theorem steps_localize {owners : List (GlobalId × FunctionId)} {names : List String}
    (h : m.localize owners = .ok (n, names)) : m.Steps n := by
  refine foldlM_induction (fun state => m.Steps state.1) ?_ .refl h
  intro group _ state next hstate hnext
  obtain ⟨_, hlocalized, _⟩ := exists_of_localizeNext hnext
  exact hstate.trans (steps_localizeGroup hlocalized)

/-- A module that is flattened has come of the input by such changes only. -/
theorem steps_flatten {config : Config} {budget : Nat} {report : Report}
    (h : m.flatten config budget = (.ok report, n)) : m.Steps n := by
  obtain ⟨_, _, plan, inlined, count, owners, localized, _, hinlined, _, hlocalized, rfl, _⟩ :=
    exists_of_flatten h
  have hpruned := (steps_eraseForced plan inlined).trans (steps_prune _)
  have hmoved := ((steps_inlineAll hinlined).trans hpruned).trans (steps_localize hlocalized)
  exact hmoved.tail (.sweep localized)

end Monolith.Module
