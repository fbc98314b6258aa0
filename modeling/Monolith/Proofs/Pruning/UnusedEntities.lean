import Monolith.Proofs.Flattening.FlattenedModule
import Monolith.Proofs.Pruning.PrunedModule

/-! # What pruning removes

In every module, pruning removes the globals that neither a body nor an external global leads to,
and the declarations that neither a body nor a global that is left mentions. It removes nothing
else, and leaves nothing that it would remove. A designated entry that is removed is no longer
designated, so a verified module stays verified.
-/

namespace Monolith.Module

section

variable {m : Module}

/-- A global is left if one that is mentioned or external leads to it. -/
theorem global?_prune_iff {id : GlobalId} {g : Global} : m.prune.global? id = some g ↔
    m.global? id = some g ∧ ∃ start, m.Anchored start ∧ m.LeadsTo start id := by
  rw [← mem_usedGlobals_iff_anchored]
  refine ⟨global?_of_prune, fun ⟨hg, hused⟩ => ?_⟩
  rw [global?_prune, if_pos hused, hg]

theorem exists_refersToFunction_prune_iff {id : FunctionId} :
    (∃ holder, m.prune.RefersToFunction holder id) ↔
      ∃ holder ∈ m.usedGlobals, m.RefersToFunction holder id := by
  constructor
  · rintro ⟨holder, g, c, hg, hc, hid⟩
    obtain ⟨hg, hused⟩ := global?_of_prune hg
    exact ⟨holder, hused, g, c, hg, hc, hid⟩
  · rintro ⟨holder, hused, g, c, hg, hc, hid⟩
    refine ⟨holder, g, c, ?_, hc, hid⟩
    rw [global?_prune, if_pos hused, hg]

/-- A function is left if it has a body, or a body or a global that is left mentions it. -/
theorem function?_prune_iff {id : FunctionId} {f : Function} : m.prune.function? id = some f ↔
    m.function? id = some f ∧ (f.isDeclaration = false ∨ (∃ user, m.MentionsFunction user id) ∨
      ∃ holder, m.prune.RefersToFunction holder id) := by
  rw [exists_refersToFunction_prune_iff]
  constructor
  · intro h
    obtain ⟨hf, hused⟩ := function?_of_prune h
    refine ⟨hf, (mem_usedFunctions.mp hused).imp_left ?_⟩
    rintro ⟨f', hf', hbody⟩
    obtain rfl := Option.some.inj (hf'.symm.trans hf)
    exact hbody
  · rintro ⟨hf, hneeded⟩
    have hused : id ∈ m.usedFunctions :=
      mem_usedFunctions.mpr (hneeded.imp_left fun hbody => ⟨f, hf, hbody⟩)
    rw [function?_prune, if_pos hused, hf]

/-- The designated entry stays designated if it is left. -/
theorem entry_prune_iff (h : m.WellFormed) {id : FunctionId} :
    m.prune.entry = some id ↔ m.entry = some id ∧ ∃ f, m.prune.function? id = some f := by
  rw [entry_prune h, Option.filter_eq_some_iff, decide_eq_true_iff]
  refine and_congr_right fun hentry => ?_
  obtain ⟨f, hf⟩ := h.entry_live id hentry
  rw [function?_prune]
  by_cases hused : id ∈ m.usedFunctions <;> simp [hused, hf]

end

/-- The search for what is used comes to its end and looks at no global twice. Of the globals,
those are left that initializers lead to from a global that is external or mentioned in a body. Of
the functions, those are left that have a body or are mentioned in one or in the initializer of a
global that is left. What is not left is counted, and pruning again removes nothing. A module
without defects has none afterwards, and its entry stays designated just if it is left. -/
theorem prune_exact (m : Module) :
    m.Exhausts m.directUsage m.usage ∧ m.usedGlobals.Nodup ∧
    (∀ id g, m.prune.global? id = some g ↔
      m.global? id = some g ∧ ∃ start, m.Anchored start ∧ m.LeadsTo start id) ∧
    (∀ id f, m.prune.function? id = some f ↔
      m.function? id = some f ∧ (f.isDeclaration = false ∨
        (∃ user, m.MentionsFunction user id) ∨ ∃ holder, m.prune.RefersToFunction holder id)) ∧
    m.prune.globals.liveCount + m.unusedGlobals.length = m.globals.liveCount ∧
    m.prune.functions.liveCount + m.unusedFunctions.length = m.functions.liveCount ∧
    m.prune.unusedGlobals = [] ∧ m.prune.unusedFunctions = [] ∧ m.prune.prune = m.prune ∧
    (m.defects = [] → m.prune.defects = [] ∧
      ∀ id, m.prune.entry = some id ↔
        m.entry = some id ∧ ∃ f, m.prune.function? id = some f) := by
  refine ⟨m.exhausts_usage, m.usedGlobals_nodup, fun id g => global?_prune_iff,
    fun id f => function?_prune_iff, m.liveCount_globals_prune, m.liveCount_functions_prune,
    unusedGlobals_prune, unusedFunctions_prune, prune_prune, fun hverified => ?_⟩
  have hm := wellFormed_of_defects_eq_nil hverified
  exact ⟨hm.prune.defects_eq_nil, fun id => entry_prune_iff hm⟩

/-- A module whose entry is a declaration that nothing mentions. Two globals mention only each
other, and an external table mentions a function. -/
def idle : Module :=
  rebuildNames
    { name := "idle"
      functions := [
        some (.declare "start" .void [] false),
        some (.declare "puts" (.int 32) [.ptr] false),
        some
          { name := "main", returnType := .void
            blocks := [{ terminator := .ret none }] }]
      globals := [
        some { name := "there", valueType := .ptr, initializer := some (.global 1) },
        some { name := "back", valueType := .ptr, initializer := some (.global 0) },
        some
          { name := "table", valueType := .ptr, linkage := .external
            initializer := some (.function 1) }]
      entry := some 0 }

theorem idle_prune_exact :
    idle.defects = [] ∧ idle.prune.defects = [] ∧ idle.entry = some 0 ∧ idle.prune.entry = none ∧
    idle.prune.globals.liveCount + 2 = idle.globals.liveCount ∧
    idle.prune.functions.liveCount + 1 = idle.functions.liveCount := by
  have hverified : idle.defects = [] := by decide +kernel
  have hglobals : idle.unusedGlobals = [0, 1] := by decide +kernel
  have hfunctions : idle.unusedFunctions = [0] := by decide +kernel
  have hremoved : idle.prune.function? 0 = none := by decide +kernel
  obtain ⟨_, _, _, _, hglobalCount, hfunctionCount, _, _, _, hkept⟩ := prune_exact idle
  obtain ⟨hdefects, hentry⟩ := hkept hverified
  rw [hglobals] at hglobalCount
  rw [hfunctions] at hfunctionCount
  refine ⟨hverified, hdefects, rfl, ?_, hglobalCount, hfunctionCount⟩
  refine Option.eq_none_iff_forall_ne_some.mpr fun id hid => ?_
  obtain ⟨hold, f, hf⟩ := (hentry id).mp hid
  obtain rfl : 0 = id := Option.some.inj hold
  rw [hremoved] at hf
  cases hf

end Monolith.Module
