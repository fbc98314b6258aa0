import Monolith.Proofs.Code.ConstantPlaces
import Monolith.Proofs.Flattening.FlattenedModule

/-! # References to functions are replaced everywhere

Replacing a function puts another constant in place of each reference to it, wherever it stands,
and changes nothing else. So the function can be erased: no reference to it is left, and no
constant has got another type.
-/

namespace Monolith

namespace Module

def typeAt? (m : Module) : Place → Option Ty
  | .operand user index => (m.function? user).bind fun f => f.operands[index]?.bind f.operandType?
  | .initializer holder => ((m.global? holder).bind Global.initializer).map Constant.ty

/-- The module with null in place of every constant. -/
def blank (m : Module) : Module :=
  { m with
    functions := m.functions.mapLive
      (·.mapOperands fun o => if o.const?.isSome then .const .null else o)
    globals := m.globals.mapLive fun g =>
      { g with initializer := g.initializer.map fun _ => .null } }

/-- The constant `r` stands where references to the function stood, and nothing else has
changed: neither what is no constant, nor any other node of a constant. -/
structure Substitutes (m : Module) (id : FunctionId) (r : Constant) (n : Module) : Prop where
  blank : n.blank = m.blank
  replaced : ∀ place path, m.nodeAt? place path = some (.function id) →
    n.nodeAt? place path = some r
  kept : ∀ place path c, m.nodeAt? place path = some c → c ≠ .function id →
    (n.nodeAt? place path).map Constant.label = some c.label

/-! ## What a replacement changes -/

section

variable {m : Module} {id : FunctionId} {r : Constant}

theorem function?_replaceFunction (user : FunctionId) : (m.replaceFunction id r).function? user =
    (m.function? user).map (·.mapOperands (.replaceFunction id r)) :=
  Arena.get?_mapLive

theorem global?_replaceFunction (holder : GlobalId) : (m.replaceFunction id r).global? holder =
    (m.global? holder).map fun g =>
      { g with initializer := g.initializer.map (Constant.replaceFunction id r) } :=
  Arena.get?_mapLive

theorem const?_replaceFunction (o : Operand) :
    (o.replaceFunction id r).const? = o.const?.map (Constant.replaceFunction id r) := by
  cases o <;> rfl

/-- The constant at each place is replaced. -/
theorem constantAt?_replaceFunction (place : Place) : (m.replaceFunction id r).constantAt? place =
    (m.constantAt? place).map (Constant.replaceFunction id r) := by
  cases place with
  | operand user index =>
      rw [constantAt?, function?_replaceFunction]
      cases hf : m.function? user with
      | none => simp [constantAt?, hf]
      | some f =>
          cases ho : f.operands[index]? <;>
            simp [constantAt?, hf, ho, const?_replaceFunction]
  | initializer holder =>
      rw [constantAt?, global?_replaceFunction]
      cases hg : m.global? holder <;> simp [constantAt?, hg]

theorem constants_replaceFunction : (m.replaceFunction id r).constants =
    m.constants.map (Constant.replaceFunction id r) := by
  have hconst : Operand.const? ∘ Operand.replaceFunction id r =
      fun o => o.const?.map (Constant.replaceFunction id r) := funext const?_replaceFunction
  simp only [constants, replaceFunction, Arena.entries_mapLive, List.map_append, List.flatMap_map,
    List.map_flatMap, List.filterMap_map, List.map_filterMap, Function.operands_mapOperands,
    hconst]
  rfl

/-- Nothing but constants is changed. -/
theorem blank_replaceFunction : (m.replaceFunction id r).blank = m.blank := by
  have hoperands : ∀ f : Function, ((f.mapOperands (.replaceFunction id r)).mapOperands fun o =>
      if o.const?.isSome then .const .null else o) =
        f.mapOperands fun o => if o.const?.isSome then .const .null else o := by
    intro f
    rw [Function.mapOperands_mapOperands]
    congr 1
    funext o
    cases o <;> rfl
  simp only [blank, replaceFunction, Arena.mapLive_mapLive, hoperands, Option.map_map]
  rfl

/-- Replacing a function puts the constant in place of each reference to it. -/
theorem substitutes_replaceFunction : m.Substitutes id r (m.replaceFunction id r) := by
  have hnode : ∀ {place path c}, m.nodeAt? place path = some c →
      (m.replaceFunction id r).nodeAt? place path = some (.replaceFunction id r c) := by
    intro place path c h
    obtain ⟨whole, hwhole, hc⟩ := Option.bind_eq_some_iff.mp h
    rw [nodeAt?, constantAt?_replaceFunction, hwhole]
    exact Constant.node?_replaceFunction hc
  refine ⟨blank_replaceFunction, fun place path h => ?_, fun place path c h hne => ?_⟩
  · rw [hnode h, Constant.replaceFunction_self]
  · rw [hnode h, Option.map_some, Constant.label_replaceFunction hne]

/-- No constant of the module mentions the function after a replacement that does not. -/
theorem not_mem_functions_of_replaceFunction (hfree : id ∉ r.functions) {place : Place}
    {c : Constant} (h : (m.replaceFunction id r).constantAt? place = some c) :
    id ∉ c.functions := by
  rw [constantAt?_replaceFunction, Option.map_eq_some_iff] at h
  obtain ⟨c, _, rfl⟩ := h
  exact Constant.not_mem_functions_replaceFunction hfree

/-- Types stay if the replacement is a pointer. -/
theorem typeAt?_replaceFunction (hty : r.ty = .ptr) (place : Place) :
    (m.replaceFunction id r).typeAt? place = m.typeAt? place := by
  cases place with
  | operand user index =>
      rw [typeAt?, function?_replaceFunction]
      cases hf : m.function? user with
      | none => simp [typeAt?, hf]
      | some f =>
          have htype : ∀ o : Operand, (f.mapOperands (.replaceFunction id r)).operandType?
              (o.replaceFunction id r) = f.operandType? o := by
            intro o
            cases o with
            | var x => rfl
            | const c => exact congrArg some (Constant.ty_replaceFunction hty)
          cases ho : f.operands[index]? <;> simp [typeAt?, hf, ho, htype]
  | initializer holder =>
      rw [typeAt?, global?_replaceFunction]
      cases hg : m.global? holder with
      | none => simp [typeAt?, hg]
      | some g =>
          have htype : Constant.ty ∘ Constant.replaceFunction id r = Constant.ty :=
            funext fun _ => Constant.ty_replaceFunction hty
          simp [typeAt?, hg, htype]

end

section

variable (m : Module) {id : FunctionId} {r : Constant}

theorem constantAt?_of_eraseFunction {place : Place} {c : Constant}
    (h : (m.eraseFunction id).constantAt? place = some c) : m.constantAt? place = some c := by
  cases place with
  | operand user index =>
      obtain ⟨f, hf, hc⟩ := Option.bind_eq_some_iff.mp h
      rw [function?_eraseFunction] at hf
      split at hf
      next => cases hf
      next => simp [constantAt?, hf, hc]
  | initializer holder => rwa [constantAt?, global?_eraseFunction] at h

/-- After a replacement by a constant of the same type, initializers fit as before. -/
theorem initializerTypeMismatch_of_replaceFunction (hty : r.ty = .ptr) {name : String}
    {expected found : Ty} (h : .initializerTypeMismatch name expected found ∈
      ((m.replaceFunction id r).eraseFunction id).defects) :
    .initializerTypeMismatch name expected found ∈ m.defects := by
  rw [initializerTypeMismatch_mem_defects] at h ⊢
  obtain ⟨holder, g, c, hg, hc, hne, rfl, rfl, rfl⟩ := h
  rw [global?_eraseFunction, global?_replaceFunction, Option.map_eq_some_iff] at hg
  obtain ⟨g, hg, rfl⟩ := hg
  obtain ⟨d, hd, rfl⟩ := Option.map_eq_some_iff.mp hc
  rw [Constant.ty_replaceFunction hty] at hne ⊢
  exact ⟨holder, g, d, hg, hd, hne, rfl, rfl, rfl⟩

/-- A function is replaced by a pointer that does not mention it. In place, reference by
reference, that comes to an end, with as many replacements as there are spots of references.
No spot is left, everything else and every type is kept, and when the function is then erased,
verifying does not miss it and finds no initializer of the wrong type that was not there before. -/
theorem replaceFunction_exact (id : FunctionId) (r : Constant) (hty : r.ty = .ptr)
    (hfree : r.mentionsFunction id = false) :
    (∀ edited count, Constant.EditsAll id r m.constants edited count ↔
      edited = (m.replaceFunction id r).constants ∧ count = m.functionUses id) ∧
    {spot : Place × List Nat | m.nodeAt? spot.1 spot.2 = some (.function id)}.encard =
      (m.functionUses id : ℕ) ∧
    m.Substitutes id r (m.replaceFunction id r) ∧
    (∀ place path, (m.replaceFunction id r).nodeAt? place path ≠ some (.function id)) ∧
    (∀ place, (m.replaceFunction id r).typeAt? place = m.typeAt? place) ∧
    (∀ site, .erasedFunction site id ∉ ((m.replaceFunction id r).eraseFunction id).defects) ∧
    ∀ name expected found, .initializerTypeMismatch name expected found ∈
        ((m.replaceFunction id r).eraseFunction id).defects →
      .initializerTypeMismatch name expected found ∈ m.defects := by
  have hfree : id ∉ r.functions := by simpa [Constant.mentionsFunction] using hfree
  refine ⟨fun edited count => ?_, m.encard_nodeAt? id, substitutes_replaceFunction,
    fun place path hnode => ?_, typeAt?_replaceFunction hty, fun site => ?_,
    fun _ _ _ => m.initializerTypeMismatch_of_replaceFunction hty⟩
  · rw [constants_replaceFunction]
    exact Constant.editsAll_iff hfree
  · obtain ⟨c, hc, hnode⟩ := Option.bind_eq_some_iff.mp hnode
    refine not_mem_functions_of_replaceFunction hfree hc ?_
    exact List.mem_filterMap.mpr ⟨_, Constant.mem_nodes_of_node? hnode, rfl⟩
  · refine erasedFunction_not_mem_defects fun place c hc => ?_
    exact not_mem_functions_of_replaceFunction hfree (constantAt?_of_eraseFunction _ hc)

end

/-- A table of functions, and a function that chooses one of them. -/
def registry : Module :=
  rebuildNames
    { name := "registry"
      functions := [
        some
          { name := "main"
            returnType := .ptr
            blocks := [
              { terminator := .branch (.const (.int (.int 1) 1)) 1 2 },
              { terminator := .jump 2 },
              { instructions := [
                  { op := .phi 0 .ptr [(.const (.function 1), 0),
                      (.const (.elementPtr (.int 8) (.function 1) [4]), 1)] },
                  { op := .call none .void (.const (.function 1)) [.var 0] }]
                terminator := .ret (some (.const (.function 1))) }]
            values := [{ ty := .ptr }] },
        some
          { name := "handler"
            returnType := .void
            parameters := [0]
            blocks := [{ terminator := .ret none }]
            values := [{ ty := .ptr }] }]
      globals := [
        some
          { name := "table"
            valueType := .array .ptr 2
            initializer := some (.aggregate (.array .ptr 2) [.function 1,
              .aggregate .ptr [.null, .cast .bitcast (.function 1) .ptr]]) }] }

theorem registry_replaceFunction_exact : registry.defects = [] ∧ registry.functionUses 1 = 6 ∧
    {spot : Place × List Nat | registry.nodeAt? spot.1 spot.2 = some (.function 1)}.encard = 6 ∧
    registry.Substitutes 1 (.poison .ptr) (registry.replaceFunction 1 (.poison .ptr)) ∧
    ∀ site, .erasedFunction site 1 ∉
      ((registry.replaceFunction 1 (.poison .ptr)).eraseFunction 1).defects := by
  have huses : registry.functionUses 1 = 6 := by decide +kernel
  obtain ⟨_, hcount, hsubstitutes, _, _, herased, _⟩ :=
    registry.replaceFunction_exact 1 (.poison .ptr) rfl (by decide +kernel)
  rw [huses] at hcount
  exact ⟨by decide +kernel, huses, hcount, hsubstitutes, herased⟩

end Module

end Monolith
