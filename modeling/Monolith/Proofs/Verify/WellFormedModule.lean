import Monolith.Proofs.Verify.VerifiedModule

/-! # Well-formed modules

A module is well formed if its names and its references lead to what they say, its
initializers have the types of their globals, and its bodies are well formed, access
memory through pointers and call what can be called. Verifying accepts exactly the
well-formed modules.
-/

namespace Monolith

variable {m : Module} {f : Function} {c : Constant} {b : BlockId} {o : Operand}

/-- The first constant is the second or stands somewhere in it. -/
inductive Constant.Part (c : Constant) : Constant → Prop where
  | whole : Part c c
  | element {ty : Ty} {elements : List Constant} {d : Constant} (hmem : d ∈ elements)
      (hpart : Part c d) : Part c (.aggregate ty elements)
  | base {source : Ty} {base : Constant} {indices : List Int64} (hpart : Part c base) :
      Part c (.elementPtr source base indices)
  | value {op : CastOp} {value : Constant} {ty : Ty} (hpart : Part c value) :
      Part c (.cast op value ty)

namespace Constant

theorem mem_nodesAll {elements : List Constant} :
    c ∈ nodesAll elements ↔ ∃ d ∈ elements, c ∈ d.nodes := by
  induction elements with
  | nil => simp [nodesAll]
  | cons d elements ih => simp [nodesAll, ih]

theorem mem_nodes_self (c : Constant) : c ∈ c.nodes := by
  cases c <;> simp [nodes]

mutual

/-- What is listed among the nodes of a constant stands in it. -/
theorem part_of_mem_nodes : (d : Constant) → c ∈ d.nodes → c.Part d
  | .aggregate ty elements, h => by
      rw [nodes, List.mem_cons] at h
      rcases h with rfl | h
      · exact .whole
      · obtain ⟨d, hd, hpart⟩ := part_of_mem_nodesAll elements h
        exact .element hd hpart
  | .elementPtr source base indices, h => by
      rw [nodes, List.mem_cons] at h
      rcases h with rfl | h
      · exact .whole
      · exact .base (part_of_mem_nodes base h)
  | .cast op value ty, h => by
      rw [nodes, List.mem_cons] at h
      rcases h with rfl | h
      · exact .whole
      · exact .value (part_of_mem_nodes value h)
  | .int .., h | .null, h | .undef _, h | .poison _, h | .bytes _, h | .global _, h
  | .function _, h => by
      cases List.mem_singleton.mp h
      exact .whole

theorem part_of_mem_nodesAll : (elements : List Constant) →
    c ∈ nodesAll elements → ∃ d ∈ elements, c.Part d
  | [], h => by simp [nodesAll] at h
  | d :: elements, h => by
      rw [nodesAll, List.mem_append] at h
      rcases h with h | h
      · exact ⟨d, List.mem_cons_self, part_of_mem_nodes d h⟩
      · obtain ⟨e, he, hpart⟩ := part_of_mem_nodesAll elements h
        exact ⟨e, List.mem_cons_of_mem _ he, hpart⟩

end

/-- The nodes of a constant are all that stands in it. -/
theorem mem_nodes_iff {d : Constant} : c ∈ d.nodes ↔ c.Part d := by
  refine ⟨part_of_mem_nodes d, fun h => ?_⟩
  induction h with
  | whole => exact mem_nodes_self c
  | element hmem _ ih => exact List.mem_cons_of_mem _ (mem_nodesAll.mpr ⟨_, hmem, ih⟩)
  | base _ ih => exact List.mem_cons_of_mem _ ih
  | value _ ih => exact List.mem_cons_of_mem _ ih

end Constant

/-- The operand through which memory is accessed, or from which an address is computed. -/
def Operation.address? : Operation → Option Operand
  | .load _ _ address _ => some address
  | .store _ address _ => some address
  | .elementPtr _ _ base _ _ => some base
  | _ => none

namespace Module

/-- All that the constant refers to, at any depth, is in the module. -/
structure Holds (m : Module) (c : Constant) : Prop where
  globals : ∀ id, (Constant.global id).Part c → ∃ g, m.global? id = some g
  functions : ∀ id, (Constant.function id).Part c → ∃ f, m.function? id = some f

/-- A call through the operand is not one of poison, and if it names a function of the
module, it passes the arguments that the function takes. -/
structure CallFits (m : Module) (callee : Operand) (args : List Operand) : Prop where
  not_poison : ∀ ty, callee ≠ .poison ty
  arity : ∀ id g, callee = .const (.function id) → m.function? id = some g →
    g.parameters.length ≤ args.length ∧
      (g.isVarArg = false → args.length = g.parameters.length)

/-- The body is well formed, and fits into the module. -/
structure Admits (m : Module) (f : Function) : Prop where
  form : f.WellFormed
  operands : ∀ c, .const c ∈ f.operands → m.Holds c
  pointers : ∀ b, ∀ i ∈ f.body b, ∀ address, i.op.address? = some address →
    ∀ ty, f.operandType? address = some ty → ty = .ptr
  calls : ∀ b, ∀ i ∈ f.body b, ∀ dest ty callee args, i.op = .call dest ty callee args →
    m.CallFits callee args

structure WellFormed (m : Module) : Prop where
  function_names : ∀ name id, (name, id) ∈ m.functionNames.entries →
    ∃ f, m.function? id = some f ∧ f.name = name
  global_names : ∀ name id, (name, id) ∈ m.globalNames.entries →
    ∃ g, m.global? id = some g ∧ g.name = name
  function_name_unique : ∀ id id' f f', m.function? id = some f → m.function? id' = some f' →
    f.name = f'.name → id = id'
  global_name_unique : ∀ id id' g g', m.global? id = some g → m.global? id' = some g' →
    g.name = g'.name → id = id'
  entry_live : ∀ id, m.entry = some id → ∃ f, m.function? id = some f
  initializers : ∀ id g c, m.global? id = some g → g.initializer = some c →
    m.Holds c ∧ c.ty = g.valueType
  bodies : ∀ id f, m.function? id = some f → f.isDeclaration = false → m.Admits f

/-- It is enough to look at the ids that the constant mentions. -/
theorem holds_iff_resolves : m.Holds c ↔ m.Resolves c := by
  simp only [Resolves, mem_globals, mem_functions, Constant.mem_nodes_iff,
    Option.isSome_iff_exists]
  exact ⟨fun h => ⟨h.globals, h.functions⟩, fun h => ⟨h.1, h.2⟩⟩

/-! ## Names -/

/-- No name is stale if each leads to what has the name. -/
theorem staleNames_eq_nil_iff :
    m.staleNames = [] ↔
      (∀ name id, (name, id) ∈ m.functionNames.entries →
        ∃ f, m.function? id = some f ∧ f.name = name) ∧
      ∀ name id, (name, id) ∈ m.globalNames.entries →
        ∃ g, m.global? id = some g ∧ g.name = name := by
  have hsorted : ∀ {stale : List Defect} {le : Defect → Defect → Bool},
      stale.mergeSort le = [] ↔ stale = [] := by
    intro stale le
    rw [← List.length_eq_zero_iff, (List.mergeSort_perm stale le).length_eq,
      List.length_eq_zero_iff]
  simp only [staleNames, hsorted, List.append_eq_nil_iff, List.map_eq_nil_iff,
    List.filter_eq_nil_iff, Prod.forall, decide_eq_true_eq, not_not, Option.map_eq_some_iff]

/-- No name occurs twice among the live entities. -/
theorem repeats_names_eq_nil_iff {α : Type} (arena : Arena α) (name : α → String) :
    repeats (arena.entries.map fun entry => name entry.2) = [] ↔
      ∀ id id' a a', arena.get? id = some a → arena.get? id' = some a' → name a = name a' →
        id = id' := by
  rw [repeats_eq_nil_iff]
  constructor
  · intro hnodup id id' a a' ha ha' hname
    have heq := List.inj_on_of_nodup_map hnodup (Arena.mem_entries.mpr ha)
      (Arena.mem_entries.mpr ha') hname
    exact (Prod.mk.inj heq).1
  · intro hunique
    refine (List.Nodup.of_map _ arena.ids_nodup).map_on ?_
    intro entry hentry entry' hentry' hname
    have ha := Arena.mem_entries.mp hentry
    have ha' := Arena.mem_entries.mp hentry'
    have hid := hunique _ _ _ _ ha ha' hname
    rw [← hid] at ha'
    exact Prod.ext hid (Option.some.inj (ha.symm.trans ha'))

/-- No name is there twice if no two functions share one, and no two globals. -/
theorem duplicateNames_eq_nil_iff :
    m.duplicateNames = [] ↔
      (∀ id id' f f', m.function? id = some f → m.function? id' = some f' →
        f.name = f'.name → id = id') ∧
      ∀ id id' g g', m.global? id = some g → m.global? id' = some g' →
        g.name = g'.name → id = id' := by
  rw [duplicateNames, List.append_eq_nil_iff, List.map_eq_nil_iff, List.map_eq_nil_iff]
  exact and_congr (repeats_names_eq_nil_iff m.functions Function.name)
    (repeats_names_eq_nil_iff m.globals Global.name)

theorem entryDefects_eq_nil_iff :
    m.entryDefects = [] ↔ ∀ id, m.entry = some id → ∃ f, m.function? id = some f := by
  unfold entryDefects
  cases m.entry with
  | none => simp
  | some id => simp [Option.ne_none_iff_exists']

theorem globalDefects_eq_nil_iff {g : Global} :
    m.globalDefects g = [] ↔
      ∀ c, g.initializer = some c → m.Holds c ∧ c.ty = g.valueType := by
  unfold globalDefects
  cases g.initializer with
  | none => simp
  | some c => simp [referenceDefects_eq_nil_iff, holds_iff_resolves]

/-! ## Bodies -/

theorem pointerDefects_eq_nil_iff {address : Operand} :
    f.pointerDefects b address = [] ↔ ∀ ty, f.operandType? address = some ty → ty = .ptr := by
  unfold Function.pointerDefects
  cases f.operandType? address with
  | none => simp
  | some ty => cases ty <;> simp [Ty.isPointer]

theorem acceptsArity_iff {g : Function} {count : Nat} :
    acceptsArity g count = true ↔
      g.parameters.length ≤ count ∧ (g.isVarArg = false → count = g.parameters.length) := by
  unfold acceptsArity
  cases g.isVarArg with
  | true => simp
  | false =>
      simp only [Bool.false_eq_true, if_false, decide_eq_true_eq, forall_const]
      omega

theorem isPoison_iff : o.isPoison = true ↔ ∃ ty, o = .poison ty := by
  cases o with
  | var x => simp [Operand.isPoison, Operand.poison]
  | const c => cases c <;> simp [Operand.isPoison, Constant.isPoison, Operand.poison]

theorem function?_eq_some_iff {id : FunctionId} :
    o.function? = some id ↔ o = .const (.function id) := by
  cases o with
  | var x => simp [Operand.function?]
  | const c => cases c <;> simp [Operand.function?, Constant.function?]

/-- A call has no defect if it passes what its callee takes. -/
theorem callDefects_eq_nil_iff {callee : Operand} {args : List Operand} :
    m.callDefects f b callee args.length = [] ↔ m.CallFits callee args := by
  have hpoison : (∀ ty, callee ≠ .poison ty) ↔ callee.isPoison = false := by
    rw [← Bool.not_eq_true, isPoison_iff, not_exists]
  have hfits : m.CallFits callee args ↔ callee.isPoison = false ∧
      ∀ g, callee.function?.bind m.function? = some g → acceptsArity g args.length = true := by
    simp only [Option.bind_eq_some_iff, function?_eq_some_iff, acceptsArity_iff]
    constructor
    · rintro ⟨hnot, harity⟩
      refine ⟨hpoison.mp hnot, ?_⟩
      rintro g ⟨id, hcallee, hg⟩
      exact harity id g hcallee hg
    · rintro ⟨hnot, haccepts⟩
      exact ⟨hpoison.mpr hnot, fun id g hcallee hg => haccepts g ⟨id, hcallee, hg⟩⟩
  rw [hfits, callDefects]
  cases callee.isPoison with
  | true => simp
  | false =>
      cases callee.function?.bind m.function? with
      | none => simp
      | some g => simp

/-- An operation has no defect if its address is a pointer and its call fits. -/
theorem operationDefects_eq_nil_iff {op : Operation} :
    m.operationDefects f b op = [] ↔
      (∀ address, op.address? = some address →
        ∀ ty, f.operandType? address = some ty → ty = .ptr) ∧
      ∀ dest ty callee args, op = .call dest ty callee args → m.CallFits callee args := by
  cases op with
  | load | store | elementPtr =>
      simp [operationDefects, Operation.address?, pointerDefects_eq_nil_iff]
  | call dest ty callee args =>
      rw [operationDefects, callDefects_eq_nil_iff]
      constructor
      · intro h
        refine ⟨fun _ hnone => absurd hnone (Option.some_ne_none _).symm, ?_⟩
        rintro _ _ _ _ ⟨⟩
        exact h
      · exact fun h => h.2 dest ty callee args rfl
  | _ => simp [operationDefects, Operation.address?]

theorem mem_operands_iff :
    o ∈ f.operands ↔ ∃ b block, f.block? b = some block ∧ o ∈ block.operands := by
  rw [Function.operands, List.mem_flatMap]
  constructor
  · rintro ⟨block, hblock, ho⟩
    obtain ⟨b, hb⟩ := List.getElem?_of_mem hblock
    exact ⟨b, block, hb, ho⟩
  · rintro ⟨b, block, hb, ho⟩
    exact ⟨block, List.mem_of_getElem? hb, ho⟩

theorem blockDefects_eq_nil_iff {block : Block} :
    m.blockDefects f b block = [] ↔ (∀ c, .const c ∈ block.operands → m.Holds c) ∧
      ∀ i ∈ block.instructions, m.operationDefects f b i.op = [] := by
  constructor
  · intro h
    refine ⟨fun c hc => holds_iff_resolves.mpr (operands_resolve_of_blockDefects h c hc), ?_⟩
    intro i hi
    have hinstrs := (List.append_eq_nil_iff.mp h).1
    exact (List.append_eq_nil_iff.mp (List.flatMap_eq_nil_iff.mp hinstrs i hi)).2
  · rintro ⟨hoperands, hoperations⟩
    have hresolves : ∀ operands : List Operand, operands ⊆ block.operands →
        m.operandDefects (.block f.name b) operands = [] := fun operands hsub =>
      operandDefects_eq_nil_iff.mpr fun c hc => holds_iff_resolves.mp (hoperands c (hsub hc))
    refine List.append_eq_nil_iff.mpr ⟨List.flatMap_eq_nil_iff.mpr fun i hi => ?_,
      hresolves _ (List.subset_append_right _ _)⟩
    refine List.append_eq_nil_iff.mpr ⟨hresolves _ fun o ho => ?_, hoperations i hi⟩
    exact List.mem_append_left _ (List.mem_flatMap.mpr ⟨i, hi, ho⟩)

/-- A body has no defect if the module admits it. -/
theorem functionDefects_eq_nil_iff (hbody : f.isDeclaration = false) :
    m.functionDefects f = [] ↔ m.Admits f := by
  constructor
  · intro h
    have hblocks := fun {b block} (hb : f.block? b = some block) =>
      blockDefects_eq_nil_iff.mp (blockDefects_eq_nil hbody h hb)
    have hoperations : ∀ b, ∀ i ∈ f.body b, m.operationDefects f b i.op = [] := by
      intro b i hi
      obtain ⟨block, hb, hi⟩ := Function.block?_of_mem_body hi
      exact (hblocks hb).2 i hi
    refine ⟨wellFormed_of_functionDefects hbody h, fun c hc => ?_, fun b i hi => ?_,
      fun b i hi => ?_⟩
    · obtain ⟨b, block, hb, hc⟩ := mem_operands_iff.mp hc
      exact (hblocks hb).1 c hc
    · exact (operationDefects_eq_nil_iff.mp (hoperations b i hi)).1
    · exact (operationDefects_eq_nil_iff.mp (hoperations b i hi)).2
  · intro h
    rw [functionDefects_of_wellFormed m h.form, List.flatMap_eq_nil_iff]
    rintro ⟨block, b⟩ hmem
    have hb : f.block? b = some block := List.mem_zipIdx_iff_getElem?.mp hmem
    refine blockDefects_eq_nil_iff.mpr ⟨fun c hc => ?_, fun i hi => ?_⟩
    · exact h.operands c (mem_operands_iff.mpr ⟨b, block, hb, hc⟩)
    · rw [← Function.body_eq hb] at hi
      exact operationDefects_eq_nil_iff.mpr ⟨h.pointers b i hi, h.calls b i hi⟩

theorem functionDefects_of_isDeclaration (h : f.isDeclaration = true) :
    m.functionDefects f = [] := if_pos h

/-- What verifying accepts is well formed. -/
theorem wellFormed_of_defects_eq_nil (h : m.defects = []) : m.WellFormed := by
  rw [defects_eq_nil_iff, staleNames_eq_nil_iff, duplicateNames_eq_nil_iff,
    entryDefects_eq_nil_iff] at h
  simp only [globalDefects_eq_nil_iff] at h
  obtain ⟨hnames, hunique, hentry, hglobals, hfunctions⟩ := h
  exact
    { function_names := hnames.1
      global_names := hnames.2
      function_name_unique := hunique.1
      global_name_unique := hunique.2
      entry_live := hentry
      initializers := fun id g c hg => hglobals id g hg c
      bodies := fun id f hf hbody =>
        (functionDefects_eq_nil_iff hbody).mp (hfunctions id f hf) }

/-- What is well formed is accepted. -/
theorem WellFormed.defects_eq_nil (h : m.WellFormed) : m.defects = [] := by
  rw [defects_eq_nil_iff, staleNames_eq_nil_iff, duplicateNames_eq_nil_iff,
    entryDefects_eq_nil_iff]
  simp only [globalDefects_eq_nil_iff]
  refine ⟨⟨h.function_names, h.global_names⟩,
    ⟨h.function_name_unique, h.global_name_unique⟩, h.entry_live,
    fun id g hg c => h.initializers id g c hg, fun id f hf => ?_⟩
  cases hbody : f.isDeclaration with
  | true => exact functionDefects_of_isDeclaration hbody
  | false => exact (functionDefects_eq_nil_iff hbody).mpr (h.bodies id f hf hbody)

/-- Verifying accepts exactly the well-formed modules. -/
theorem verified_iff_wellFormed (m : Module) : m.defects = [] ↔ m.WellFormed :=
  ⟨wellFormed_of_defects_eq_nil, WellFormed.defects_eq_nil⟩

end Module

end Monolith
