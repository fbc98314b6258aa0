import Monolith.Proofs.Verify.DefectChecks
import Monolith.Proofs.Verify.WellFormed

/-! # Verified modules

A module is verified if it has no defect. Then every constant that is read
refers to functions and globals of the module only. What verifying finds depends on
the functions of the module only through their names and what a call of them takes.
-/

namespace Monolith

variable {b : BlockId} {block : Block} {c : Constant} {m : Module} {f : Function} {id : FunctionId}

namespace Module

/-! ## References -/

def Resolves (m : Module) (c : Constant) : Prop :=
  (∀ id ∈ c.globals, (m.global? id).isSome = true) ∧
    ∀ id ∈ c.functions, (m.function? id).isSome = true

/-- A constant mentions a global if a node of it does. -/
theorem mem_globals {id : GlobalId} : id ∈ c.globals ↔ .global id ∈ c.nodes := by
  rw [Constant.globals, List.mem_filterMap]
  constructor
  · rintro ⟨node, hnode, hid⟩
    cases node with
    | global _ =>
        obtain rfl := Option.some.inj hid
        exact hnode
    | _ => cases hid
  · exact fun h => ⟨_, h, rfl⟩

theorem mem_functions : id ∈ c.functions ↔ .function id ∈ c.nodes := by
  rw [Constant.functions, List.mem_filterMap]
  constructor
  · rintro ⟨node, hnode, hid⟩
    cases node with
    | function _ =>
        obtain rfl := Option.some.inj hid
        exact hnode
    | _ => cases hid
  · exact fun h => ⟨_, h, rfl⟩

/-- A constant has no defect if it refers to what the module holds. -/
theorem referenceDefects_eq_nil_iff {site : Site} :
    m.referenceDefects site c = [] ↔ m.Resolves c := by
  rw [referenceDefects, List.filterMap_eq_nil_iff]
  constructor
  · intro h
    refine ⟨fun id hid => ?_, fun id hid => ?_⟩
    · simpa [Option.isSome_iff_ne_none] using h _ (mem_globals.mp hid)
    · simpa [Option.isSome_iff_ne_none] using h _ (mem_functions.mp hid)
  · rintro ⟨hglobals, hfunctions⟩ node hnode
    cases node with
    | global id => simp [hglobals id (mem_globals.mpr hnode)]
    | function id => simp [hfunctions id (mem_functions.mpr hnode)]
    | _ => rfl

theorem operandDefects_eq_nil_iff {site : Site} {operands : List Operand} :
    m.operandDefects site operands = [] ↔ ∀ c, .const c ∈ operands → m.Resolves c := by
  simp only [operandDefects, List.flatMap_eq_nil_iff, Operand.mem_filterMap_const?,
    referenceDefects_eq_nil_iff]

/-- What is read is an operand of an instruction or of a terminator. -/
theorem exists_block_of_reads {done : List Instruction} {o : Operand} (h : f.Reads b done o) :
    ∃ a block, f.block? a = some block ∧ o ∈ block.operands := by
  have hinstr : ∀ {block : Block} {i : Instruction}, i ∈ block.instructions →
      o ∈ i.op.operands → o ∈ block.operands := fun hi ho =>
    List.mem_append_left _ (List.mem_flatMap.mpr ⟨_, hi, ho⟩)
  cases h with
  | instruction hblock hsplit _ hmem =>
      exact ⟨_, _, hblock, hinstr (by simp [hsplit]) hmem⟩
  | terminator hblock hmem => exact ⟨_, _, hblock, List.mem_append_right _ hmem⟩
  | phi hblock hi hop hmem =>
      refine ⟨_, _, hblock, hinstr hi ?_⟩
      rw [hop]
      exact List.mem_map_of_mem hmem

/-- Every operand is read somewhere. -/
theorem exists_reads {a : BlockId} {o : Operand} (hblock : f.block? a = some block)
    (ho : o ∈ block.operands) : ∃ b done, f.Reads b done o := by
  rcases List.mem_append.mp ho with hinstr | hterm
  · obtain ⟨i, hi, ho⟩ := List.mem_flatMap.mp hinstr
    cases hphi : i.op.isPhi with
    | false =>
        obtain ⟨before, after, hsplit⟩ := List.append_of_mem hi
        exact ⟨a, before, .instruction hblock hsplit hphi ho⟩
    | true =>
        obtain ⟨dest, ty, incoming, hop⟩ := Operation.isPhi_iff.mp hphi
        rw [hop] at ho
        obtain ⟨⟨_, source⟩, hentry, rfl⟩ := List.mem_map.mp ho
        exact ⟨source, _, .phi hblock hi hop hentry⟩
  · exact ⟨a, _, .terminator hblock hterm⟩

/-- What a verified module has no defects of. -/
theorem defects_eq_nil_iff :
    m.defects = [] ↔ m.staleNames = [] ∧ m.duplicateNames = [] ∧ m.entryDefects = [] ∧
      (∀ id g, m.global? id = some g → m.globalDefects g = []) ∧
      ∀ id f, m.function? id = some f → m.functionDefects f = [] := by
  simp only [defects, List.append_eq_nil_iff, List.flatMap_eq_nil_iff, Prod.forall,
    Arena.mem_entries, and_assoc]
  rfl

theorem blockDefects_eq_nil (hbody : f.isDeclaration = false) (h : m.functionDefects f = [])
    (hb : f.block? b = some block) : m.blockDefects f b block = [] := by
  rw [functionDefects_of_wellFormed m (wellFormed_of_functionDefects hbody h),
    List.flatMap_eq_nil_iff] at h
  exact h (block, b) (List.mem_zipIdx_iff_getElem?.mpr hb)

/-- The constants of a block without defects refer to what is there. -/
theorem operands_resolve_of_blockDefects (h : m.blockDefects f b block = []) :
    ∀ c, .const c ∈ block.operands → m.Resolves c := by
  intro c hc
  rw [← referenceDefects_eq_nil_iff, List.eq_nil_iff_forall_not_mem]
  intro d hd
  exact List.eq_nil_iff_forall_not_mem.mp h d (mem_blockDefects_iff.mpr (.inl ⟨c, hc, hd⟩))

/-- In a verified module, what is read refers to what the module holds. -/
theorem resolves_of_reads (hbody : f.isDeclaration = false) (h : m.functionDefects f = [])
    {done : List Instruction} (hreads : f.Reads b done (.const c)) : m.Resolves c := by
  obtain ⟨a, block, hblock, hc⟩ := exists_block_of_reads hreads
  exact operands_resolve_of_blockDefects (blockDefects_eq_nil hbody h hblock) c hc

theorem operationDefects_eq_nil (hbody : f.isDeclaration = false) (h : m.functionDefects f = [])
    (hb : f.block? b = some block) {i : Instruction} (hi : i ∈ block.instructions) :
    m.operationDefects f b i.op = [] := by
  have hinstrs := (List.append_eq_nil_iff.mp (blockDefects_eq_nil hbody h hb)).1
  exact (List.append_eq_nil_iff.mp (List.flatMap_eq_nil_iff.mp hinstrs i hi)).2

/-- A call of a function in a verified module passes as many arguments as it takes. -/
theorem acceptsArity_of_call {g : Function} (hbody : f.isDeclaration = false)
    (h : m.functionDefects f = []) (hb : f.block? b = some block) {i : Instruction}
    (hi : i ∈ block.instructions) {dest : Option ValueId} {ty : Ty} {args : List Operand}
    (hop : i.op = .call dest ty (.const (.function id)) args) (hg : m.function? id = some g) :
    acceptsArity g args.length = true := by
  have hcall := operationDefects_eq_nil hbody h hb hi
  have hfunction : Operand.function? (.const (.function id)) = some id := rfl
  have hpoison : ¬Operand.isPoison (.const (.function id)) = true := by
    simp [Operand.isPoison, Constant.isPoison]
  rw [hop, operationDefects, callDefects, if_neg hpoison, hfunction, Option.bind_some, hg]
    at hcall
  by_contra hnot
  simp [hnot] at hcall

end Module

/-! ## What verifying depends on -/

def Function.signature (f : Function) : String × List ValueId × Bool :=
  (f.name, f.parameters, f.isVarArg)

namespace Module

/-- The modules hold the same globals, and functions that look the same to callers. -/
structure Alike (m n : Module) : Prop where
  globals : ∀ id, n.global? id = m.global? id
  functions : ∀ id, (n.function? id).map Function.signature =
    (m.function? id).map Function.signature

namespace Alike

variable {n : Module} (h : m.Alike n)

include h

/-- Modules that look alike have the same functions. -/
theorem isSome (id : FunctionId) : (n.function? id).isSome = (m.function? id).isSome := by
  have := congrArg Option.isSome (h.functions id)
  simpa using this

theorem name (id : FunctionId) :
    (n.function? id).map Function.name = (m.function? id).map Function.name := by
  have := congrArg (Option.map Prod.fst) (h.functions id)
  simpa [Function.comp_def, Function.signature] using this

theorem referenceDefects (site : Site) (c : Constant) :
    n.referenceDefects site c = m.referenceDefects site c := by
  simp only [Module.referenceDefects, h.globals, h.isSome]

theorem operandDefects (site : Site) (operands : List Operand) :
    n.operandDefects site operands = m.operandDefects site operands := by
  simp only [Module.operandDefects, funext (h.referenceDefects site)]

theorem callDefects (f : Function) (b : BlockId) (callee : Operand) (count : Nat) :
    n.callDefects f b callee count = m.callDefects f b callee count := by
  unfold Module.callDefects
  split
  next => rfl
  next =>
    cases callee.function? with
    | none => rfl
    | some id =>
        simp only [Option.bind_some]
        have hsame := h.functions id
        cases hn : n.function? id with
        | none =>
            cases hm : m.function? id with
            | none => rfl
            | some g => simp [hn, hm] at hsame
        | some g =>
            cases hm : m.function? id with
            | none => simp [hn, hm] at hsame
            | some g' =>
                rw [hn, hm] at hsame
                simp only [Option.map_some, Option.some.injEq, Function.signature,
                  Prod.mk.injEq] at hsame
                obtain ⟨hname, hparameters, hvarArg⟩ := hsame
                have harity : acceptsArity g count = acceptsArity g' count := by
                  rw [acceptsArity, acceptsArity, hparameters, hvarArg]
                simp only [harity, hname, hparameters]

theorem operationDefects (f : Function) (b : BlockId) (op : Operation) :
    n.operationDefects f b op = m.operationDefects f b op := by
  cases op with
  | call => exact h.callDefects f b _ _
  | _ => rfl

theorem blockDefects (f : Function) (b : BlockId) (block : Block) :
    n.blockDefects f b block = m.blockDefects f b block := by
  simp only [Module.blockDefects, h.operandDefects, h.operationDefects]

/-- A body has the same defects in modules that look alike. -/
theorem functionDefects (f : Function) : n.functionDefects f = m.functionDefects f := by
  simp only [Module.functionDefects, bodyDefects, h.blockDefects]

theorem globalDefects (g : Global) : n.globalDefects g = m.globalDefects g := by
  simp only [Module.globalDefects, h.referenceDefects]

end Alike

/-! ## Changing one function -/

/-- Only the function that is set is changed. -/
theorem function?_setFunction (hid : m.function? id = some f) (g : Function) (other : FunctionId) :
    (m.setFunction id g).function? other = if id = other then some g else m.function? other := by
  change (m.functions.update id _).get? other = _
  rw [Arena.get?_update]
  split
  next heq =>
    subst heq
    change (m.function? id).map _ = _
    rw [hid]
    rfl
  next => rfl

section

variable {g : Function} (hid : m.function? id = some f) (hsignature : g.signature = f.signature)

include hid hsignature

/-- A function that looks the same to callers makes no difference to them. -/
theorem alike_setFunction : m.Alike (m.setFunction id g) where
  globals _ := rfl
  functions other := by
    rw [function?_setFunction hid]
    split
    next heq =>
      subst heq
      rw [hid, Option.map_some, hsignature, Option.map_some]
    next => rfl

theorem names_setFunction :
    ((m.setFunction id g).functions.entries.map fun entry => entry.2.name) =
      m.functions.entries.map fun entry => entry.2.name := by
  have hnames : (m.setFunction id g).functions.mapLive Function.name =
      m.functions.mapLive Function.name := by
    apply Arena.mapLive_update
    intro other hother
    obtain rfl := Option.some.inj (hid.symm.trans hother)
    exact congrArg Prod.fst hsignature
  have hentries := congrArg (List.map Prod.snd) (congrArg Arena.entries hnames)
  rw [Arena.entries_mapLive, Arena.entries_mapLive, List.map_map, List.map_map] at hentries
  exact hentries

/-- A verified module in which one function is changed, and still looks the same to its
callers, has no defects but those of the changed function. -/
theorem mem_defects_setFunction (hverified : m.defects = []) {d : Defect}
    (hd : d ∈ (m.setFunction id g).defects) : d ∈ m.functionDefects g := by
  have halike := alike_setFunction hid hsignature
  obtain ⟨hstale, hduplicate, hentry, hglobals, hfunctions⟩ := defects_eq_nil_iff.mp hverified
  have hstale' : (m.setFunction id g).staleNames = [] := by
    rw [← hstale]
    simp only [staleNames, halike.name, halike.globals]
    rfl
  have hduplicate' : (m.setFunction id g).duplicateNames = [] := by
    rw [← hduplicate]
    simp only [duplicateNames, names_setFunction hid hsignature]
    rfl
  have hentry' : (m.setFunction id g).entryDefects = [] := by
    rw [← hentry]
    simp only [entryDefects, halike.isSome]
    rfl
  simp only [defects, hstale', hduplicate', hentry', List.nil_append, List.mem_append,
    List.mem_flatMap, Prod.exists, Arena.mem_entries] at hd
  rcases hd with ⟨other, h, hh, hd⟩ | ⟨other, h, hh, hd⟩
  · rw [halike.globalDefects, hglobals other h hh] at hd
    cases hd
  · rw [halike.functionDefects] at hd
    have hother := function?_setFunction hid g other
    rw [function?, hh] at hother
    split at hother
    next =>
      obtain rfl := Option.some.inj hother
      exact hd
    next =>
      rw [hfunctions other h hother.symm] at hd
      cases hd

end

end Module

end Monolith
