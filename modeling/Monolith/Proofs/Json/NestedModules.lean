import Monolith.Proofs.Json.NestedCode

/-! # How deep modules are nested

Every step of flattening keeps the bounds on where types and constants may stand. So a module
that is flattened is nested at most seven levels deeper than it was.
-/

namespace Monolith

open Json

variable {levels : Nat}

structure Global.Within (levels : Nat) (g : Global) : Prop where
  valueType : g.valueType.toJson.nesting ≤ levels + 6
  initializer : ∀ c ∈ g.initializer, c.toJson.nesting ≤ levels + 6

structure Module.Within (levels : Nat) (m : Module) : Prop where
  functions : ∀ id f, m.function? id = some f → f.Within levels
  globals : ∀ id g, m.global? id = some g → g.Within levels

/-! ## Moving globals -/

theorem Operation.within_store {value address : Operand} {align : UInt64}
    (hvalue : value.toJson.nesting ≤ levels + 7) (haddress : address.toJson.nesting ≤ levels + 7) :
    (store value address align).Within levels where
  types := List.forall_mem_nil _
  operands := List.forall_mem_cons.mpr ⟨hvalue, List.forall_mem_singleton.mpr haddress⟩

theorem within_of_mem_elementStores {source : Ty} {slot next : ValueId}
    {entries : List (List Nat × Constant)} (hsource : source.toJson.nesting ≤ levels + 6)
    (hentries : ∀ entry ∈ entries, entry.2.toJson.nesting ≤ levels + 6) :
    ∀ i ∈ elementStores source (.var slot) next entries, i.op.Within levels := by
  induction entries generalizing next with
  | nil => exact List.forall_mem_nil _
  | cons entry entries ih =>
      obtain ⟨hentry, hentries⟩ := List.forall_mem_cons.mp hentries
      refine List.forall_mem_cons.mpr ⟨?_, List.forall_mem_cons.mpr ⟨?_, ih hentries⟩⟩
      · exact Operation.within_elementPtr (Nat.le_succ_of_le hsource) (Nat.le_add_left 1 _)
          (List.forall_mem_map.mpr fun _ _ => Operand.nesting_i32_le levels _)
      · apply Operation.within_store _ (Nat.le_add_left 1 _)
        rw [Operand.nesting_const]
        exact Nat.succ_le_succ hentry

/-- The stores of an initializer are within the bounds that its global is in. -/
theorem Global.Within.stores {g : Global} {tracked : GlobalId → Bool} {slot next : ValueId}
    (hg : g.Within levels) : ∀ i ∈ g.stores tracked slot next, i.op.Within levels := by
  unfold Global.stores elements
  cases hc : g.initializer with
  | none => exact List.forall_mem_nil _
  | some c =>
      have hle := hg.initializer c hc
      refine List.forall_mem_cons.mpr ⟨?_, within_of_mem_elementStores hg.valueType ?_⟩
      · apply Operation.within_store _ (Nat.le_add_left 1 _)
        rw [Operand.nesting_const]
        exact Nat.succ_le_succ ((c.nesting_bulk_le tracked).trans hle)
      · intro entry hentry
        exact (Constant.part_of_mem_separate hentry).nesting_le.trans hle

theorem within_of_mem_initializerStores {tracked : GlobalId → Bool} {slot next : ValueId}
    {globals : List Global} (h : ∀ g ∈ globals, g.Within levels) :
    ∀ i ∈ initializerStores tracked slot next globals, i.op.Within levels := by
  induction globals generalizing slot next with
  | nil => exact List.forall_mem_nil _
  | cons g globals ih =>
      obtain ⟨hg, hglobals⟩ := List.forall_mem_cons.mp h
      exact List.forall_mem_append.mpr ⟨hg.stores, ih hglobals⟩

namespace Localized

variable {scope : Localized}

/-- So is all that is put in front of a function. -/
theorem within_of_mem_front (first : ValueId)
    (h : ∀ entry ∈ scope.globals, entry.2.Within levels) :
    ∀ i ∈ scope.allocas first ++ scope.stores first, i.op.Within levels := by
  refine List.forall_mem_append.mpr ⟨?_, ?_⟩
  · intro i hi
    obtain ⟨⟨entry, offset⟩, hentry, rfl⟩ := List.mem_map.mp hi
    have hglobal := h entry (List.fst_mem_of_mem_zipIdx hentry)
    exact ⟨List.forall_mem_singleton.mpr (Nat.le_succ_of_le hglobal.valueType),
      List.forall_mem_nil _⟩
  · exact within_of_mem_initializerStores (List.forall_mem_map.mpr h)

/-- The variable of a slot fits wherever a reference stood. -/
theorem fitting_useSlot (slots : List (GlobalId × ValueId)) :
    Operand.Fitting levels (useSlot slots) := by
  intro o
  unfold useSlot
  split
  next id =>
    split
    next => exact le_max_of_le_right (Nat.le_add_left 1 _)
    next => exact le_max_left _ _
  next => exact le_max_left _ _

theorem prepared_within {f : Function} (hf : f.Within levels)
    (h : ∀ entry ∈ scope.globals, entry.2.Within levels) :
    (scope.prepared f).Within levels := by
  have hfront := within_of_mem_front f.values.length h
  have hblocks : (f.mapBlock f.entry (·.mapInstructions
      (scope.allocas f.values.length ++ scope.stores f.values.length ++ ·))).Within levels :=
    hf.mapBlock fun block hblock => hblock.mapInstructions
      (List.forall_mem_append.mpr ⟨hfront, hblock.instructions⟩)
  refine ⟨hblocks.blocks, ?_, hf.returnType⟩
  refine List.forall_mem_append.mpr ⟨List.forall_mem_append.mpr ⟨hf.values, ?_⟩, ?_⟩
  · exact List.forall_mem_map.mpr fun _ _ => Nat.zero_le _
  · intro info hinfo
    obtain rfl := List.eq_of_mem_replicate hinfo
    exact Nat.zero_le _

/-- A function that gets storage for globals stays within the bounds. -/
theorem localizeInto_within {f g : Function} (h : scope.localizeInto f = .ok g)
    (hf : f.Within levels) (hglobals : ∀ entry ∈ scope.globals, entry.2.Within levels) :
    g.Within levels := by
  obtain ⟨expanded, hexpanded, rfl⟩ := expandFunction_of_localizeInto h
  have hprepared := prepared_within hf hglobals
  exact (expandFunction_within hexpanded hprepared).mapOperands (fitting_useSlot _)

end Localized

namespace Function.Within

variable {f : Function}

/-! ## Sweeping -/

theorem deadResults (h : f.Within levels) :
    ∀ entry ∈ f.deadResults, entry.2.toJson.nesting ≤ levels + 3 := by
  intro entry hentry
  obtain ⟨op, hop, hentry⟩ := List.mem_filterMap.mp hentry
  obtain ⟨block, hblock, hop⟩ := List.mem_flatMap.mp hop
  obtain ⟨i, hi, rfl⟩ := List.mem_map.mp (List.mem_filter.mp hop).1
  have htypes := ((h.blocks block hblock).instructions i hi).types
  split at hentry
  next hcall =>
    obtain rfl := Option.some.inj hentry
    rw [hcall] at htypes
    exact htypes _ List.mem_cons_self
  next => cases hentry

/-- The poison for a dead result is nested no deeper than the result may be. -/
theorem sweep (h : f.Within levels) : f.sweep.Within levels := by
  apply List.foldlRecOn (motive := fun g : Function => g.Within levels)
  · refine ⟨List.forall_mem_map.mpr fun block hblock => ?_, h.values, h.returnType⟩
    have hblock := h.blocks block hblock
    exact hblock.mapInstructions fun i hi => hblock.instructions i (List.mem_filter.mp hi).1
  · intro edited hedited entry hentry
    apply hedited.mapOperands (Operand.fitting_replaceVar _ _)
    rw [Operand.nesting_poison]
    exact Nat.add_le_add_right (h.deadResults entry hentry) 2

/-- What a call passes on fits wherever an operand may stand. -/
theorem callSite {m : Module} {b : BlockId} {index : Nat} {site : CallSite} (hf : f.Within levels)
    (h : callSite? m f b index = some site) :
    site.returnType.toJson.nesting ≤ levels + 3 ∧
      ∀ o ∈ site.args, o.toJson.nesting ≤ levels + 5 := by
  obtain ⟨block, i, _, _, hblock, hi, hcall, _⟩ := Module.exists_call_of_callSite? h
  have hop := (hf.blocks block (List.mem_of_getElem? hblock)).instructions i
    (List.mem_of_getElem? hi)
  rw [hcall] at hop
  exact ⟨hop.types _ List.mem_cons_self, (List.forall_mem_cons.mp hop.operands).2⟩

end Function.Within

/-! ## Steps -/

namespace Module

variable {m n : Module}

theorem Within.setFunction {id : FunctionId} {f g : Function} (hm : m.Within levels)
    (hf : m.function? id = some f) (hg : g.Within levels) : (m.setFunction id g).Within levels := by
  refine ⟨fun other k hk => ?_, hm.globals⟩
  rw [function?_setFunction hf] at hk
  split at hk
  next => exact Option.some.inj hk ▸ hg
  next => exact hm.functions other k hk

/-- Every change that flattening is made of keeps the bounds. -/
theorem Within.step (h : Step m n) (hm : m.Within levels) : n.Within levels := by
  cases h with
  | inline h =>
      obtain ⟨f, site, inlined, hf, hsite, _, _, hinlined, rfl⟩ := exists_of_inlineCall h
      obtain ⟨callee, hcallee, _⟩ := exists_of_callSite? hsite
      have hcaller := hm.functions _ f hf
      -- the callee may be any function, so its body has to be within the bound as well
      obtain ⟨hty, hargs⟩ := hcaller.callSite hsite
      have hbody := hm.functions callee _ hcallee
      exact hm.setFunction hf (hcaller.inlineBody hbody hty hargs hinlined)
  | replace id =>
      constructor
      · intro other f hf
        obtain ⟨old, hold, rfl⟩ := Option.map_eq_some_iff.mp (Arena.get?_mapLive.symm.trans hf)
        exact (hm.functions other old hold).mapOperands (Operand.fitting_replaceFunction id)
      · intro other g hg
        obtain ⟨old, hold, rfl⟩ := Option.map_eq_some_iff.mp (Arena.get?_mapLive.symm.trans hg)
        have hglobal := hm.globals other old hold
        refine ⟨hglobal.valueType, fun c hc => ?_⟩
        obtain ⟨initializer, hinitializer, rfl⟩ := Option.map_eq_some_iff.mp hc
        rw [Constant.nesting_replaceFunction]
        exact hglobal.initializer initializer hinitializer
  | eraseFunction id =>
      constructor
      · intro other f hf
        rw [function?_eraseFunction] at hf
        split at hf
        next => cases hf
        next => exact hm.functions other f hf
      · rw [global?_eraseFunction]
        exact hm.globals
  | eraseGlobal id =>
      constructor
      · rw [function?_eraseGlobal]
        exact hm.functions
      · intro other g hg
        rw [global?_eraseGlobal] at hg
        split at hg
        next => cases hg
        next => exact hm.globals other g hg
  | localize hf hg =>
      -- the only step that makes anything deeper: initializers become operands of stores
      apply hm.setFunction hf
      apply Localized.localizeInto_within hg (hm.functions _ _ hf)
      intro entry hentry
      exact hm.globals entry.1 entry.2 (mem_globalsAt.mp hentry).2
  | sweep =>
      refine ⟨fun id f hf => ?_, hm.globals⟩
      obtain ⟨old, hold, rfl⟩ := Option.map_eq_some_iff.mp (Arena.get?_mapLive.symm.trans hf)
      exact (hm.functions id old hold).sweep

end Module

/-! ## Depths -/

theorem Terminator.nesting_le {t : Terminator} :
    t.toJson.nesting ≤ levels + 2 ↔ ∀ o ∈ t.operands, o.toJson.nesting ≤ levels := by
  cases t with
  | ret value =>
      cases value <;>
        simp [toJson, operands, nesting_optional_le]
  | _ => simp [toJson, operands]

theorem Instruction.nesting_le {i : Instruction} :
    i.toJson.nesting ≤ levels + 1 ↔ i.op.toJson.nesting ≤ levels := by
  rw [toJson, nesting_object_le_succ, List.forall_mem_append, forall_mem_member?]
  simp

theorem Block.nesting_le {block : Block} :
    block.toJson.nesting ≤ levels + 3 ↔
      (∀ i ∈ block.instructions, i.op.toJson.nesting ≤ levels) ∧
        ∀ o ∈ block.terminator.operands, o.toJson.nesting ≤ levels := by
  rw [toJson, nesting_object_le_succ, List.forall_mem_append, forall_mem_member?]
  simp [Instruction.nesting_le, Terminator.nesting_le]

theorem ValueInfo.nesting_le {info : ValueInfo} :
    info.toJson.nesting ≤ levels + 1 ↔ info.ty.toJson.nesting ≤ levels := by
  rw [toJson, nesting_object_le_succ, List.forall_mem_append, forall_mem_member?]
  simp

/-- How deep a function is nested, in terms of its parts. -/
theorem Function.nesting_le {f : Function} :
    f.toJson.nesting ≤ levels + 5 ↔
      f.returnType.toJson.nesting ≤ levels + 4 ∧
        (∀ block ∈ f.blocks, block.toJson.nesting ≤ levels + 3) ∧
          ∀ info ∈ f.values, info.ty.toJson.nesting ≤ levels + 2 := by
  simp [toJson, Attributes.nesting_toJson, Linkage.nesting_toJson, ValueInfo.nesting_le]

theorem Global.nesting_le {g : Global} :
    g.toJson.nesting ≤ levels + 1 ↔
      g.valueType.toJson.nesting ≤ levels ∧ ∀ c ∈ g.initializer, c.toJson.nesting ≤ levels := by
  rw [toJson, nesting_object_le_succ]
  simp only [List.forall_mem_append, forall_mem_member?]
  simp [Linkage.nesting_toJson]

namespace Module

variable {m : Module}

/-- How deep a module is nested, in terms of its functions and globals. -/
theorem nesting_le :
    m.toJson.nesting ≤ levels + 7 ↔
      (∀ id f, m.function? id = some f → f.toJson.nesting ≤ levels + 5) ∧
        ∀ id g, m.global? id = some g → g.toJson.nesting ≤ levels + 5 := by
  rw [toJson, nesting_object_le_succ, List.forall_mem_append, forall_mem_member?]
  simp only [List.forall_mem_cons, nesting_arr_le_succ, List.forall_mem_map, nesting_optional_le,
    Option.forall_mem_map, Arena.forall_mem_iff]
  simp [function?, global?]

/-- What is written in nine levels more is within the bounds. -/
theorem within_of_nesting (h : m.toJson.nesting ≤ levels + 9) : m.Within levels := by
  obtain ⟨hfunctions, hglobals⟩ := nesting_le.mp h
  constructor
  · intro id f hf
    obtain ⟨hreturn, hblocks, hvalues⟩ := Function.nesting_le.mp (hfunctions id f hf)
    refine ⟨fun block hblock => ?_, fun info hinfo => ?_, Nat.le_succ_of_le hreturn⟩
    · obtain ⟨hcode, hend⟩ := Block.nesting_le.mp (hblocks block hblock)
      exact ⟨fun i hi => Operation.within_of_nesting (hcode i hi),
        fun o ho => Nat.le_add_right_of_le (k := 3) (hend o ho)⟩
    · exact Nat.le_add_right_of_le (k := 3) (hvalues info hinfo)
  · intro id g hg
    obtain ⟨hty, hinitializer⟩ := Global.nesting_le.mp (hglobals id g hg)
    exact ⟨hty, hinitializer⟩

/-- What is within the bounds is written in sixteen levels more. -/
theorem Within.nesting (h : m.Within levels) : m.toJson.nesting ≤ levels + 16 := by
  refine nesting_le.mpr ⟨fun id f hf => ?_, fun id g hg => ?_⟩
  · have hf := h.functions id f hf
    refine Function.nesting_le.mpr ⟨?_, fun block hblock => ?_, fun info hinfo => ?_⟩
    · exact Nat.le_add_right_of_le (k := 6) hf.returnType
    · have hblock := hf.blocks block hblock
      exact Block.nesting_le.mpr ⟨fun i hi => (hblock.instructions i hi).nesting,
        fun o ho => Nat.le_add_right_of_le (k := 4) (hblock.terminator o ho)⟩
    · exact Nat.le_add_right_of_le (k := 4) (hf.values info hinfo)
  · have hg := h.globals id g hg
    apply Global.nesting_le.mpr
    exact ⟨Nat.le_add_right_of_le (k := 7) hg.valueType,
      fun c hc => Nat.le_add_right_of_le (k := 7) (hg.initializer c hc)⟩

/-- Flattening makes a module at most seven levels deeper. -/
theorem nesting_flatten_le {config : Config} {budget : Nat} {report : Report} {n : Module}
    (hm : m.toJson.nesting ≤ levels + 9) (h : m.flatten config budget = (.ok report, n)) :
    n.toJson.nesting ≤ levels + 16 :=
  ((steps_flatten h).keeps (fun _ _ hstep hwithin => hwithin.step hstep)
    (within_of_nesting hm)).nesting

end Module

end Monolith
