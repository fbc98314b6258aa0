import Monolith.Proofs.Inlining.Values

/-! # Steps after inlining

Each step of the caller or of the callee has its counterpart in the body after
inlining: the instructions do the same on the values that they read, the blocks pass
control to the same places, and where the callee returns, the result of the call gets
its value.
-/

namespace Monolith

variable {block : Block} {c : BlockId} {t : Terminator} {b : BlockId} {i : Instruction}
  {done rest : List Instruction}

namespace Operation

theorem shape_mapOperands (r : Operand → Operand) (op : Operation) :
    (op.mapOperands r).shape = op.shape := by
  cases op <;> simp [shape, mapOperands, mapDest, Function.comp_def]

theorem shape_mapDest (δ : ValueId → ValueId) (op : Operation) :
    (op.mapDest δ).shape = op.shape := by
  cases op <;> simp [shape, mapOperands, mapDest, Function.comp_def]

end Operation

theorem Module.body?_eq_none_iff {m : Module} {op : Operation} :
    m.body? op = none ↔ ∀ id f, op.directCallee? = some id → m.function? id = some f →
      f.isDeclaration = true := by
  unfold body?
  cases op.directCallee? with
  | none => simp
  | some id =>
      have hiff : (∀ id' f, some id = some id' → m.function? id' = some f →
          f.isDeclaration = true) ↔ ∀ f, m.function? id = some f → f.isDeclaration = true :=
        ⟨fun h f => h id f rfl, fun h id' f hid => Option.some.inj hid ▸ h f⟩
      rw [hiff, Option.bind_some]
      cases m.function? id <;> simp

namespace Interpretation

variable (I : Interpretation)

/-- Two instructions do the same in their environments, up to the name of the result. -/
structure Matches (env env' : Env I.Value) (i i' : Instruction) : Prop where
  isPhi : i'.op.isPhi = i.op.isPhi
  shape : i'.op.shape = i.op.shape
  callee : i'.op.directCallee? = i.op.directCallee?
  values : I.evalAll env' i'.op.operands = I.evalAll env i.op.operands

variable {I} in
theorem Matches.symm {env env' : Env I.Value} {i i' : Instruction} (h : I.Matches env env' i i') :
    I.Matches env' env i' i :=
  ⟨h.isPhi.symm, h.shape.symm, h.callee.symm, h.values.symm⟩

variable {I} in
/-- Instructions that match call the same function on the same values, if any. -/
theorem Matches.call {env env' : Env I.Value} {i i' : Instruction} (h : I.Matches env env' i i')
    {dest : Option ValueId} {ty : Ty} {id : FunctionId} {args : List Operand}
    (hop : i.op = .call dest ty (.const (.function id)) args) :
    ∃ dest' args', i'.op = .call dest' ty (.const (.function id)) args' ∧
      I.evalAll env' args' = I.evalAll env args := by
  obtain ⟨_, hshape, hcallee, hvalues⟩ := h
  rw [hop] at hshape hcallee hvalues
  obtain ⟨dest', ty', args', hop'⟩ := Operation.directCallee?_eq_some hcallee
  rw [hop'] at hshape hvalues
  have hty : ty' = ty := (Operation.call.inj hshape).2.1
  subst hty
  refine ⟨dest', args', hop', ?_⟩
  simp only [Operation.operands, evalAll, List.mapM_cons, eval, Option.bind_eq_bind,
    Option.bind_some, Option.pure_def] at hvalues
  change (I.evalAll env' args').bind _ = (I.evalAll env args).bind _ at hvalues
  cases hold : I.evalAll env args <;> cases hnew : I.evalAll env' args' <;> simp_all

theorem mem_targets {env : Env I.Value} (h : I.target? env t = some b) : b ∈ t.targets := by
  cases t with
  | jump target =>
      obtain rfl := Option.some.inj h
      exact List.mem_singleton_self _
  | branch condition onTrue onFalse =>
      obtain ⟨value, _, rfl⟩ := Option.map_eq_some_iff.mp h
      cases I.truth value <;> simp [Terminator.targets]
  | _ => cases h

theorem not_isReturn {env : Env I.Value} (h : I.target? env t = some b) : t.isReturn = false := by
  cases t with
  | ret _ => cases h
  | _ => rfl

theorem isReturn_of_return? {env : Env I.Value} {value : Option I.Value}
    (h : I.return? env t = some value) : t.isReturn = true := by
  cases t with
  | ret _ => rfl
  | _ => cases h

/-- Control is passed to a block that exists. -/
theorem exists_target {f : Function} (hform : f.WellFormed) {target : BlockId} {env : Env I.Value}
    (hblock : f.block? b = some block) (h : I.target? env block.terminator = some target) :
    ∃ next, f.block? target = some next ∧ f.Edge b target := by
  have hsucc := Function.mem_successors.mpr ⟨block, hblock, I.mem_targets h⟩
  have hlt := hform.targets_lt b target hsucc
  exact ⟨_, List.getElem?_eq_getElem hlt, Function.edge_iff.mpr ⟨hsucc, hlt⟩⟩

end Interpretation

theorem Function.WellFormed.exists_block {f : Function} (hform : f.WellFormed)
    (hreached : f.Reached b) : ∃ block, f.block? b = some block := by
  obtain ⟨rest, hwalk⟩ := hreached
  exact ⟨_, List.getElem?_eq_getElem (hwalk.hasBlock hform.entry_lt b List.mem_cons_self)⟩

theorem Block.phis_isPhi (hi : i ∈ block.phis) : i.op.isPhi = true :=
  List.mem_takeWhile_imp (p := fun i : Instruction => i.op.isPhi) hi

theorem Block.phis_subset (hi : i ∈ block.phis) : i ∈ block.instructions := by
  rw [block.instructions_eq]
  exact List.mem_append_left _ hi

/-- Rewriting instructions that keeps phis and only phis rewrites the two parts of a block. -/
theorem Block.parts_map {instructions : List Instruction} {g : Instruction → Instruction}
    (h : block.instructions = instructions.map g) (hphi : ∀ i, (g i).op.isPhi = i.op.isPhi) :
    block.phis = (instructions.takeWhile (·.op.isPhi)).map g ∧
      block.code = (instructions.dropWhile (·.op.isPhi)).map g := by
  have hsame : (fun i : Instruction => i.op.isPhi) ∘ g = fun i => i.op.isPhi := funext hphi
  rw [phis, code, h, List.takeWhile_map, List.dropWhile_map, hsame]
  exact ⟨rfl, rfl⟩

/-- The inlining leads from one module to another, and neither hands a function from the
caller to the callee nor back. -/
structure SoundInlining.Between (inl : SoundInlining) (m n : Module) (caller callee : FunctionId) :
    Prop where
  caller_eq : m.function? caller = some inl.caller
  callee_eq : m.function? callee = some inl.callee
  result_eq : n.function? caller = some inl.result
  others_eq : ∀ id, id ≠ caller → n.function? id = m.function? id
  target_eq : inl.target = .const (.function callee)
  no_allocas : inl.allocas = []
  args_plain : ∀ a ∈ inl.site.args, a.function? = none
  returns_plain : ∀ block ∈ inl.callee.blocks, ∀ value, block.terminator = .ret (some value) →
    value.function? = none

namespace SoundInlining

open Inlining

variable {inl : SoundInlining}

def rewrite (inl : SoundInlining) (i : Instruction) : Instruction :=
  (i.mapIncoming inl.moved).mapOperands inl.subst

def copyOf (inl : SoundInlining) (i : Instruction) : Instruction :=
  (inl.names.instruction i).mapOperands inl.subst

theorem isPhi_rewrite (i : Instruction) : (inl.rewrite i).op.isPhi = i.op.isPhi := by
  simp [rewrite]

theorem dest?_rewrite (i : Instruction) : (inl.rewrite i).op.dest? = i.op.dest? := by
  simp [rewrite]

theorem dest?_copyOf (i : Instruction) :
    (inl.copyOf i).op.dest? = i.op.dest?.map inl.names.dest := by
  simp [copyOf, Renaming.instruction]

theorem isPhi_copyOf (i : Instruction) : (inl.copyOf i).op.isPhi = i.op.isPhi := by
  simp [copyOf, Renaming.instruction]

namespace Between

variable {m n : Module} {caller callee : FunctionId} (h : inl.Between m n caller callee)

include h

theorem function?_operand (o : Operand) : (inl.names.operand o).function? = o.function? := by
  cases o with
  | const c => rfl
  | var x =>
      change ((inl.names.values.lookup x).getD (.var x)).function? = none
      cases hlookup : inl.names.values.lookup x with
      | none => rfl
      | some a =>
          obtain ⟨front, rest, hvalues, _⟩ := List.lookup_eq_some_iff.mp hlookup
          have hmem : (x, a) ∈ inl.names.values := by simp [hvalues]
          rcases List.mem_append.mp hmem with hparam | hfresh
          · exact h.args_plain a (List.of_mem_zip (List.mem_reverse.mp hparam)).2
          · obtain ⟨entry, _, heq⟩ := List.mem_map.mp hfresh
            obtain ⟨_, rfl⟩ := Prod.mk.inj heq
            rfl

theorem function?_subst (o : Operand) : (inl.subst o).function? = o.function? := by
  cases o with
  | const c => rw [subst_const]
  | var x =>
      by_cases hd : inl.site.dest = some x
      · rcases inl.subst_dest hd with ⟨hsame, _⟩ | ⟨hpoison, _⟩ | ⟨value, source, hvalue, hreturned⟩
        · rw [hsame]
        · rw [hpoison]
          rfl
        · have hmem : (value, source) ∈ inl.returned := by simp [hreturned]
          obtain ⟨c, block, result, hblock, hterm, rfl, _⟩ := inl.mem_returned.mp hmem
          rw [hvalue, h.function?_operand]
          exact h.returns_plain block (List.mem_of_getElem? hblock) result hterm
      · rw [inl.subst_var_of_ne hd]

/-- Both modules have bodies for the same functions. -/
theorem body?_eq_none_iff {op op' : Operation} (hcallee : op'.directCallee? = op.directCallee?) :
    n.body? op' = none ↔ m.body? op = none := by
  have hcaller : inl.caller.isDeclaration = false := by
    simpa [Function.isDeclaration] using List.ne_nil_of_length_pos (Nat.zero_lt_of_lt inl.block_lt)
  have hresult : inl.result.isDeclaration = false := by
    have hlt := (List.getElem?_eq_some_iff.mp inl.result_cont).1
    simpa [Function.isDeclaration] using List.ne_nil_of_length_pos (Nat.zero_lt_of_lt hlt)
  rw [Module.body?_eq_none_iff, Module.body?_eq_none_iff, hcallee]
  refine forall_congr' fun id => ?_
  by_cases hid : id = caller
  · subst hid
    simp [h.caller_eq, h.result_eq, hcaller, hresult]
  · rw [h.others_eq id hid]

/-- An instruction of the caller does what it did. -/
theorem matches_rewrite {I : Interpretation} {env env' : Env I.Value}
    (hagrees : inl.Agrees I b done env env') (hbody : inl.caller.body b = done ++ i :: rest)
    (hphi : i.op.isPhi = false) : I.Matches env env' i (inl.rewrite i) := by
  have hrewrite : (inl.rewrite i).op = i.op.mapOperands inl.subst := by
    rw [rewrite, Instruction.mapIncoming_of_not_phi hphi]
    rfl
  obtain ⟨block, hblock, _⟩ := Function.block?_of_mem_body (by simp [hbody] : i ∈ inl.caller.body b)
  rw [Function.body_eq hblock] at hbody
  refine ⟨isPhi_rewrite i, ?_, ?_, ?_⟩
  · rw [hrewrite, Operation.shape_mapOperands]
  · rw [hrewrite, Operation.directCallee?_mapOperands h.function?_subst]
  · rw [hrewrite, Operation.operands_mapOperands]
    exact I.evalAll_map fun o ho => hagrees.eval (.instruction hblock hbody hphi ho)

/-- The copy of an instruction of the callee does what the instruction does. -/
theorem matches_copyOf {I : Interpretation} {env env' : Env I.Value}
    (hmirrors : inl.Mirrors I c done env env')
    (hargs : ∀ d, inl.site.dest = some d → .var d ∉ inl.site.args)
    (hbody : inl.callee.body c = done ++ i :: rest) (hphi : i.op.isPhi = false) :
    I.Matches env env' i (inl.copyOf i) := by
  have hcopy : (inl.copyOf i).op =
      ((i.op.mapOperands inl.names.operand).mapDest inl.names.dest).mapOperands inl.subst := by
    rw [copyOf, Renaming.instruction, Instruction.mapIncoming_of_not_phi (by simpa using hphi)]
    rfl
  obtain ⟨block, hblock, _⟩ := Function.block?_of_mem_body (by simp [hbody] : i ∈ inl.callee.body c)
  rw [Function.body_eq hblock] at hbody
  refine ⟨isPhi_copyOf i, ?_, ?_, ?_⟩
  · rw [hcopy, Operation.shape_mapOperands, Operation.shape_mapDest, Operation.shape_mapOperands]
  · rw [hcopy, Operation.directCallee?_mapOperands h.function?_subst,
      Operation.directCallee?_mapDest, Operation.directCallee?_mapOperands h.function?_operand]
  · simp only [hcopy, Operation.operands_mapOperands, Operation.operands_mapDest, List.map_map]
    exact I.evalAll_map fun o ho => hmirrors.eval hargs (.instruction hblock hbody hphi ho)

theorem instructions_callerBlock (b : BlockId) (block : Block) :
    (inl.callerBlock b block).instructions = (inl.kept b block).map inl.rewrite := by
  have hhoist : ∀ instructions, inl.hoist b instructions = instructions := by
    intro instructions
    unfold hoist
    split <;> simp [h.no_allocas]
  simp only [callerBlock, Block.mapOperands, hhoist, List.map_map]
  rfl

theorem instructions_calleeBlock (c : BlockId) (block : Block) :
    (inl.calleeBlock c block).instructions = block.instructions.map inl.copyOf := by
  simp only [calleeBlock, Block.mapOperands, copied, h.no_allocas, List.length_nil, ite_self,
    List.drop_zero, List.map_map]
  rfl

end Between

/-! ## Places of the caller -/

/-- Where a place of the caller is found after inlining, and what is left of the block
there: the block of the call ends with the call. -/
inductive Placed (inl : SoundInlining) : BlockId → List Instruction → List Instruction → BlockId →
    List Instruction → Prop where
  | other {b : BlockId} {done rest : List Instruction} (hne : b ≠ inl.block)
      (hbody : inl.caller.body b = done ++ rest) : Placed inl b done rest b rest
  | before {done rest : List Instruction} (hbefore : inl.before = done ++ rest) :
      Placed inl inl.block done (rest ++ inl.call :: inl.after) inl.block rest
  | after {done rest : List Instruction} (hafter : inl.after = done ++ rest) :
      Placed inl inl.block (inl.before ++ inl.call :: done) rest inl.cont rest

namespace Placed

variable {b' : BlockId} {rest' : List Instruction}

theorem body_eq (h : inl.Placed b done rest b' rest') : inl.caller.body b = done ++ rest := by
  cases h with
  | other _ hbody => exact hbody
  | before hbefore => rw [inl.body_block, hbefore, List.append_assoc]
  | after hafter => simp [inl.body_block, hafter]

/-- Next is an instruction in both bodies, the call, or the end of the block. -/
theorem next (h : inl.Placed b done rest b' rest') :
    (∃ i tail tail', rest = i :: tail ∧ rest' = i :: tail' ∧
      inl.Placed b (done ++ [i]) tail b' tail' ∧
      (b = inl.block → done.length ≠ inl.before.length)) ∨
    (b = inl.block ∧ done = inl.before ∧ rest = inl.call :: inl.after ∧ b' = inl.block ∧
      rest' = []) ∨
    (rest = [] ∧ rest' = [] ∧ b' = inl.moved b) := by
  cases h with
  | other hne hbody =>
      cases rest with
      | nil => exact .inr (.inr ⟨rfl, rfl, (if_neg hne).symm⟩)
      | cons i tail =>
          refine .inl ⟨i, tail, tail, rfl, rfl, .other hne ?_, fun hb => absurd hb hne⟩
          rw [hbody, List.append_cons]
  | before hbefore =>
      cases rest' with
      | nil =>
          rw [List.append_nil] at hbefore
          exact .inr (.inl ⟨rfl, hbefore.symm, rfl, rfl, rfl⟩)
      | cons i tail =>
          refine .inl ⟨i, _, tail, rfl, rfl, .before ?_, fun _ => ?_⟩
          · rw [hbefore, List.append_cons]
          · rw [hbefore, List.length_append, List.length_cons]
            omega
  | @after done _ hafter =>
      cases rest with
      | nil => exact .inr (.inr ⟨rfl, rfl, (if_pos rfl).symm⟩)
      | cons i tail =>
          refine .inl ⟨i, tail, tail, rfl, rfl, ?_, fun _ => ?_⟩
          · rw [List.append_assoc, List.cons_append]
            refine .after ?_
            rw [hafter, List.append_cons]
          · rw [List.length_append, List.length_cons]
            omega

end Placed

def keptCode (inl : SoundInlining) (b : BlockId) (block : Block) : List Instruction :=
  (inl.kept b block).dropWhile (·.op.isPhi)

theorem placed_start (hblock : inl.caller.block? b = some block) :
    inl.Placed b [] block.instructions b (inl.kept b block) := by
  by_cases hb : b = inl.block
  · subst hb
    obtain rfl := Option.some.inj (inl.block_eq.symm.trans hblock)
    rw [kept, if_pos rfl, inl.split]
    exact .before rfl
  · rw [kept, if_neg hb]
    exact .other hb (Function.body_eq hblock)

theorem takeWhile_append_call (front back : List Instruction) (hi : i.op.isPhi = false) :
    (front ++ i :: back).takeWhile (·.op.isPhi) = front.takeWhile (·.op.isPhi) ∧
      (front ++ i :: back).dropWhile (·.op.isPhi) =
        front.dropWhile (·.op.isPhi) ++ i :: back := by
  induction front with
  | nil => simp [hi]
  | cons j front ih => cases hj : j.op.isPhi <;> simp [hj, ih]

/-- Behind the phis of a block, which are the same as before. -/
theorem placed_code (hblock : inl.caller.block? b = some block) :
    (inl.kept b block).takeWhile (·.op.isPhi) = block.phis ∧
      inl.Placed b block.phis block.code b (inl.keptCode b block) := by
  by_cases hb : b = inl.block
  · subst hb
    obtain rfl := Option.some.inj (inl.block_eq.symm.trans hblock)
    obtain ⟨hphis, hcode⟩ := takeWhile_append_call inl.before inl.after inl.call_not_phi
    rw [← inl.split] at hphis hcode
    rw [Block.phis, Block.code, hcode, hphis, keptCode, kept, if_pos rfl]
    exact ⟨rfl, .before List.takeWhile_append_dropWhile.symm⟩
  · rw [keptCode, kept, if_neg hb]
    exact ⟨rfl, .other hb ((Function.body_eq hblock).trans block.instructions_eq)⟩

/-- The block that takes over the end of a block of the caller ends as that block did. -/
theorem exists_moved (hblock : inl.caller.block? b = some block) :
    ∃ block', inl.result.block? (inl.moved b) = some block' ∧
      block'.terminator = block.terminator.mapOperands inl.subst := by
  by_cases hb : b = inl.block
  · subst hb
    obtain rfl := Option.some.inj (inl.block_eq.symm.trans hblock)
    rw [moved, if_pos rfl]
    exact ⟨_, inl.result_cont, rfl⟩
  · rw [moved, if_neg hb]
    refine ⟨_, inl.result_of_block? hblock, ?_⟩
    simp only [callerBlock, exit, if_neg hb]
    rfl

namespace Between

variable {m n : Module} {caller callee : FunctionId} (h : inl.Between m n caller callee)
  {I : Interpretation} {env env' : Env I.Value}

include h

/-- The phis of a block of the caller take the values that they took. -/
theorem phiValues_caller {a : BlockId} {next : Block}
    (hagrees : inl.Agrees I a (inl.caller.body a) env env')
    (hblock : inl.caller.block? a = some block) (hnext : inl.caller.block? b = some next) :
    I.phiValues env' (inl.moved a) (inl.callerBlock b next).phis = I.phiValues env a next.phis := by
  have hphis := (Block.parts_map (h.instructions_callerBlock b next) isPhi_rewrite).1
  rw [(placed_code hnext).1] at hphis
  have hrenamed : ∀ i ∈ next.phis,
      I.Renamed env env' a inl.subst inl.moved id i (inl.rewrite i) := by
    intro i hi
    obtain ⟨dest, ty, incoming, hop⟩ := Operation.isPhi_iff.mp (Block.phis_isPhi hi)
    have hmem := Block.phis_subset hi
    have hbody : i ∈ inl.caller.body b := by rwa [Function.body_eq hnext]
    refine ⟨dest, ty, incoming, hop, ?_, fun entry hentry heq => ?_, fun o ho => ?_⟩
    · simp [rewrite, hop, Operation.mapOperands, Operation.mapIncoming]
    · have hlt : entry.2 < inl.cont :=
        inl.shaped.lt_of_listed hbody (by rw [hop]; exact List.mem_map_of_mem hentry)
      exact inl.moved_inj hlt (List.getElem?_eq_some_iff.mp hblock).1 heq
    · exact hagrees.eval (.phi hnext hmem hop ho)
  rw [hphis, I.phiValues_map hrenamed]
  cases I.phiValues env a next.phis <;> simp

/-- The phis of a copy take the values that those of the callee take. -/
theorem phiValues_callee {a : BlockId} {next : Block}
    (hmirrors : inl.Mirrors I a (inl.callee.body a) env env')
    (hargs : ∀ d, inl.site.dest = some d → .var d ∉ inl.site.args)
    (hblock : inl.callee.block? a = some block) (hnext : inl.callee.block? c = some next) :
    I.phiValues env' (inl.clone a) (inl.calleeBlock c next).phis =
      (I.phiValues env a next.phis).map (·.map fun entry => (inl.names.dest entry.1, entry.2)) := by
  have hphis := (Block.parts_map (h.instructions_calleeBlock c next) isPhi_copyOf).1
  have ha : a < inl.callee.blocks.length := (List.getElem?_eq_some_iff.mp hblock).1
  have hrenamed : ∀ i ∈ next.phis,
      I.Renamed env env' a (inl.subst ∘ inl.names.operand) inl.names.block inl.names.dest i
        (inl.copyOf i) := by
    intro i hi
    obtain ⟨dest, ty, incoming, hop⟩ := Operation.isPhi_iff.mp (Block.phis_isPhi hi)
    have hmem := Block.phis_subset hi
    have hbody : i ∈ inl.callee.body c := by rwa [Function.body_eq hnext]
    refine ⟨dest, ty, incoming, hop, ?_, fun entry hentry heq => ?_, fun o ho => ?_⟩
    · simp [copyOf, Renaming.instruction, hop, Operation.mapOperands, Operation.mapIncoming,
        Operation.mapDest]
    · have hlt : entry.2 < inl.callee.blocks.length :=
        inl.callee_shaped.lt_of_listed hbody (by rw [hop]; exact List.mem_map_of_mem hentry)
      rw [inl.names_block hlt, inl.names_block ha] at heq
      exact Nat.add_left_cancel heq
    · exact hmirrors.eval hargs (.phi hnext hmem hop ho)
  rw [hphis, ← inl.names_block ha]
  exact I.phiValues_map hrenamed

end Between

/-! ## The way into the callee and back -/

section

variable {I : Interpretation} {env env' : Env I.Value}

/-- A copy passes control to the copies of the targets, or behind the call. -/
theorem target?_copy (hblock : inl.callee.block? c = some block)
    (hmirrors : inl.Mirrors I c (inl.callee.body c) env env')
    (hargs : ∀ d, inl.site.dest = some d → .var d ∉ inl.site.args) :
    I.target? env' (inl.calleeBlock c block).terminator =
      if block.terminator.isReturn then some inl.cont
      else (I.target? env block.terminator).map inl.clone := by
  have hclone : ∀ t ∈ block.terminator.targets, inl.names.block t = inl.clone t := fun t ht =>
    inl.names_block
      (inl.callee_wellFormed.targets_lt c t (Function.mem_successors.mpr ⟨block, hblock, ht⟩))
  change I.target? env' ((inl.names.terminator inl.cont block.terminator).mapOperands inl.subst) = _
  cases hterm : block.terminator with
  | ret value => rfl
  | unreachable => rfl
  | jump target =>
      rw [hterm] at hclone
      exact congrArg some (hclone target List.mem_cons_self)
  | branch condition onTrue onFalse =>
      have hreads : inl.callee.Reads c (inl.callee.body c) condition := by
        rw [Function.body_eq hblock]
        refine .terminator hblock ?_
        rw [hterm]
        exact List.mem_singleton_self _
      rw [hterm] at hclone
      have htrue := hclone onTrue (by simp [Terminator.targets])
      have hfalse := hclone onFalse (by simp [Terminator.targets])
      change (I.eval env' (inl.subst (inl.names.operand condition))).map (fun value =>
        if I.truth value then inl.names.block onTrue else inl.names.block onFalse) = _
      rw [hmirrors.eval hargs hreads, htrue, hfalse]
      cases hvalue : I.eval env condition with
      | none => simp [Interpretation.target?, hvalue, Terminator.isReturn]
      | some value =>
          cases htruth : I.truth value <;>
            simp [Interpretation.target?, hvalue, Terminator.isReturn, htruth]

theorem return?_copy (c : BlockId) (block : Block) :
    I.return? env' (inl.calleeBlock c block).terminator = none := by
  change I.return? env' ((inl.names.terminator inl.cont block.terminator).mapOperands inl.subst) = _
  cases block.terminator <;> rfl

/-- The copy of the callee sets no variable of the caller. -/
theorem Agrees.frame {env'' : Env I.Value} (hagrees : inl.Agrees I inl.block inl.before env env')
    (hreached : inl.caller.Reached inl.block)
    (hframe : ∀ x < inl.caller.values.length, env'' x = env' x) :
    inl.Agrees I inl.block inl.before env env'' := by
  intro x hvisible
  have hdest : inl.site.dest ≠ some x := fun hd => inl.dest_not_visible hreached hd hvisible
  have hdefined := hvisible.defined hreached (by simp [inl.body_block])
  obtain ⟨v, hv, hv'⟩ := hagrees x hvisible
  rw [inl.subst_var_of_ne hdest] at hv' ⊢
  exact ⟨v, hv, (hframe x (inl.recorded x hdefined)).trans hv'⟩

theorem assign_copy_frame (hbody : inl.callee.body c = done ++ i :: rest) (v : I.Value) :
    ∀ x < inl.caller.values.length, env'.assign (i.op.dest?.map inl.names.dest) v x = env' x := by
  intro x hx
  refine Env.assign_of_ne _ _ fun heq => ?_
  obtain ⟨y, hy, rfl⟩ := Option.map_eq_some_iff.mp heq
  obtain ⟨hparam, hlt⟩ :=
    inl.inner_of_defs (Function.mem_defs_of_body (mem_body_of_place hbody hy))
  exact absurd hx (Nat.not_lt.mpr (inl.copies.le_dest hparam hlt))

theorem setAll_copy_frame (hblock : inl.callee.block? c = some block)
    {values : List (ValueId × I.Value)} (hkeys : values.map Prod.fst = defsOf block.phis) :
    ∀ x < inl.caller.values.length,
      env'.setAll (values.map fun entry => (inl.names.dest entry.1, entry.2)) x = env' x := by
  intro x hx
  refine Env.setAll_of_not_mem _ fun hmem => ?_
  rw [List.map_map] at hmem
  obtain ⟨entry, hentry, rfl⟩ := List.mem_map.mp hmem
  have hkey := List.mem_map_of_mem (f := Prod.fst) hentry
  rw [hkeys] at hkey
  have hbody : entry.1 ∈ defsOf (inl.callee.body c) := by
    rw [Function.body_eq hblock, block.instructions_eq, defsOf_append]
    exact List.mem_append_left _ hkey
  obtain ⟨hparam, hlt⟩ := inl.inner_of_defs (Function.mem_defs_of_body hbody)
  exact absurd hx (Nat.not_lt.mpr (inl.copies.le_dest hparam hlt))

/-- Behind the call, only its result is new. -/
theorem agrees_after {v : I.Value} {env'' : Env I.Value}
    (hagrees : inl.Agrees I inl.block inl.before env env')
    (hothers : ∀ x, inl.site.dest ≠ some x → env'' x = env' x)
    (hdest : ∀ d, inl.site.dest = some d → I.eval env'' (inl.subst (.var d)) = some v) :
    inl.Agrees I inl.block (inl.before ++ [inl.call]) (env.assign inl.site.dest v) env'' := by
  have hcall : inl.call.op.dest? = inl.site.dest := by
    rw [inl.call_eq]
    rfl
  intro x hvisible
  by_cases hd : inl.site.dest = some x
  · rw [hdest x hd, hd]
    exact ⟨v, Env.set_self _ _ _, rfl⟩
  · have hold : inl.caller.Visible inl.block inl.before x := by
      refine hvisible.of_append ?_
      rw [defsOf_cons, hcall]
      simpa using hd
    obtain ⟨old, henv, heval⟩ := hagrees x hold
    rw [inl.subst_var_of_ne hd] at heval ⊢
    exact ⟨old, (Env.assign_of_ne _ _ hd).trans henv, (hothers x hd).trans heval⟩

/-- The block behind the call starts with the phi of what is returned, if it is needed. -/
theorem parts_contBlock : inl.contBlock.phis = inl.merge.map (·.mapOperands inl.subst) ∧
    inl.contBlock.code = inl.after.map inl.rewrite := by
  have hcode : inl.after.map inl.rewrite = inl.after.map (·.mapOperands inl.subst) := by
    refine List.map_congr_left fun i hi => ?_
    rw [rewrite, Instruction.mapIncoming_of_not_phi (inl.after_not_phi i hi)]
  have hsplit : (inl.merge ++ inl.after).takeWhile (·.op.isPhi) = inl.merge ∧
      (inl.merge ++ inl.after).dropWhile (·.op.isPhi) = inl.after := by
    rw [List.takeWhile_append_of_pos inl.merge_isPhi, List.dropWhile_append_of_pos inl.merge_isPhi]
    cases hafter : inl.after with
    | nil => simp
    | cons i after =>
        have hi := inl.after_not_phi i (by simp [hafter])
        simp [hi]
  have hinstructions : inl.contBlock.instructions =
      (inl.merge ++ inl.after).map (·.mapOperands inl.subst) := rfl
  rw [hcode]
  simpa only [hsplit] using Block.parts_map hinstructions fun i => by simp

/-- What a block of the callee returns has its value in the result. -/
theorem exists_eval_ret {o : Operand} (hblock : inl.callee.block? c = some block)
    (hterm : block.terminator = .ret (some o))
    (hmirrors : inl.Mirrors I c (inl.callee.body c) env env') :
    ∃ v, I.return? env block.terminator = some (some v) ∧
      I.eval env' (inl.names.operand o) = some v := by
  have hreads : inl.callee.Reads c (inl.callee.body c) o := by
    rw [Function.body_eq hblock]
    exact .terminator hblock (by simp [hterm, Terminator.operands])
  obtain ⟨v, hv, hv'⟩ := hmirrors.exists_eval hreads
  exact ⟨v, by simp [Interpretation.return?, hterm, hv], hv'⟩

/-- A block of the callee that returns has something to return. -/
theorem exists_return (hblock : inl.callee.block? c = some block)
    (hreturn : block.terminator.isReturn = true)
    (hmirrors : inl.Mirrors I c (inl.callee.body c) env env') :
    ∃ value, I.return? env block.terminator = some value := by
  cases hterm : block.terminator with
  | ret result =>
      cases result with
      | none => exact ⟨none, rfl⟩
      | some o =>
          obtain ⟨v, hv, _⟩ := exists_eval_ret hblock hterm hmirrors
          exact ⟨some v, hterm ▸ hv⟩
  | _ => simp [hterm, Terminator.isReturn] at hreturn

/-- Each copy is listed once, with what its block returns. -/
theorem find?_returned {value : Operand} (hblock : inl.callee.block? c = some block)
    (hterm : block.terminator = .ret (some value)) :
    inl.returned.find? (fun entry => entry.2 = inl.clone c) =
      some (inl.names.operand value, inl.clone c) := by
  have hmem := inl.mem_returned.mpr ⟨c, block, value, hblock, hterm, rfl, rfl⟩
  cases hfind : inl.returned.find? (fun entry => entry.2 = inl.clone c) with
  | none => simpa using List.find?_eq_none.mp hfind _ hmem
  | some entry =>
      obtain ⟨o, source⟩ := entry
      have hsource : source = inl.clone c := by simpa using List.find?_some hfind
      obtain ⟨c', block', value', hblock', hterm', rfl, hc'⟩ :=
        inl.mem_returned.mp (List.mem_of_find?_eq_some hfind)
      obtain rfl : c = c' := Nat.add_left_cancel (hsource.symm.trans hc')
      obtain rfl := Option.some.inj (hblock.symm.trans hblock')
      obtain rfl := Option.some.inj (Terminator.ret.inj (hterm.symm.trans hterm'))
      rw [hsource]

/-- Where no block of the callee returns a value, none is returned. -/
theorem return?_of_returned_nil {value : Option I.Value} (hreturned : inl.returned = [])
    (hblock : inl.callee.block? c = some block)
    (hvalue : I.return? env block.terminator = some value) : value = none := by
  have hreturn := I.isReturn_of_return? hvalue
  cases hterm : block.terminator with
  | ret result =>
      cases result with
      | none =>
          rw [hterm] at hvalue
          exact (Option.some.inj hvalue).symm
      | some o =>
          have hmem := inl.mem_returned.mpr ⟨c, block, o, hblock, hterm, rfl, rfl⟩
          rw [hreturned] at hmem
          cases hmem
  | _ => simp [hterm, Terminator.isReturn] at hreturn

/-- When the callee returns, the result of the call gets its value. -/
theorem exists_returned {env₁ : Env I.Value} {value : Option I.Value}
    (hblock : inl.callee.block? c = some block)
    (hvalue : I.return? env₁ block.terminator = some value)
    (hmirrors : inl.Mirrors I c (inl.callee.body c) env₁ env')
    (hagrees : inl.Agrees I inl.block inl.before env env') :
    ∃ values, I.phiValues env' (inl.clone c) inl.contBlock.phis = some values ∧
      inl.Agrees I inl.block (inl.before ++ [inl.call])
        (env.assign inl.site.dest (value.getD (I.constant (.poison inl.site.returnType))))
        (env'.setAll values) := by
  have hreturn := I.isReturn_of_return? hvalue
  -- What the block returns, if it returns a value, has that value in the result.
  have hoperand : ∀ o, block.terminator = .ret (some o) →
      ∃ v, value = some v ∧ I.eval env' (inl.names.operand o) = some v := by
    intro o hterm
    obtain ⟨v, hv, hv'⟩ := exists_eval_ret hblock hterm hmirrors
    exact ⟨v, Option.some.inj (hvalue.symm.trans hv), hv'⟩
  rw [parts_contBlock.1]
  rcases inl.binding_cases with ⟨hdest, hsubst, hmerge⟩ | ⟨d, hdest, hreturned, hsubst, hmerge⟩ |
    ⟨d, result, source, hdest, hreturned, hsubst, hmerge⟩ |
    ⟨d, first, second, rest, hdest, hreturned, hsubst, hmerge⟩
  · refine ⟨[], by rw [hmerge]; rfl, agrees_after hagrees (fun _ _ => rfl) fun d hd => ?_⟩
    rw [hdest] at hd
    cases hd
  · refine ⟨[], by rw [hmerge]; rfl, agrees_after hagrees (fun _ _ => rfl) fun d' hd => ?_⟩
    obtain rfl := Option.some.inj (hdest.symm.trans hd)
    rw [hsubst, return?_of_returned_nil hreturned hblock hvalue, Operand.replaceVar, if_pos rfl]
    rfl
  · obtain ⟨o, hterm⟩ := inl.returns_value (by simp [hdest]) (by simp [hreturned]) hblock hreturn
    obtain ⟨v, rfl, hv⟩ := hoperand o hterm
    refine ⟨[], by rw [hmerge]; rfl, agrees_after hagrees (fun _ _ => rfl) fun d' hd => ?_⟩
    obtain rfl := Option.some.inj (hdest.symm.trans hd)
    have hmem := inl.mem_returned.mpr ⟨c, block, o, hblock, hterm, rfl, rfl⟩
    rw [hreturned] at hmem
    obtain ⟨rfl, _⟩ := Prod.mk.inj (List.mem_singleton.mp hmem)
    rw [hsubst, Operand.replaceVar, if_pos rfl]
    exact hv
  · obtain ⟨o, hterm⟩ := inl.returns_value (by simp [hdest]) (by simp [hreturned]) hblock hreturn
    obtain ⟨v, rfl, hv⟩ := hoperand o hterm
    refine ⟨[(d, v)], ?_, agrees_after hagrees (fun x hx => ?_) fun d' hd => ?_⟩
    · rw [hmerge, hsubst]
      simp [Interpretation.phiValues, Interpretation.phiValue, find?_returned hblock hterm, hv]
    · refine Env.set_of_ne _ _ ?_
      rintro rfl
      exact hx hdest
    · obtain rfl := Option.some.inj (hdest.symm.trans hd)
      rw [hsubst]
      exact Env.set_self _ _ _

end

end SoundInlining

end Monolith
