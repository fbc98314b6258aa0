import Mathlib.Data.List.Infix
import Mathlib.Data.List.TakeWhile
import Monolith.Proofs.Code.Rewriting
import Monolith.Proofs.Inlining.CopiedNames
import Monolith.Proofs.Inlining.KnownCallees
import Monolith.Proofs.Module.Census

/-! # The calls after inlining

Of what inlining does to a body, only this matters for its calls: the block of the
call is split, the calls of the callee are copied behind all others, and the result
of the call is replaced if a single value is returned.
-/

namespace Monolith

variable {f f' : Function} {b : BlockId}

theorem callsOf_append (front back : List Instruction) :
    callsOf (front ++ back) = callsOf front ++ callsOf back := by
  rw [callsOf, List.map_append, List.filter_append]
  rfl

theorem callsOf_eq_nil {instructions : List Instruction}
    (h : ∀ i ∈ instructions, i.op.isCall = false) : callsOf instructions = [] := by
  rw [callsOf, List.filter_eq_nil_iff]
  intro op hop
  obtain ⟨i, hi, rfl⟩ := List.mem_map.mp hop
  simp [h i hi]

/-- A change of the instructions that keeps the calls, or changes each of them. -/
theorem callsOf_map {instructions : List Instruction} {g : Instruction → Instruction}
    {k : Operation → Operation} (hcall : ∀ i : Instruction, (g i).op.isCall = i.op.isCall)
    (hop : ∀ i : Instruction, i.op.isCall = true → (g i).op = k i.op) :
    callsOf (instructions.map g) = (callsOf instructions).map k := by
  induction instructions with
  | nil => rfl
  | cons i rest ih =>
      simp only [callsOf, List.map_cons, List.filter_cons, hcall] at ih ⊢
      split
      next hi => rw [List.map_cons, hop i hi, ih]
      next => exact ih

namespace Operation

@[simp] theorem isCall_mapOperands (g : Operand → Operand) (op : Operation) :
    (op.mapOperands g).isCall = op.isCall := by
  cases op <;> rfl

@[simp] theorem isCall_mapDest (rename : ValueId → ValueId) (op : Operation) :
    (op.mapDest rename).isCall = op.isCall := by
  cases op <;> rfl

@[simp] theorem isCall_mapIncoming (rename : BlockId → BlockId) (op : Operation) :
    (op.mapIncoming rename).isCall = op.isCall := by
  cases op <;> rfl

theorem isPhi_of_isCall {op : Operation} (h : op.isCall = true) : op.isPhi = false := by
  cases op <;> first | rfl | cases h

end Operation

theorem callsOf_mapOperands (g : Operand → Operand) (instructions : List Instruction) :
    callsOf (instructions.map (·.mapOperands g)) =
      (callsOf instructions).map (Operation.mapOperands g) :=
  callsOf_map (fun i => i.op.isCall_mapOperands g) fun _ _ => rfl

theorem callsOf_mapIncoming (rename : BlockId → BlockId) (instructions : List Instruction) :
    callsOf (instructions.map (·.mapIncoming rename)) = callsOf instructions := by
  have hop : ∀ i : Instruction, i.op.isCall = true → (i.mapIncoming rename).op = id i.op := by
    intro i hi
    rw [Instruction.mapIncoming_of_not_phi (Operation.isPhi_of_isCall hi)]
    rfl
  rw [callsOf_map (fun i => i.op.isCall_mapIncoming rename) hop, List.map_id]

def Renaming.call (names : Renaming) (op : Operation) : Operation :=
  (op.mapOperands names.operand).mapDest names.dest

theorem callsOf_copy (names : Renaming) (instructions : List Instruction) :
    callsOf (instructions.map names.instruction) = (callsOf instructions).map names.call := by
  refine callsOf_map (fun i => ?_) fun i hi => ?_
  · simp [Renaming.instruction]
  · refine congrArg Instruction.op (Instruction.mapIncoming_of_not_phi ?_ names.block)
    simpa using Operation.isPhi_of_isCall hi

/-- What is read in place of the result of a call, given what the callee returns. -/
def CallSite.subst (site : CallSite) (results : List Operand) : Operand → Operand :=
  match site.dest, results with
  | some dest, [] => Operand.replaceVar dest (.poison site.returnType)
  | some dest, [value] => Operand.replaceVar dest value
  | _, _ => id

theorem CallSite.subst_cases (site : CallSite) (results : List Operand) :
    site.subst results = id ∨ ∃ dest value, site.dest = some dest ∧
      site.subst results = Operand.replaceVar dest value ∧
      (value = .poison site.returnType ∨ results = [value]) := by
  unfold subst
  cases hdest : site.dest with
  | none => exact .inl rfl
  | some dest =>
      match results with
      | [] => exact .inr ⟨dest, _, rfl, rfl, .inl rfl⟩
      | [value] => exact .inr ⟨dest, value, rfl, rfl, .inr rfl⟩
      | _ :: _ :: _ => exact .inl rfl

theorem CallSite.subst_const (site : CallSite) (results : List Operand) (c : Constant) :
    site.subst results (.const c) = .const c := by
  rcases site.subst_cases results with hid | ⟨_, _, _, h, _⟩
  · exact congrFun hid _
  · exact (congrFun h _).trans (if_neg nofun)

/-- What is read in place of a variable: the variable, poison, or a value that is returned. -/
theorem CallSite.subst_var_cases (site : CallSite) (results : List Operand) (x : ValueId) :
    site.subst results (.var x) = .var x ∨
      site.subst results (.var x) = .poison site.returnType ∨
      site.subst results (.var x) ∈ results := by
  rcases site.subst_cases results with hid | ⟨dest, value, _, hsubst, hvalue⟩
  · exact .inl (congrFun hid _)
  · rw [hsubst, Operand.replaceVar]
    split
    next =>
      rcases hvalue with rfl | rfl
      · exact .inr (.inl rfl)
      · exact .inr (.inr (List.mem_singleton_self _))
    next => exact .inl rfl

namespace Function

theorem blockCalls_mapBlock {g : Block → Block} (h : ∀ block, f.block? b = some block →
      callsOf (g block).instructions = callsOf block.instructions) :
    (f.mapBlock b g).blockCalls = f.blockCalls :=
  map_blocks_mapBlock h

theorem blockCalls_mapOperands (f : Function) (g : Operand → Operand) :
    (f.mapOperands g).blockCalls = f.blockCalls.map (List.map (Operation.mapOperands g)) := by
  simp only [blockCalls, mapOperands, List.map_map]
  exact List.map_congr_left fun block _ => callsOf_mapOperands g block.instructions

/-- The block is split at a place between its calls. -/
theorem blockCalls_splitAt {index : Nat} {name : String} {block : Block}
    (hblock : f.block? b = some block) (h : f.splitAt b index name = .ok f') :
    f'.blockCalls = f.blockCalls.set b (callsOf (block.instructions.take index)) ++
      [callsOf (block.instructions.drop (index + 1))] := by
  obtain ⟨head, hhead, h⟩ := bind_eq_ok.mp h
  obtain rfl := Except.ok.inj h
  have hget : f.blocks[b]? = some block := hblock
  have hsame : head = block := by
    simpa [Function.block, entryAt, hget] using hhead.symm
  subst hsame
  have hfold : ∀ (targets : List BlockId) (rename : BlockId → BlockId) (f : Function),
      (targets.foldl (fun f target =>
        f.mapBlock target (·.mapInstructions (·.map (·.mapIncoming rename)))) f).blockCalls =
      f.blockCalls := by
    intro targets rename f
    induction targets generalizing f with
    | nil => rfl
    | cons target targets ih =>
        rw [List.foldl_cons, ih]
        exact blockCalls_mapBlock fun block _ => callsOf_mapIncoming rename block.instructions
  refine (hfold _ _ _).trans ?_
  rw [blockCalls, List.map_append]
  refine congrArg (· ++ _) ?_
  apply List.ext_getElem?
  intro a
  simp only [blockCalls, List.getElem?_map, List.getElem?_modify, List.getElem?_set,
    List.length_map]
  by_cases hab : b = a
  · subst hab
    obtain ⟨hlt, rfl⟩ := List.getElem?_eq_some_iff.mp hget
    simp [hlt]
  · cases f.blocks[a]? <;> simp [hab]

theorem blockCalls_copyBlocks (f : Function) (names : Renaming) (continuation : BlockId) :
    (f.copyBlocks names continuation).map (fun block => callsOf block.instructions) =
      f.blockCalls.map (List.map names.call) := by
  rw [copyBlocks, List.map_map, blockCalls, List.map_map]
  nth_rewrite 2 [← List.zipIdx_map_fst 0 f.blocks]
  rw [List.map_map]
  exact List.map_congr_left fun entry _ => callsOf_copy names entry.1.instructions

/-- Allocas are no calls. -/
theorem blockCalls_hoistAllocas (h : f.hoistAllocas b = .ok f') : f'.blockCalls = f.blockCalls := by
  obtain ⟨source, hsource, h⟩ := bind_eq_ok.mp h
  obtain ⟨entry, _, h⟩ := bind_eq_ok.mp h
  obtain rfl := Except.ok.inj h
  have hallocas : callsOf (source.instructions.takeWhile (·.op.isAlloca)) = [] := by
    apply callsOf_eq_nil
    intro i hi
    have halloca := List.mem_takeWhile_imp hi
    cases hop : i.op with
    | alloca => rfl
    | _ => simp [hop, Operation.isAlloca] at halloca
  refine (blockCalls_mapBlock fun block _ => ?_).trans (blockCalls_mapBlock fun block hblock => ?_)
  · change callsOf (_ ++ _ ++ _) = _
    rw [callsOf_append, callsOf_append, hallocas, List.append_nil, ← callsOf_append,
      List.take_append_drop]
  · have hget : f.blocks[b]? = some block := hblock
    have hsame : source = block := by simpa [Function.block, entryAt, hget] using hsource.symm
    subst hsame
    have hcalls := congrArg callsOf (List.prefix_append_drop
      (List.takeWhile_prefix (l := source.instructions) fun i => i.op.isAlloca))
    rw [callsOf_append, hallocas, List.nil_append] at hcalls
    exact hcalls.symm

theorem blockCalls_setTerminator {terminator : Terminator}
    (h : f.setTerminator b terminator = .ok f') : f'.blockCalls = f.blockCalls := by
  obtain ⟨_, _, h⟩ := bind_eq_ok.mp h
  obtain rfl := Except.ok.inj h
  exact blockCalls_mapBlock fun _ _ => rfl

theorem blockCalls_bindResult (f : Function) (site : CallSite) (b : BlockId)
    (returned : List (Operand × BlockId)) :
    (f.bindResult site b returned).blockCalls =
      f.blockCalls.map (List.map (Operation.mapOperands (site.subst (returned.map Prod.fst)))) := by
  have hid : ∀ calls : List (List Operation),
      calls.map (List.map (Operation.mapOperands id)) = calls := by
    intro calls
    have hsame : Operation.mapOperands id = id := funext Operation.mapOperands_id
    rw [hsame, List.map_id_fun, List.map_id]
  unfold bindResult CallSite.subst
  cases hdest : site.dest with
  | none => exact (hid _).symm
  | some dest =>
      match returned with
      | [] => exact f.blockCalls_mapOperands _
      | [_] => exact f.blockCalls_mapOperands _
      | first :: second :: rest =>
          change (f.mapBlock b _).blockCalls =
            f.blockCalls.map (List.map (Operation.mapOperands id))
          rw [hid]
          exact blockCalls_mapBlock fun _ _ => rfl

theorem returns_map_fst (f : Function) (names : Renaming) :
    (f.returns names).map Prod.fst = f.results.map names.operand := by
  rw [returns, results, List.map_filterMap, List.map_filterMap]
  nth_rewrite 2 [← List.zipIdx_map_fst 0 f.blocks]
  rw [List.filterMap_map]
  refine List.filterMap_congr fun entry _ => ?_
  obtain ⟨block, b⟩ := entry
  cases hterm : block.terminator with
  | ret value => cases value <;> simp [hterm, Terminator.result?]
  | _ => simp [hterm, Terminator.result?]

/-- The calls of a body after a call in it has been inlined. -/
theorem blockCalls_inlineBody {site : CallSite} {index : Nat} {block : Block}
    (hblock : f.block? b = some block) (h : f.inlineBody site b index = .ok f') :
    f'.blockCalls = (f.blockCalls.set b (callsOf (block.instructions.take index)) ++
        [callsOf (block.instructions.drop (index + 1))] ++
        site.callee.blockCalls.map (List.map (site.renaming f).call)).map
      (List.map (Operation.mapOperands
        (site.subst (site.callee.results.map (site.renaming f).operand)))) := by
  obtain ⟨split, hoisted, joined, hsplit, hhoisted, hjoined, rfl⟩ := inlineBody_steps h
  rw [blockCalls_bindResult, blockCalls_setTerminator hjoined, blockCalls_hoistAllocas hhoisted,
    ← blockCalls_splitAt hblock hsplit]
  refine congrArg₂ (fun results calls => List.map (List.map (Operation.mapOperands
    (site.subst results))) calls) (site.callee.returns_map_fst _) ?_
  exact List.map_append.trans
    (congrArg (split.blockCalls ++ ·) (site.callee.blockCalls_copyBlocks _ _))

/-! ## Inlining succeeds -/

theorem exists_block (h : b < f.blocks.length) : ∃ block, f.block b = .ok block :=
  ⟨f.blocks[b], by simp [Function.block, entryAt, List.getElem?_eq_getElem h]⟩

/-- The split keeps the variables and the entry. -/
theorem exists_splitAt (h : b < f.blocks.length) (index : Nat) (name : String) :
    ∃ f', f.splitAt b index name = .ok f' ∧ f'.values = f.values ∧ f'.entry = f.entry := by
  obtain ⟨block, hblock⟩ := exists_block h
  have hfold : ∀ (targets : List BlockId) (g : Block → Block) (f : Function),
      (targets.foldl (fun f target => f.mapBlock target g) f).values = f.values ∧
        (targets.foldl (fun f target => f.mapBlock target g) f).entry = f.entry := by
    intro targets g f
    induction targets generalizing f with
    | nil => exact ⟨rfl, rfl⟩
    | cons target targets ih => exact ih _
  refine ⟨_, bind_eq_ok.mpr ⟨block, hblock, rfl⟩, ?_, ?_⟩
  · exact (hfold _ _ _).1
  · exact (hfold _ _ _).2

theorem exists_hoistAllocas (h : b < f.blocks.length) (hentry : f.entry < f.blocks.length) :
    ∃ f', f.hoistAllocas b = .ok f' ∧ f'.values = f.values ∧ f'.entry = f.entry := by
  obtain ⟨source, hsource⟩ := exists_block h
  have hlength := f.length_mapBlock b (·.mapInstructions
    (·.drop (source.instructions.takeWhile (·.op.isAlloca)).length))
  obtain ⟨entry, hentry⟩ := exists_block (Nat.lt_of_lt_of_eq hentry hlength.symm)
  exact ⟨_, bind_eq_ok.mpr ⟨source, hsource, bind_eq_ok.mpr ⟨entry, hentry, rfl⟩⟩, rfl, rfl⟩

theorem keeps_bindResult (f : Function) (site : CallSite) (b : BlockId)
    (returned : List (Operand × BlockId)) :
    (f.bindResult site b returned).values = f.values ∧
      (f.bindResult site b returned).entry = f.entry := by
  unfold bindResult
  split <;> exact ⟨rfl, rfl⟩

/-- A body with an entry can be put into another one, which keeps its entry and gets the
variables of the first. -/
theorem exists_inlineBody (site : CallSite) (index : Nat) (hb : b < f.blocks.length)
    (hentry : f.entry < f.blocks.length) (hcallee : site.callee.entry < site.callee.blocks.length) :
    ∃ f', f.inlineBody site b index = .ok f' ∧ f'.entry < f'.blocks.length ∧
      f'.values.length = f.values.length + site.callee.innerValues.length := by
  obtain ⟨split, hsplit, hsplitValues, hsplitEntry⟩ :=
    exists_splitAt hb index (site.callee.name ++ ".exit")
  obtain ⟨_, hsplitLength⟩ := length_splitAt hsplit
  let copied : Function := { split with
    values := split.values ++ site.callee.innerValues.map Prod.fst
    blocks := split.blocks ++ site.callee.copyBlocks (site.renaming f) f.blocks.length }
  have hcopied : copied.blocks.length = f.blocks.length + 1 + site.callee.blocks.length := by
    simp [copied, hsplitLength, copyBlocks]
  have hcopiedEntry : copied.entry = f.entry := hsplitEntry
  have hstart : (site.renaming f).block site.callee.entry < copied.blocks.length := by
    have hstart : (site.renaming f).block site.callee.entry =
        f.blocks.length + 1 + site.callee.entry := if_pos hcallee
    rw [hstart, hcopied]
    exact Nat.add_lt_add_left hcallee _
  have hcopiedLt : copied.entry < copied.blocks.length := by
    rw [hcopiedEntry, hcopied]
    exact Nat.lt_of_lt_of_le hentry (by omega)
  obtain ⟨hoisted, hhoisted, hhoistedValues, hhoistedEntry⟩ :=
    exists_hoistAllocas hstart hcopiedLt
  have hhoistedLength := length_hoistAllocas hhoisted
  have hbHoisted : b < hoisted.blocks.length := by
    rw [hhoistedLength, hcopied]
    exact Nat.lt_of_lt_of_le hb (by omega)
  obtain ⟨head, hhead⟩ := exists_block hbHoisted
  obtain ⟨hvalues, hentry'⟩ := keeps_bindResult
    (hoisted.mapBlock b fun block =>
      { block with terminator := .jump ((site.renaming f).block site.callee.entry) })
    site f.blocks.length (site.callee.returns (site.renaming f))
  refine ⟨_, bind_eq_ok.mpr ⟨split, hsplit, bind_eq_ok.mpr ⟨hoisted, hhoisted,
    bind_eq_ok.mpr ⟨_, bind_eq_ok.mpr ⟨head, hhead, rfl⟩, rfl⟩⟩⟩, ?_, ?_⟩
  · rw [length_bindResult, length_mapBlock, hhoistedLength]
    exact Nat.lt_of_le_of_lt (Nat.le_of_eq (hentry'.trans hhoistedEntry)) hcopiedLt
  · refine (congrArg List.length (hvalues.trans hhoistedValues)).trans ?_
    simp [copied, hsplitValues]

end Function

end Monolith
