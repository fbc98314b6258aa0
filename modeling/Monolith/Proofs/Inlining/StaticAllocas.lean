import Monolith.Proofs.Inlining.FirstOrder
import Monolith.Proofs.Inlining.HoistedAllocas

/-! # Inlining keeps allocas static

An alloca is static if it is one of those with which the entry starts. Where all allocas of all
bodies are static, those of the root are static after inlining. Each call that is inlined, be it
in a loop or in code that was inlined before, adds an alloca for each one of its callee.
-/

namespace Monolith

namespace Function

variable {f : Function}

def allocas (f : Function) : List Instruction :=
  f.blocks.flatMap fun block => block.instructions.filter (·.op.isAlloca)

def leadingAllocas (f : Function) : List Instruction :=
  (f.body f.entry).takeWhile (·.op.isAlloca)

/-- Every alloca is one of those with which the entry starts. -/
def StaticAllocas (f : Function) : Prop :=
  ∀ b index i, (f.body b)[index]? = some i → i.op.isAlloca = true →
    b = f.entry ∧ index < f.leadingAllocas.length

/-- A body with recorded variables, no phi in its entry, and static allocas. -/
structure StaticFrame (f : Function) : Prop where
  recorded : ∀ x ∈ f.defined, x < f.values.length
  entry_not_phi : ∀ i ∈ f.body f.entry, i.op.isPhi = false
  static : f.StaticAllocas

/-- It is enough to look at each instruction of each block. -/
theorem staticAllocas_iff : f.StaticAllocas ↔
    ∀ entry ∈ f.blocks.zipIdx, ∀ place ∈ entry.1.instructions.zipIdx,
      place.1.op.isAlloca = true → entry.2 = f.entry ∧ place.2 < f.leadingAllocas.length := by
  constructor
  · rintro h ⟨block, b⟩ hblock ⟨i, index⟩ hi
    apply h b index i
    rw [body_eq (List.mem_zipIdx_iff_getElem?.mp hblock)]
    exact List.mem_zipIdx_iff_getElem?.mp hi
  · intro h b index i hi
    obtain ⟨block, hblock, _⟩ := block?_of_mem_body (List.mem_of_getElem? hi)
    rw [body_eq hblock] at hi
    exact h (block, b) (List.mem_zipIdx_iff_getElem?.mpr hblock) (i, index)
      (List.mem_zipIdx_iff_getElem?.mpr hi)

instance : Decidable f.StaticAllocas := decidable_of_iff _ staticAllocas_iff.symm

instance : Decidable f.StaticFrame :=
  decidable_of_iff ((∀ x ∈ f.defined, x < f.values.length) ∧
      (∀ i ∈ f.body f.entry, i.op.isPhi = false) ∧ f.StaticAllocas)
    ⟨fun h => ⟨h.1, h.2.1, h.2.2⟩, fun h => ⟨h.recorded, h.entry_not_phi, h.static⟩⟩

theorem StaticFrame.frames (h : f.StaticFrame) : f.Frames f.leadingAllocas := by
  intro b block hblock
  have hbody := body_eq hblock
  by_cases hb : b = f.entry
  · subst hb
    have hcode : f.leadingAllocas ++ (f.body f.entry).dropWhile (·.op.isAlloca) =
        f.body f.entry := List.takeWhile_append_dropWhile
    rw [entryOpening_self, ← hbody, ← hcode]
    apply Opens.frame
    · intro i hi
      exact List.mem_takeWhile_imp (p := fun i : Instruction => i.op.isAlloca) hi
    · intro i hi
      refine ⟨?_, h.entry_not_phi i ((List.dropWhile_suffix _).subset hi)⟩
      obtain ⟨k, hk⟩ := List.getElem?_of_mem hi
      have hindex : (f.body f.entry)[f.leadingAllocas.length + k]? = some i := by
        rw [← hcode, List.getElem?_append_right (Nat.le_add_right _ _), Nat.add_sub_cancel_left]
        exact hk
      apply Bool.eq_false_of_not_eq_true
      intro halloca
      exact Nat.not_lt.mpr (Nat.le_add_right _ _) (h.static _ _ i hindex halloca).2
  · rw [entryOpening_of_ne hb]
    apply Opens.plain
    intro i hi
    rw [← hbody] at hi
    obtain ⟨index, hindex⟩ := List.getElem?_of_mem hi
    apply Bool.eq_false_of_not_eq_true
    exact fun halloca => hb (h.static b index i hindex halloca).1

namespace Frames

variable {allocas : List Instruction}

theorem staticAllocas (h : f.Frames allocas) : f.StaticAllocas := by
  intro b index i hi halloca
  obtain ⟨block, hblock, _⟩ := block?_of_mem_body (List.mem_of_getElem? hi)
  have hopens := h b block hblock
  rw [body_eq hblock] at hi
  by_cases hb : b = f.entry
  · subst hb
    rw [entryOpening_self] at hopens
    rw [leadingAllocas, body_eq hblock, hopens.takeWhile_eq]
    exact ⟨rfl, hopens.lt_length hi halloca⟩
  · rw [entryOpening_of_ne hb] at hopens
    rw [hopens.not_isAlloca i (List.mem_of_getElem? hi)] at halloca
    cases halloca

theorem leadingAllocas_eq (h : f.Frames allocas) (hentry : f.entry < f.blocks.length) :
    f.leadingAllocas = allocas := by
  have hblock : f.block? f.entry = some f.blocks[f.entry] := List.getElem?_eq_getElem hentry
  have hopens := h f.entry _ hblock
  rw [entryOpening_self] at hopens
  rw [leadingAllocas, body_eq hblock]
  exact hopens.takeWhile_eq

/-- The allocas of the body are those that it starts with. -/
theorem allocas_eq (h : f.Frames allocas) (hentry : f.entry < f.blocks.length) :
    f.allocas = allocas := by
  have hother : ∀ b block, f.block? b = some block → b ≠ f.entry →
      block.instructions.filter (·.op.isAlloca) = [] := by
    intro b block hblock hb
    rw [(h b block hblock).filter_eq, entryOpening_of_ne hb]
    rfl
  have hlead : f.blocks[f.entry].instructions.filter (·.op.isAlloca) = allocas := by
    rw [(h f.entry _ (List.getElem?_eq_getElem hentry)).filter_eq, entryOpening_self]
    rfl
  have hsplit : f.blocks =
      f.blocks.take f.entry ++ f.blocks[f.entry] :: f.blocks.drop (f.entry + 1) := by
    rw [← List.drop_eq_getElem_cons hentry, List.take_append_drop]
  have hfront : (f.blocks.take f.entry).flatMap
      (fun block => block.instructions.filter (·.op.isAlloca)) = [] := by
    rw [List.flatMap_eq_nil_iff]
    intro block hblock
    obtain ⟨b, hlt, rfl⟩ := List.mem_take_iff_getElem.mp hblock
    exact hother b _ (List.getElem?_eq_getElem _)
      (Nat.ne_of_lt (Nat.lt_of_lt_of_le hlt (Nat.min_le_left _ _)))
  have hback : (f.blocks.drop (f.entry + 1)).flatMap
      (fun block => block.instructions.filter (·.op.isAlloca)) = [] := by
    rw [List.flatMap_eq_nil_iff]
    intro block hblock
    obtain ⟨b, hlt, rfl⟩ := List.mem_drop_iff_getElem.mp hblock
    exact hother _ _ (List.getElem?_eq_getElem _)
      (Nat.ne_of_gt (Nat.lt_of_lt_of_le (Nat.lt_succ_self _) (Nat.le_add_right _ _)))
  rw [Function.allocas]
  nth_rewrite 1 [hsplit]
  rw [List.flatMap_append, List.flatMap_cons, hfront, hback, hlead, List.nil_append,
    List.append_nil]

end Frames

theorem WellFormed.nodup_defsOf_body (h : f.WellFormed) (b : BlockId) :
    (defsOf (f.body b)).Nodup := by
  cases hblock : f.block? b with
  | none => simp [body, hblock]
  | some block =>
      rw [body_eq hblock]
      have hdefs := (List.nodup_append.mp h.nodup).2.1
      exact (List.nodup_flatMap.mp hdefs).1 block (List.mem_of_getElem? hblock)

theorem defsOf_leadingAllocas_sublist (f : Function) :
    (defsOf f.leadingAllocas).Sublist (defsOf (f.body f.entry)) :=
  (List.takeWhile_sublist _).filterMap _

end Function

/-! ## One call -/

/-- The second instruction is the first one, an alloca, under a variable of the given range. -/
def Instruction.Recreates (first last : Nat) (old new : Instruction) : Prop :=
  ∃ dest fresh ty align addrSpace, old.op = .alloca dest ty align addrSpace ∧
    new = { old with op := .alloca fresh ty align addrSpace } ∧ first ≤ fresh ∧ fresh < last

theorem mem_defsOf_of_recreates {first last : Nat} {olds news : List Instruction}
    (h : List.Forall₂ (Instruction.Recreates first last) olds news) {x : ValueId}
    (hx : x ∈ defsOf news) : first ≤ x ∧ x < last := by
  induction h with
  | nil => cases hx
  | cons hfirst _ ih =>
      obtain ⟨dest, fresh, ty, align, addrSpace, _, rfl, hle, hlt⟩ := hfirst
      rw [defsOf_cons, List.mem_append] at hx
      rcases hx with hx | hx
      · obtain rfl : x = fresh := by simpa [Operation.dest?] using hx
        exact ⟨hle, hlt⟩
      · exact ih hx

section

variable {f : Function} {site : CallSite} (hcallee : site.callee.WellFormed)
  (hframe : site.callee.StaticFrame) (harity : site.args.length = site.callee.parameters.length)

include hcallee harity in
theorem CallSite.copies_renaming (f : Function) :
    (site.renaming f).Copies site.callee site.args f.values.length :=
  ⟨rfl, (List.nodup_append.mp hcallee.nodup).1, harity⟩

include hcallee hframe in
theorem CallSite.leadingAlloca_inner {x : ValueId} (hx : x ∈ defsOf site.callee.leadingAllocas) :
    x ∉ site.callee.parameters ∧ x < site.callee.values.length := by
  have hbody : x ∈ site.callee.blocks.flatMap Block.defs := Function.mem_defs_of_body
    (site.callee.defsOf_leadingAllocas_sublist.subset hx)
  refine ⟨fun hparameter => ?_, hframe.recorded x (List.mem_append_right _ hbody)⟩
  exact (List.nodup_append.mp hcallee.nodup).2.2 x hparameter x hbody rfl

include hcallee hframe harity

/-- The copies of the callee's allocas are the same under new variables. -/
theorem CallSite.recreates {last : Nat}
    (hlast : last = f.values.length + site.callee.innerValues.length) :
    List.Forall₂ (Instruction.Recreates f.values.length last) site.callee.leadingAllocas
      (site.callee.leadingAllocas.map (site.renaming f).instruction) := by
  rw [List.forall₂_map_right_iff, List.forall₂_same]
  intro i hi
  have halloca : i.op.isAlloca = true :=
    List.mem_takeWhile_imp (p := fun i : Instruction => i.op.isAlloca) hi
  have hcopies := copies_renaming hcallee harity f
  obtain ⟨op, comment⟩ := i
  cases op with
  | alloca dest ty align addrSpace =>
      obtain ⟨hinner, hlt⟩ := leadingAlloca_inner hcallee hframe
        (mem_defsOf.mpr ⟨_, hi, rfl⟩ : dest ∈ defsOf site.callee.leadingAllocas)
      refine ⟨dest, _, ty, align, addrSpace, rfl, rfl, hcopies.le_dest hinner hlt, ?_⟩
      rw [hlast]
      exact hcopies.dest_lt hinner hlt
  | _ => cases halloca

theorem CallSite.nodup_defsOf_copies : (defsOf
    (site.callee.leadingAllocas.map (site.renaming f).instruction)).Nodup := by
  have hcopies := copies_renaming hcallee harity f
  rw [Renaming.defsOf_copy]
  apply List.Nodup.map_on
  · intro x hx y hy heq
    obtain ⟨hinner, hlt⟩ := leadingAlloca_inner hcallee hframe hx
    obtain ⟨hinner', hlt'⟩ := leadingAlloca_inner hcallee hframe hy
    exact hcopies.dest_inj hinner hlt hinner' hlt' heq
  · exact (hcallee.nodup_defsOf_body _).sublist site.callee.defsOf_leadingAllocas_sublist

end

/-! ## All calls -/

/-- A call that is inlined, with the function that it stands in before and after. -/
structure InlinedCall where
  before : Function
  site : CallSite
  after : Function

/-- The call adds an alloca, under a variable that it adds, for each alloca of its callee, which
is one of the given bodies. -/
structure InlinedCall.Contributes (bodies : FunctionId → Option Function) (call : InlinedCall)
    (allocas : List Instruction) : Prop where
  callee : ∃ id, bodies id = some call.site.callee
  recreated : List.Forall₂
    (Instruction.Recreates call.before.values.length call.after.values.length)
    call.site.callee.allocas allocas

namespace Plan

/-- The calls of the root that are inlined one after the other, until none is left. -/
inductive Inlinings (plan : Plan) : Module → List InlinedCall → Module → Prop where
  | done {m : Module} (hnext : plan.nextCall? m plan.root = none) : Inlinings plan m [] m
  | step {m next last : Module} {b : BlockId} {index : Nat} {call : InlinedCall}
      {calls : List InlinedCall} (hbefore : m.function? plan.root = some call.before)
      (hnext : plan.nextCall? m plan.root = some (b, index))
      (hsite : Function.callSite? m call.before b index = some call.site)
      (hcall : m.inlineCall plan.root b index = .ok (some next))
      (hafter : next.function? plan.root = some call.after)
      (hrest : Inlinings plan next calls last) : Inlinings plan m (call :: calls) last

section

variable {plan : Plan} {m n : Module} {b : BlockId} {index budget count : Nat}

/-- The next call stands between instructions of the root and calls one of the bodies. -/
theorem exists_callSite_of_nextCall? (h : plan.nextCall? m plan.root = some (b, index)) :
    ∃ f site, m.function? plan.root = some f ∧ Function.callSite? m f b index = some site ∧
      (∃ id, plan.body? m id = some site.callee) ∧ ∃ block before i after,
        f.block? b = some block ∧ block.instructions = before ++ i :: after ∧
        before.length = index ∧ i.op.isAlloca = false := by
  cases hroot : m.function? plan.root with
  | none => simp [nextCall?, hroot] at h
  | some f =>
      obtain ⟨block, before, i, after, hblock, hcode, hindex, hdirect, _⟩ :=
        exists_of_nextCall? hroot h
      obtain ⟨id, callee, hid, hcallee⟩ := hdirect
      obtain ⟨dest, ty, args, hop⟩ := Operation.directCallee?_eq_some hid
      obtain ⟨_, hfound, hbody⟩ := body?_eq_some.mp hcallee
      have hsite := Module.callSite?_eq_some hblock hcode hop hfound hbody
      rw [hindex] at hsite
      exact ⟨f, _, rfl, hsite, ⟨id, hcallee⟩, block, before, i, after, hblock, hcode, hindex,
        by rw [hop]; rfl⟩

/-- A run of inlining is made of calls that are inlined. -/
theorem exists_inlinings (h : plan.inlineInto plan.root budget m = .ok (n, count)) :
    ∃ calls, plan.Inlinings m calls n ∧ calls.length = count := by
  refine Module.inlineInto_run
    (Q := fun m n count => ∃ calls, plan.Inlinings m calls n ∧ calls.length = count) ?_ ?_ h
  · intro m hstop
    refine ⟨[], .done (Option.eq_none_iff_forall_ne_some.mpr ?_), rfl⟩
    intro place hnext
    obtain ⟨f, site, hbefore, hsite, _⟩ := exists_callSite_of_nextCall? hnext
    exact Module.inlineCall_ne_none hbefore hsite (hstop _ _ hnext)
  · intro m next n b index count hnext hcall hrest
    obtain ⟨f, site, hbefore, hsite, _⟩ := exists_callSite_of_nextCall? hnext
    obtain ⟨calls, hcalls, hlength⟩ := hrest
    obtain ⟨_, _, inlined, hfound, _, _, _, _, rfl⟩ := Module.exists_of_inlineCall hcall
    have hafter : (m.setFunction plan.root inlined).function? plan.root = some inlined :=
      (Module.function?_setFunction hfound inlined _).trans (if_pos rfl)
    exact ⟨⟨f, site, inlined⟩ :: calls, .step hbefore hnext hsite hcall hafter hcalls,
      congrArg Nat.succ hlength⟩

/-- The root has come to be the given function, which starts with the given allocas and has no
others, while everything that is inlined is as it was. -/
structure Framed (plan : Plan) (bodies : FunctionId → Option Function) (m : Module) (f : Function)
    (allocas : List Instruction) : Prop where
  root : m.function? plan.root = some f
  bodies_eq : plan.body? m = bodies
  entry_lt : f.entry < f.blocks.length
  frames : f.Frames allocas
  defs_lt : ∀ x ∈ defsOf allocas, x < f.values.length
  nodup : (defsOf allocas).Nodup

end

namespace Framed

variable {plan : Plan} {bodies : FunctionId → Option Function} {m n : Module} {f : Function}
  {allocas : List Instruction}
  (hbodies : ∀ id g, bodies id = some g → g.WellFormed ∧ g.StaticFrame)
include hbodies

/-- Inlining a call adds a copy of each alloca of its callee. -/
theorem inlineCall (h : plan.Framed bodies m f allocas) {b : BlockId} {index : Nat}
    {site : CallSite} {g : Function} (hnext : plan.nextCall? m plan.root = some (b, index))
    (hsite : Function.callSite? m f b index = some site)
    (hcall : m.inlineCall plan.root b index = .ok (some n))
    (hg : n.function? plan.root = some g) :
    ∃ more, InlinedCall.Contributes bodies ⟨f, site, g⟩ more ∧
      plan.Framed bodies n g (allocas ++ more) := by
  -- the caller, the site and the result are those that are looked up
  obtain ⟨f', site', hf', hsite', ⟨id, hid⟩, block, before, i, after, hblock, hcode, rfl, hi⟩ :=
    exists_callSite_of_nextCall? hnext
  obtain rfl := Option.some.inj (h.root.symm.trans hf')
  obtain rfl := Option.some.inj (hsite.symm.trans hsite')
  rw [h.bodies_eq] at hid
  obtain ⟨hcallee, hframe⟩ := hbodies id _ hid
  obtain ⟨f', site', inlined, hf', hsite', _, harity, hinlined, rfl⟩ :=
    Module.exists_of_inlineCall hcall
  obtain rfl := Option.some.inj (h.root.symm.trans hf')
  obtain rfl := Option.some.inj (hsite.symm.trans hsite')
  rw [Module.function?_setFunction h.root, if_pos rfl] at hg
  obtain rfl := Option.some.inj hg
  have hframes := h.frames.inlineBody hframe.frames h.entry_lt hcallee.entry_lt hblock hcode hi
    hinlined
  obtain ⟨hentry, hframes⟩ := hframes
  obtain ⟨hlt, hlength⟩ := Function.length_inlineBody hinlined
  have hvalues : inlined.values.length =
      f.values.length + site.callee.innerValues.length := by
    obtain ⟨_, hsame, _, hvalues⟩ :=
      Function.exists_inlineBody site before.length hlt h.entry_lt hcallee.entry_lt
    rwa [Except.ok.inj (hinlined.symm.trans hsame)]
  have hrecreates := CallSite.recreates hcallee hframe harity hvalues
  refine ⟨_, ⟨⟨id, hid⟩, ?_⟩, ⟨?_, ?_, ?_, hframes, fun x hx => ?_, ?_⟩⟩
  · rwa [hframe.frames.allocas_eq hcallee.entry_lt]
  · exact (Module.function?_setFunction h.root inlined _).trans (if_pos rfl)
  · exact (body?_setFunction h.root inlined).trans h.bodies_eq
  · rw [hentry, hlength]
    exact Nat.lt_add_right _ (Nat.lt_succ_of_lt h.entry_lt)
  · rw [defsOf_append, List.mem_append] at hx
    rcases hx with hx | hx
    · rw [hvalues]
      exact Nat.lt_add_right _ (h.defs_lt x hx)
    · exact (mem_defsOf_of_recreates hrecreates hx).2
  -- older variables lie below the new ones
  · rw [defsOf_append, List.nodup_append]
    refine ⟨h.nodup, CallSite.nodup_defsOf_copies hcallee hframe harity, fun x hx y hy => ?_⟩
    exact Nat.ne_of_lt (Nat.lt_of_lt_of_le (h.defs_lt x hx)
      (mem_defsOf_of_recreates hrecreates hy).1)

/-- So do the calls that are inlined one after the other. -/
theorem inlinings {calls : List InlinedCall} (hrun : plan.Inlinings m calls n)
    (h : plan.Framed bodies m f allocas) :
    ∃ g more, plan.Framed bodies n g (allocas ++ more.flatten) ∧
      List.Forall₂ (InlinedCall.Contributes bodies) calls more := by
  induction hrun generalizing f allocas with
  | done => exact ⟨f, [], by simpa using h, .nil⟩
  | step hbefore hnext hsite hcall hafter _ ih =>
      obtain rfl := Option.some.inj (hbefore.symm.trans h.root)
      obtain ⟨new, hnew, hframed⟩ := h.inlineCall hbodies hnext hsite hcall hafter
      obtain ⟨g, more, hg, hmore⟩ := ih hframed
      refine ⟨g, new :: more, ?_, .cons hnew hmore⟩
      rwa [List.flatten_cons, ← List.append_assoc]

end Framed

/-- Where all allocas are static, they are static after inlining. The root keeps its allocas in
their order, and behind them come those of the calls that are inlined, call by call, each under a
variable of its own. -/
theorem allocas_static_of_inlineAll {config : Config} {m n : Module} {plan : Plan}
    {budget count : Nat} (hplan : m.checkPlan config = .ok plan)
    (hstatic : ∀ id f, m.function? id = some f → f.isDeclaration = false → f.StaticFrame)
    (h : plan.inlineAll budget m = .ok (n, count)) :
    ∃ f g calls contributed, m.function? plan.root = some f ∧ n.function? plan.root = some g ∧
      plan.Inlinings m calls n ∧ calls.length = count ∧ g.StaticAllocas ∧
      g.leadingAllocas = f.allocas ++ contributed.flatten ∧
      List.Forall₂ (InlinedCall.Contributes (plan.body? m)) calls contributed ∧
      (defsOf g.leadingAllocas).Nodup := by
  obtain ⟨hverified, _, f, hf, hbody⟩ := rooted_of_checkPlan hplan
  obtain ⟨hstale, _, _, _, hfunctions⟩ := Module.defects_eq_nil_iff.mp hverified
  have hwellFormed : ∀ id g, m.function? id = some g → g.isDeclaration = false → g.WellFormed :=
    fun id g hg hbody => Module.wellFormed_of_functionDefects hbody (hfunctions id g hg)
  have hbodies : ∀ id g, plan.body? m id = some g → g.WellFormed ∧ g.StaticFrame := by
    intro id g hg
    obtain ⟨_, hg, hbody⟩ := body?_eq_some.mp hg
    exact ⟨hwellFormed id g hg hbody, hstatic id g hg hbody⟩
  have hform := hwellFormed _ f hf hbody
  have hframe := hstatic _ f hf hbody
  have hdefs := f.defsOf_leadingAllocas_sublist
  have hstart : plan.Framed (plan.body? m) m f f.leadingAllocas := by
    refine ⟨hf, rfl, hform.entry_lt, hframe.frames, fun x hx => ?_,
      (hform.nodup_defsOf_body _).sublist hdefs⟩
    exact hframe.recorded x
      (List.mem_append_right _ (Function.mem_defs_of_body (hdefs.subset hx)))
  rw [inlineAll_eq hstale (Module.checkPlan_eq_ok hplan).2.1] at h
  obtain ⟨calls, hcalls, hlength⟩ := exists_inlinings (mapError_eq_ok.mp h)
  obtain ⟨g, contributed, hend, hcontributed⟩ := Framed.inlinings hbodies hcalls hstart
  have hleading := hend.frames.leadingAllocas_eq hend.entry_lt
  refine ⟨f, g, calls, contributed, hf, hend.root, hcalls, hlength, hend.frames.staticAllocas, ?_,
    hcontributed, ?_⟩
  · rw [hleading, hframe.frames.allocas_eq hform.entry_lt]
  · rw [hleading]
    exact hend.nodup

/-- Starts with an alloca, then calls the function if there is one. -/
def allocating (name : String) (ty : Ty) (callee : Option FunctionId) : Function where
  name
  returnType := .void
  blocks := [
    { instructions := { op := .alloca 0 ty 4 0 } ::
        callee.toList.map fun id => { op := .call none .void (.const (.function id)) [] }
      terminator := .ret none }]
  values := [{ ty := .ptr }]

/-- Calls a function before and in a loop, which calls another one in turn. -/
def looping : Module :=
  Module.rebuildNames
    { name := "looping"
      functions := [
        some (allocating "leaf" (.int 64) none), some (allocating "middle" (.int 32) (some 0)),
        some
          { name := "main"
            returnType := .void
            blocks := [
              { instructions := [{ op := .alloca 0 (.int 8) 1 0 },
                  { op := .call none .void (.const (.function 1)) [] }]
                terminator := .jump 1 },
              { instructions := [{ op := .call none .void (.const (.function 1)) [] }]
                terminator := .branch (.const (.int (.int 1) 1)) 1 2 },
              { terminator := .ret none }]
            values := [{ ty := .ptr }] }] }

def loopingPlan : Plan := { root := 2, order := [0, 1, 2] }

theorem checkPlan_looping : looping.checkPlan {} = .ok loopingPlan := by
  have hplan : compute {} looping (CallGraph.ofModule looping) = .ok loopingPlan :=
    compute_of_pairwise (by decide +kernel) (by decide +kernel) (by decide +kernel)
      (by decide +kernel)
  exact Module.checkPlan_of_checks (by decide +kernel) hplan (by decide +kernel)

theorem looping_allocas_static : looping.checkPlan {} = .ok loopingPlan ∧ ∃ n g,
    loopingPlan.inlineAll 4 looping = .ok (n, 4) ∧ n.function? 2 = some g ∧ g.StaticAllocas ∧
      g.leadingAllocas.length = 5 ∧ (defsOf g.leadingAllocas).Nodup := by
  have hstatic : ∀ id f, looping.function? id = some f → f.isDeclaration = false →
      f.StaticFrame := by
    have hall : ∀ slot ∈ looping.functions, ∀ f ∈ slot, f.StaticFrame := by decide +kernel
    intro id f hf _
    exact hall _ (List.mem_of_getElem? (Arena.get?_eq_some_iff.mp hf)) f rfl
  have hrun : (loopingPlan.inlineAll 4 looping).toOption.map (fun last =>
      (last.2, (last.1.function? 2).map fun g => g.leadingAllocas.length)) = some (4, some 5) := by
    decide +kernel
  cases hresult : loopingPlan.inlineAll 4 looping with
  | error failure =>
      rw [hresult] at hrun
      cases hrun
  | ok last =>
      obtain ⟨n, count⟩ := last
      rw [hresult] at hrun
      obtain ⟨rfl, hlength⟩ := Prod.mk.inj (Option.some.inj hrun)
      obtain ⟨_, g, _, _, _, hg, _, _, hg', _, _, hnodup⟩ :=
        allocas_static_of_inlineAll checkPlan_looping hstatic hresult
      obtain ⟨_, hfound, hlength⟩ := Option.map_eq_some_iff.mp hlength
      obtain rfl := Option.some.inj (hg.symm.trans hfound)
      exact ⟨checkPlan_looping, n, g, rfl, hg, hg', hlength, hnodup⟩

end Plan

end Monolith
