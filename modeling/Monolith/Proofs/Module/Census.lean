import Monolith.Pipeline
import Monolith.Proofs.Inlining.CopiedNames
import Monolith.Proofs.Lists
import Monolith.Proofs.Module.NameTables

/-! # Counting functions and globals

Flattening changes bodies all the time, but which functions and globals a module
has changes only where it erases some. The kinds of the functions and the marks of
the globals hold just this.
-/

namespace Monolith

variable {f' : Function} {owners : List (GlobalId × FunctionId)} {block : Block}
  {names : List String} {id : FunctionId} {m n : Module} {b : BlockId} {index : Nat}
  {caller : FunctionId} {plan : Plan}

/-! ## Bodies keep their blocks -/

namespace Function

theorem length_mapBlock (f : Function) (b : BlockId) (g : Block → Block) :
    (f.mapBlock b g).blocks.length = f.blocks.length := List.length_modify _ _ _

/-- A block is one of the old blocks, or the changed one. -/
theorem mem_blocks_mapBlock {f : Function} {change : Block → Block}
    (h : block ∈ (f.mapBlock b change).blocks) :
    ∃ old ∈ f.blocks, block = old ∨ block = change old := by
  obtain ⟨a, ha⟩ := List.getElem?_of_mem h
  rw [mapBlock, List.getElem?_modify] at ha
  obtain ⟨old, hold, rfl⟩ := Option.map_eq_some_iff.mp ha
  refine ⟨old, List.mem_of_getElem? hold, ?_⟩
  split
  next => exact .inr rfl
  next => exact .inl rfl

/-- What a change keeps of its block is kept of all blocks. -/
theorem map_blocks_mapBlock {γ : Type} {f : Function} {change : Block → Block} {view : Block → γ}
    (h : ∀ block, f.block? b = some block → view (change block) = view block) :
    (f.mapBlock b change).blocks.map view = f.blocks.map view := by
  apply List.ext_getElem?
  intro a
  simp only [mapBlock, List.getElem?_map, List.getElem?_modify]
  by_cases hab : b = a
  · subst hab
    cases hblock : f.blocks[b]? with
    | none => rfl
    | some block => simp [h block hblock]
  · cases f.blocks[a]? <;> simp [hab]

theorem block_lt_of_eq_ok {f : Function} (h : f.block b = .ok block) : b < f.blocks.length := by
  unfold Function.block entryAt at h
  split at h
  next hget => exact (List.getElem?_eq_some_iff.mp hget).1
  next => cases h

theorem mem_of_block_eq_ok {f : Function} (h : f.block b = .ok block) : block ∈ f.blocks := by
  unfold Function.block entryAt at h
  split at h
  next hget =>
    obtain rfl := Except.ok.inj h
    exact List.mem_of_getElem? hget
  next => cases h

theorem length_updateBlock {f : Function} {g : Block → Block} (h : f.updateBlock b g = .ok f') :
    f'.blocks.length = f.blocks.length := by
  obtain ⟨_, _, h⟩ := bind_eq_ok.mp h
  obtain rfl := Except.ok.inj h
  exact f.length_mapBlock b g

theorem length_mapOperands (f : Function) (g : Operand → Operand) :
    (f.mapOperands g).blocks.length = f.blocks.length := List.length_map _

theorem isDeclaration_iff {f : Function} : f.isDeclaration = true ↔ f.blocks.length = 0 := by
  rw [isDeclaration, List.isEmpty_iff, List.length_eq_zero_iff]

theorem isDeclaration_of_mem {f : Function} (h : block ∈ f.blocks) : f.isDeclaration = false := by
  rw [isDeclaration, List.isEmpty_eq_false_iff]
  exact List.ne_nil_of_mem h

theorem isDeclaration_eq {f g : Function} (h : g.blocks.length = f.blocks.length) :
    g.isDeclaration = f.isDeclaration := by
  rw [Bool.eq_iff_iff, isDeclaration_iff, isDeclaration_iff, h]

theorem length_splitAt {f : Function} {name : String} (h : f.splitAt b index name = .ok f') :
    b < f.blocks.length ∧ f'.blocks.length = f.blocks.length + 1 := by
  obtain ⟨head, hhead, h⟩ := bind_eq_ok.mp h
  obtain rfl := Except.ok.inj h
  have hfold : ∀ (targets : List BlockId) (g : Block → Block) (f : Function),
      (targets.foldl (fun f target => f.mapBlock target g) f).blocks.length = f.blocks.length := by
    intro targets g f
    induction targets generalizing f with
    | nil => rfl
    | cons target targets ih => rw [List.foldl_cons, ih, length_mapBlock]
  refine ⟨block_lt_of_eq_ok hhead, (hfold _ _ _).trans ?_⟩
  simp

theorem length_hoistAllocas {f : Function} (h : f.hoistAllocas b = .ok f') :
    f'.blocks.length = f.blocks.length := by
  obtain ⟨source, _, h⟩ := bind_eq_ok.mp h
  obtain ⟨entry, _, h⟩ := bind_eq_ok.mp h
  obtain rfl := Except.ok.inj h
  rw [length_mapBlock, length_mapBlock]

theorem length_bindResult (f : Function) (site : CallSite) (b : BlockId)
    (returned : List (Operand × BlockId)) :
    (f.bindResult site b returned).blocks.length = f.blocks.length := by
  unfold bindResult
  split
  next => rfl
  next => exact f.length_mapOperands _
  next => exact f.length_mapOperands _
  next => exact f.length_mapBlock _ _

/-- The copies come behind the block that is split off. -/
theorem length_inlineBody {f : Function} {site : CallSite}
    (h : f.inlineBody site b index = .ok f') :
    b < f.blocks.length ∧
      f'.blocks.length = f.blocks.length + 1 + site.callee.blocks.length := by
  obtain ⟨split, hoisted, joined, hsplit, hhoisted, hjoined, rfl⟩ := inlineBody_steps h
  obtain ⟨hlt, hlength⟩ := length_splitAt hsplit
  refine ⟨hlt, ?_⟩
  rw [length_bindResult, length_updateBlock hjoined, length_hoistAllocas hhoisted,
    List.length_append, hlength, copyBlocks, List.length_map, List.length_zipIdx]

/-- Inlining is done into a body, and gives a body. -/
theorem isDeclaration_inlineBody {f : Function} {site : CallSite}
    (h : f.inlineBody site b index = .ok f') :
    f.isDeclaration = false ∧ f'.isDeclaration = false := by
  obtain ⟨hlt, hlength⟩ := length_inlineBody h
  have hpos : 0 < f.blocks.length := Nat.zero_lt_of_lt hlt
  simp only [← Bool.not_eq_true, isDeclaration_iff]
  omega

end Function

/-! ## Kinds and marks -/

namespace Module

def kinds (m : Module) : Arena Bool := m.functions.mapLive Function.isDeclaration

def marks (m : Module) : Arena Unit := m.globals.mapLive fun _ => ()

section

variable (m : Module)

theorem entries_kinds :
    m.kinds.entries = m.functions.entries.map fun entry => (entry.1, entry.2.isDeclaration) :=
  Arena.entries_mapLive _ _

theorem ids_kinds : m.kinds.ids = m.functions.ids := by
  rw [Arena.ids, entries_kinds, List.map_map]
  rfl

theorem liveCount_kinds : m.kinds.liveCount = m.functions.liveCount := by
  rw [Arena.liveCount, entries_kinds, List.length_map]
  rfl

theorem definitions_ids :
    m.definitions.map Prod.fst = (m.kinds.entries.filter fun entry => !entry.2).map Prod.fst := by
  rw [entries_kinds, List.filter_map, List.map_map]
  rfl

theorem ids_marks : m.marks.ids = m.globals.ids := by
  rw [Arena.ids, marks, Arena.entries_mapLive, List.map_map]
  rfl

theorem liveCount_marks : m.marks.liveCount = m.globals.liveCount := by
  rw [Arena.liveCount, marks, Arena.entries_mapLive, List.length_map]
  rfl

theorem get?_kinds (id : FunctionId) :
    m.kinds.get? id = (m.function? id).map Function.isDeclaration := Arena.get?_mapLive

end

/-- The modules have the same functions and globals, apart from their contents. -/
structure SameCensus (m n : Module) : Prop where
  kinds : n.kinds = m.kinds
  marks : n.marks = m.marks

theorem SameCensus.refl (m : Module) : m.SameCensus m := ⟨rfl, rfl⟩

theorem SameCensus.trans {m n k : Module} (h : m.SameCensus n) (h' : n.SameCensus k) :
    m.SameCensus k :=
  ⟨h'.kinds.trans h.kinds, h'.marks.trans h.marks⟩

theorem sameCensus_setFunction {f g : Function} (hf : m.function? id = some f)
    (h : g.isDeclaration = f.isDeclaration) : m.SameCensus (m.setFunction id g) := by
  refine ⟨Arena.mapLive_update fun a ha => ?_, rfl⟩
  obtain rfl := Option.some.inj (hf.symm.trans ha)
  exact h

theorem kinds_mapLive {change : Function → Function}
    (h : ∀ f, (change f).blocks.length = f.blocks.length) :
    (m.functions.mapLive change).mapLive Function.isDeclaration = m.kinds := by
  rw [Arena.mapLive_mapLive, kinds]
  congr 1
  funext f
  exact Function.isDeclaration_eq (h f)

section

variable (m : Module)

theorem sameCensus_replaceFunction (id : FunctionId) (c : Constant) :
    m.SameCensus (m.replaceFunction id c) := by
  constructor
  · exact kinds_mapLive fun f => f.length_mapOperands _
  · exact Arena.mapLive_mapLive ..

theorem kinds_eraseFunction (id : FunctionId) : (m.eraseFunction id).kinds = m.kinds.erase id := by
  rw [kinds, functions_eraseFunction, Arena.mapLive_erase]
  rfl

theorem marks_eraseGlobal (id : GlobalId) : (m.eraseGlobal id).marks = m.marks.erase id := by
  rw [marks, globals_eraseGlobal, Arena.mapLive_erase]
  rfl

theorem marks_eraseFunction (id : FunctionId) :
    (m.eraseFunction id).marks = m.marks := m.view_eraseFunction marks (fun _ _ _ _ => rfl) id

theorem kinds_eraseGlobal (id : GlobalId) : (m.eraseGlobal id).kinds = m.kinds :=
  m.view_eraseGlobal kinds (fun _ _ _ => rfl) id

theorem kinds_foldl_eraseGlobal (erased : List GlobalId) :
    (erased.foldl eraseGlobal m).kinds = m.kinds := foldl_view kinds_eraseGlobal erased m

theorem marks_foldl_eraseGlobal (erased : List GlobalId) :
    (erased.foldl eraseGlobal m).marks = erased.foldl Arena.erase m.marks :=
  (List.foldl_hom marks fun n id => (n.marks_eraseGlobal id).symm).symm

theorem kinds_prune : m.prune.kinds = m.unusedFunctions.foldl Arena.erase m.kinds := by
  rw [prune, ← List.foldl_hom kinds fun n id => (n.kinds_eraseFunction id).symm,
    kinds_foldl_eraseGlobal]

theorem marks_prune : m.prune.marks = m.unusedGlobals.foldl Arena.erase m.marks := by
  rw [prune, foldl_view marks_eraseFunction, marks_foldl_eraseGlobal]

end

/-! ## Inlining -/

section

variable {f : Function} {site : CallSite}

/-- What comes of a place where a call is to be inlined: no direct call of a function with a body
stands there, or its callee or its arguments are refused, or the bodies are put together. -/
inductive Attempt (m : Module) (caller : FunctionId) (b : BlockId) (index : Nat) :
    Except Failure (Option Module) → Prop where
  | absent (hnone : ∀ f, m.function? caller = some f → Function.callSite? m f b index = none) :
      Attempt m caller b index (.ok none)
  | variadic {f : Function} {site : CallSite} (hf : m.function? caller = some f)
      (hsite : Function.callSite? m f b index = some site)
      (hvariadic : site.callee.isVarArg = true) :
      Attempt m caller b index (.error (.rejected (.varArgInline f.name site.callee.name)))
  | mismatched {f : Function} {site : CallSite} (hf : m.function? caller = some f)
      (hsite : Function.callSite? m f b index = some site)
      (harity : site.args.length ≠ site.callee.parameters.length) :
      Attempt m caller b index (.error (.rejected (.arityMismatch f.name site.callee.name
        site.callee.parameters.length site.args.length)))
  | inlined {f : Function} {site : CallSite} {g : Function} (hf : m.function? caller = some f)
      (hsite : Function.callSite? m f b index = some site)
      (hfixed : site.callee.isVarArg = false)
      (harity : site.args.length = site.callee.parameters.length)
      (hbody : f.inlineBody site b index = .ok g) :
      Attempt m caller b index (.ok (some (m.setFunction caller g)))
  | faulted {f : Function} {site : CallSite} {fault : Fault} (hf : m.function? caller = some f)
      (hsite : Function.callSite? m f b index = some site)
      (hbody : f.inlineBody site b index = .error fault) :
      Attempt m caller b index (.error (.fault fault))

theorem attempt_inlineCall (m : Module) (caller : FunctionId) (b : BlockId) (index : Nat) :
    m.Attempt caller b index (m.inlineCall caller b index) := by
  unfold inlineCall
  split
  next hnone =>
    refine .absent fun f hf => ?_
    rw [hnone] at hf
    cases hf
  next f hf =>
    split
    next hnone =>
      refine .absent fun other hother => ?_
      obtain rfl := Option.some.inj (hf.symm.trans hother)
      exact hnone
    next site hsite =>
      dsimp only
      split
      next hvariadic => exact .variadic hf hsite hvariadic
      next hfixed =>
        split
        next harity => exact .mismatched hf hsite harity
        next harity =>
          cases hbody : f.inlineBody site b index with
          | ok g =>
              exact .inlined hf hsite (Bool.not_eq_true _ ▸ hfixed) (not_not.mp harity) hbody
          | error fault => exact .faulted hf hsite hbody

/-- A call that is inlined is a direct call of a function with a body that fits it. -/
theorem exists_of_inlineCall (h : m.inlineCall caller b index = .ok (some n)) :
    ∃ f site inlined, m.function? caller = some f ∧ Function.callSite? m f b index = some site ∧
      site.callee.isVarArg = false ∧ site.args.length = site.callee.parameters.length ∧
      f.inlineBody site b index = .ok inlined ∧ n = m.setFunction caller inlined := by
  have hattempt := m.attempt_inlineCall caller b index
  rw [h] at hattempt
  cases hattempt with
  | inlined hf hsite hfixed harity hbody => exact ⟨_, _, _, hf, hsite, hfixed, harity, hbody, rfl⟩

/-- A direct call of a function with a body is inlined or rejected. -/
theorem inlineCall_ne_none (hcaller : m.function? caller = some f)
    (hsite : Function.callSite? m f b index = some site) :
    m.inlineCall caller b index ≠ .ok none := by
  intro h
  have hattempt := m.attempt_inlineCall caller b index
  rw [h] at hattempt
  cases hattempt with
  | absent hnone =>
      rw [hnone f hcaller] at hsite
      cases hsite

theorem inlineCall_eq_ok (hcaller : m.function? caller = some f)
    (hsite : Function.callSite? m f b index = some site) (hfixed : site.callee.isVarArg = false)
    (harity : site.args.length = site.callee.parameters.length) {inlined : Function}
    (h : f.inlineBody site b index = .ok inlined) :
    m.inlineCall caller b index = .ok (some (m.setFunction caller inlined)) := by
  rw [inlineCall, hcaller]
  simp only [hsite, hfixed, Bool.false_eq_true, if_false, harity, ne_eq, not_true_eq_false, h]
  rfl

end

theorem sameCensus_inlineCall (h : m.inlineCall caller b index = .ok (some n)) :
    m.SameCensus n := by
  obtain ⟨f, site, inlined, hf, _, _, _, hinlined, rfl⟩ := exists_of_inlineCall h
  obtain ⟨hcaller, hbody⟩ := Function.isDeclaration_inlineBody hinlined
  exact sameCensus_setFunction hf (hbody.trans hcaller.symm)

section

variable {P : Module → Prop} {budget count : Nat}

/-- A run over the calls of a function that succeeds has inlined one call after the other, until
none was next, or one that is not a call to be inlined. -/
theorem inlineInto_run {Q : Module → Module → Nat → Prop}
    (hstop : ∀ {m}, (∀ b index, plan.nextCall? m caller = some (b, index) →
      m.inlineCall caller b index = .ok none) → Q m m 0)
    (hstep : ∀ {m next n b index count}, plan.nextCall? m caller = some (b, index) →
      m.inlineCall caller b index = .ok (some next) → Q next n count → Q m n (count + 1))
    (h : plan.inlineInto caller budget m = .ok (n, count)) : Q m n count := by
  have hdone : ∀ {m}, plan.nextCall? m caller = none → Q m m 0 := by
    intro m hnone
    refine hstop fun b index hnext => ?_
    rw [hnone] at hnext
    cases hnext
  induction budget generalizing m n count with
  | zero =>
      unfold Plan.inlineInto at h
      split at h
      next hnone =>
        obtain ⟨rfl, rfl⟩ := Prod.mk.inj (Except.ok.inj h)
        exact hdone hnone
      next => cases h
  | succ budget ih =>
      unfold Plan.inlineInto at h
      split at h
      next hnone =>
        obtain ⟨rfl, rfl⟩ := Prod.mk.inj (Except.ok.inj h)
        exact hdone hnone
      next b index hnext =>
        obtain ⟨next?, hcall, h⟩ := bind_eq_ok.mp h
        rw [leaving_eq_ok] at hcall
        cases next? with
        | none =>
            obtain ⟨rfl, rfl⟩ := Prod.mk.inj (Except.ok.inj h)
            refine hstop fun b' index' hnext' => ?_
            obtain ⟨rfl, rfl⟩ := Prod.mk.inj (Option.some.inj (hnext.symm.trans hnext'))
            exact hcall
        | some next =>
            obtain ⟨⟨last, more⟩, hlast, h⟩ := bind_eq_ok.mp h
            obtain ⟨rfl, rfl⟩ := Prod.mk.inj (Except.ok.inj h)
            exact hstep hnext hcall (ih hlast)

/-- What inlining a call keeps is kept when all calls of a function are inlined. -/
theorem inlineInto_induction
    (hstep : ∀ {m n b index}, P m → m.inlineCall caller b index = .ok (some n) → P n) (hm : P m)
    (h : plan.inlineInto caller budget m = .ok (n, count)) : P n :=
  inlineInto_run (Q := fun m n _ => P m → P n) (fun _ hm => hm)
    (fun _ hcall hrest hm => hrest (hstep hm hcall)) h hm

theorem inlineAll_induction
    (hstep : ∀ {m n caller b index}, P m → m.inlineCall caller b index = .ok (some n) → P n)
    (hm : P m) (h : plan.inlineAll budget m = .ok (n, count)) : P n := by
  refine foldlM_induction (fun state => P state.1) ?_ hm (mapError_eq_ok.mp h)
  intro caller _ state next hstate hnext
  obtain ⟨⟨last, more⟩, hlast, hnext⟩ := bind_eq_ok.mp hnext
  obtain rfl := Except.ok.inj hnext
  exact inlineInto_induction hstep hstate hlast

/-- What does not depend on bodies stays when calls are inlined. -/
theorem view_inlineAll {α : Type} {view : Module → α}
    (hview : ∀ m id f, view (m.setFunction id f) = view m)
    (h : plan.inlineAll budget m = .ok (n, count)) : view n = view m := by
  refine inlineAll_induction (P := fun n => view n = view m) ?_ rfl h
  intro k next caller b index hk hnext
  obtain ⟨_, _, inlined, _, _, _, _, _, rfl⟩ := exists_of_inlineCall hnext
  rw [hview, hk]

end

theorem sameCensus_inlineInto {budget count : Nat}
    (h : plan.inlineInto caller budget m = .ok (n, count)) : m.SameCensus n :=
  inlineInto_induction (fun hk hn => hk.trans (sameCensus_inlineCall hn)) (.refl m) h

/-- Inlining changes bodies only. -/
theorem sameCensus_inlineAll {budget count : Nat} (h : plan.inlineAll budget m = .ok (n, count)) :
    m.SameCensus n :=
  inlineAll_induction (fun hk hn => hk.trans (sameCensus_inlineCall hn)) (.refl m) h

end Module

namespace Plan

/-- The module without the functions that were inlined, whatever is logged. -/
def eraseForced (plan : Plan) (m : Module) : Module :=
  plan.forced.foldl (fun m id => (m.replaceFunction id placeholder).eraseFunction id) m

theorem eraseInlined_eq_ok {level : LogLevel} (h : eraseInlined level m id = .ok n) :
    n = (m.replaceFunction id placeholder).eraseFunction id := by
  unfold eraseInlined at h
  dsimp only at h
  split at h
  next => exact (Except.ok.inj h).symm
  next =>
    obtain ⟨_, _, h⟩ := bind_eq_ok.mp h
    exact (Except.ok.inj h).symm

/-- Logging has no part in what is erased. -/
theorem eraseForced_of_eq_ok {level : LogLevel}
    (h : plan.forced.foldlM (eraseInlined level) m = .ok n) : n = plan.eraseForced m := by
  unfold eraseForced
  generalize plan.forced = forced at h
  induction forced generalizing m with
  | nil => exact (Except.ok.inj h).symm
  | cons id forced ih =>
      rw [List.foldlM_cons] at h
      obtain ⟨next, hnext, h⟩ := bind_eq_ok.mp h
      rw [ih h, eraseInlined_eq_ok hnext, List.foldl_cons]

end Plan

namespace Module

theorem kinds_eraseForced (plan : Plan) (m : Module) :
    (plan.eraseForced m).kinds = plan.forced.foldl Arena.erase m.kinds := by
  unfold Plan.eraseForced
  generalize plan.forced = forced
  induction forced generalizing m with
  | nil => rfl
  | cons id forced ih =>
      rw [List.foldl_cons, ih, kinds_eraseFunction, (sameCensus_replaceFunction m _ _).kinds,
        List.foldl_cons]

theorem marks_eraseForced (plan : Plan) (m : Module) : (plan.eraseForced m).marks = m.marks := by
  refine List.foldlRecOn (motive := fun n : Module => n.marks = m.marks) plan.forced _ rfl ?_
  intro n hn id _
  rw [marks_eraseFunction, (sameCensus_replaceFunction n _ _).marks, hn]

end Module

/-! ## Localization -/

namespace Localized

variable {scope : Localized} {f g : Function}

@[simp] theorem Expansion.within_eq_ok {σ τ α : Type} {whole : σ → τ} {x : Expansion σ α}
    {draft : Draft} {result : α × Draft} :
    x.within whole draft = .ok result ↔ x draft = .ok result := mapError_eq_ok

/-- Blocks are expanded if one after the other is. -/
theorem expandBlocks_eq_ok {blocks : List Block} {draft : Draft} {result : List Block × Draft} :
    scope.expandBlocks blocks draft = .ok result ↔
      (blocks.mapM scope.expandBlock) draft = .ok result := by
  induction blocks generalizing draft result with
  | nil =>
      -- the two fail in other ways, if they do
      constructor <;> intro h <;> rw [← Except.ok.inj h] <;> rfl
  | cons block rest ih =>
      rw [List.mapM_cons, expandBlocks]
      refine bind_eq_ok.trans (Iff.trans ?_ bind_eq_ok.symm)
      refine exists_congr fun first => and_congr Expansion.within_eq_ok ?_
      refine bind_eq_ok.trans (Iff.trans ?_ bind_eq_ok.symm)
      refine exists_congr fun others => and_congr (Expansion.within_eq_ok.trans ih) ?_
      constructor <;> intro h <;> rw [← Except.ok.inj h] <;> rfl

/-- A function is expanded block by block, and then code is added at the ends of blocks. -/
theorem exists_of_expandFunction (h : scope.expandFunction f = .ok g) :
    ∃ blocks draft, (f.blocks.mapM scope.expandBlock) { values := f.values } = .ok (blocks, draft) ∧
      draft.edges.foldlM (fun f edge => f.updateBlock edge.1 (·.mapInstructions (· ++ edge.2)))
        { f with blocks, values := draft.values } = .ok g := by
  obtain ⟨⟨blocks, draft⟩, hblocks, h⟩ := bind_eq_ok.mp h
  exact ⟨blocks, draft, expandBlocks_eq_ok.mp (Expansion.within_eq_ok.mp hblocks),
    faulting_eq_ok.mp (leaving_eq_ok.mp h)⟩

theorem length_expandFunction (h : scope.expandFunction f = .ok g) :
    g.blocks.length = f.blocks.length := by
  obtain ⟨blocks, draft, hblocks, h⟩ := exists_of_expandFunction h
  refine foldlM_induction (fun edited => edited.blocks.length = f.blocks.length) ?_
    (length_mapM_run hblocks) h
  intro edge _ edited next hlength hnext
  exact (Function.length_updateBlock hnext).trans hlength

theorem length_localizeInto (h : scope.localizeInto f = .ok g) :
    g.blocks.length = f.blocks.length := by
  obtain ⟨prepared, hprepared, h⟩ := bind_eq_ok.mp h
  obtain ⟨expanded, hexpanded, h⟩ := bind_eq_ok.mp h
  obtain rfl := Except.ok.inj h
  have hlength := Function.length_updateBlock (faulting_eq_ok.mp (leaving_eq_ok.mp hprepared))
  rw [Function.length_mapOperands, length_expandFunction hexpanded, hlength]

end Localized

namespace Module

/-- A group of globals is moved into its owner, if there is one. -/
theorem exists_of_localizeGroup {owner : FunctionId} {ids : List GlobalId}
    (h : m.localizeGroup owner ids = .ok (n, names)) :
    (m.function? owner = none ∧ n = m) ∨ ∃ f g, m.function? owner = some f ∧
      Localized.localizeInto { globals := m.globalsAt ids, function := f.name } f = .ok g ∧
      n = ids.foldl eraseGlobal (m.setFunction owner g) ∧
      names = (m.globalsAt ids).map fun entry => entry.2.name := by
  unfold localizeGroup at h
  split at h
  next hnone =>
    obtain ⟨rfl, _⟩ := Prod.mk.inj (Except.ok.inj h)
    exact .inl ⟨hnone, rfl⟩
  next f hf =>
    obtain ⟨g, hg, h⟩ := bind_eq_ok.mp h
    obtain ⟨rfl, rfl⟩ := Prod.mk.inj (Except.ok.inj h)
    exact .inr ⟨f, g, hf, mapError_eq_ok.mp hg, rfl, rfl⟩

theorem exists_of_localizeNext {state next : Module × List String}
    {group : FunctionId × List GlobalId} (h : localizeNext state group = .ok next) :
    ∃ names, state.1.localizeGroup group.1 group.2 = .ok (next.1, names) ∧
      next.2 = state.2 ++ names := by
  obtain ⟨⟨moved, names⟩, hmoved, h⟩ := bind_eq_ok.mp h
  obtain rfl := Except.ok.inj h
  exact ⟨names, mapError_eq_ok.mp hmoved, rfl⟩

/-- Globals that are live are moved into a function that is live. -/
theorem census_localizeGroup {owner : FunctionId} {ids : List GlobalId}
    (h : m.localizeGroup owner ids = .ok (n, names)) (howner : (m.function? owner).isSome = true)
    (hids : ∀ id ∈ ids, id ∈ m.marks.ids) :
    n.kinds = m.kinds ∧ n.marks = ids.foldl Arena.erase m.marks ∧ names.length = ids.length := by
  obtain ⟨f, hf⟩ := Option.isSome_iff_exists.mp howner
  rcases exists_of_localizeGroup h with ⟨hnone, _⟩ | ⟨_, localized, hf, hlocalized, rfl, rfl⟩
  · rw [hnone] at hf
    cases hf
  have hcensus := sameCensus_setFunction hf
    (Function.isDeclaration_eq (Localized.length_localizeInto hlocalized))
  refine ⟨?_, ?_, ?_⟩
  · rw [kinds_foldl_eraseGlobal, hcensus.kinds]
  · rw [marks_foldl_eraseGlobal, hcensus.marks]
  · rw [List.length_map]
    have hlive : ∀ id ∈ ids, ((m.global? id).map (id, ·)).isSome = true := by
      intro id hid
      have hmark := hids id hid
      rw [ids_marks, Arena.mem_ids] at hmark
      rw [Option.isSome_map]
      exact hmark
    exact List.filterMap_length_eq_length.mpr hlive

theorem mem_ids_kinds : id ∈ m.kinds.ids ↔ (m.function? id).isSome = true := by
  rw [ids_kinds, Arena.mem_ids]
  rfl

theorem census_localize (h : m.localize owners = .ok (n, names))
    (howners : ∀ entry ∈ ownerGroups owners, entry.1 ∈ m.kinds.ids)
    (hids : ∀ id ∈ (ownerGroups owners).flatMap Prod.snd, id ∈ m.marks.ids)
    (hnodup : ((ownerGroups owners).flatMap Prod.snd).Nodup) :
    n.kinds = m.kinds ∧
      n.marks = ((ownerGroups owners).flatMap Prod.snd).foldl Arena.erase m.marks ∧
      names.length = ((ownerGroups owners).flatMap Prod.snd).length := by
  unfold localize at h
  generalize ownerGroups owners = groups at *
  rw [← Nat.zero_add (List.length (groups.flatMap Prod.snd))]
  change _ ∧ _ ∧ names.length = ([] : List String).length + _
  generalize ([] : List String) = start at h ⊢
  induction groups generalizing m start with
  | nil =>
      obtain ⟨rfl, rfl⟩ := Prod.mk.inj (Except.ok.inj h)
      exact ⟨rfl, rfl, rfl⟩
  | cons group groups ih =>
      rw [List.foldlM_cons] at h
      obtain ⟨⟨next, total⟩, hnext, h⟩ := bind_eq_ok.mp h
      obtain ⟨more, hlocalized, rfl⟩ := exists_of_localizeNext hnext
      rw [List.flatMap_cons] at hids hnodup
      obtain ⟨_, hrest, hdisjoint⟩ := List.nodup_append.mp hnodup
      obtain ⟨hkinds, hmarks, hmore⟩ := census_localizeGroup hlocalized
        (mem_ids_kinds.mp (howners group List.mem_cons_self))
        fun id hid => hids id (List.mem_append_left _ hid)
      have howners' : ∀ entry ∈ groups, entry.1 ∈ next.kinds.ids := by
        rw [hkinds]
        exact fun entry hentry => howners entry (List.mem_cons_of_mem _ hentry)
      have hids' : ∀ id ∈ groups.flatMap Prod.snd, id ∈ next.marks.ids := by
        intro id hid
        rw [hmarks, Arena.ids_foldl_erase, List.mem_filter]
        refine ⟨hids id (List.mem_append_right _ hid), ?_⟩
        simpa using fun hgroup => hdisjoint id hgroup id hid rfl
      obtain ⟨hkinds', hmarks', hnames⟩ := ih howners' hids' hrest _ h
      refine ⟨hkinds'.trans hkinds, ?_, ?_⟩
      · rw [hmarks', hmarks, List.flatMap_cons, List.foldl_append]
      · rw [hnames, List.flatMap_cons, List.length_append, List.length_append, hmore, Nat.add_assoc]

/-! ## Owners -/

theorem mem_ids_of_owner {id : GlobalId} {g : Global} {f : FunctionId} (h : m.owner id g = .ok f) :
    f ∈ m.functions.ids := by
  unfold owner at h
  split at h
  next => cases h
  next user husers =>
    obtain rfl := Except.ok.inj h
    have huser : user ∈ m.users id := by
      rw [husers]
      exact List.mem_singleton_self user
    obtain ⟨other, _, hmentions⟩ := List.mem_flatMap.mp (List.mem_eraseDups.mp huser)
    obtain ⟨entry, hentry, rfl⟩ := List.mem_map.mp hmentions
    exact List.mem_map_of_mem (List.mem_of_mem_filter hentry)
  next => cases h

/-- Every global has an owner, which is live. -/
theorem owners_spec (h : m.owners = .ok owners) :
    owners.map Prod.fst = m.globals.ids ∧ ∀ entry ∈ owners, entry.2 ∈ m.functions.ids := by
  unfold Module.owners at h
  rw [Arena.ids]
  generalize m.globals.entries = entries at h ⊢
  induction entries generalizing owners with
  | nil =>
      obtain rfl := Except.ok.inj h
      exact ⟨rfl, List.forall_mem_nil _⟩
  | cons entry entries ih =>
      rw [List.mapM_cons] at h
      obtain ⟨first, hfirst, h⟩ := bind_eq_ok.mp h
      obtain ⟨owner, howner, hfirst⟩ := bind_eq_ok.mp hfirst
      obtain ⟨rest, hrest, h⟩ := bind_eq_ok.mp h
      obtain rfl := Except.ok.inj hfirst
      obtain rfl := Except.ok.inj h
      obtain ⟨hids, hlive⟩ := ih hrest
      refine ⟨?_, List.forall_mem_cons.mpr ⟨mem_ids_of_owner howner, hlive⟩⟩
      rw [List.map_cons, List.map_cons, hids]

theorem mem_ownerGroups {entry : FunctionId × List GlobalId} (h : entry ∈ ownerGroups owners) :
    entry.1 ∈ owners.map Prod.snd := by
  obtain ⟨f, hf, rfl⟩ := List.mem_map.mp h
  exact List.mem_eraseDups.mp hf

/-- Every global is in the group of its owner and in no other. -/
theorem ownerGroups_perm (hnodup : (owners.map Prod.fst).Nodup) :
    ((ownerGroups owners).flatMap Prod.snd).Perm (owners.map Prod.fst) := by
  have hmem : ∀ {f : FunctionId} {id : GlobalId},
      id ∈ (owners.filter fun entry => entry.2 = f).map Prod.fst ↔ (id, f) ∈ owners := by
    intro f id
    simp [and_comm]
  rw [ownerGroups, List.flatMap_map]
  refine (List.perm_ext_iff_of_nodup (List.nodup_flatMap.mpr ⟨?_, ?_⟩) hnodup).mpr fun id => ?_
  · intro f _
    exact hnodup.sublist (List.filter_sublist.map Prod.fst)
  · refine (eraseDups_nodup _).imp fun {f g} hne => ?_
    intro id hf hg
    have heq := List.inj_on_of_nodup_map hnodup (hmem.mp hf) (hmem.mp hg) rfl
    exact hne (congrArg Prod.snd heq)
  · rw [List.mem_flatMap, List.mem_map]
    constructor
    · rintro ⟨f, _, hid⟩
      exact ⟨(id, f), hmem.mp hid, rfl⟩
    · rintro ⟨entry, hentry, rfl⟩
      exact ⟨entry.2, List.mem_eraseDups.mpr (List.mem_map_of_mem hentry), hmem.mpr hentry⟩

/-- When every global has found its owner, all of them are moved. -/
theorem census_localize_owners (howners : m.owners = .ok owners)
    (h : m.localize owners = .ok (n, names)) :
    n.kinds = m.kinds ∧ n.globals.entries = [] ∧ names.length = m.globals.liveCount := by
  obtain ⟨hids, hlive⟩ := owners_spec howners
  have hnodup : (owners.map Prod.fst).Nodup := by
    rw [hids]
    exact m.globals.ids_nodup
  have hperm := ownerGroups_perm hnodup
  have hlive' : ∀ entry ∈ ownerGroups owners, entry.1 ∈ m.kinds.ids := by
    intro entry hentry
    obtain ⟨own, hown, heq⟩ := List.mem_map.mp (mem_ownerGroups hentry)
    rw [ids_kinds, ← heq]
    exact hlive own hown
  have hmarks : ∀ {id}, id ∈ (ownerGroups owners).flatMap Prod.snd ↔ id ∈ m.marks.ids := by
    intro id
    rw [hperm.mem_iff, hids, ids_marks]
  obtain ⟨hkinds, herased, hnames⟩ := census_localize h hlive' (fun id hid => hmarks.mp hid)
    (hperm.nodup_iff.mpr hnodup)
  refine ⟨hkinds, ?_, ?_⟩
  · rw [← List.map_eq_nil_iff (f := Prod.fst)]
    change n.globals.ids = []
    rw [← ids_marks, herased, Arena.ids_foldl_erase, List.filter_eq_nil_iff]
    intro id hid
    simpa using hmarks.mpr hid
  · rw [hnames, hperm.length_eq, hids, Arena.ids, List.length_map]
    rfl

end Module

end Monolith
