import Monolith.Proofs.Globals.ExpansionSteps
import Monolith.Proofs.Verify.VerifiedModule

/-! # Control stays in its body

The ways of control through a body change only where a call is inlined: the copied blocks
lead to each other and to the block where control goes on. So in all that flattening makes of
a verified module, control stays among the blocks of the body that it is in.
-/

namespace Monolith

variable {index count : Nat} {scope : Localized} {plan : Plan} {names : List String} {b : BlockId}
  {f g : Function} {site : CallSite} {change : Block → Block}

namespace Renaming

theorem block_lt (names : Renaming) {first : Nat} (hfirst : names.firstBlock = first)
    (hcount : names.blockCount = count) (hb : b < count) : names.block b < first + count := by
  rw [block, hcount, if_pos hb, hfirst]
  exact Nat.add_lt_add_left hb _

/-- A copied terminator leads to copies, or to where control goes on. -/
theorem mem_targets_terminator {names : Renaming} {continuation : BlockId} {t : Terminator}
    (h : b ∈ (names.terminator continuation t).targets) :
    b = continuation ∨ ∃ target ∈ t.targets, names.block target = b := by
  cases t with
  | ret value => exact .inl (List.mem_singleton.mp h)
  | unreachable => cases h
  | jump target =>
      obtain rfl := List.mem_singleton.mp h
      exact .inr ⟨target, List.mem_singleton_self _, rfl⟩
  | branch condition onTrue onFalse => exact .inr (List.mem_map.mp h)

end Renaming

namespace Function

def exits (f : Function) : List (List BlockId) := f.blocks.map (·.terminator.targets)

/-- The entry is a block, and control goes from blocks to blocks. -/
structure Closed (f : Function) : Prop where
  entry_lt : f.entry < f.exits.length
  exits_lt : ∀ targets ∈ f.exits, ∀ b ∈ targets, b < f.exits.length

structure SameFlow (f g : Function) : Prop where
  entry : g.entry = f.entry
  exits : g.exits = f.exits

section

variable {k : Function}

theorem length_exits (f : Function) : f.exits.length = f.blocks.length := List.length_map _

theorem isDeclaration_iff_exits : f.isDeclaration = true ↔ f.exits = [] := by
  rw [isDeclaration, List.isEmpty_iff, exits, List.map_eq_nil_iff]

/-- In a well-formed body, control stays among its blocks. -/
theorem WellFormed.closed (h : f.WellFormed) : f.Closed where
  entry_lt := by
    rw [length_exits]
    exact h.entry_lt
  exits_lt targets htargets b hb := by
    obtain ⟨block, hblock, rfl⟩ := List.mem_map.mp htargets
    obtain ⟨a, ha⟩ := List.getElem?_of_mem hblock
    rw [length_exits]
    exact h.targets_lt a b (mem_successors.mpr ⟨block, ha, hb⟩)

/-! ## What keeps the ways of control -/

namespace SameFlow

theorem refl (f : Function) : f.SameFlow f := ⟨rfl, rfl⟩

theorem trans (h : f.SameFlow g) (h' : g.SameFlow k) : f.SameFlow k :=
  ⟨h'.entry.trans h.entry, h'.exits.trans h.exits⟩

/-- Control stays in a body if it goes the same ways. -/
theorem closed (h : f.SameFlow g) (hf : f.Closed) : g.Closed := by
  obtain ⟨hentry, hexits⟩ := hf
  rw [← h.exits] at hentry hexits
  rw [← h.entry] at hentry
  exact ⟨hentry, hexits⟩

theorem isDeclaration (h : f.SameFlow g) : g.isDeclaration = f.isDeclaration := by
  rw [Bool.eq_iff_iff, isDeclaration_iff_exits, isDeclaration_iff_exits, h.exits]

end SameFlow

theorem sameFlow_mapOperands (f : Function) (rewrite : Operand → Operand) :
    f.SameFlow (f.mapOperands rewrite) := by
  refine ⟨rfl, ?_⟩
  simp [exits, mapOperands, Function.comp_def]

theorem sameFlow_mapBlock (f : Function) (b : BlockId)
    (hchange : ∀ block, (change block).terminator = block.terminator) :
    f.SameFlow (f.mapBlock b change) := by
  refine ⟨rfl, ?_⟩
  exact map_blocks_mapBlock fun block _ => congrArg Terminator.targets (hchange block)

/-- Changing instructions leaves the ways of control. -/
theorem sameFlow_updateBlock (h : f.updateBlock b change = .ok g)
    (hchange : ∀ block, (change block).terminator = block.terminator) : f.SameFlow g := by
  obtain ⟨_, _, h⟩ := bind_eq_ok.mp h
  obtain rfl := Except.ok.inj h
  exact f.sameFlow_mapBlock b hchange

/-- Allocas are moved without changing where control goes. -/
theorem sameFlow_hoistAllocas (h : f.hoistAllocas b = .ok g) : f.SameFlow g := by
  obtain ⟨source, _, h⟩ := bind_eq_ok.mp h
  obtain ⟨entry, _, h⟩ := bind_eq_ok.mp h
  obtain rfl := Except.ok.inj h
  refine .trans (f.sameFlow_mapBlock b ?_) (sameFlow_mapBlock _ _ ?_) <;> exact fun _ => rfl

theorem sameFlow_bindResult (f : Function) (site : CallSite) (b : BlockId)
    (returned : List (Operand × BlockId)) : f.SameFlow (f.bindResult site b returned) := by
  unfold bindResult
  split
  next => exact .refl f
  next => exact f.sameFlow_mapOperands _
  next => exact f.sameFlow_mapOperands _
  next => exact f.sameFlow_mapBlock b fun _ => rfl

/-! ## Inlining a call -/

/-- A new terminator changes where control goes from its block only. -/
theorem exits_mapBlock (f : Function) (b : BlockId) (terminator : Terminator)
    (hchange : ∀ block, (change block).terminator = terminator) :
    (f.mapBlock b change).exits = f.exits.set b terminator.targets := by
  refine List.ext_getElem? fun a => ?_
  simp only [exits, mapBlock, List.getElem?_map, List.getElem?_modify, List.getElem?_set]
  by_cases hb : b = a
  · subst hb
    by_cases hlt : b < f.blocks.length <;> simp [hlt, hchange]
  · simp [hb]

/-- The block that is split goes nowhere yet, and the new one goes where it went. -/
theorem exits_splitAt {name : String} (h : f.splitAt b index name = .ok g) :
    g.entry = f.entry ∧ ∃ targets ∈ f.exits, g.exits = f.exits.set b [] ++ [targets] := by
  obtain ⟨head, hhead, h⟩ := bind_eq_ok.mp h
  obtain rfl := Except.ok.inj h
  -- what is renamed in the blocks that follow are the sources of phis
  have hfold : ∀ (targets : List BlockId) (rename : BlockId → BlockId) (f : Function),
      f.SameFlow (targets.foldl (fun f target =>
        f.mapBlock target (·.mapInstructions (·.map (·.mapIncoming rename)))) f) := by
    intro targets rename f
    exact List.foldlRecOn targets _ (.refl f) fun g hg target _ =>
      hg.trans (g.sameFlow_mapBlock target fun _ => rfl)
  refine ⟨(hfold _ _ _).entry, head.terminator.targets,
    List.mem_map_of_mem (mem_of_block_eq_ok hhead), (hfold _ _ _).exits.trans ?_⟩
  rw [exits, List.map_append]
  refine congrArg (· ++ _) (f.exits_mapBlock b .unreachable ?_)
  exact fun _ => rfl

/-- The copies lead to each other, or to the block before them. -/
theorem lt_of_copyBlocks {names : Renaming} {continuation : BlockId} (hf : f.Closed)
    (hfirst : names.firstBlock = continuation + 1) (hcount : names.blockCount = f.exits.length)
    {block : Block} (hblock : block ∈ f.copyBlocks names continuation) {b : BlockId}
    (hb : b ∈ block.terminator.targets) : b < continuation + 1 + f.exits.length := by
  obtain ⟨⟨old, id⟩, hold, rfl⟩ := List.mem_map.mp hblock
  rcases Renaming.mem_targets_terminator hb with rfl | ⟨target, htarget, rfl⟩
  · exact Nat.lt_add_right _ (Nat.lt_succ_self b)
  · have hlt : target < f.exits.length :=
      hf.exits_lt _ (List.mem_map_of_mem (List.fst_mem_of_mem_zipIdx hold)) target htarget
    exact names.block_lt hfirst hcount hlt

/-- The block of the call leads to the copies, and the copies to what stood behind it. -/
theorem exits_inlineBody (h : f.inlineBody site b index = .ok g) :
    g.entry = f.entry ∧ ∃ targets ∈ f.exits,
      g.exits = (f.exits.set b [] ++ [targets] ++
        (site.callee.copyBlocks (site.renaming f) f.blocks.length).map (·.terminator.targets)).set b
          [(site.renaming f).block site.callee.entry] := by
  obtain ⟨split, hoisted, joined, hsplit, hhoisted, hjoined, rfl⟩ := inlineBody_steps h
  obtain ⟨_, _, hjoined⟩ := bind_eq_ok.mp hjoined
  obtain rfl := Except.ok.inj hjoined
  obtain ⟨hentry, targets, htargets, hexits⟩ := exits_splitAt hsplit
  have hhoisted := sameFlow_hoistAllocas hhoisted
  have hbound := sameFlow_bindResult
  refine ⟨(hbound _ _ _ _).entry.trans (hhoisted.entry.trans hentry), targets, htargets,
    (hbound _ _ _ _).exits.trans ?_⟩
  rw [exits_mapBlock _ _ (.jump _) fun _ => rfl, hhoisted.exits, exits, List.map_append, ← exits,
    hexits]
  rfl

/-- If control stays in both bodies, it stays in the caller after inlining. -/
theorem Closed.inlineBody (hf : f.Closed) (hcallee : site.callee.Closed)
    (h : f.inlineBody site b index = .ok g) : g.Closed := by
  obtain ⟨hentry, targets, htargets, hexits⟩ := exits_inlineBody h
  have hcount : (site.renaming f).blockCount = site.callee.exits.length :=
    site.callee.length_exits.symm
  let size := f.blocks.length + 1 + site.callee.exits.length
  have hlength : g.exits.length = size := by
    rw [length_exits, (length_inlineBody h).2, ← site.callee.length_exits]
  have hold : ∀ {a}, a < f.exits.length → a < size := fun ha =>
    Nat.lt_add_right _ (Nat.lt_add_right _ (f.length_exits ▸ ha))
  constructor <;> rw [hlength]
  · rw [hentry]
    exact hold hf.entry_lt
  · intro goals hgoals a ha
    rw [hexits] at hgoals
    rcases List.mem_or_eq_of_mem_set hgoals with hgoals | rfl
    · simp only [List.mem_append, List.mem_singleton] at hgoals
      rcases hgoals with (hgoals | rfl) | hgoals
      · rcases List.mem_or_eq_of_mem_set hgoals with hgoals | rfl
        · exact hold (hf.exits_lt goals hgoals a ha)
        · cases ha
      · exact hold (hf.exits_lt goals htargets a ha)
      · obtain ⟨block, hblock, rfl⟩ := List.mem_map.mp hgoals
        exact lt_of_copyBlocks hcallee rfl hcount hblock ha
    · -- the jump from the block of the call to the copy of the entry
      obtain rfl := List.mem_singleton.mp ha
      exact Renaming.block_lt _ rfl hcount hcallee.entry_lt

end

end Function

/-! ## Localizing globals -/

namespace Localized

theorem exits_expandBlocks {blocks blocks' : List Block} {draft draft' : Draft}
    (h : (blocks.mapM scope.expandBlock) draft = .ok (blocks', draft')) :
    blocks'.map (·.terminator.targets) = blocks.map (·.terminator.targets) := by
  refine map_eq_of_mapM_run h fun block draft block' draft' hblock => ?_
  obtain ⟨_, os, _, _, rfl⟩ := exists_of_expandBlock hblock
  exact Terminator.targets_withOperands _ _

/-- Computing operands adds no ways of control. -/
theorem sameFlow_expandFunction (h : scope.expandFunction f = .ok g) : f.SameFlow g := by
  obtain ⟨blocks, draft, hblocks, h⟩ := exists_of_expandFunction h
  have hexpanded : f.SameFlow { f with blocks, values := draft.values } :=
    ⟨rfl, exits_expandBlocks hblocks⟩
  refine foldlM_induction f.SameFlow ?_ hexpanded h
  intro edge _ edited next hedited hnext
  exact hedited.trans (Function.sameFlow_updateBlock hnext fun _ => rfl)

/-- Storage for globals adds no ways of control. -/
theorem sameFlow_localizeInto (h : scope.localizeInto f = .ok g) : f.SameFlow g := by
  obtain ⟨prepared, hprepared, h⟩ := bind_eq_ok.mp h
  obtain ⟨expanded, hexpanded, h⟩ := bind_eq_ok.mp h
  obtain rfl := Except.ok.inj h
  have hprepared := faulting_eq_ok.mp (leaving_eq_ok.mp hprepared)
  have hprepared := Function.sameFlow_updateBlock hprepared fun _ => rfl
  have hplaced := hprepared.trans (sameFlow_expandFunction hexpanded)
  exact .trans ⟨hplaced.entry, hplaced.exits⟩ (expanded.sameFlow_mapOperands _)

end Localized

/-! ## Modules -/

namespace Module

/-- What is left of the functions comes of the earlier ones by changes of the given kind. -/
def Derives (change : Function → Function → Prop) (m n : Module) : Prop :=
  ∀ id g, n.function? id = some g → ∃ f, m.function? id = some f ∧ change f g

/-- Control stays in the bodies of the module. -/
def Closed (m : Module) : Prop :=
  ∀ id f, m.function? id = some f → f.isDeclaration = false → f.Closed

def KeepsFlow (m n : Module) : Prop :=
  ∀ id g, n.function? id = some g → ∃ f, m.function? id = some f ∧ f.SameFlow g

variable {m n k : Module}

section

variable {change : Function → Function → Prop}

theorem Derives.trans (htrans : ∀ ⦃f g k⦄, change f g → change g k → change f k)
    (h : m.Derives change n) (h' : n.Derives change k) : m.Derives change k := by
  intro id last hlast
  obtain ⟨g, hg, hchange'⟩ := h' id last hlast
  obtain ⟨f, hf, hchange⟩ := h id g hg
  exact ⟨f, hf, htrans hchange hchange'⟩

/-- Changing all functions in one way derives the module. -/
theorem derives_mapLive {update : Function → Function} (hupdate : ∀ f, change f (update f))
    (h : n.functions = m.functions.mapLive update) : m.Derives change n := by
  intro id g hg
  rw [function?, h, Arena.get?_mapLive] at hg
  obtain ⟨f, hf, rfl⟩ := Option.map_eq_some_iff.mp hg
  exact ⟨f, hf, hupdate f⟩

variable (hrefl : ∀ f, change f f)
include hrefl

theorem Derives.refl (m : Module) : m.Derives change m := fun _ f hf => ⟨f, hf, hrefl f⟩

theorem derives_eraseFunction (m : Module) (id : FunctionId) :
    m.Derives change (m.eraseFunction id) := by
  intro other g hg
  rw [function?_eraseFunction] at hg
  split at hg
  next => cases hg
  next => exact ⟨g, hg, hrefl g⟩

/-- A function is changed and the others are not. -/
theorem derives_setFunction {id : FunctionId} (hf : m.function? id = some f) (h : change f g) :
    m.Derives change (m.setFunction id g) := by
  intro other k hk
  rw [function?_setFunction hf] at hk
  split at hk
  next heq =>
    obtain rfl := Option.some.inj hk
    exact ⟨f, heq ▸ hf, h⟩
  next => exact ⟨k, hk, hrefl k⟩

variable (htrans : ∀ ⦃f g k⦄, change f g → change g k → change f k)
include htrans

theorem derives_foldl_eraseGlobal (m : Module) (ids : List GlobalId) :
    m.Derives change (ids.foldl eraseGlobal m) :=
  List.foldlRecOn ids _ (.refl hrefl m) fun n hn id _ =>
    hn.trans htrans fun _ g hg => ⟨g, n.function?_eraseGlobal id ▸ hg, hrefl g⟩

/-- Pruning leaves the functions that it keeps as they are. -/
theorem derives_prune (m : Module) : m.Derives change m.prune :=
  List.foldlRecOn _ _ (derives_foldl_eraseGlobal hrefl htrans m _) fun n hn id _ =>
    hn.trans htrans (derives_eraseFunction hrefl n id)

/-- Erasing what was inlined changes operands only. -/
theorem derives_eraseForced (hreplace : ∀ id ∈ plan.forced, ∀ f,
    change f (f.mapOperands (Operand.replaceFunction id Plan.placeholder))) (m : Module) :
    m.Derives change (plan.eraseForced m) :=
  List.foldlRecOn _ _ (.refl hrefl m) fun n hn id hid =>
    have hreplaced : n.Derives change (n.replaceFunction id Plan.placeholder) :=
      derives_mapLive (hreplace id hid) rfl
    (hn.trans htrans hreplaced).trans htrans (derives_eraseFunction hrefl _ id)

variable (hlocalize : ∀ (scope : Localized) f g, scope.localizeInto f = .ok g → change f g)
include hlocalize

/-- Only the owner of the group is changed. -/
theorem derives_localizeGroup {owner : FunctionId} {ids : List GlobalId}
    (h : m.localizeGroup owner ids = .ok (n, names)) : m.Derives change n := by
  rcases exists_of_localizeGroup h with ⟨_, rfl⟩ | ⟨f, g, hf, hlocalized, rfl, _⟩
  · exact .refl hrefl n
  · exact (derives_setFunction hrefl hf (hlocalize _ f g hlocalized)).trans htrans
      (derives_foldl_eraseGlobal hrefl htrans _ ids)

theorem derives_localize {owners : List (GlobalId × FunctionId)}
    (h : m.localize owners = .ok (n, names)) : m.Derives change n := by
  refine foldlM_induction (fun state => m.Derives change state.1) ?_ (.refl hrefl m) h
  intro group _ state next hstate hnext
  obtain ⟨_, hlocalized, _⟩ := exists_of_localizeNext hnext
  exact hstate.trans htrans (derives_localizeGroup hrefl htrans hlocalize hlocalized)

end

/-- Control stays in the bodies of a verified module. -/
theorem closed_of_verified (hverified : m.defects = []) : m.Closed := by
  intro id f hf hbody
  have hdefects := (defects_eq_nil_iff.mp hverified).2.2.2.2 id f hf
  exact (wellFormed_of_functionDefects hbody hdefects).closed

namespace KeepsFlow

theorem trans (h : m.KeepsFlow n) (h' : n.KeepsFlow k) : m.KeepsFlow k :=
  Derives.trans @Function.SameFlow.trans h h'

theorem closed (h : m.KeepsFlow n) (hm : m.Closed) : n.Closed := by
  intro id g hg hbody
  obtain ⟨f, hf, hflow⟩ := h id g hg
  exact hflow.closed (hm id f hf (hflow.isDeclaration ▸ hbody))

end KeepsFlow

theorem keepsFlow_mapLive {change : Function → Function}
    (hchange : ∀ f : Function, f.SameFlow (change f))
    (h : n.functions = m.functions.mapLive change) : m.KeepsFlow n :=
  derives_mapLive hchange h

theorem keepsFlow_prune (m : Module) : m.KeepsFlow m.prune :=
  derives_prune Function.SameFlow.refl @Function.SameFlow.trans m

theorem keepsFlow_eraseForced (plan : Plan) (m : Module) : m.KeepsFlow (plan.eraseForced m) :=
  derives_eraseForced Function.SameFlow.refl @Function.SameFlow.trans
    (fun _ _ f => f.sameFlow_mapOperands _) m

theorem keepsFlow_localize {owners : List (GlobalId × FunctionId)}
    (h : m.localize owners = .ok (n, names)) : m.KeepsFlow n :=
  derives_localize Function.SameFlow.refl @Function.SameFlow.trans
    (fun _ _ _ hlocalized => Localized.sameFlow_localizeInto hlocalized) h

/-- What stands at the place of a call. -/
theorem exists_call_of_callSite? (h : Function.callSite? m f b index = some site) :
    ∃ block i target id, f.block? b = some block ∧ block.instructions[index]? = some i ∧
      i.op = .call site.dest site.returnType target site.args ∧
      m.function? id = some site.callee ∧ site.callee.isDeclaration = false := by
  obtain ⟨block, hblock, h⟩ := Option.bind_eq_some_iff.mp h
  obtain ⟨i, hi, h⟩ := Option.bind_eq_some_iff.mp h
  split at h
  next hop =>
    obtain ⟨callee, hcallee, h⟩ := Option.bind_eq_some_iff.mp h
    obtain ⟨id, _, hid⟩ := Option.bind_eq_some_iff.mp hcallee
    split at h
    next => cases h
    next hbody =>
      obtain rfl := Option.some.inj h
      exact ⟨block, i, _, id, hblock, hi, hop, hid, by simpa using hbody⟩
  next => cases h

theorem exists_of_callSite? (h : Function.callSite? m f b index = some site) :
    ∃ id, m.function? id = some site.callee ∧ site.callee.isDeclaration = false := by
  obtain ⟨_, _, _, id, _, _, _, hid, hbody⟩ := exists_call_of_callSite? h
  exact ⟨id, hid, hbody⟩

section

variable {P : Function → Prop}
  (hbody : ∀ {f g : Function} {site : CallSite} {b : BlockId} {index : Nat},
    P f → P site.callee → f.inlineBody site b index = .ok g → P g)

include hbody

/-- What inlining keeps of a body, if it holds of the callee too, stays true of all bodies. -/
theorem bodies_inlineCall {caller : FunctionId} {b : BlockId}
    (hm : ∀ id f, m.function? id = some f → f.isDeclaration = false → P f)
    (h : m.inlineCall caller b index = .ok (some n)) :
    ∀ id f, n.function? id = some f → f.isDeclaration = false → P f := by
  obtain ⟨f, site, inlined, hf, hsite, _, _, hinlined, rfl⟩ := exists_of_inlineCall h
  obtain ⟨callee, hcallee, hcalled⟩ := exists_of_callSite? hsite
  intro id g hg hg'
  rw [function?_setFunction hf] at hg
  split at hg
  next =>
    obtain rfl := Option.some.inj hg
    have hcaller := (Function.isDeclaration_inlineBody hinlined).1
    exact hbody (hm caller f hf hcaller) (hm callee _ hcallee hcalled) hinlined
  next => exact hm id g hg hg'

/-- What inlining one call keeps of bodies is kept by inlining all. -/
theorem bodies_inlineAll {budget : Nat}
    (hm : ∀ id f, m.function? id = some f → f.isDeclaration = false → P f)
    (h : plan.inlineAll budget m = .ok (n, count)) :
    ∀ id f, n.function? id = some f → f.isDeclaration = false → P f :=
  inlineAll_induction
    (P := fun k => ∀ id f, k.function? id = some f → f.isDeclaration = false → P f)
    (bodies_inlineCall hbody) hm h

end

theorem Closed.inlineCall {caller : FunctionId} (hm : m.Closed)
    (h : m.inlineCall caller b index = .ok (some n)) : n.Closed :=
  bodies_inlineCall Function.Closed.inlineBody hm h

/-- Control stays in bodies however many calls are inlined. -/
theorem Closed.inlineAll {budget : Nat} (hm : m.Closed)
    (h : plan.inlineAll budget m = .ok (n, count)) : n.Closed :=
  bodies_inlineAll Function.Closed.inlineBody hm h

end Module

end Monolith
