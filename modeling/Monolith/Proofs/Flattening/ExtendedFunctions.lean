import Monolith.Proofs.Flattening.FailingPasses
import Monolith.Proofs.Globals.LocalizedBody
import Monolith.Proofs.Verify.ClosedBodies

/-! # What every pass keeps of a function

Passes rewrite the code of a function, but they keep its name and its parameters, and they
record new variables behind the old ones. So it is with what a pass leaves that fails.
-/

namespace Monolith

/-- The second function is a later form of the first: only its code has changed, and there may
be new variables. -/
structure Function.Extends (f g : Function) : Prop where
  name : g.name = f.name
  parameters : g.parameters = f.parameters
  values : f.values <+: g.values

namespace Function

variable {f g : Function} {b : BlockId}

namespace Extends

theorem refl (f : Function) : f.Extends f := ⟨rfl, rfl, List.prefix_rfl⟩

theorem trans {f g k : Function} (h : f.Extends g) (h' : g.Extends k) : f.Extends k :=
  ⟨h'.name.trans h.name, h'.parameters.trans h.parameters, h.values.trans h'.values⟩

end Extends

/-! ## Inlining -/

/-- Changing a block leaves names, parameters and variables. -/
theorem extends_updateBlock {change : Block → Block} (h : f.updateBlock b change = .ok g) :
    f.Extends g := by
  obtain ⟨_, _, h⟩ := bind_eq_ok.mp h
  obtain rfl := Except.ok.inj h
  exact ⟨rfl, rfl, List.prefix_rfl⟩

theorem extends_splitAt {index : Nat} {name : String} (h : f.splitAt b index name = .ok g) :
    f.Extends g := by
  obtain ⟨_, _, h⟩ := bind_eq_ok.mp h
  obtain rfl := Except.ok.inj h
  apply List.foldlRecOn (motive := f.Extends)
  · exact ⟨rfl, rfl, List.prefix_rfl⟩
  · exact fun edited hedited _ _ => ⟨hedited.name, hedited.parameters, hedited.values⟩

theorem extends_hoistAllocas (h : f.hoistAllocas b = .ok g) : f.Extends g := by
  obtain ⟨_, _, h⟩ := bind_eq_ok.mp h
  obtain ⟨_, _, h⟩ := bind_eq_ok.mp h
  obtain rfl := Except.ok.inj h
  exact ⟨rfl, rfl, List.prefix_rfl⟩

theorem extends_bindResult (f : Function) (site : CallSite) (b : BlockId)
    (returned : List (Operand × BlockId)) : f.Extends (f.bindResult site b returned) := by
  unfold bindResult
  split <;> exact ⟨rfl, rfl, List.prefix_rfl⟩

/-- The variables of the callee are recorded behind those of the caller. -/
theorem extends_inlineBody {site : CallSite} {index : Nat}
    (h : f.inlineBody site b index = .ok g) : f.Extends g := by
  obtain ⟨split, hoisted, joined, hsplit, hhoisted, hjoined, rfl⟩ := inlineBody_steps h
  have hsplit := extends_splitAt hsplit
  have hcopied : ∀ blocks values,
      split.Extends { split with blocks, values := split.values ++ values } :=
    fun _ values => ⟨rfl, rfl, List.prefix_append _ values⟩
  have hjoined := (extends_hoistAllocas hhoisted).trans (extends_updateBlock hjoined)
  exact ((hsplit.trans (hcopied _ _)).trans hjoined).trans (joined.extends_bindResult site _ _)

/-! ## Sweeping -/

theorem extends_sweep (f : Function) : f.Extends f.sweep := by
  apply List.foldlRecOn (motive := f.Extends)
  · exact ⟨rfl, rfl, List.prefix_rfl⟩
  · exact fun edited hedited _ _ => ⟨hedited.name, hedited.parameters, hedited.values⟩

end Function

/-! ## Moving globals -/

namespace Localized

/-- Writing code records new variables behind those that are there, also where it fails. What is
left then has the variables that `recorded` gives. -/
def Records {σ α : Type} (recorded : σ → List ValueInfo) (x : Expansion σ α) : Prop :=
  ∀ draft, FailsFor (fun e => draft.values <+: recorded e.left) (x draft) ∧
    ∀ result, x draft = .ok result → draft.values <+: result.2.values

namespace Records

variable {σ τ α β : Type} {recorded : σ → List ValueInfo}

/-- It is enough to look at the results where there is always one. -/
theorem of_run {x : Expansion σ α} {run : Draft → α × Draft}
    (hx : ∀ draft, x draft = .ok (run draft))
    (h : ∀ draft, draft.values <+: (run draft).2.values) : Records recorded x := by
  intro draft
  rw [hx]
  refine ⟨.ok _, fun result hresult => ?_⟩
  rw [← Except.ok.inj hresult]
  exact h draft

theorem pure (a : α) : Records recorded (Pure.pure a) :=
  .of_run (fun _ => rfl) fun _ => List.prefix_rfl

theorem get : Records recorded (get : Expansion σ Draft) :=
  .of_run (fun _ => rfl) fun _ => List.prefix_rfl

theorem modify {change : Draft → Draft} (h : ∀ draft, (change draft).values = draft.values) :
    Records recorded (modify change) :=
  .of_run (fun _ => rfl) fun draft => h draft ▸ List.prefix_rfl

/-- Code that is written after other code records variables behind its own. -/
theorem bind {x : Expansion σ α} {k : α → Expansion σ β} (hx : Records recorded x)
    (hk : ∀ a, Records recorded (k a)) : Records recorded (x >>= k) := by
  intro draft
  obtain ⟨hfails, hresults⟩ := hx draft
  refine ⟨hfails.bind_of_ok fun middle hmiddle => ?_, fun last h => ?_⟩
  · exact (hk middle.1 middle.2).1.mono fun _ hleft => (hresults middle hmiddle).trans hleft
  · obtain ⟨middle, hmiddle, hlast⟩ := bind_eq_ok.mp h
    exact (hresults middle hmiddle).trans ((hk middle.1 middle.2).2 last hlast)

/-- So do entries, one after the other. -/
theorem mapM {f : α → Expansion σ β} (hf : ∀ a, Records recorded (f a)) (entries : List α) :
    Records recorded (entries.mapM f) := by
  induction entries with
  | nil => exact .pure []
  | cons a entries ih =>
      rw [List.mapM_cons]
      exact (hf a).bind fun b => ih.bind fun rest => .pure (b :: rest)

theorem forM {f : α → Expansion σ PUnit} (hf : ∀ a, Records recorded (f a)) (entries : List α) :
    Records recorded (entries.forM f) := by
  induction entries with
  | nil => exact .pure _
  | cons a entries ih => exact (hf a).bind fun _ => ih

/-- A part that is left is left within the whole. -/
theorem within {whole : σ → τ} {recorded : τ → List ValueInfo} {x : Expansion σ α}
    (h : Records (fun left => recorded (whole left)) x) : Records recorded (x.within whole) := by
  intro draft
  obtain ⟨hfails, hresults⟩ := h draft
  exact ⟨.mapError hfails, fun result hresult => hresults result (mapError_eq_ok.mp hresult)⟩

end Records

variable {scope : Localized}

/-- Computing a constant records variables behind those that are there. -/
theorem values_materialize (c : Constant) (draft : Draft) :
    draft.values <+: (scope.materialize c draft).2.values := by
  apply materialize_induction (P := fun _ _ next => draft.values <+: next.values)
  · exact fun _ _ => List.prefix_rfl
  · exact fun _ _ _ _ _ hnext => hnext.trans (List.prefix_append _ _)
  · exact fun _ _ _ _ _ hnext => hnext.trans (List.prefix_append _ _)

theorem expandOperand_records (scope : Localized) (o : Operand) :
    Records id (scope.expandOperand o) := by
  cases o with
  | var x => exact .pure (Operand.var x)
  | const c =>
      rw [expandOperand]
      split
      next => exact .pure (Operand.const c)
      next id _ =>
        split
        next => exact fun draft => ⟨.error List.prefix_rfl, fun result h => by cases h⟩
        next => exact .of_run (fun _ => rfl) (scope.values_materialize c)

theorem expandIncoming_records (scope : Localized) (entry : Operand × BlockId) :
    Records id (scope.expandIncoming entry) := by
  refine .bind .get fun outer => .bind (.modify fun _ => rfl) fun _ => ?_
  refine (scope.expandOperand_records entry.1).bind fun value => ?_
  exact .bind (.modify fun _ => rfl) fun _ => .pure (value, entry.2)

theorem expandOperation_records (scope : Localized) (op : Operation) :
    Records id (scope.expandOperation op) := by
  cases hphi : op.isPhi with
  | true =>
      cases op with
      | phi dest ty incoming =>
          exact (Records.mapM scope.expandIncoming_records incoming).bind fun _ => .pure _
      | _ => cases hphi
  | false =>
      rw [expandOperation_eq hphi]
      exact (Records.mapM scope.expandOperand_records op.operands).bind fun _ => .pure _

theorem expandBlock_records (scope : Localized) (block : Block) :
    Records Prod.snd (scope.expandBlock block) := by
  have hinstruction : ∀ i, Records id (scope.expandInstruction i) :=
    fun i => (scope.expandOperation_records i.op).bind fun _ => .modify fun _ => rfl
  have hos := Records.mapM scope.expandOperand_records block.terminator.operands
  unfold expandBlock
  rw [Terminator.mapOperandsM_eq]
  refine .bind (.modify fun _ => rfl) fun _ => ?_
  refine .bind (.within (.forM hinstruction block.instructions)) fun _ => ?_
  refine .bind (.within (hos.bind fun _ => .pure _)) fun _ => ?_
  exact .bind .get fun _ => .pure _

theorem expandBlocks_records (scope : Localized) (blocks : List Block) :
    Records Prod.snd (scope.expandBlocks blocks) := by
  induction blocks with
  | nil => exact .pure []
  | cons block rest ih =>
      refine .bind (.within (scope.expandBlock_records block)) fun first => ?_
      exact .bind (.within ih) fun others => .pure (first :: others)

theorem extends_expandFunction {f g : Function} (h : scope.expandFunction f = .ok g) :
    f.Extends g := by
  obtain ⟨blocks, draft, hblocks, h⟩ := exists_of_expandFunction h
  have hvalues := (scope.expandBlocks_records f.blocks _).2 _ (expandBlocks_eq_ok.mpr hblocks)
  have hexpanded : f.Extends { f with blocks, values := draft.values } := ⟨rfl, rfl, hvalues⟩
  refine foldlM_induction f.Extends ?_ hexpanded h
  exact fun edge _ edited next hedited hnext =>
    hedited.trans (Function.extends_updateBlock hnext)

theorem extends_prepared (scope : Localized) (f : Function) : f.Extends (scope.prepared f) := by
  refine ⟨rfl, rfl, ?_⟩
  change f.values <+: scope.preparedValues f.values
  rw [preparedValues, List.append_assoc]
  exact List.prefix_append _ _

/-- Storage for globals only adds variables. -/
theorem extends_localizeInto {f g : Function} (h : scope.localizeInto f = .ok g) :
    f.Extends g := by
  obtain ⟨expanded, hexpanded, rfl⟩ := expandFunction_of_localizeInto h
  have hplaced := (scope.extends_prepared f).trans (extends_expandFunction hexpanded)
  exact ⟨hplaced.name, hplaced.parameters, hplaced.values⟩

/-- What is left of a function that cannot be given storage. -/
theorem localizeInto_leaves (scope : Localized) (f : Function) :
    FailsFor (fun e => f.Extends e.left) (scope.localizeInto f) := by
  rw [localizeInto_eq]
  refine .bind (.leaving fun _ _ => .refl f) fun _ => .bind ?_ fun _ => .ok _
  obtain ⟨hfails, hresults⟩ := scope.expandBlocks_records (scope.prepared f).blocks
    { values := (scope.prepared f).values }
  refine FailsFor.bind_of_ok (.mapError (hfails.mono fun e hvalues => ?_)) fun result hresult => ?_
  · exact (scope.extends_prepared f).trans ⟨rfl, rfl, hvalues⟩
  · have hvalues := hresults result (mapError_eq_ok.mp hresult)
    exact .leaving fun _ _ => (scope.extends_prepared f).trans ⟨rfl, rfl, hvalues⟩

end Localized

/-! ## All passes -/

namespace Module

variable {m n : Module}

/-- Inlining a call only adds variables. -/
theorem extends_inlineCall {caller : FunctionId} {b : BlockId} {index : Nat}
    (h : m.inlineCall caller b index = .ok (some n)) : m.Derives Function.Extends n := by
  obtain ⟨f, site, inlined, hf, _, _, _, hinlined, rfl⟩ := exists_of_inlineCall h
  exact derives_setFunction Function.Extends.refl hf (Function.extends_inlineBody hinlined)

theorem extends_inlineAll {plan : Plan} {budget count : Nat}
    (h : plan.inlineAll budget m = .ok (n, count)) : m.Derives Function.Extends n :=
  inlineAll_induction (fun hk hlast => hk.trans @Function.Extends.trans (extends_inlineCall hlast))
    (.refl Function.Extends.refl m) h

/-- What is left when inlining has come to a call that it cannot inline. -/
theorem inlineCalls_leaves (plan : Plan) (budget : Nat) (m : Module) :
    FailsFor (fun e => m.Derives Function.Extends e.left) (plan.inlineCalls budget m) := by
  refine Plan.inlineCalls_fails (P := m.Derives Function.Extends) (fun _ hn => hn)
    (fun _ _ _ _ hn _ _ => hn) (fun hn hlast => ?_) plan budget (.refl Function.Extends.refl m)
  exact hn.trans @Function.Extends.trans (extends_inlineCall hlast)

theorem extends_replaceFunction (m : Module) (id : FunctionId) :
    m.Derives Function.Extends (m.replaceFunction id Plan.placeholder) := by
  refine derives_mapLive (fun f => ?_) rfl
  exact ⟨rfl, rfl, List.prefix_rfl⟩

/-- What is left after erasing and pruning. -/
theorem extends_prune_eraseForced (plan : Plan) (m : Module) :
    m.Derives Function.Extends (plan.eraseForced m).prune := by
  have htrans : ∀ ⦃f g k : Function⦄, f.Extends g → g.Extends k → f.Extends k :=
    fun _ _ _ => Function.Extends.trans
  have herased : m.Derives Function.Extends (plan.eraseForced m) := by
    apply derives_eraseForced Function.Extends.refl htrans
    exact fun _ _ f => ⟨rfl, rfl, List.prefix_rfl⟩
  exact herased.trans htrans (derives_prune Function.Extends.refl htrans _)

/-- What is left when the text of a function cannot be logged. -/
theorem eraseInlined_leaves (plan : Plan) (level : LogLevel) (m : Module) :
    FailsFor (fun e => m.Derives Function.Extends e.left)
      (plan.forced.foldlM (Plan.eraseInlined level) m) := by
  have herase : ∀ id ∈ plan.forced, ∀ n, m.Derives Function.Extends n → m.Derives Function.Extends
      ((n.replaceFunction id Plan.placeholder).eraseFunction id) := fun id _ n hn =>
    (hn.trans @Function.Extends.trans (n.extends_replaceFunction id)).trans
      @Function.Extends.trans (derives_eraseFunction Function.Extends.refl _ id)
  exact plan.eraseInlined_fails herase (fun id hid n _ hn _ _ _ => herase id hid n hn)
    (.refl Function.Extends.refl m)

theorem extends_localize {owners : List (GlobalId × FunctionId)} {names : List String}
    (h : m.localize owners = .ok (n, names)) : m.Derives Function.Extends n :=
  derives_localize Function.Extends.refl @Function.Extends.trans
    (fun _ _ _ hlocalized => Localized.extends_localizeInto hlocalized) h

/-- Where moving a group fails, what is left extends the module. -/
theorem localizeGroup_leaves (m : Module) (owner : FunctionId) (ids : List GlobalId) :
    FailsFor (fun e => m.Derives Function.Extends e.left) (m.localizeGroup owner ids) := by
  unfold localizeGroup
  split
  next => exact .ok _
  next f hf =>
    refine .bind (.mapError ?_) fun _ => .ok _
    exact (Localized.localizeInto_leaves _ f).mono fun e he =>
      derives_setFunction Function.Extends.refl hf he

/-- What is left when a group of globals cannot be moved. -/
theorem localize_leaves (m : Module) (owners : List (GlobalId × FunctionId)) :
    FailsFor (fun e => m.Derives Function.Extends e.left.1) (m.localize owners) := by
  refine FailsFor.foldlM_of_ok (P := fun state => m.Derives Function.Extends state.1)
    (fun group _ state hstate => ⟨?_, fun next hnext => ?_⟩) (.refl Function.Extends.refl m)
  · refine .bind (.mapError ?_) fun _ => .ok _
    exact (state.1.localizeGroup_leaves group.1 group.2).mono fun e he =>
      hstate.trans @Function.Extends.trans he
  · obtain ⟨_, hlocalized, _⟩ := exists_of_localizeNext hnext
    exact hstate.trans @Function.Extends.trans (derives_localizeGroup Function.Extends.refl
      @Function.Extends.trans (fun _ _ _ => Localized.extends_localizeInto) hlocalized)

theorem extends_sweep (m : Module) : m.Derives Function.Extends m.sweep :=
  derives_mapLive Function.extends_sweep rfl

/-- Functions keep their names. -/
theorem functionName_of_extends {id : FunctionId} (h : m.Derives Function.Extends n)
    (hlive : (n.function? id).isSome = true) : n.functionName id = m.functionName id := by
  obtain ⟨g, hg⟩ := Option.isSome_iff_exists.mp hlive
  obtain ⟨f, hf, hextends⟩ := h id g hg
  rw [functionName, functionName, hf, hg, Option.map_some, Option.map_some, hextends.name]

end Module

namespace Pass

variable {config : Config} {budget : Nat} {stage next : Stage} {modified : Bool}

theorem extends_inlining (h : inlining config budget stage = .ok (next, modified)) :
    stage.module.Derives Function.Extends next.module := by
  obtain ⟨plan, inlined, _, _, hinlined, hnext, _⟩ := exists_of_inlining h
  rw [hnext]
  exact (Module.extends_inlineAll hinlined).trans (fun _ _ _ => Function.Extends.trans)
    (Module.extends_prune_eraseForced plan inlined)

theorem inlining_leaves (config : Config) (budget : Nat) (stage : Stage) :
    FailsFor (fun e => stage.module.Derives Function.Extends e.left.module)
      ((inlining config budget).run stage) := by
  have hrefl := Module.Derives.refl Function.Extends.refl stage.module
  refine .bind (.leaving fun _ _ => hrefl) fun plan => ?_
  refine .bind (.leaving fun _ _ => hrefl) fun _ => ?_
  refine .bind_of_ok (.mapError (Module.inlineCalls_leaves plan budget _)) fun inlined hcalls => ?_
  have hinlined := Module.extends_inlineAll (mapError_eq_ok.mpr (mapError_eq_ok.mp hcalls))
  refine .bind (.mapError ?_) fun _ => .ok _
  exact (Module.eraseInlined_leaves plan config.logLevel inlined.1).mono fun e he =>
    hinlined.trans (fun _ _ _ => Function.Extends.trans) he

theorem extends_localization (h : localization stage = .ok (next, modified)) :
    stage.module.Derives Function.Extends next.module := by
  obtain ⟨_, _, _, hlocalized, _⟩ := exists_of_localization h
  exact Module.extends_localize hlocalized

theorem localization_leaves (stage : Stage) :
    FailsFor (fun e => stage.module.Derives Function.Extends e.left.module)
      (localization.run stage) := by
  refine .bind (.leaving fun _ _ => .refl Function.Extends.refl _) fun owners => ?_
  exact .bind (.mapError (stage.module.localize_leaves owners)) fun _ => .ok _

theorem integrity_leaves (stage : Stage) :
    FailsFor (fun e => e.left = stage) (integrity.run stage) := by
  simp only [integrity]
  split
  next => exact .ok _
  next => exact .leaving fun _ _ => rfl

theorem extends_of_mem_standard {pass : Pass} (hpass : pass ∈ standard config budget)
    (h : pass stage = .ok (next, modified)) :
    stage.module.Derives Function.Extends next.module := by
  simp only [standard, List.mem_cons, List.not_mem_nil, or_false] at hpass
  rcases hpass with rfl | rfl | rfl | rfl
  · exact extends_inlining h
  · exact extends_localization h
  · obtain ⟨rfl, _⟩ := Prod.mk.inj (Except.ok.inj h)
    exact stage.module.extends_sweep
  · obtain ⟨rfl, _⟩ := of_integrity h
    exact .refl Function.Extends.refl _

/-- Where a pass fails, what it leaves extends the module. -/
theorem leaves_of_mem_standard {pass : Pass} (hpass : pass ∈ standard config budget)
    (stage : Stage) : FailsFor (fun e => stage.module.Derives Function.Extends e.left.module)
      (pass.run stage) := by
  simp only [standard, List.mem_cons, List.not_mem_nil, or_false] at hpass
  rcases hpass with rfl | rfl | rfl | rfl
  · exact inlining_leaves config budget stage
  · exact localization_leaves stage
  · exact .ok _
  · refine (integrity_leaves stage).mono fun e he => ?_
    rw [he]
    exact .refl Function.Extends.refl _

/-- What each pass keeps, where it succeeds and where it fails, is kept by a run. -/
theorem derives_runAll {change : Function → Function → Prop} (hrefl : ∀ f, change f f)
    (htrans : ∀ ⦃f g k⦄, change f g → change g k → change f k) {passes : List Pass}
    (hpasses : ∀ pass ∈ passes, ∀ stage next modified, pass stage = .ok (next, modified) →
      stage.module.Derives change next.module)
    (hleaves : ∀ pass ∈ passes, ∀ stage : Stage,
      FailsFor (fun e => stage.module.Derives change e.left.module) (pass.run stage))
    (stage : Stage) : stage.module.Derives change (runAll passes stage).2.module := by
  induction passes generalizing stage with
  | nil => exact .refl hrefl _
  | cons pass passes ih =>
      obtain ⟨hfirst, hpasses⟩ := List.forall_mem_cons.mp hpasses
      obtain ⟨hleft, hleaves⟩ := List.forall_mem_cons.mp hleaves
      unfold runAll
      split
      next aborted hfails => exact hleft stage aborted hfails
      next next modified hnext =>
        exact (hfirst stage next modified (outcome_eq_ok.mpr hnext)).trans htrans
          (ih hpasses hleaves next)

end Pass

/-- Flattening keeps the names and the parameters of functions, and records new variables behind
the old ones, also if it fails. -/
theorem Module.extends_flatten (m : Module) (config : Config) (budget : Nat) :
    m.Derives Function.Extends (m.flatten config budget).2 := by
  unfold flatten
  split
  next => exact .refl Function.Extends.refl m
  next =>
    apply Pass.derives_runAll Function.Extends.refl fun _ _ _ => Function.Extends.trans
    · exact fun pass hpass stage next modified h => Pass.extends_of_mem_standard hpass h
    · exact fun pass hpass stage => Pass.leaves_of_mem_standard hpass stage

end Monolith
