import Monolith.Proofs.CallGraph.InlinePlan
import Monolith.Proofs.Inlining.WaitingCalls

/-! # When forced inlining ends

Calls that become direct only while calls are inlined are not in the call graph. So
inlining need not end, although the plan is valid. It ends exactly if the chains of
calls from the root are bounded, or if one of them comes to a call that cannot be
inlined.
-/

namespace Monolith

variable {bodies : FunctionId → Option Function} {below : List Frame}

namespace Function

variable {f : Function}

theorem mem_calls {op : Operation} :
    op ∈ f.calls ↔ op.isCall = true ∧
      ∃ b block, f.block? b = some block ∧ ∃ i ∈ block.instructions, i.op = op := by
  simp only [calls, blockCalls, callsOf, List.mem_flatten, List.mem_map]
  constructor
  · rintro ⟨_, ⟨block, hblock, rfl⟩, hop⟩
    obtain ⟨hmem, hcall⟩ := List.mem_filter.mp hop
    obtain ⟨b, hb⟩ := List.getElem?_of_mem hblock
    exact ⟨hcall, b, block, hb, List.mem_map.mp hmem⟩
  · rintro ⟨hcall, b, block, hb, hi⟩
    exact ⟨_, ⟨block, List.mem_of_getElem? hb, rfl⟩,
      List.mem_filter.mpr ⟨List.mem_map.mpr hi, hcall⟩⟩

theorem calls_dests_sublist :
    (f.calls.filterMap Operation.dest?).Sublist (f.blocks.flatMap Block.defs) := by
  have hblock : ∀ block : Block,
      ((callsOf block.instructions).filterMap Operation.dest?).Sublist block.defs := by
    intro block
    rw [Block.defs, ← Function.comp_def Operation.dest?, ← List.filterMap_map]
    exact List.filter_sublist.filterMap _
  rw [calls, blockCalls, List.filterMap_flatten, List.map_map, ← List.flatMap_def]
  generalize f.blocks = blocks
  induction blocks with
  | nil => exact .slnil
  | cons block blocks ih =>
      rw [List.flatMap_cons, List.flatMap_cons]
      exact (hblock block).append ih

/-- A well-formed body whose variables are recorded can be copied. -/
theorem WellFormed.tidyBody (h : f.WellFormed)
    (hrecorded : ∀ x ∈ f.defined, x < f.values.length) : f.TidyBody := by
  obtain ⟨hparameters, hdefs, hapart⟩ := List.nodup_append.mp h.nodup
  have hdest : ∀ op ∈ f.calls, ∀ x, op.dest? = some x → x ∈ f.blocks.flatMap Block.defs :=
    fun op hop x hx => calls_dests_sublist.subset (List.mem_filterMap.mpr ⟨op, hop, hx⟩)
  have hreads : ∀ b block o, f.block? b = some block → o ∈ block.operands → f.Records o := by
    rintro b block o hblock ho x rfl
    obtain ⟨b, done, hread⟩ := Module.exists_reads hblock ho
    exact hrecorded x (h.reads_defined b done x hread)
  refine ⟨⟨hdefs.sublist calls_dests_sublist, ?_, ?_⟩, h.entry_lt, hparameters, ?_, ?_⟩
  · exact fun op hop x hx => hrecorded x (List.mem_append_right _ (hdest op hop x hx))
  · intro op hop o ho
    obtain ⟨_, b, block, hblock, i, hi, rfl⟩ := mem_calls.mp hop
    exact hreads b block o hblock (List.mem_append_left _ (List.mem_flatMap.mpr ⟨i, hi, ho⟩))
  · exact fun op hop x hx hparameter => hapart x hparameter x (hdest op hop x hx) rfl
  · intro o ho
    obtain ⟨block, hblock, hresult⟩ := List.mem_filterMap.mp ho
    obtain ⟨b, hb⟩ := List.getElem?_of_mem hblock
    refine hreads b block o hb (List.mem_append_right _ ?_)
    cases hterminator : block.terminator with
    | ret value =>
        rw [hterminator] at hresult
        exact Option.mem_toList.mpr hresult
    | _ =>
        rw [hterminator] at hresult
        cases hresult

end Function

namespace Plan

/-- Inlining comes to an end: a call is rejected, or no function that is kept has a direct
call of one that is inlined. -/
def Ends (plan : Plan) (m : Module) : Prop :=
  ∃ budget, (∃ reason, plan.inlineAll budget m = .error (.rejected reason)) ∨
    ∃ n count, plan.inlineAll budget m = .ok (n, count) ∧
      ∀ id f, n.function? id = some f → plan.forces id = false →
        ∀ op ∈ f.calls, ¬DirectCall (plan.body? n) op

section

variable {config : Config} {graph : CallGraph} {plan : Plan} {m : Module} {f : Function}

theorem forces_eq_false (hplan : compute config m graph = .ok plan) {id : FunctionId}
    (h : plan.forces id = false) (hid : m.kinds.get? id = some false) : id = plan.root := by
  by_contra hne
  have hmem := (mem_forced hplan).mpr ⟨hid, hne⟩
  rw [(List.mem_filter.mp hmem).2] at h
  cases h

/-- Only the calls of the root are looked at. -/
theorem callers_eq (hstale : m.staleNames = []) (hplan : compute config m graph = .ok plan) :
    plan.callers m = [plan.root] := by
  have hroot := Module.mem_definitions_ids.mpr (kinds_root hstale hplan)
  have hother : ∀ id ∈ m.definitions.map Prod.fst, (!plan.forces id) = (id == plan.root) := by
    intro id hid
    by_cases heq : id = plan.root
    · subst heq
      simp [forces]
    · cases hforces : plan.forces id with
      | true => simp [heq]
      | false =>
          exact absurd (forces_eq_false hplan hforces (Module.mem_definitions_ids.mp hid)) heq
  rw [callers, List.filter_congr hother, List.filter_beq,
    List.count_eq_one_of_mem m.definitions_nodup hroot, List.replicate_one]

theorem inlineAll_eq (hstale : m.staleNames = []) (hplan : compute config m graph = .ok plan)
    (budget : Nat) : plan.inlineAll budget m = plan.inlineRoot budget m := by
  rw [inlineAll, inlineCalls, callers_eq hstale hplan, inlineRoot]
  change ((plan.inlineInto plan.root budget m >>= _) >>= _).mapError _ = _
  cases plan.inlineInto plan.root budget m with
  | error failure => rfl
  | ok last =>
      change Except.ok (last.1, 0 + last.2) = Except.ok last
      rw [Nat.zero_add]

/-- The first stage of inlining in a verified module. -/
theorem stage_of_verified (hverified : m.defects = [])
    (hrecorded : ∀ id f, m.function? id = some f → ∀ x ∈ f.defined, x < f.values.length)
    (hplan : compute config m graph = .ok plan) (hroot : m.function? plan.root = some f) :
    plan.Stage (plan.body? m) m f := by
  obtain ⟨hstale, _, _, _, hfunctions⟩ := Module.defects_eq_nil_iff.mp hverified
  have htidy : ∀ id g, m.function? id = some g → g.isDeclaration = false → g.TidyBody :=
    fun id g hg hbody => (Module.wellFormed_of_functionDefects hbody (hfunctions id g hg)).tidyBody
      (hrecorded id g hg)
  have hkind := kinds_root hstale hplan
  rw [Module.get?_kinds, hroot] at hkind
  have hf := htidy _ f hroot (Option.some.inj hkind)
  refine ⟨hroot, rfl, hf.toTidyCalls, hf.entry_lt, fun id g hg => ?_⟩
  obtain ⟨_, hfound, hbody⟩ := body?_eq_some.mp hg
  exact htidy id g hfound hbody

/-- A run that does not use up its budget comes to a rejection or has nothing left to do. -/
theorem Stage.ends_of_halts (hstale : m.staleNames = [])
    (hplan : compute config m graph = .ok plan) (stage : plan.Stage (plan.body? m) m f)
    (h : plan.Halts m) : plan.Ends m := by
  obtain ⟨budget, hbudget⟩ := h
  refine ⟨budget, ?_⟩
  rw [inlineAll_eq hstale hplan]
  have houtcome := stage.outcome budget
  generalize hlast : plan.inlineRoot budget m = last at hbudget houtcome
  cases houtcome with
  | exhausted => exact absurd rfl hbudget
  | rejected _ _ => exact .inl ⟨_, rfl⟩
  | @completed last n count _ hstage hcalls =>
      refine .inr ⟨n, count, rfl, fun id g hg hkept op hop => ?_⟩
      rw [hstage.bodies_eq]
      have hkinds := (Module.sameCensus_inlineInto (mapError_eq_ok.mp hlast)).kinds
      by_cases heq : id = plan.root
      · subst heq
        obtain rfl := Option.some.inj (hstage.root.symm.trans hg)
        exact hcalls op hop
      · -- any other function that is kept is a declaration
        obtain ⟨_, b, block, hblock, _⟩ := Function.mem_calls.mp hop
        have hbody : g.isDeclaration = false := by
          cases hdeclared : g.isDeclaration with
          | false => rfl
          | true =>
              rw [Function.block?, List.isEmpty_iff.mp hdeclared] at hblock
              cases hblock
        have hkind := n.get?_kinds id
        rw [hkinds, hg, Option.map_some, hbody] at hkind
        exact absurd (forces_eq_false hplan hkept hkind) heq

theorem Ends.halts (hstale : m.staleNames = []) (hplan : compute config m graph = .ok plan)
    (h : plan.Ends m) : plan.Halts m := by
  obtain ⟨budget, hend⟩ := h
  refine ⟨budget, fun hlast => ?_⟩
  rw [inlineAll_eq hstale hplan, hlast] at hend
  rcases hend with ⟨_, hrejected⟩ | ⟨_, _, hcompleted, _⟩
  · cases hrejected
  · cases hcompleted

/-- In a verified module, forced inlining ends exactly if the chains of calls from the root
are bounded, or if one of them comes to a call that cannot be inlined. Calls of functions
that are passed or returned along a chain are counted with the direct ones. -/
theorem ends_iff (hverified : m.defects = [])
    (hrecorded : ∀ id f, m.function? id = some f → ∀ x ∈ f.defined, x < f.values.length)
    (hplan : compute config m graph = .ok plan) (hroot : m.function? plan.root = some f) :
    plan.Ends m ↔ (∃ k, ChainsWithin (plan.body? m) k f.alone) ∨
      ∃ k, MisfitAfter (plan.body? m) (k + 1) f.alone := by
  have hstale := (Module.defects_eq_nil_iff.mp hverified).1
  have stage := stage_of_verified hverified hrecorded hplan hroot
  constructor
  · exact fun hends => stage.of_halts (hends.halts hstale hplan)
  · rintro (⟨k, hchains⟩ | ⟨k, hmisfit⟩)
    · obtain ⟨labels, hlabelled⟩ := hchains.exists_labelled
      exact stage.ends_of_halts hstale hplan (stage.halts_of_labelled hlabelled)
    · obtain ⟨bound, within, earlier, hawaits⟩ := hmisfit.exists_awaits
      exact stage.ends_of_halts hstale hplan (stage.halts_of_awaits hawaits)

end

/-! ## A run that ends and one that does not -/

def again : Function where
  name := "again"
  returnType := .void
  parameters := [0]
  blocks := [
    { instructions := [{ op := .call none .void (.var 0) [.var 0] }]
      terminator := .ret none }]
  values := [{ ty := .ptr }]

def ignore : Function where
  name := "ignore"
  returnType := .void
  parameters := [0]
  blocks := [{ terminator := .ret none }]
  values := [{ ty := .ptr }]

def startWith (id : FunctionId) : Function where
  name := "main"
  returnType := .void
  blocks := [
    { instructions := [{ op := .call none .void (.const (.function 0)) [.const (.function id)] }]
      terminator := .ret none }]

/-- The argument of `again` is a function that does nothing. -/
def ending : Module :=
  Module.rebuildNames
    { name := "ending", functions := [some again, some ignore, some (startWith 1)] }

def endingPlan : Plan := { root := 2, order := [0, 1, 2] }

/-- The argument of `again` is `again`. -/
def endless : Module :=
  Module.rebuildNames { name := "again", functions := [some again, some (startWith 0)] }

def endlessPlan : Plan := { root := 1, order := [0, 1] }

theorem compute_ending :
    compute {} ending (CallGraph.ofModule ending) = .ok endingPlan :=
  compute_of_pairwise rfl rfl (by decide) (by decide)

/-- Three functions are entered one after the other, the last one through an argument. -/
theorem chainsWithin_ending (hagain : bodies 0 = some again) (hignore : bodies 1 = some ignore) :
    ChainsWithin bodies 2 (startWith 1).alone := by
  rintro _ ⟨hcall, hcallee, hbody⟩
  cases List.mem_singleton.mp hcall
  cases hcallee
  obtain rfl := Option.some.inj (hagain.symm.trans hbody)
  rintro _ ⟨hcall, hcallee, hbody⟩
  cases List.mem_singleton.mp hcall
  cases hcallee with
  | argument harg hknown =>
      cases List.mem_singleton.mp harg
      cases hknown
      obtain rfl := Option.some.inj (hignore.symm.trans hbody)
      rintro _ ⟨hcall, _⟩
      cases hcall
  | result hcall => cases List.mem_singleton.mp hcall

theorem ending_ends : ending.defects = [] ∧
    compute {} ending (CallGraph.ofModule ending) = .ok endingPlan ∧
    endingPlan.Ends ending := by
  have hverified : ending.defects = [] := by decide +kernel
  have hrecorded : ∀ id f, ending.function? id = some f → ∀ x ∈ f.defined, x < f.values.length := by
    intro id f hf
    have hmem : some f ∈ [some again, some ignore, some (startWith 1)] :=
      List.mem_of_getElem? (Arena.get?_eq_some_iff.mp hf)
    simp only [List.mem_cons, Option.some.injEq, List.not_mem_nil, or_false] at hmem
    rcases hmem with rfl | rfl | rfl <;> decide
  exact ⟨hverified, compute_ending, (ends_iff hverified hrecorded compute_ending rfl).mpr
    (.inl ⟨2, chainsWithin_ending rfl rfl⟩)⟩

theorem compute_endless :
    compute {} endless (CallGraph.ofModule endless) = .ok endlessPlan :=
  compute_of_pairwise rfl rfl (by decide) (by decide)

/-- A function that is passed itself goes on to call itself. -/
theorem not_chainsWithin_again (hagain : bodies 0 = some again) {k : Nat} {args : List Operand}
    (h : Known bodies (⟨again, args⟩ :: below) (.var 0) 0) :
    ¬ChainsWithin bodies k (⟨again, args⟩ :: below) := by
  have hcall : .call none .void (.var 0) [.var 0] ∈ again.calls := List.mem_singleton_self _
  induction k generalizing args below with
  | zero => exact fun hchains => hchains _ (.intro hcall (.intro h hagain))
  | succ k ih =>
      intro hchains
      exact ih (.argument (List.mem_singleton_self _) h)
        (hchains _ (.intro hcall (.intro h hagain)))

/-- Whatever is entered takes one argument and is passed one. -/
theorem fits_of_enters (hbodies : ∀ id g, bodies id = some g → g = again) {frame : Frame}
    {next : List Frame} (hframe : frame.function = again ∨ frame.function = startWith 0)
    (h : Enters bodies (frame :: below) next) :
    ∃ args, next = ⟨again, args⟩ :: frame :: below ∧ Frame.Fits ⟨again, args⟩ := by
  obtain @⟨_, _, _, _, hcall, @⟨dest, ty, callee, args, target, g, _, hbody⟩⟩ := h
  obtain rfl := hbodies target g hbody
  refine ⟨args, rfl, rfl, ?_⟩
  rcases hframe with heq | heq <;> rw [heq] at hcall <;>
    cases List.mem_singleton.mp hcall <;> rfl

theorem not_misfitAfter_again (hbodies : ∀ id g, bodies id = some g → g = again) {k : Nat}
    {frame : Frame} (hframe : frame.function = again ∨ frame.function = startWith 0) :
    ¬MisfitAfter bodies (k + 1) (frame :: below) := by
  rintro ⟨next, henters, hmisfit⟩
  obtain ⟨args, rfl, hfits⟩ := fits_of_enters hbodies hframe henters
  induction k generalizing frame below args with
  | zero => exact hmisfit hfits
  | succ k ih =>
      obtain ⟨next, henters, hmisfit⟩ := hmisfit
      obtain ⟨args, rfl, hfits⟩ := fits_of_enters hbodies (.inl rfl) henters
      refine ih ?_ args hfits henters hmisfit
      exact .inl rfl

/-- The plan is valid, and yet inlining goes on whatever the budget is. -/
theorem endless_never_ends : endless.defects = [] ∧
    compute {} endless (CallGraph.ofModule endless) = .ok endlessPlan ∧
    endlessPlan.validate {} endless (CallGraph.ofModule endless) = .ok () ∧
    (∀ budget, endlessPlan.inlineAll budget endless = .error .budgetExhausted) ∧
    ¬endlessPlan.Ends endless := by
  have hverified : endless.defects = [] := by decide +kernel
  have hstale := (Module.defects_eq_nil_iff.mp hverified).1
  have hrecorded : ∀ id f, endless.function? id = some f →
      ∀ x ∈ f.defined, x < f.values.length := by
    intro id f hf
    have hmem : some f ∈ [some again, some (startWith 0)] :=
      List.mem_of_getElem? (Arena.get?_eq_some_iff.mp hf)
    simp only [List.mem_cons, Option.some.injEq, List.not_mem_nil, or_false] at hmem
    rcases hmem with rfl | rfl <;> decide
  have hbodies : ∀ id g, endlessPlan.body? endless id = some g → g = again := by
    intro id g hg
    obtain ⟨hforces, hfound, _⟩ := body?_eq_some.mp hg
    have hid : id = 0 := by
      simp only [endlessPlan, forces, List.contains_cons, Bool.and_eq_true, Bool.or_eq_true,
        beq_iff_eq] at hforces
      grind
    subst hid
    exact (Option.some.inj hfound).symm
  have hstage := stage_of_verified hverified hrecorded compute_endless rfl
  have hhalts : ¬endlessPlan.Halts endless := by
    intro hhalts
    rcases hstage.of_halts hhalts with ⟨k, hchains⟩ | ⟨k, hmisfit⟩
    · have henters : Enters (endlessPlan.body? endless) (startWith 0).alone
          (⟨again, [.const (.function 0)]⟩ :: (startWith 0).alone) :=
        .intro (List.mem_singleton_self _) (.intro .const rfl)
      obtain ⟨j, _, hchains⟩ := hchains.exists_of_enters henters
      exact not_chainsWithin_again rfl (.argument (List.mem_singleton_self _) .const) hchains
    · exact not_misfitAfter_again hbodies (.inr rfl) hmisfit
  refine ⟨hverified, compute_endless, by decide +kernel, fun budget => ?_,
    fun hends => hhalts (hends.halts hstale compute_endless)⟩
  rw [inlineAll_eq hstale compute_endless]
  by_contra hne
  exact hhalts ⟨budget, hne⟩

end Plan

end Monolith
