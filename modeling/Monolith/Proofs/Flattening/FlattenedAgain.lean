import Monolith.Proofs.Flattening.ExtendedFunctions
import Monolith.Proofs.Globals.LastingMentions
import Monolith.Proofs.Pruning.PrunedOwners

/-! # Flattening twice

A flattened module has one body, no globals and no dead calls, so all that a second run can do
is to prune declarations. It finds some where sweeping has removed the last mention of them, and
then a third run finds none.
-/

namespace Monolith

/-! ## The root stays -/

namespace Module

variable {config : Config} {root : FunctionId}

/-- The root is found by names, by the entry and by what is there. -/
theorem resolveRoot_congr {m n : Module} (hnames : n.functionNames = m.functionNames)
    (hentry : n.entry = m.entry)
    (hlive : ∀ id, (n.function? id).isSome = (m.function? id).isSome) :
    config.resolveRoot n = config.resolveRoot m := by
  simp only [Config.resolveRoot, lookupFunction, hnames, hentry, hlive]

theorem isSome_function?_of_kinds {m n : Module} (h : n.kinds = m.kinds) (id : FunctionId) :
    (n.function? id).isSome = (m.function? id).isSome := by
  rw [Bool.eq_iff_iff, ← mem_ids_kinds, ← mem_ids_kinds, h]

theorem resolveRoot_eraseFunction {m : Module} (h : config.resolveRoot m = some root)
    {id : FunctionId} (hne : id ≠ root) :
    config.resolveRoot (m.eraseFunction id) = some root := by
  cases hf : m.function? id with
  | none => rwa [eraseFunction, hf]
  | some f =>
      have hnames : ∀ name, m.lookupFunction name = some root →
          (m.eraseFunction id).lookupFunction name = some root := by
        intro name hname
        rw [eraseFunction, hf]
        refine (NameTable.lookup_remove _ _ _).trans (if_neg ?_) |>.trans hname
        rintro ⟨rfl, hid⟩
        exact hne (Option.some.inj (hid.symm.trans hname))
      have hentry : (m.eraseFunction id).entry = if m.entry = some id then none else m.entry := by
        rw [eraseFunction, hf]
      unfold Config.resolveRoot at h ⊢
      split
      next name hname =>
        rw [hname] at h
        exact hnames name h
      next hnone =>
        rw [hnone] at h
        rw [Option.or_eq_some_iff] at h ⊢
        rw [hentry]
        rcases h with h | ⟨hdead, hmain⟩
        · left
          obtain ⟨hroot, hlive⟩ := Option.filter_eq_some_iff.mp h
          rw [hroot, if_neg (by simpa using Ne.symm hne), Option.filter_eq_some_iff]
          rw [function?_eraseFunction, if_neg hne]
          exact ⟨rfl, hlive⟩
        · refine .inr ⟨?_, hnames _ hmain⟩
          rw [Option.filter_eq_none_iff] at hdead ⊢
          intro entry hmem
          split at hmem
          next => cases hmem
          next =>
            rw [function?_eraseFunction]
            split
            next => exact Bool.false_ne_true
            next => exact hdead entry hmem

theorem resolveRoot_foldl_eraseFunction {m : Module} (h : config.resolveRoot m = some root)
    {ids : List FunctionId} (hids : root ∉ ids) :
    config.resolveRoot (ids.foldl eraseFunction m) = some root := by
  refine List.foldlRecOn (motive := fun n => config.resolveRoot n = some root) ids _ h ?_
  exact fun n hn id hid => resolveRoot_eraseFunction hn fun heq => hids (heq ▸ hid)

theorem resolveRoot_inlineAll {m n : Module} {plan : Plan} {budget count : Nat}
    (h : plan.inlineAll budget m = .ok (n, count)) :
    config.resolveRoot n = config.resolveRoot m := by
  have hnames : n.functionNames = m.functionNames := view_inlineAll (fun _ _ _ => rfl) h
  have hentry : n.entry = m.entry := view_inlineAll (fun _ _ _ => rfl) h
  exact resolveRoot_congr hnames hentry
    (isSome_function?_of_kinds (sameCensus_inlineAll h).kinds)

theorem resolveRoot_eraseForced {m : Module} {plan : Plan} (h : config.resolveRoot m = some root)
    (hroot : root ∉ plan.forced) : config.resolveRoot (plan.eraseForced m) = some root := by
  refine List.foldlRecOn (motive := fun n => config.resolveRoot n = some root) plan.forced _ h ?_
  intro n hn id hid
  refine resolveRoot_eraseFunction ?_ fun heq => hroot (heq ▸ hid)
  rw [← hn]
  exact resolveRoot_congr rfl rfl
    (isSome_function?_of_kinds (sameCensus_replaceFunction n id Plan.placeholder).kinds)

/-- The root is found after pruning if it is used. -/
theorem resolveRoot_prune {m : Module} (h : config.resolveRoot m = some root)
    (hroot : root ∈ m.usedFunctions) : config.resolveRoot m.prune = some root := by
  obtain ⟨hfunctions, hnames, hentry, _⟩ := m.foldl_eraseGlobal m.unusedGlobals
  refine resolveRoot_foldl_eraseFunction ?_ fun hmem => ?_
  · rw [← h]
    exact resolveRoot_congr hnames hentry fun id => by rw [hfunctions]
  · simp [unusedFunctions, hroot] at hmem

end Module

/-! ## Nothing to inline -/

namespace Plan

def Idle (plan : Plan) : Prop := ∀ id, plan.forces id = false

namespace Idle

variable {plan : Plan} (h : plan.Idle)

include h

theorem forced : plan.forced = [] := by
  simp [Plan.forced, h _]

theorem validate (config : Config) (m : Module) (graph : CallGraph) :
    plan.validate config m graph = .ok () := by
  rw [Plan.validate, h.forced]
  rfl

theorem nextCall? (m : Module) (caller : FunctionId) : plan.nextCall? m caller = none := by
  have hcall : ∀ op, plan.forcesCall m op = false := by
    intro op
    simp [forcesCall, h _]
  unfold Plan.nextCall?
  cases m.function? caller with
  | none => rfl
  | some f => simp [hcall]

/-- A plan that has no function inlined inlines nothing. -/
theorem inlineAll (budget : Nat) (m : Module) : plan.inlineAll budget m = .ok (m, 0) := by
  have hinto : ∀ caller budget, plan.inlineInto caller budget m = .ok (m, 0) := by
    intro caller budget
    cases budget with
    | zero => rw [inlineInto, h.nextCall?]
    | succ budget => rw [inlineInto, h.nextCall?]
  have hcalls : plan.inlineCalls budget m = .ok (m, 0) := by
    unfold inlineCalls
    generalize plan.callers m = callers
    induction callers with
    | nil => rfl
    | cons caller callers ih =>
        rw [List.foldlM_cons]
        dsimp only
        rw [hinto]
        exact ih
  rw [Plan.inlineAll, hcalls]
  rfl

end Idle

end Plan

/-! ## Flat modules -/

namespace Function

variable {f : Function}

theorem deadCalls_eq_nil_iff : f.deadCalls = [] ↔
    ∀ block ∈ f.blocks, ∀ i ∈ block.instructions, i.op.isDeadCall = false := by
  simp only [deadCalls, List.flatMap_eq_nil_iff, List.filter_eq_nil_iff, List.forall_mem_map,
    Bool.not_eq_true]

theorem deadCalls_of_no_poison (h : ∀ callee ∈ f.callees, callee.containsPoison = false) :
    f.deadCalls = [] := by
  rw [deadCalls_eq_nil_iff]
  intro block hblock i hi
  unfold Operation.isDeadCall
  cases hcallee : i.op.callee? with
  | none => rfl
  | some callee => exact h callee (mem_callees.mpr ⟨block, hblock, i, hi, hcallee⟩)

theorem dropDeadCalls_of_deadCalls (h : f.deadCalls = []) : f.dropDeadCalls = f := by
  rw [deadCalls_eq_nil_iff] at h
  have hblocks : f.blocks.map (·.mapInstructions (·.filter fun i => !i.op.isDeadCall)) =
      f.blocks := by
    refine (List.map_congr_left fun block hblock => ?_).trans (List.map_id _)
    have hinstructions : (block.instructions.filter fun i => !i.op.isDeadCall) =
        block.instructions := by
      apply List.filter_eq_self.mpr
      intro i hi
      rw [h block hblock i hi, Bool.not_false]
    rw [Block.mapInstructions, hinstructions]
    rfl
  rw [dropDeadCalls, hblocks]

/-- Without dead calls, sweeping changes nothing. -/
theorem sweep_of_deadCalls (h : f.deadCalls = []) : f.sweep = f := by
  rw [sweep, deadResults, dropDeadCalls_of_deadCalls h, h]
  rfl

end Function

theorem Function.mem_mentions_iff {f : Function} {id : FunctionId} :
    id ∈ f.mentions ↔ ∃ c, .const c ∈ f.operands ∧ (Constant.function id).Part c := by
  rw [mentions, List.mem_flatMap]
  constructor
  · rintro ⟨o, ho, hid⟩
    obtain ⟨c, rfl, hpart⟩ := Operand.mem_functions_iff.mp hid
    exact ⟨c, ho, hpart⟩
  · rintro ⟨c, hc, hpart⟩
    exact ⟨.const c, hc, Operand.mem_functions_iff.mpr ⟨c, rfl, hpart⟩⟩

namespace Module

theorem mem_usedFunctions_of_mentions {m : Module} {user id : FunctionId} {f : Function}
    (hf : m.function? user = some f) (h : id ∈ f.mentions) : id ∈ m.usedFunctions := by
  obtain ⟨c, hc, hid⟩ := Function.mem_mentions_iff.mp h
  exact mem_usedFunctions.mpr (.inr (.inl ⟨user, f, c, hf, hc, hid⟩))

theorem deadCallCount_eq_zero_iff {m : Module} :
    m.deadCallCount = 0 ↔ ∀ id f, m.function? id = some f → f.deadCalls = [] := by
  rw [deadCallCount, List.length_eq_zero_iff, List.flatMap_eq_nil_iff]
  exact ⟨fun h id f hf => h (id, f) (Arena.mem_entries.mpr hf),
    fun h entry hentry => h entry.1 entry.2 (Arena.mem_entries.mp hentry)⟩

theorem sweep_of_deadCallCount {m : Module} (h : m.deadCallCount = 0) : m.sweep = m := by
  have hfunctions : m.functions.mapLive Function.sweep = m.functions := by
    apply Arena.mapLive_eq_self
    exact fun id f hf => Function.sweep_of_deadCalls (deadCallCount_eq_zero_iff.mp h id f hf)
  rw [sweep, hfunctions]

/-- The module has one body, no globals, and nothing to sweep. -/
structure Flat (m : Module) (root : FunctionId) : Prop where
  verified : m.defects = []
  definitions : m.definitions.map Prod.fst = [root]
  globals : ∀ id, m.global? id = none
  no_poison : ∀ id f, m.function? id = some f → ∀ callee ∈ f.callees,
    callee.containsPoison = false

namespace Flat

variable {m : Module} {root : FunctionId} (h : m.Flat root)

include h

theorem prune : m.prune.Flat root where
  verified := (wellFormed_of_defects_eq_nil h.verified).prune.defects_eq_nil
  definitions := by rw [definitions_prune, h.definitions]
  globals id := by
    rw [global?_prune, h.globals]
    exact ite_self _
  no_poison id f hf := h.no_poison id f (function?_of_prune hf).1

theorem entries_globals : m.globals.entries = [] := by
  refine List.eq_nil_iff_forall_not_mem.mpr fun entry hentry => ?_
  have hlive : m.global? entry.1 = some entry.2 := Arena.mem_entries.mp hentry
  rw [h.globals] at hlive
  cases hlive

theorem unusedGlobals : m.unusedGlobals = [] := by
  rw [Module.unusedGlobals, Arena.ids, h.entries_globals]
  rfl

/-- Pruning changes nothing if no function is unused. -/
theorem prune_eq_self_iff : m.prune = m ↔ m.unusedFunctions = [] := by
  constructor
  · intro hpruned
    rw [← hpruned]
    exact unusedFunctions_prune
  · intro hnone
    rw [Module.prune, hnone, h.unusedGlobals]
    rfl

/-- What is not used are the declarations that are not mentioned. -/
theorem mem_unusedFunctions {id : FunctionId} : id ∈ m.unusedFunctions ↔
    ∃ f, m.function? id = some f ∧ f.isDeclaration = true ∧
      ∀ user g, m.function? user = some g → id ∉ g.mentions := by
  rw [unusedFunctions, List.mem_filter, Arena.mem_ids]
  constructor
  · rintro ⟨hlive, hnot⟩
    obtain ⟨f, hf⟩ := Option.isSome_iff_exists.mp hlive
    have hunused : id ∉ m.usedFunctions := by simpa using hnot
    refine ⟨f, hf, ?_, fun user g hg hid => hunused (mem_usedFunctions_of_mentions hg hid)⟩
    by_contra hbody
    exact hunused (mem_usedFunctions.mpr (.inl ⟨f, hf, by simpa using hbody⟩))
  · rintro ⟨f, hf, hbody, hunmentioned⟩
    have hunused : id ∉ m.usedFunctions := by
      rw [mem_usedFunctions]
      rintro (⟨g, hg, hdefined⟩ | ⟨user, g, c, hg, hc, hid⟩ | ⟨holder, _, g, c, hg, _⟩)
      · rw [hf] at hg
        rw [← Option.some.inj hg, hbody] at hdefined
        cases hdefined
      · exact hunmentioned user g hg (Function.mem_mentions_iff.mpr ⟨c, hc, hid⟩)
      · rw [h.globals] at hg
        cases hg
    refine ⟨Option.isSome_of_eq_some hf, ?_⟩
    simpa using hunused

theorem deadCallCount : m.deadCallCount = 0 := by
  rw [deadCallCount_eq_zero_iff]
  exact fun id f hf => Function.deadCalls_of_no_poison (h.no_poison id f hf)

theorem sweep : m.sweep = m := sweep_of_deadCallCount h.deadCallCount

/-- Without globals, there is nothing to move. -/
theorem localization {stage : Stage} (hstage : stage.module = m) :
    Pass.localization stage = .ok (stage, false) := by
  have howners : stage.module.owners = .ok [] := by
    rw [hstage, owners, h.entries_globals]
    rfl
  have hlocalize : stage.module.localize [] = .ok (stage.module, []) := rfl
  rw [Pass.localization_outcome]
  simp only [howners, hlocalize, bind, Except.bind, pure, Except.pure, mapError_ok,
    List.append_nil, List.isEmpty_nil, Bool.not_true]

/-- With one body there is nothing to inline. -/
theorem inlining {config : Config} (hroot : config.resolveRoot m = some root) (budget : Nat) :
    ∃ next modified, Pass.inlining config budget { module := m } = .ok (next, modified) ∧
      next.module = m.prune ∧ next.report =
        { root := m.functionName root, functionsPruned := m.unusedFunctions.length } := by
  have hplan : Plan.compute config m (CallGraph.ofModule m) = .ok { root, order := [root] } := by
    obtain ⟨f, hf, hbody⟩ := exists_root_of_definitions h.definitions
    refine Plan.compute_of_pairwise hroot ?_ h.definitions (List.pairwise_singleton _ _)
    rw [hf]
    exact hbody
  have hidle : Plan.Idle { root, order := [root] } := by
    intro id
    by_cases hid : id = root <;> simp [Plan.forces, hid]
  rw [Pass.inlining_outcome]
  simp only [hplan, hidle.validate, hidle.inlineAll, hidle.forced, List.foldlM_nil,
    h.unusedGlobals, bind, Except.bind, pure, Except.pure, Except.mapError]
  refine ⟨_, _, rfl, rfl, ?_⟩
  simp

/-- A flat module is pruned, and nothing else. -/
theorem flatten {config : Config} (hroot : config.resolveRoot m = some root) (budget : Nat) :
    m.flatten config budget =
      (.ok { root := m.functionName root, functionsPruned := m.unusedFunctions.length },
        m.prune) := by
  obtain ⟨next, modified, hinlining, hmodule, hreport⟩ := h.inlining hroot budget
  refine flatten_eq_ok_iff.mpr ⟨h.verified, next, modified, next, false, hinlining,
    h.prune.localization hmodule, ?_, h.prune.verified, ?_⟩
  · rw [hmodule, h.prune.sweep]
  · rw [hmodule, h.prune.deadCallCount, hreport]

end Flat

/-! ## What the first run leaves -/

section

variable {m n : Module} {root : FunctionId} {owners : List (GlobalId × FunctionId)}
  (hheld : m.InitializersHeld) (hdefinitions : m.definitions.map Prod.fst = [root])
  (howners : m.owners = .ok owners)

include hheld hdefinitions howners

theorem owner_eq_root {id : GlobalId} {owner : FunctionId} (h : (id, owner) ∈ owners) :
    owner = root := by
  have huses : m.Uses owner id := by
    rw [← mem_users_iff_uses hheld, users_of_mem_owners howners h]
    exact List.mem_singleton_self owner
  exact eq_root_of_uses hdefinitions huses

/-- What the root or an initializer mentions is mentioned by the root in the end. -/
theorem mem_mentions_of_moved (hmoved : Moved m n (ownerGroups owners)) {f : Function}
    (hf : m.function? root = some f) {id : FunctionId}
    (hid : id ∈ f.mentions ∨ ∃ holder g c, m.global? holder = some g ∧ g.initializer = some c ∧
      id ∈ c.functions) : ∃ g, n.function? root = some g ∧ id ∈ g.mentions := by
  by_cases hroot : root ∈ owners.map Prod.snd
  · obtain ⟨f', g, hf', hg, hlocalized⟩ :=
      hmoved.owners _ (mem_ownerGroups_iff.mpr ⟨hroot, rfl⟩)
    obtain rfl := Option.some.inj (hf.symm.trans hf')
    refine ⟨g, hg, Localized.mem_mentions_localizeInto hlocalized (hid.imp_right ?_)⟩
    intro ⟨holder, global, c, hglobal, hc, hid⟩
    obtain ⟨owner, hmem⟩ := exists_owner howners (Option.isSome_iff_exists.mpr ⟨global, hglobal⟩)
    obtain rfl := owner_eq_root hheld hdefinitions howners hmem
    refine ⟨(holder, global), mem_globalsAt.mpr ⟨List.mem_map.mpr ⟨(holder, owner), ?_, rfl⟩,
      hglobal⟩, c, hc, hid⟩
    exact List.mem_filter.mpr ⟨hmem, decide_eq_true rfl⟩
  · have hnot : root ∉ (ownerGroups owners).map Prod.fst := by
      intro hmem
      obtain ⟨group, hgroup, rfl⟩ := List.mem_map.mp hmem
      exact hroot (mem_ownerGroups hgroup)
    refine ⟨f, (hmoved.others root hnot).trans hf, hid.resolve_right ?_⟩
    intro ⟨holder, global, c, hglobal, _⟩
    obtain ⟨owner, hmem⟩ := exists_owner howners (Option.isSome_iff_exists.mpr ⟨global, hglobal⟩)
    refine hroot (List.mem_map.mpr ⟨(holder, owner), hmem, ?_⟩)
    exact owner_eq_root hheld hdefinitions howners hmem

end

section

variable {config : Config} {m inlined localized : Module} {plan : Plan} {budget count : Nat}
  {owners : List (GlobalId × FunctionId)} {names : List String} (hverified : m.defects = [])
  (hplan : Plan.compute config m (CallGraph.ofModule m) = .ok plan)
  (hinlined : plan.inlineAll budget m = .ok (inlined, count))
  (howners : (plan.eraseForced inlined).prune.owners = .ok owners)
  (hlocalized : (plan.eraseForced inlined).prune.localize owners = .ok (localized, names))

include hverified hinlined

theorem moved_of_passes (howners : (plan.eraseForced inlined).prune.owners = .ok owners)
    (hlocalized : (plan.eraseForced inlined).prune.localize owners = .ok (localized, names)) :
    Moved (plan.eraseForced inlined).prune localized (ownerGroups owners) := by
  refine moved_of_localize (NamesGlobals.prune ?_) howners hlocalized
  apply (wellFormed_of_defects_eq_nil hverified).namesGlobals.of_outline
  · rw [outline?_eraseForced, outline?_inlineAll hinlined]
  · rw [globalNames_eraseForced, globalNames_inlineAll hinlined]

include hplan howners hlocalized

theorem definitions_localized : localized.definitions.map Prod.fst = [plan.root] := by
  obtain ⟨hkinds, _, _⟩ := census_localize_owners howners hlocalized
  rw [definitions_ids, hkinds, ← definitions_ids, definitions_prune,
    definitions_eraseForced hverified hplan hinlined]

theorem resolveRoot_localized : config.resolveRoot localized = some plan.root := by
  have hmoved := moved_of_passes hverified hinlined howners hlocalized
  have hkinds := (census_localize_owners howners hlocalized).1
  have hdefinitions := definitions_eraseForced hverified hplan hinlined
  obtain ⟨f, hf, hbody⟩ := exists_root_of_definitions hdefinitions
  rw [resolveRoot_congr hmoved.functionNames hmoved.entry (isSome_function?_of_kinds hkinds)]
  refine resolveRoot_prune (resolveRoot_eraseForced ?_ ?_)
    (mem_usedFunctions.mpr (.inl ⟨f, hf, hbody⟩))
  · rw [resolveRoot_inlineAll hinlined]
    exact (Plan.compute_eq_ok hplan).1
  · exact fun hforced => ((Plan.mem_forced hplan).mp hforced).2 rfl

/-- Before sweeping, every function that is left is the root or mentioned by it. -/
theorem eq_root_or_mentioned {id : FunctionId} (hid : (localized.function? id).isSome = true) :
    id = plan.root ∨ ∃ f, localized.function? plan.root = some f ∧ id ∈ f.mentions := by
  have hdefinitions := definitions_eraseForced hverified hplan hinlined
  have hheld : (plan.eraseForced inlined).InitializersHeld := by
    refine initializersHeld_of_outline ?_ (initializersHeld_of_verified hverified)
    rw [outline?_eraseForced, outline?_inlineAll hinlined]
  have hmoved := moved_of_passes hverified hinlined howners hlocalized
  have hlasts := @mem_mentions_of_moved _ _ plan.root _ hheld.prune
    (by rw [definitions_prune, hdefinitions]) howners hmoved
  rw [isSome_function?_of_kinds (census_localize_owners howners hlocalized).1] at hid
  obtain ⟨f, hf⟩ := Option.isSome_iff_exists.mp hid
  obtain ⟨body, hroot, hbody⟩ := exists_root_of_definitions hdefinitions
  have hleft := function?_prune_of_isDeclaration hroot hbody
  rcases mem_usedFunctions.mp (function?_of_prune hf).2 with
    ⟨f, hf, hbody⟩ | ⟨user, f, c, hf, hc, hid⟩ | ⟨holder, hholder, g, c, hg, hc, hid⟩
  · exact .inl (eq_root_of_body hdefinitions hf hbody)
  · obtain ⟨block, hblock, _⟩ := List.mem_flatMap.mp hc
    obtain rfl := eq_root_of_body hdefinitions hf (Function.isDeclaration_of_mem hblock)
    obtain rfl := Option.some.inj (hroot.symm.trans hf)
    exact .inr (hlasts hleft (.inl (Function.mem_mentions_iff.mpr ⟨c, hc, hid⟩)))
  · refine .inr (hlasts hleft (.inr ⟨holder, g, c, ?_, hc, Constant.mem_functions_iff.mpr hid⟩))
    rw [global?_prune, if_pos hholder, hg]

end

/-- Flattening gives a flat module with the same root. -/
theorem flat_of_flatten {m n : Module} {config : Config} {budget : Nat} {report : Report}
    (h : m.flatten config budget = (.ok report, n)) :
    ∃ root, config.resolveRoot n = some root ∧ n.functionName root = report.root ∧
      n.Flat root := by
  have hextends := m.extends_flatten config budget
  rw [h] at hextends
  obtain ⟨hverified, hdefects, plan, inlined, count, owners, localized, hplan, hinlined, howners,
    hlocalized, rfl, _, _, _, _, hroot⟩ := exists_of_flatten h
  have hkinds := localized.sameCensus_sweep.kinds
  have hflat : localized.sweep.Flat plan.root := by
    constructor
    case verified => exact hdefects
    case definitions =>
      rw [definitions_ids, hkinds, ← definitions_ids]
      exact definitions_localized hverified hplan hinlined howners hlocalized
    case globals =>
      intro id
      by_contra hlive
      obtain ⟨g, hg⟩ := Option.ne_none_iff_exists'.mp hlive
      have hmem : (id, g) ∈ localized.globals.entries := Arena.mem_entries.mpr hg
      rw [(census_localize_owners howners hlocalized).2.1] at hmem
      cases hmem
    case no_poison =>
      exact fun id f hf callee hcallee => containsPoison_of_callee hdefects hf hcallee
  refine ⟨plan.root, ?_, ?_, hflat⟩
  · rw [← resolveRoot_localized hverified hplan hinlined howners hlocalized]
    exact resolveRoot_congr rfl rfl (isSome_function?_of_kinds hkinds)
  · obtain ⟨f, hf, _⟩ := exists_root_of_definitions hflat.definitions
    rw [functionName_of_extends hextends (by rw [hf]; rfl), hroot]

/-- Unless a call was swept, every declaration that is left is still mentioned. -/
theorem unusedFunctions_of_flatten {m n : Module} {config : Config} {budget : Nat}
    {report : Report} (h : m.flatten config budget = (.ok report, n))
    (hswept : report.deadCallsSwept = 0) : n.unusedFunctions = [] := by
  obtain ⟨hverified, _, plan, inlined, count, owners, localized, hplan, hinlined, howners,
    hlocalized, rfl, _, _, _, hcount, _⟩ := exists_of_flatten h
  rw [sweep_of_deadCallCount (hcount.symm.trans hswept)]
  refine List.filter_eq_nil_iff.mpr fun id hid => ?_
  have hlive : (localized.function? id).isSome = true := Arena.mem_ids.mp hid
  suffices hused : id ∈ localized.usedFunctions by simp [hused]
  rcases eq_root_or_mentioned hverified hplan hinlined howners hlocalized hlive with
    rfl | ⟨f, hf, hmention⟩
  · have hdefinitions := definitions_localized hverified hplan hinlined howners hlocalized
    exact mem_usedFunctions.mpr (.inl (exists_root_of_definitions hdefinitions))
  · exact mem_usedFunctions_of_mentions hf hmention

/-- A second run prunes the declarations that sweeping has left without a mention, and does
nothing else. A third run does nothing. -/
theorem flatten_again {m n : Module} {config : Config} {budget : Nat} {report : Report}
    (h : m.flatten config budget = (.ok report, n)) (again : Nat) :
    n.flatten config again =
        (.ok { root := report.root, functionsPruned := n.unusedFunctions.length }, n.prune) ∧
      (∀ id, id ∈ n.unusedFunctions ↔ ∃ f, n.function? id = some f ∧ f.isDeclaration = true ∧
        ∀ user g, n.function? user = some g → id ∉ g.mentions) ∧
      (n.prune = n ↔ n.unusedFunctions = []) ∧
      (n.unusedFunctions ≠ [] → 0 < report.deadCallsSwept) ∧
      n.prune.flatten config again = (.ok { root := report.root }, n.prune) := by
  obtain ⟨root, hroot, hname, hflat⟩ := flat_of_flatten h
  have hagain := hflat.flatten hroot again
  rw [hname] at hagain
  refine ⟨hagain, fun id => hflat.mem_unusedFunctions, hflat.prune_eq_self_iff, ?_, ?_⟩
  · intro hunused
    by_contra hswept
    exact hunused (unusedFunctions_of_flatten h (Nat.eq_zero_of_not_pos hswept))
  · obtain ⟨f, hf, hbody⟩ := exists_root_of_definitions hflat.definitions
    have hleft := function?_prune_of_isDeclaration hf hbody
    have hused : root ∈ n.usedFunctions := mem_usedFunctions.mpr (.inl ⟨f, hf, hbody⟩)
    rw [hflat.prune.flatten (resolveRoot_prune hroot hused) again, unusedFunctions_prune,
      prune_prune, ← hname, functionName, hleft, functionName, hf]
    rfl

/-- The only call is of a function that is erased, and passes one that stays. -/
def offerMain : Function where
  name := "main"
  returnType := .void
  blocks := [
    { instructions := [
        { op := .call none .void (.const (.cast .bitcast (.function 0) .ptr))
            [.const (.function 2)] }]
      terminator := .ret none }]

def offer : Module :=
  rebuildNames
    { name := "offer"
      functions := [
        some { name := "take", returnType := .void, blocks := [{ terminator := .ret none }] },
        some offerMain, some (.declare "sink" .void [] false)] }

theorem compute_offer :
    Plan.compute {} offer (CallGraph.ofModule offer) = .ok { root := 1, order := [0, 1] } :=
  Plan.compute_of_pairwise rfl rfl (by decide) (by decide)

theorem flatten_offer :
    (offer.flatten {} 0).1 =
        .ok { root := "main", functionsErased := ["take"], deadCallsSwept := 1 } ∧
      (offer.flatten {} 0).2.unusedFunctions = [2] := by
  unfold flatten Pass.standard Pass.runAll Pass.inlining
  simp only [compute_offer]
  decide +kernel

theorem offer_flattened_again : ∃ report n, offer.flatten {} 0 = (.ok report, n) ∧
    n.unusedFunctions = [2] ∧ 0 < report.deadCallsSwept ∧
    n.flatten {} 0 = (.ok { root := "main", functionsPruned := 1 }, n.prune) ∧
    n.prune.flatten {} 0 = (.ok { root := "main" }, n.prune) := by
  obtain ⟨hreport, hunused⟩ := flatten_offer
  have h : offer.flatten {} 0 = (_, (offer.flatten {} 0).2) := Prod.ext hreport rfl
  obtain ⟨hagain, _, _, hswept, hthird⟩ := flatten_again h 0
  rw [hunused] at hagain hswept
  exact ⟨_, _, h, hunused, hswept (List.cons_ne_nil 2 []), hagain, hthird⟩

/-- The second run finds a declaration that the first has left, so the module changes again. -/
theorem offer_pruned_again : ∃ report n, offer.flatten {} 0 = (.ok report, n) ∧
    report.functionsPruned = 0 ∧ (n.function? 2).isSome = true ∧
    ∃ second last, n.flatten {} 0 = (.ok second, last) ∧ second.functionsPruned = 1 ∧
      last.function? 2 = none := by
  obtain ⟨hreport, hunused⟩ := flatten_offer
  have h : offer.flatten {} 0 = (_, (offer.flatten {} 0).2) := Prod.ext hreport rfl
  obtain ⟨root, hroot, _, hflat⟩ := flat_of_flatten h
  have hagain := hflat.flatten hroot 0
  rw [hunused] at hagain
  have hmem : 2 ∈ (offer.flatten {} 0).2.unusedFunctions := by
    rw [hunused]
    exact List.mem_singleton_self 2
  obtain ⟨hlive, hnot⟩ := List.mem_filter.mp hmem
  have hnot : 2 ∉ (offer.flatten {} 0).2.usedFunctions := by simpa using hnot
  refine ⟨_, _, h, rfl, Arena.mem_ids.mp hlive, _, _, hagain, rfl, ?_⟩
  rw [function?_prune, if_neg hnot]

end Module

end Monolith
