import Monolith.Proofs.CallGraph.InlinePlan
import Monolith.Proofs.Flattening.Passes
import Monolith.Proofs.Pruning.UsedEntities
import Monolith.Proofs.Verify.VerifiedModule

/-! # What flattening leaves

A module that has been flattened has one body, that of its root, and no globals. What
it had before is accounted for in the report.
-/

namespace Monolith

variable {f : Function} {o callee : Operand} {id : FunctionId}

/-! ## Sweeping -/

theorem Operation.callee?_mapOperands (g : Operand → Operand) (op : Operation) :
    (op.mapOperands g).callee? = op.callee?.map g := by
  cases op <;> rfl

theorem Operation.mem_operands_of_callee? {op : Operation} (h : op.callee? = some callee) :
    callee ∈ op.operands := by
  cases op with
  | call dest ty target args =>
      obtain rfl := Option.some.inj h
      exact List.mem_cons_self
  | _ => cases h

/-- The variables among the results become poison. -/
def Operand.fill (results : List (ValueId × Ty)) : Operand → Operand
  | .const c => .const c
  | .var x => ((results.lookup x).map Operand.poison).getD (.var x)

namespace Function

theorem mem_callees :
    o ∈ f.callees ↔ ∃ block ∈ f.blocks, ∃ i ∈ block.instructions, i.op.callee? = some o := by
  simp only [callees, List.mem_flatMap, List.mem_filterMap]

theorem mem_callees_mapOperands {g : Operand → Operand} (h : o ∈ (f.mapOperands g).callees) :
    ∃ old ∈ f.callees, g old = o := by
  obtain ⟨block, hblock, i, hi, ho⟩ := mem_callees.mp h
  obtain ⟨oldBlock, holdBlock, rfl⟩ := List.mem_map.mp hblock
  obtain ⟨old, hold, rfl⟩ := List.mem_map.mp hi
  rw [Instruction.op_mapOperands, Operation.callee?_mapOperands, Option.map_eq_some_iff] at ho
  obtain ⟨callee, hcallee, rfl⟩ := ho
  exact ⟨callee, mem_callees.mpr ⟨oldBlock, holdBlock, old, hold, hcallee⟩, rfl⟩

theorem containsPoison_dropDeadCalls (h : o ∈ f.dropDeadCalls.callees) :
    o.containsPoison = false := by
  obtain ⟨block, hblock, i, hi, ho⟩ := mem_callees.mp h
  obtain ⟨old, _, rfl⟩ := List.mem_map.mp hblock
  have hkept := (List.mem_filter.mp hi).2
  simpa [Operation.isDeadCall, ho] using hkept

theorem mapOperands_mapOperands (f : Function) (g h : Operand → Operand) :
    (f.mapOperands g).mapOperands h = f.mapOperands (h ∘ g) := by
  simp only [mapOperands, List.map_map]
  congr 1
  exact List.map_congr_left fun block _ => block.mapOperands_mapOperands g h

theorem foldl_replaceVar (f : Function) (results : List (ValueId × Ty)) :
    results.foldl (fun f result => f.replaceVar result.1 (.poison result.2)) f =
      f.mapOperands (Operand.fill results) := by
  induction results generalizing f with
  | nil =>
      have hid : Operand.fill [] = id := by
        funext o
        cases o <;> rfl
      rw [hid, mapOperands, List.map_congr_left fun block _ => Block.mapOperands_id block,
        List.map_id']
      rfl
  | cons result results ih =>
      obtain ⟨d, ty⟩ := result
      rw [List.foldl_cons, ih, replaceVar, mapOperands_mapOperands]
      congr 1
      funext o
      cases o with
      | const c => simp [Operand.fill, Operand.replaceVar]
      | var x =>
          by_cases hx : x = d
          · simp [Operand.fill, Operand.replaceVar, hx, Operand.poison]
          · have hne : (x == d) = false := beq_false_of_ne hx
            simp [Operand.fill, Operand.replaceVar, hx, List.lookup_cons, hne]

theorem sweep_eq (f : Function) : f.sweep = f.dropDeadCalls.mapOperands (.fill f.deadResults) :=
  f.dropDeadCalls.foldl_replaceVar f.deadResults

/-- After sweeping, what is called has poison in it only where it is poison itself. -/
theorem isPoison_of_mem_sweep (h : o ∈ f.sweep.callees) (hpoison : o.containsPoison = true) :
    o.isPoison = true := by
  rw [sweep_eq] at h
  obtain ⟨old, hold, rfl⟩ := mem_callees_mapOperands h
  cases old with
  | const c =>
      rw [Operand.fill, containsPoison_dropDeadCalls hold] at hpoison
      cases hpoison
  | var x =>
      -- a result that becomes poison may be what a later call names
      cases hx : f.deadResults.lookup x with
      | some ty =>
          rw [Operand.fill, hx]
          rfl
      | none =>
          rw [Operand.fill, hx] at hpoison
          cases hpoison

theorem length_sweep (f : Function) : f.sweep.blocks.length = f.blocks.length := by
  rw [sweep_eq, length_mapOperands]
  exact List.length_map _

end Function

namespace Module

theorem sameCensus_sweep (m : Module) : m.SameCensus m.sweep := by
  refine ⟨?_, rfl⟩
  exact kinds_mapLive Function.length_sweep

/-- In a verified module no callee is poison. -/
theorem isPoison_of_callee {m : Module} (hverified : m.defects = []) (hf : m.function? id = some f)
    (ho : o ∈ f.callees) : o.isPoison = false := by
  obtain ⟨block, hblock, i, hi, ho⟩ := Function.mem_callees.mp ho
  obtain ⟨b, hb⟩ := List.getElem?_of_mem hblock
  have hbody := Function.isDeclaration_of_mem hblock
  have hdefects := (defects_eq_nil_iff.mp hverified).2.2.2.2 id f hf
  have hop := operationDefects_eq_nil hbody hdefects hb hi
  cases hcall : i.op with
  | call dest ty callee args =>
      rw [hcall] at ho hop
      obtain rfl := Option.some.inj ho
      rw [operationDefects, callDefects] at hop
      split at hop
      next => cases hop
      next hpoison => simpa using hpoison
  | _ =>
      rw [hcall] at ho
      cases ho

/-- In a verified module every operand refers to what the module holds. -/
theorem resolves_of_operand {m : Module} (hverified : m.defects = []) (hf : m.function? id = some f)
    {c : Constant} (hc : .const c ∈ f.operands) : m.Resolves c := by
  obtain ⟨block, hblock, hc⟩ := List.mem_flatMap.mp hc
  obtain ⟨b, hb⟩ := List.getElem?_of_mem hblock
  have hbody := Function.isDeclaration_of_mem hblock
  have hdefects := (defects_eq_nil_iff.mp hverified).2.2.2.2 id f hf
  exact operands_resolve_of_blockDefects (blockDefects_eq_nil hbody hdefects hb) c hc

/-! ## The result -/

/-- Pruning takes no body away. -/
theorem definitions_prune (m : Module) :
    m.prune.definitions.map Prod.fst = m.definitions.map Prod.fst := by
  rw [definitions_ids, definitions_ids, kinds_prune, Arena.entries_foldl_erase, List.filter_filter]
  refine congrArg (List.map _) (List.filter_congr fun entry hentry => ?_)
  obtain ⟨id, isDeclaration⟩ := entry
  cases isDeclaration with
  | true => rfl
  | false =>
      obtain ⟨f, hf, hbody⟩ := Option.map_eq_some_iff.mp
        ((m.get?_kinds id).symm.trans (Arena.mem_entries.mp hentry))
      have hused : id ∈ m.usedFunctions := mem_usedFunctions.mpr (.inl ⟨f, hf, hbody⟩)
      simp [unusedFunctions, hused]

section

variable {config : Config} {m k n : Module} {graph : CallGraph} {plan : Plan}

/-- With all other bodies gone, only that of the root is left. -/
theorem definitions_of_forced (hplan : Plan.compute config m graph = .ok plan)
    (hroot : m.kinds.get? plan.root = some false)
    (hkinds : k.kinds = plan.forced.foldl Arena.erase m.kinds) :
    k.definitions.map Prod.fst = [plan.root] := by
  refine List.perm_singleton.mp ?_
  refine (List.perm_ext_iff_of_nodup k.definitions_nodup (List.nodup_singleton _)).mpr fun id => ?_
  rw [mem_definitions_ids, hkinds, Arena.get?_foldl_erase, List.mem_singleton]
  constructor
  · intro h
    split at h
    next => cases h
    next hkept =>
      by_contra hne
      exact hkept ((Plan.mem_forced hplan).mpr ⟨h, hne⟩)
  · rintro rfl
    rw [if_neg fun hforced => ((Plan.mem_forced hplan).mp hforced).2 rfl, hroot]

theorem definitions_of_kinds (hstale : m.staleNames = [])
    (hplan : Plan.compute config m graph = .ok plan)
    (hkinds : k.kinds = plan.forced.foldl Arena.erase m.kinds) (hn : n.kinds = k.prune.kinds) :
    n.definitions.map Prod.fst = [plan.root] := by
  rw [definitions_ids, hn, ← definitions_ids, definitions_prune]
  exact definitions_of_forced hplan (Plan.kinds_root hstale hplan) hkinds

/-- The names of what is erased, in the order of the plan. -/
theorem names_forced (hplan : Plan.compute config m graph = .ok plan) :
    (plan.forced.filterMap m.function?).map Function.name =
      (plan.order.filter (· ≠ plan.root)).map m.functionName := by
  rw [List.map_filterMap, ← List.filterMap_eq_map, ← Plan.forced_eq]
  refine List.filterMap_congr fun id hid => ?_
  have hkind := ((Plan.mem_forced hplan).mp hid).1
  rw [get?_kinds] at hkind
  obtain ⟨f, hf, _⟩ := Option.map_eq_some_iff.mp hkind
  simp [functionName, hf]

/-- Each of them is the name of a body other than that of the root. -/
theorem names_forced_perm (hplan : Plan.compute config m graph = .ok plan) :
    ((plan.order.filter (· ≠ plan.root)).map m.functionName).Perm
      ((m.definitions.filter fun entry => entry.1 ≠ plan.root).map fun entry => entry.2.name) := by
  refine (((Plan.compute_eq_ok hplan).2.2.filter _).map _).trans (.of_eq ?_)
  rw [List.filter_map, List.map_map]
  refine List.map_congr_left fun entry hentry => ?_
  have hlive := List.mem_of_mem_filter (List.mem_of_mem_filter hentry)
  have hfound : m.function? entry.1 = some entry.2 := Arena.mem_entries.mp hlive
  simp [functionName, hfound]

theorem names_forced_nodup (hverified : m.defects = [])
    (hplan : Plan.compute config m graph = .ok plan) :
    ((plan.order.filter (· ≠ plan.root)).map m.functionName).Nodup := by
  rw [(names_forced_perm hplan).nodup_iff]
  have hduplicate := (defects_eq_nil_iff.mp hverified).2.1
  have hnames := List.map_eq_nil_iff.mp (List.append_eq_nil_iff.mp hduplicate).1
  refine (repeats_eq_nil_iff.mp hnames).sublist (List.Sublist.map _ ?_)
  exact List.filter_sublist.trans List.filter_sublist

/-- The functions that are there are the bodies and the declarations. -/
theorem liveCount_eq (m : Module) :
    m.functions.liveCount = m.definitions.length +
      (m.functions.entries.filter fun entry => entry.2.isDeclaration).length := by
  rw [Arena.liveCount, List.length_eq_length_filter_add fun entry => !entry.2.isDeclaration]
  simp [definitions]

theorem unusedFunctions_nodup (m : Module) : m.unusedFunctions.Nodup :=
  m.functions.ids_nodup.filter _

theorem unusedGlobals_nodup (m : Module) : m.unusedGlobals.Nodup := m.globals.ids_nodup.filter _

/-- What is not used is all that pruning takes away. -/
theorem liveCount_functions_prune (m : Module) :
    m.prune.functions.liveCount + m.unusedFunctions.length = m.functions.liveCount := by
  have hunused : ∀ id ∈ m.unusedFunctions, id ∈ m.kinds.ids := by
    intro id hid
    rw [ids_kinds]
    exact List.mem_of_mem_filter hid
  have hpruned := Arena.liveCount_foldl_erase m.unusedFunctions_nodup hunused
  rwa [← kinds_prune, liveCount_kinds, liveCount_kinds] at hpruned

theorem liveCount_globals_prune (m : Module) :
    m.prune.globals.liveCount + m.unusedGlobals.length = m.globals.liveCount := by
  have hunused : ∀ id ∈ m.unusedGlobals, id ∈ m.marks.ids := by
    intro id hid
    rw [ids_marks]
    exact List.mem_of_mem_filter hid
  have hpruned := Arena.liveCount_foldl_erase m.unusedGlobals_nodup hunused
  rwa [← marks_prune, liveCount_marks, liveCount_marks] at hpruned

/-- Each function was erased, or pruned, or is the root, or is a declaration. -/
theorem liveCount_of_pruned (hplan : Plan.compute config m graph = .ok plan)
    (hkinds : k.kinds = plan.forced.foldl Arena.erase m.kinds) (hn : n.kinds = k.prune.kinds)
    (hdefinitions : n.definitions.map Prod.fst = [plan.root]) :
    m.functions.liveCount = 1 + plan.forced.length + k.unusedFunctions.length +
      (n.functions.entries.filter fun entry => entry.2.isDeclaration).length := by
  have hforced : ∀ id ∈ plan.forced, id ∈ m.kinds.ids := by
    intro id hid
    rw [Arena.mem_ids, ((Plan.mem_forced hplan).mp hid).1]
    rfl
  have herased := Arena.liveCount_foldl_erase (Plan.forced_nodup hplan) hforced
  rw [← hkinds, liveCount_kinds, liveCount_kinds] at herased
  have hpruned := k.liveCount_functions_prune
  rw [← liveCount_kinds k.prune, ← hn, liveCount_kinds] at hpruned
  have hsplit := n.liveCount_eq
  have hone : n.definitions.length = 1 := by
    rw [← List.length_map (f := Prod.fst), hdefinitions]
    rfl
  omega

theorem liveCount_of_localized (hmarks : k.marks = m.marks) :
    m.globals.liveCount = k.unusedGlobals.length + k.prune.globals.liveCount := by
  have hpruned := k.liveCount_globals_prune
  rw [← liveCount_marks k, hmarks, liveCount_marks] at hpruned
  omega

end

/-- What a module has become when it was flattened as planned, and the report on it. -/
structure FlattenedTo (m : Module) (plan : Plan) (report : Report) (n : Module) : Prop where
  definitions : n.definitions.map Prod.fst = [plan.root]
  globals : n.globals.entries = []
  /-- At any depth, an operand mentions no global, and no function that is gone. -/
  references : ∀ f, n.function? plan.root = some f → ∀ o ∈ f.operands,
    o.globals = [] ∧ ∀ id ∈ o.functions, (n.function? id).isSome = true
  direct_calls : ∀ f, n.function? plan.root = some f → ∀ callee ∈ f.callees,
    ∀ id, callee.function? = some id →
      id = plan.root ∨ ∃ g, n.function? id = some g ∧ g.isDeclaration = true
  no_poison : ∀ id f, n.function? id = some f → ∀ callee ∈ f.callees,
    callee.containsPoison = false
  verified : n.defects = []
  erased : report.functionsErased = (plan.order.filter (· ≠ plan.root)).map m.functionName
  erased_perm : report.functionsErased.Perm
    ((m.definitions.filter fun entry => entry.1 ≠ plan.root).map fun entry => entry.2.name)
  erased_nodup : report.functionsErased.Nodup
  functions_counted : m.functions.liveCount =
    1 + report.functionsErased.length + report.functionsPruned +
      (n.functions.entries.filter fun entry => entry.2.isDeclaration).length
  globals_counted : m.globals.liveCount = report.globalsPruned + report.globalsLocalized.length

section

variable {n : Module} {root : FunctionId} (hverified : n.defects = [])

include hverified

theorem references_of_no_globals (hglobals : n.globals.entries = []) (hf : n.function? id = some f)
    (ho : o ∈ f.operands) :
    o.globals = [] ∧ ∀ id ∈ o.functions, (n.function? id).isSome = true := by
  cases o with
  | var x => exact ⟨rfl, List.forall_mem_nil _⟩
  | const c =>
      obtain ⟨hglobal, hfunction⟩ := resolves_of_operand hverified hf ho
      refine ⟨List.eq_nil_iff_forall_not_mem.mpr fun id hid => ?_, hfunction⟩
      have hlive := Arena.mem_ids.mpr (hglobal id hid)
      rw [Arena.ids, hglobals] at hlive
      cases hlive

theorem direct_calls_of_definitions (hdefinitions : n.definitions.map Prod.fst = [root])
    {caller : FunctionId} (hf : n.function? caller = some f) (hcallee : callee ∈ f.callees)
    (hid : callee.function? = some id) :
    id = root ∨ ∃ g, n.function? id = some g ∧ g.isDeclaration = true := by
  obtain ⟨block, hblock, i, hi, hop⟩ := Function.mem_callees.mp hcallee
  have hoperand : callee ∈ f.operands := by
    refine List.mem_flatMap.mpr ⟨block, hblock, List.mem_append_left _ ?_⟩
    exact List.mem_flatMap.mpr ⟨i, hi, Operation.mem_operands_of_callee? hop⟩
  cases callee with
  | var x => cases hid
  | const c =>
      have hfunction : id ∈ c.functions := by
        cases c with
        | function other =>
            obtain rfl := Option.some.inj hid
            exact List.mem_singleton_self _
        | _ => cases hid
      have hlive := (resolves_of_operand hverified hf hoperand).2 id hfunction
      obtain ⟨g, hg⟩ := Option.isSome_iff_exists.mp hlive
      cases hbody : g.isDeclaration with
      | true => exact .inr ⟨g, hg, hbody⟩
      | false =>
          have hdefined : id ∈ n.definitions.map Prod.fst := by
            rw [mem_definitions_ids, get?_kinds, hg, Option.map_some, hbody]
          rw [hdefinitions] at hdefined
          exact .inl (List.mem_singleton.mp hdefined)

end

/-- After sweeping, a verified module has no callee with poison in it. -/
theorem containsPoison_of_callee {m : Module} (hverified : m.sweep.defects = [])
    (hf : m.sweep.function? id = some f) (hcallee : callee ∈ f.callees) :
    callee.containsPoison = false := by
  have hfound : m.sweep.function? id = (m.function? id).map Function.sweep := Arena.get?_mapLive
  obtain ⟨old, _, rfl⟩ := Option.map_eq_some_iff.mp (hfound.symm.trans hf)
  by_contra hpoison
  have hnone := isPoison_of_callee hverified hf hcallee
  rw [Function.isPoison_of_mem_sweep hcallee (by simpa using hpoison)] at hnone
  cases hnone

theorem flattenedTo_of_flatten {m n : Module} {config : Config} {budget : Nat} {report : Report}
    (h : m.flatten config budget = (.ok report, n)) :
    ∃ plan, config.resolveRoot m = some plan.root ∧
      Plan.compute config m (CallGraph.ofModule m) = .ok plan ∧ m.FlattenedTo plan report n := by
  obtain ⟨hinput, hverified, plan, inlined, count, owners, localized, hplan, hinlined, howners,
    hlocalized, rfl, herased, hfunctions, hglobals, _⟩ := exists_of_flatten h
  have hstale := (defects_eq_nil_iff.mp hinput).1
  have hcensus := sameCensus_inlineAll hinlined
  have hkinds : (plan.eraseForced inlined).kinds = plan.forced.foldl Arena.erase m.kinds := by
    rw [kinds_eraseForced, hcensus.kinds]
  have hmarks : (plan.eraseForced inlined).marks = m.marks := by
    rw [marks_eraseForced, hcensus.marks]
  obtain ⟨hlocal, hnone, hcount⟩ := census_localize_owners howners hlocalized
  have hn : localized.sweep.kinds = (plan.eraseForced inlined).prune.kinds :=
    localized.sameCensus_sweep.kinds.trans hlocal
  have hdefinitions := definitions_of_kinds hstale hplan hkinds hn
  rw [names_forced hplan] at herased
  refine ⟨plan, (Plan.compute_eq_ok hplan).1, hplan, ?_⟩
  constructor
  case definitions => exact hdefinitions
  case globals => exact hnone
  case references => exact fun f hf o ho => references_of_no_globals hverified hnone hf ho
  case direct_calls =>
    exact fun f hf callee hcallee id hid =>
      direct_calls_of_definitions hverified hdefinitions hf hcallee hid
  case no_poison =>
    exact fun id f hf callee hcallee => containsPoison_of_callee hverified hf hcallee
  case verified => exact hverified
  case erased => exact herased
  case erased_perm =>
    rw [herased]
    exact names_forced_perm hplan
  case erased_nodup =>
    rw [herased]
    exact names_forced_nodup hinput hplan
  case functions_counted =>
    rw [herased, List.length_map, ← Plan.forced_eq, hfunctions]
    exact liveCount_of_pruned hplan hkinds hn hdefinitions
  case globals_counted =>
    rw [hglobals, hcount]
    exact liveCount_of_localized hmarks

/-- Adds to a global, and shows it to a function without a body. -/
def bump : Function where
  name := "bump"
  returnType := .int 32
  parameters := [0]
  blocks := [
    { instructions := [
        { op := .load 1 (.int 32) (.const (.global 0)) 4 },
        { op := .binary .add 2 (.int 32) (.var 1) (.var 0) },
        { op := .store (.var 2) (.const (.global 0)) 4 },
        { op := .call none .void (.const (.function 2)) [.var 2] }]
      terminator := .ret (some (.var 2)) }]
  values := [{ ty := .int 32 }, { ty := .int 32 }, { ty := .int 32 }]

def counterMain : Function where
  name := "main"
  returnType := .int 32
  blocks := [
    { instructions := [{ op := .call (some 0) (.int 32) (.const (.function 0)) [.i32 1] }]
      terminator := .ret (some (.var 0)) }]
  values := [{ ty := .int 32 }]

def counter : Module :=
  rebuildNames
    { name := "counter"
      functions := [some bump, some counterMain, some (.declare "show" .void [.int 32] false),
        some (.declare "unused" .void [] false)]
      globals := [
        some { name := "count", valueType := .int 32, initializer := some (.i32 7) },
        some { name := "spare", valueType := .int 32, initializer := some (.i32 0) }] }

theorem compute_counter :
    Plan.compute {} counter (CallGraph.ofModule counter) = .ok { root := 1, order := [0, 1] } :=
  Plan.compute_of_pairwise rfl rfl (by decide) (by decide)

theorem flattenedTo_counter :
    ∃ report n, counter.flatten {} 1 = (.ok report, n) ∧
      report.functionsErased = ["bump"] ∧ report.functionsPruned = 1 ∧
      report.globalsLocalized = ["count"] ∧ report.globalsPruned = 1 ∧
      ∃ plan, Config.resolveRoot {} counter = some plan.root ∧
        Plan.compute {} counter (CallGraph.ofModule counter) = .ok plan ∧
        counter.FlattenedTo plan report n := by
  have hreport : (counter.flatten {} 1).1 = .ok
      { root := "main", callsInlined := 1, functionsErased := ["bump"],
        globalsLocalized := ["count"], functionsPruned := 1, globalsPruned := 1 } := by
    unfold flatten Pass.standard Pass.runAll Pass.inlining
    simp only [compute_counter]
    decide +kernel
  have h : counter.flatten {} 1 = (_, (counter.flatten {} 1).2) := Prod.ext hreport rfl
  exact ⟨_, _, h, rfl, rfl, rfl, rfl, flattenedTo_of_flatten h⟩

end Module

end Monolith
