import Monolith.Proofs.Flattening.FlattenedAgain
import Monolith.Proofs.Flattening.SweptCalls

/-! # Stack slots for globals

Each global that is left after pruning becomes a stack slot of the root. The allocas come first in
the entry, one for each global and in the order of their ids, and nothing that is done to the code
afterwards moves or changes them.
-/

namespace Monolith

variable {f g : Function} {globals : List Global} {allocas rest : List Instruction}

/-- What a slot for a global depends on. -/
def Global.storage (g : Global) : String × Ty × UInt64 × UInt32 :=
  (g.name, g.valueType, g.alignment, g.addrSpace)

theorem Global.map_name_of_storage {others : List Global}
    (h : others.map Global.storage = globals.map Global.storage) :
    others.map Global.name = globals.map Global.name := by
  have hnames := congrArg (List.map Prod.fst) h
  rwa [List.map_map, List.map_map] at hnames

/-- The allocas for the globals, into variables that follow one another. -/
def allocasFor (first : ValueId) (globals : List Global) : List Instruction :=
  globals.mapIdx fun k g => { op := .alloca (first + k) g.valueType g.alignment g.addrSpace }

/-- The function begins with a stack slot for each of the globals, in a variable that has the name
of the global. -/
def Function.HasSlots (f : Function) (globals : List Global) : Prop :=
  ∃ before : List ValueInfo, allocasFor before.length globals <+: f.body f.entry ∧
    before ++ (globals.map fun g => { ty := .ptr, name := some g.name }) <+: f.values

theorem allocasFor_eq_storage (first : ValueId) (globals : List Global) :
    allocasFor first globals = (globals.map Global.storage).mapIdx fun k entry =>
      { op := .alloca (first + k) entry.2.1 entry.2.2.1 entry.2.2.2 } :=
  List.ext_getElem? fun k => by simp [allocasFor, Global.storage, Function.comp_def]

/-- Allocas have no operands. -/
theorem mapOperands_allocasFor (change : Operand → Operand) (first : ValueId)
    (globals : List Global) :
    (allocasFor first globals).map (·.mapOperands change) = allocasFor first globals := by
  refine (List.map_congr_left fun i hi => ?_).trans (List.map_id _)
  obtain ⟨_, _, rfl⟩ := List.mem_mapIdx.mp hi
  rfl

namespace Function.HasSlots

theorem congr {others : List Global} (h : f.HasSlots globals)
    (hsame : others.map Global.storage = globals.map Global.storage) : f.HasSlots others := by
  obtain ⟨before, hallocas, hvalues⟩ := h
  rw [allocasFor_eq_storage, ← hsame, ← allocasFor_eq_storage] at hallocas
  have hnames := congrArg (List.map fun name => ({ ty := .ptr, name := some name } : ValueInfo))
    (Global.map_name_of_storage hsame)
  rw [List.map_map, List.map_map] at hnames
  exact ⟨before, hallocas, hnames ▸ hvalues⟩

/-- Sweeping removes calls and changes operands, and an alloca is no call and has none. -/
theorem sweep (h : f.HasSlots globals) : f.sweep.HasSlots globals := by
  obtain ⟨before, hallocas, hvalues⟩ := h
  refine ⟨before, ?_, ?_⟩
  · have hkept : (allocasFor before.length globals).filter (fun i => !i.op.isDeadCall) =
        allocasFor before.length globals := by
      refine List.filter_eq_self.mpr fun i hi => ?_
      obtain ⟨_, _, rfl⟩ := List.mem_mapIdx.mp hi
      rfl
    have hswept := (hallocas.filter fun i => !i.op.isDeadCall).map
      (·.mapOperands (.fill f.deadResults))
    rw [hkept, mapOperands_allocasFor, ← body_sweep] at hswept
    rw [sweep_eq] at hswept ⊢
    exact hswept
  · rw [sweep_eq]
    exact hvalues

end Function.HasSlots

/-! ## Expanding the entry -/

namespace Localized

variable {scope : Localized} {draft draft' : Draft}

theorem code_materialize (c : Constant) (draft : Draft) :
    draft.code <+: (scope.materialize c draft).2.code := by
  apply materialize_induction (P := fun _ _ next => draft.code <+: next.code)
  · exact fun _ _ => List.prefix_rfl
  · exact fun _ _ _ _ _ hnext => hnext.trans (List.prefix_append _ _)
  · exact fun _ _ _ _ _ hnext => hnext.trans (List.prefix_append _ _)

theorem code_expandOperands {os os' : List Operand}
    (h : (os.mapM scope.expandOperand) draft = .ok (os', draft')) :
    draft.code <+: draft'.code := by
  refine rel_of_mapM_run (R := fun s s' => s.code <+: s'.code) h (fun _ => List.prefix_rfl)
    List.IsPrefix.trans fun o s o' s' ho => ?_
  rcases expandOperand_cases ho with ⟨_, rfl⟩ | ⟨c, _, hrun⟩
  · exact List.prefix_rfl
  · have hcode := scope.code_materialize c s
    rwa [hrun] at hcode

/-- What computes operands is written behind the code that there is. -/
theorem code_expandOperation {op op' : Operation}
    (h : scope.expandOperation op draft = .ok (op', draft')) : draft.code <+: draft'.code := by
  rcases exists_of_expandOperation h with ⟨_, _, _, _, _, _, hincoming⟩ | ⟨_, _, _, hos⟩
  · refine rel_of_mapM_run (R := fun s s' => s.code <+: s'.code) hincoming
      (fun _ => List.prefix_rfl) List.IsPrefix.trans fun _ _ _ _ hentry => ?_
    obtain ⟨_, _, _, _, hcode, _⟩ := exists_of_expandIncoming hentry
    rw [hcode]
  · exact code_expandOperands hos

/-- Allocas have no operands, so they are written as they are. -/
theorem expandInstructions_allocas (hallocas : ∀ i ∈ allocas, i.op.isAlloca = true)
    (h : ((allocas ++ rest).forM scope.expandInstruction) draft = .ok ((), draft')) :
    draft.code ++ allocas <+: draft'.code := by
  induction allocas generalizing draft with
  | nil =>
      rw [List.append_nil]
      refine expandInstructions_induction (P := fun next => draft.code <+: next.code) h
        List.prefix_rfl fun i _ first op middle hfirst hop => ?_
      exact (hfirst.trans (code_expandOperation hop)).trans (List.prefix_append _ _)
  | cons i allocas ih =>
      obtain ⟨⟨_, next⟩, hfirst, hrest⟩ := bind_eq_ok.mp h
      obtain ⟨op, middle, hop, rfl⟩ := exists_of_expandInstruction hfirst
      obtain ⟨hi, hallocas⟩ := List.forall_mem_cons.mp hallocas
      have hsame : op = i.op ∧ middle = draft := by
        obtain ⟨operation, comment⟩ := i
        cases operation with
        | alloca =>
            obtain ⟨rfl, rfl⟩ := Prod.mk.inj (Except.ok.inj hop)
            exact ⟨rfl, rfl⟩
        | _ => cases hi
      obtain ⟨rfl, rfl⟩ := hsame
      have hcode := ih hallocas hrest
      rwa [List.append_assoc] at hcode

theorem allocas_eq_allocasFor (scope : Localized) (first : ValueId) :
    scope.allocas first = allocasFor first (scope.globals.map Prod.snd) := by
  rw [allocas_eq]
  exact List.ext_getElem? fun k => by simp [allocasFor, Function.comp_def]

theorem isAlloca_of_mem_allocas {first : ValueId} {i : Instruction}
    (h : i ∈ scope.allocas first) : i.op.isAlloca = true := by
  obtain ⟨_, _, rfl⟩ := List.mem_map.mp h
  rfl

/-- A block that begins with allocas begins with them when it is expanded. -/
theorem allocas_of_expandBlock {block block' : Block}
    (hallocas : ∀ i ∈ allocas, i.op.isAlloca = true) (hblock : block.instructions = allocas ++ rest)
    (h : scope.expandBlock block draft = .ok (block', draft')) :
    allocas <+: block'.instructions := by
  obtain ⟨middle, os, hbody, hos, rfl⟩ := exists_of_expandBlock h
  rw [hblock] at hbody
  exact (expandInstructions_allocas hallocas hbody).trans (code_expandOperands hos)

/-- The entry of the expanded function begins with the allocas too: code for the phis of other
blocks is put at its end. -/
theorem allocas_of_expandFunction (hallocas : ∀ i ∈ allocas, i.op.isAlloca = true)
    (hentry : f.entry < f.blocks.length) (hbody : f.body f.entry = allocas ++ rest)
    (h : scope.expandFunction f = .ok g) : allocas <+: g.body g.entry := by
  obtain ⟨blocks, draft, hblocks, hplaced⟩ := exists_of_expandFunction h
  obtain ⟨rfl, _⟩ := spill_of_foldlM hplaced
  have hold : f.blocks[f.entry]? = some f.blocks[f.entry] := List.getElem?_eq_getElem hentry
  obtain ⟨block, _, _, hblock, hrun⟩ := exists_of_mapM_run hblocks hold
  rw [Function.body, Function.block?, hold] at hbody
  rw [Function.body, Function.block?, Edges.getElem?_spill, hblock]
  exact (allocas_of_expandBlock hallocas hbody hrun).trans (List.prefix_append _ _)

/-- A function that has got storage begins with the slots. -/
theorem hasSlots_localizeInto (h : scope.localizeInto f = .ok g) :
    g.HasSlots (scope.globals.map Prod.snd) := by
  have hentry := entry_lt_of_localizeInto h
  obtain ⟨expanded, hexpanded, rfl⟩ := expandFunction_of_localizeInto h
  have hextends := extends_expandFunction hexpanded
  refine ⟨f.values, ?_, ?_⟩
  · have hfront := f.body_prepend_entry
      (scope.allocas f.values.length ++ scope.stores f.values.length)
      (scope.preparedValues f.values) hentry
    rw [List.append_assoc] at hfront
    rw [← f.length_prepend] at hentry
    have hallocas := allocas_of_expandFunction (fun _ => isAlloca_of_mem_allocas)
      hentry hfront hexpanded
    rw [allocas_eq_allocasFor] at hallocas
    rw [Function.body_mapOperands, ← mapOperands_allocasFor (useSlot _)]
    exact hallocas.map _
  · rw [List.map_map]
    exact (List.prefix_append _ _).trans hextends.values

end Localized

/-! ## The globals that are left -/

namespace Module

/-- The globals of the module that are still there in the other one, by increasing id. -/
def globalsLeftIn (m n : Module) : List Global := (m.globalsAt n.globals.ids).map Prod.snd

/-- If the root owns all globals, they are one group. -/
theorem ownerGroups_of_root {owners : List (GlobalId × FunctionId)} {root : FunctionId}
    (hne : owners ≠ []) (hroot : ∀ entry ∈ owners, entry.2 = root) :
    ownerGroups owners = [(root, owners.map Prod.fst)] := by
  have hfilter : owners.filter (fun entry => entry.2 = root) = owners :=
    List.filter_eq_self.mpr fun entry hentry => decide_eq_true (hroot entry hentry)
  have hdistinct : (owners.map Prod.snd).eraseDups = [root] := by
    cases owners with
    | nil => exact absurd rfl hne
    | cons entry rest =>
        obtain ⟨rfl, hrest⟩ := List.forall_mem_cons.mp hroot
        rw [List.map_cons, List.eraseDups_cons, List.filter_eq_nil_iff.mpr]
        · rfl
        · intro owner howner
          obtain ⟨other, hother, rfl⟩ := List.mem_map.mp howner
          simp [hrest other hother]
  rw [ownerGroups, hdistinct, List.map_singleton, hfilter]

/-- If the root has the only body, all globals become slots of the root. -/
theorem hasSlots_localize {m n : Module} {root : FunctionId} {names : List String}
    {owners : List (GlobalId × FunctionId)} (hheld : m.InitializersHeld)
    (hdefinitions : m.definitions.map Prod.fst = [root]) (howners : m.owners = .ok owners)
    (h : m.localize owners = .ok (n, names)) (hg : n.function? root = some g) :
    names = (m.globalsLeftIn m).map Global.name ∧ g.HasSlots (m.globalsLeftIn m) := by
  obtain ⟨hids, _⟩ := owners_spec howners
  unfold localize at h
  unfold globalsLeftIn
  rw [← hids]
  by_cases hne : owners = []
  · subst hne
    obtain ⟨rfl, rfl⟩ := Prod.mk.inj (Except.ok.inj h)
    exact ⟨rfl, [], List.nil_prefix, List.nil_prefix⟩
  · have hroot : ∀ entry ∈ owners, entry.2 = root := fun entry hentry =>
      owner_eq_root hheld hdefinitions howners hentry
    rw [ownerGroups_of_root hne hroot, List.foldlM_cons] at h
    obtain ⟨last, hlast, h⟩ := bind_eq_ok.mp h
    obtain rfl := Except.ok.inj h
    obtain ⟨more, hmore, hnames⟩ := exists_of_localizeNext hlast
    obtain ⟨f, hf, _⟩ := exists_root_of_definitions hdefinitions
    rcases exists_of_localizeGroup hmore with ⟨hnone, _⟩ | ⟨f', g', hf', hlocalized, rfl, rfl⟩
    · rw [hf] at hnone
      cases hnone
    · have hmoved : some g' = some g := by
        rw [← hg, (foldl_eraseGlobal _ _).1, function?_setFunction hf', if_pos rfl]
      obtain rfl := Option.some.inj hmoved
      refine ⟨?_, Localized.hasSlots_localizeInto hlocalized⟩
      rw [List.map_map]
      exact hnames

/-- A slot needs nothing of a global that the passes before change. -/
theorem storage_globalsLeftIn {m n : Module}
    (h : ∀ id, (n.global? id).isSome = true →
      (m.global? id).map Global.storage = (n.global? id).map Global.storage) :
    (m.globalsLeftIn n).map Global.storage = (n.globalsLeftIn n).map Global.storage := by
  simp only [globalsLeftIn, globalsAt, List.map_filterMap]
  refine List.filterMap_congr fun id hid => ?_
  have hstorage := h id (Arena.mem_ids.mp hid)
  simpa [Option.map_map, Function.comp_def] using hstorage

section

variable {config : Config} {m inlined localized : Module} {plan : Plan} {budget count : Nat}
  {owners : List (GlobalId × FunctionId)} {names : List String}

theorem storage_of_passes (hinlined : plan.inlineAll budget m = .ok (inlined, count)) :
    (m.globalsLeftIn (plan.eraseForced inlined).prune).map Global.storage =
      ((plan.eraseForced inlined).prune.globalsLeftIn (plan.eraseForced inlined).prune).map
        Global.storage := by
  refine storage_globalsLeftIn fun id hlive => ?_
  have hglobals : inlined.global? = m.global? := view_inlineAll (fun _ _ _ => rfl) hinlined
  rw [global?_prune] at hlive ⊢
  split at hlive
  next hused =>
    rw [if_pos hused, map_global?_eraseForced Global.storage (fun _ _ => rfl), hglobals]
  next => cases hlive

/-- The globals that pruning leaves become slots of the root, and their names are given in the
order of the slots. -/
theorem hasSlots_of_passes (hverified : m.defects = [])
    (hplan : Plan.compute config m (CallGraph.ofModule m) = .ok plan)
    (hinlined : plan.inlineAll budget m = .ok (inlined, count))
    (howners : (plan.eraseForced inlined).prune.owners = .ok owners)
    (hlocalized : (plan.eraseForced inlined).prune.localize owners = .ok (localized, names))
    (hg : localized.sweep.function? plan.root = some g) :
    names = (m.globalsLeftIn (plan.eraseForced inlined).prune).map Global.name ∧
      g.HasSlots (m.globalsLeftIn (plan.eraseForced inlined).prune) := by
  have hheld : (plan.eraseForced inlined).InitializersHeld := by
    refine initializersHeld_of_outline ?_ (initializersHeld_of_verified hverified)
    rw [outline?_eraseForced, outline?_inlineAll hinlined]
  have hdefinitions := definitions_eraseForced hverified hplan hinlined
  have hswept : localized.sweep.function? plan.root =
    (localized.function? plan.root).map Function.sweep := Arena.get?_mapLive
  obtain ⟨f, hf, rfl⟩ := Option.map_eq_some_iff.mp (hswept.symm.trans hg)
  obtain ⟨hnames, hslots⟩ := hasSlots_localize hheld.prune
    (by rw [definitions_prune, hdefinitions]) howners hlocalized hf
  have hstorage := storage_of_passes hinlined
  exact ⟨hnames.trans (Global.map_name_of_storage hstorage).symm, hslots.sweep.congr hstorage⟩

end

end Module

end Monolith
