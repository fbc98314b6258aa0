import Monolith.Proofs.Code.ReplacedFunctions
import Monolith.Proofs.Flattening.FailingPasses
import Monolith.Proofs.Pruning.PrunedModule

/-! # Owners after pruning

Pruning follows references forwards from the root and from the external globals, and the owner
of a global is found by following them backwards. Once the root is the only function with a
body, both look at the same references, and a global has no owner only where an external one
has kept it.
-/

namespace Monolith

variable {id : GlobalId} {g : Global} {plan : Plan} {budget count : Nat}

/-! ## What globals refer to -/

namespace Constant

mutual

theorem globals_replaceFunction (id : FunctionId) {replacement : Constant}
    (h : replacement.globals = []) : (c : Constant) →
    (replaceFunction id replacement c).globals = c.globals
  | .function other => by
      by_cases heq : other = id
      · rw [replaceFunction, if_pos heq, h]
        rfl
      · rw [replaceFunction, if_neg heq]
  | .aggregate ty elements => globals_replaceFunctionAll id h elements
  | .elementPtr source base indices => globals_replaceFunction id h base
  | .cast op value ty => globals_replaceFunction id h value
  | .int .. | .null | .undef _ | .poison _ | .bytes _ | .global _ => rfl

theorem globals_replaceFunctionAll (id : FunctionId) {replacement : Constant}
    (h : replacement.globals = []) : (elements : List Constant) →
    (nodesAll (replaceFunctionAll id replacement elements)).filterMap global? =
      (nodesAll elements).filterMap global?
  | [] => rfl
  | c :: elements => by
      have hfirst := globals_replaceFunction id h c
      have hrest := globals_replaceFunctionAll id h elements
      rw [globals, globals] at hfirst
      rw [replaceFunctionAll, nodesAll, nodesAll, List.filterMap_append, List.filterMap_append,
        hfirst, hrest]

end

end Constant

/-- What pruning and owners depend on. -/
def Global.outline (g : Global) : String × Linkage × Option (List GlobalId) :=
  (g.name, g.linkage, g.initializer.map Constant.globals)

namespace Module

def outline? (m : Module) (id : GlobalId) : Option (String × Linkage × Option (List GlobalId)) :=
  (m.global? id).map Global.outline

/-- What can be seen of a global without the functions that it mentions stays when functions are
erased. -/
theorem map_global?_eraseForced {α : Type} (view : Global → α)
    (hview : ∀ id g, view { g with
      initializer := g.initializer.map (Constant.replaceFunction id Plan.placeholder) } = view g)
    (plan : Plan) (m : Module) (global : GlobalId) :
    ((plan.eraseForced m).global? global).map view = (m.global? global).map view := by
  refine List.foldlRecOn
    (motive := fun n : Module => (n.global? global).map view = (m.global? global).map view)
    plan.forced _ rfl ?_
  intro n hn id _
  rw [global?_eraseFunction, global?_replaceFunction, Option.map_map, ← hn]
  exact congrArg (Option.map · _) (funext (hview id))

theorem outline?_eraseForced (plan : Plan) (m : Module) :
    (plan.eraseForced m).outline? = m.outline? := by
  funext global
  refine map_global?_eraseForced Global.outline (fun id g => ?_) plan m global
  have hnone : Plan.placeholder.globals = [] := rfl
  simp [Global.outline, Function.comp_def, Constant.globals_replaceFunction id hnone]

theorem outline?_inlineAll {m n : Module} (h : plan.inlineAll budget m = .ok (n, count)) :
    n.outline? = m.outline? :=
  view_inlineAll (fun _ _ _ => rfl) h

section

variable {m n : Module} (h : n.outline? = m.outline?)

include h

theorem exists_of_outline (hg : n.global? id = some g) :
    ∃ g', m.global? id = some g' ∧ g'.name = g.name ∧ g'.linkage = g.linkage ∧
      g'.initializer.map Constant.globals = g.initializer.map Constant.globals := by
  have houtline := congrFun h id
  rw [outline?, outline?, hg] at houtline
  obtain ⟨g', hg', heq⟩ := Option.map_eq_some_iff.mp houtline.symm
  simp only [Global.outline, Prod.mk.injEq] at heq
  exact ⟨g', hg', heq⟩

theorem refers_of_outline {holder : GlobalId} (href : n.Refers holder id) : m.Refers holder id := by
  obtain ⟨g, c, hg, hc, hid⟩ := href
  obtain ⟨g', hg', _, _, hglobals⟩ := exists_of_outline h hg
  rw [hc] at hglobals
  obtain ⟨c', hc', heq⟩ := Option.map_eq_some_iff.mp hglobals
  exact ⟨g', c', hg', hc', Constant.mem_globals_iff.mp (heq ▸ Constant.mem_globals_iff.mpr hid)⟩

theorem exposed_of_outline (hid : n.Exposed id) : m.Exposed id := by
  obtain ⟨ext, g, hg, hlinkage, hleads⟩ := hid
  obtain ⟨g', hg', _, hlinkage', _⟩ := exists_of_outline h hg
  refine ⟨ext, g', hg', hlinkage'.trans hlinkage, ?_⟩
  exact Relation.ReflTransGen.mono (fun _ _ href => refers_of_outline h href) _ _ hleads

/-- What is exposed depends on the outlines only. -/
theorem exposed_iff_of_outline : n.Exposed id ↔ m.Exposed id :=
  ⟨exposed_of_outline h, exposed_of_outline h.symm⟩

theorem external_of_outline (hg : n.global? id = some g) (hlinkage : g.linkage = .external) :
    ∃ g', m.global? id = some g' ∧ g'.linkage = .external := by
  obtain ⟨g', hg', _, hlinkage', _⟩ := exists_of_outline h hg
  exact ⟨g', hg', hlinkage'.trans hlinkage⟩

theorem initializersHeld_of_outline (hheld : m.InitializersHeld) : n.InitializersHeld := by
  intro holder id hholder
  obtain ⟨g, c, hg, hc, hid⟩ := mem_holders.mp hholder
  have href := refers_of_outline h ⟨g, c, hg, hc, Constant.mem_globals_iff.mp hid⟩
  obtain ⟨g', c', hg', hc', hid'⟩ := href
  have hlive := hheld holder id
    (mem_holders.mpr ⟨g', c', hg', hc', Constant.mem_globals_iff.mpr hid'⟩)
  obtain ⟨other, hother⟩ := Option.isSome_iff_exists.mp hlive
  obtain ⟨_, hlive, _⟩ := exists_of_outline h.symm hother
  exact Option.isSome_iff_exists.mpr ⟨_, hlive⟩

end

theorem globalNames_eraseForced (plan : Plan) (m : Module) :
    (plan.eraseForced m).globalNames = m.globalNames := by
  refine List.foldlRecOn (motive := fun n : Module => n.globalNames = m.globalNames) plan.forced _
    rfl ?_
  intro n hn id _
  rw [← hn, eraseFunction]
  split <;> rfl

theorem globalNames_inlineAll {m n : Module} (h : plan.inlineAll budget m = .ok (n, count)) :
    n.globalNames = m.globalNames :=
  view_inlineAll (fun _ _ _ => rfl) h

theorem NamesGlobals.of_outline {m n : Module} (hm : m.NamesGlobals)
    (h : n.outline? = m.outline?) (hnames : n.globalNames = m.globalNames) : n.NamesGlobals where
  names text id hmem := by
    obtain ⟨g, hg, hname⟩ := hm.names text id (hnames ▸ hmem)
    obtain ⟨g', hg', hname', _⟩ := exists_of_outline h.symm hg
    exact ⟨g', hg', hname'.trans hname⟩
  unique id id' g g' hg hg' hname := by
    obtain ⟨first, hfirst, hfirst_name, _⟩ := exists_of_outline h hg
    obtain ⟨other, hother, hother_name, _⟩ := exists_of_outline h hg'
    exact hm.unique id id' first other hfirst hother
      (hfirst_name.trans (hname.trans hother_name.symm))

/-! ## Users after pruning -/

theorem InitializersHeld.prune {m : Module} (hheld : m.InitializersHeld) :
    m.prune.InitializersHeld := by
  intro holder id hholder
  obtain ⟨g, c, hg, hc, hid⟩ := mem_holders.mp hholder
  obtain ⟨hg, hused⟩ := global?_of_prune hg
  have hid' := Constant.mem_globals_iff.mp hid
  rw [global?_prune, if_pos (mem_usedGlobals_of_refers hused ⟨g, c, hg, hc, hid'⟩)]
  exact hheld holder id (mem_holders.mpr ⟨g, c, hg, hc, hid⟩)

section

variable {m : Module} {root : FunctionId} (hheld : m.InitializersHeld)
  (honly : ∀ user id, m.Uses user id → user = root)

include hheld honly

/-- What the root uses, it owns. -/
theorem owner_of_uses (huses : m.Uses root id) (g : Global) : m.owner id g = .ok root := by
  have husers : m.users id = [root] := by
    refine List.perm_singleton.mp ?_
    refine (List.perm_ext_iff_of_nodup (eraseDups_nodup _) (List.nodup_singleton _)).mpr ?_
    intro user
    rw [List.mem_singleton]
    refine (mem_users_iff_uses hheld).trans ⟨honly user id, fun heq => heq ▸ huses⟩
  rw [owner, husers]

/-- What it does not use has no owner. -/
theorem owner_of_unused (hunused : ¬m.Uses root id) (g : Global) :
    m.owner id g = reject (.unownedGlobal g.name) := by
  have husers : m.users id = [] := by
    refine List.eq_nil_iff_forall_not_mem.mpr fun user huser => ?_
    have huses := (mem_users_iff_uses hheld).mp huser
    exact hunused (honly user id huses ▸ huses)
  rw [owner, husers]

end

end Module

namespace Module

section

variable {m : Module} {root : FunctionId} (hheld : m.InitializersHeld)
  (honly : ∀ user id, m.Uses user id → user = root)

include hheld honly

/-- Owners are not found because the root does not use some global. -/
theorem exists_of_owners_eq_error {failure : Failure} (h : m.owners = .error failure) :
    ∃ id g, m.global? id = some g ∧ ¬m.Uses root id ∧
      failure = .rejected (.unownedGlobal g.name) := by
  obtain ⟨⟨id, g⟩, hmem, hfails⟩ := exists_of_mapM_eq_error h
  have howner : m.owner id g = .error failure := by
    rcases bind_eq_error.mp hfails with howner | ⟨_, _, hpure⟩
    · exact howner
    · cases hpure
  have hunused : ¬m.Uses root id := by
    intro huses
    rw [owner_of_uses hheld honly huses g] at howner
    cases howner
  rw [owner_of_unused hheld honly hunused g] at howner
  exact ⟨id, g, Arena.mem_entries.mp hmem, hunused, (Except.error.inj howner).symm⟩

theorem uses_of_owners_eq_ok {owners : List (GlobalId × FunctionId)} (h : m.owners = .ok owners)
    (hg : m.global? id = some g) : m.Uses root id := by
  obtain ⟨owner, hmem⟩ := exists_owner h (Option.isSome_iff_exists.mpr ⟨g, hg⟩)
  have huses : m.Uses owner id := by
    rw [← mem_users_iff_uses hheld, users_of_mem_owners h hmem]
    exact List.mem_singleton_self owner
  exact honly owner id huses ▸ huses

end

theorem eq_root_of_body {m : Module} {root id : FunctionId} {f : Function}
    (hdefinitions : m.definitions.map Prod.fst = [root]) (hf : m.function? id = some f)
    (hbody : f.isDeclaration = false) : id = root := by
  have hmem : id ∈ m.definitions.map Prod.fst :=
    List.mem_map_of_mem (mem_definitions.mpr ⟨hf, hbody⟩)
  rwa [hdefinitions, List.mem_singleton] at hmem

/-- Without the other bodies, only the root uses globals. -/
theorem eq_root_of_uses {m : Module} {root user : FunctionId}
    (hdefinitions : m.definitions.map Prod.fst = [root]) (huses : m.Uses user id) :
    user = root := by
  obtain ⟨f, c, hf, _⟩ := huses.exists_mention
  exact eq_root_of_body hdefinitions hf (huses.isDeclaration hf)

/-- When the forced functions are erased, the root is the only definition. -/
theorem definitions_eraseForced {config : Config} {m inlined : Module} {graph : CallGraph}
    (hverified : m.defects = []) (hplan : Plan.compute config m graph = .ok plan)
    (hinlined : plan.inlineAll budget m = .ok (inlined, count)) :
    (plan.eraseForced inlined).definitions.map Prod.fst = [plan.root] := by
  have hkinds := kinds_eraseForced plan inlined
  rw [(sameCensus_inlineAll hinlined).kinds] at hkinds
  have hstale := (defects_eq_nil_iff.mp hverified).1
  exact definitions_of_forced hplan (Plan.kinds_root hstale hplan) hkinds

section

variable {m : Module} {root : FunctionId} (hdefinitions : m.definitions.map Prod.fst = [root])

include hdefinitions

theorem exists_root_of_definitions :
    ∃ f, m.function? root = some f ∧ f.isDeclaration = false := by
  have hmem : root ∈ m.definitions.map Prod.fst := by
    rw [hdefinitions]
    exact List.mem_singleton_self root
  obtain ⟨⟨_, f⟩, hentry, rfl⟩ := List.mem_map.mp hmem
  exact ⟨f, mem_definitions.mp hentry⟩

/-- A global is left if the root uses it or it is exposed. -/
theorem isSome_prune_iff (hg : m.global? id = some g) :
    (∃ g', m.prune.global? id = some g') ↔ m.prune.Uses root id ∨ m.Exposed id := by
  have hroot : (∃ user, m.Uses user id) ↔ m.prune.Uses root id := by
    rw [uses_prune]
    exact ⟨fun ⟨user, huses⟩ => eq_root_of_uses hdefinitions huses ▸ huses, fun h => ⟨root, h⟩⟩
  rw [global?_prune, ← hroot, ← mem_usedGlobals]
  by_cases hid : id ∈ m.usedGlobals <;> simp [hid, hg]

/-- What is left without being used is left for an external global that is not used either. -/
theorem exists_external_of_unused (hg : m.prune.global? id = some g)
    (hunused : ¬m.prune.Uses root id) :
    ∃ ext g, m.global? ext = some g ∧ g.linkage = .external ∧ ¬m.prune.Uses root ext := by
  have hlive := (isSome_prune_iff hdefinitions (global?_of_prune hg).1).mp ⟨g, hg⟩
  obtain ⟨ext, g', hg', hlinkage, hleads⟩ := hlive.resolve_left hunused
  refine ⟨ext, g', hg', hlinkage, fun huses => hunused ?_⟩
  -- the root would use all that the external global leads to
  rw [uses_prune, uses_iff] at huses ⊢
  obtain ⟨start, hstart, hto⟩ := huses
  exact ⟨start, hstart, hto.trans hleads⟩

end

end Module

namespace Pass

/-- Moving globals fails for the owners, or for a use of a global that is not supported. -/
theorem localization_eq_rejected {stage : Stage} {reason : Rejection}
    (hsupported : ¬reason.IsUnsupported) :
    localization stage = .error (.rejected reason) ↔
      stage.module.owners = .error (.rejected reason) := by
  rw [localization_outcome]
  constructor
  · intro h
    rcases bind_eq_error.mp h with howners | ⟨owners, _, h⟩
    · exact howners
    · rcases bind_eq_error.mp h with hlocalize | ⟨_, _, h⟩
      · exact absurd ((Module.localize_rejects _ _).mapError _ hlocalize) hsupported
      · cases h
  · intro howners
    exact bind_eq_error.mpr (.inl howners)

section

variable {stage : Stage} {root : FunctionId} (hheld : stage.module.InitializersHeld)
  (honly : ∀ user id, stage.module.Uses user id → user = root)

include hheld honly

theorem localization_ne_shared (name : String) (users : List String) :
    localization stage ≠ .error (.rejected (.sharedGlobal name users)) := by
  rw [Ne, localization_eq_rejected (by rintro ⟨_, _, ⟨⟩⟩)]
  intro howners
  obtain ⟨_, _, _, _, heq⟩ := Module.exists_of_owners_eq_error hheld honly howners
  cases heq

theorem exists_of_unowned {name : String}
    (h : localization stage = .error (.rejected (.unownedGlobal name))) :
    ∃ id g, stage.module.global? id = some g ∧ ¬stage.module.Uses root id ∧ g.name = name := by
  rw [localization_eq_rejected (by rintro ⟨_, _, ⟨⟩⟩)] at h
  obtain ⟨id, g, hg, hunused, heq⟩ := Module.exists_of_owners_eq_error hheld honly h
  cases heq
  exact ⟨id, g, hg, hunused, rfl⟩

/-- A global that the root does not use makes localizing fail. -/
theorem exists_unowned (hg : stage.module.global? id = some g)
    (hunused : ¬stage.module.Uses root id) :
    ∃ name, localization stage = .error (.rejected (.unownedGlobal name)) := by
  cases howners : stage.module.owners with
  | ok owners => exact absurd (Module.uses_of_owners_eq_ok hheld honly howners hg) hunused
  | error failure =>
      obtain ⟨_, first, _, _, rfl⟩ := Module.exists_of_owners_eq_error hheld honly howners
      exact ⟨first.name, (localization_eq_rejected (by rintro ⟨_, _, ⟨⟩⟩)).mpr howners⟩

end

/-- After forced inlining, a global that is left is used by the root or exposed by an external
one. No global is shared, and one is without an owner if and only if the root does not use some
external global. What no external global leads to is never found without an owner. -/
theorem owners_agree_with_pruning {config : Config} {budget : Nat} {stage next : Stage}
    {modified : Bool} (hverified : stage.module.defects = [])
    (h : inlining config budget stage = .ok (next, modified)) :
    ∃ root f, config.resolveRoot stage.module = some root ∧
      next.module.function? root = some f ∧
      (∀ id g, stage.module.global? id = some g → ((∃ g', next.module.global? id = some g') ↔
        next.module.Uses root id ∨ stage.module.Exposed id)) ∧
      (∀ name users, localization next ≠ .error (.rejected (.sharedGlobal name users))) ∧
      ((∃ name, localization next = .error (.rejected (.unownedGlobal name))) ↔
        ∃ ext g, stage.module.global? ext = some g ∧ g.linkage = .external ∧
          ¬next.module.Uses root ext) ∧
      ∀ id g, stage.module.global? id = some g → ¬stage.module.Exposed id →
        localization next ≠ .error (.rejected (.unownedGlobal g.name)) := by
  obtain ⟨plan, inlined, count, hplan, hinlined, hnext, _⟩ := exists_of_inlining h
  have hdefinitions := Module.definitions_eraseForced hverified hplan hinlined
  have houtline : (plan.eraseForced inlined).outline? = stage.module.outline? := by
    rw [Module.outline?_eraseForced, Module.outline?_inlineAll hinlined]
  generalize plan.eraseForced inlined = k at hnext hdefinitions houtline
  have hheld : next.module.InitializersHeld := by
    rw [hnext]
    apply Module.InitializersHeld.prune
    exact Module.initializersHeld_of_outline houtline
      (Module.initializersHeld_of_verified hverified)
  have honly : ∀ user id, next.module.Uses user id → user = plan.root := by
    rw [hnext]
    intro user id huses
    exact Module.eq_root_of_uses hdefinitions (Module.uses_prune.mp huses)
  have hlive : ∀ id g, stage.module.global? id = some g →
      ((∃ g', next.module.global? id = some g') ↔
        next.module.Uses plan.root id ∨ stage.module.Exposed id) := by
    intro id g hg
    obtain ⟨g', hg', _⟩ := Module.exists_of_outline houtline.symm hg
    rw [hnext, Module.isSome_prune_iff hdefinitions hg', Module.exposed_iff_of_outline houtline]
  obtain ⟨f, hf, hbody⟩ := Module.exists_root_of_definitions hdefinitions
  refine ⟨plan.root, f, (Plan.compute_eq_ok hplan).1, ?_, hlive,
    localization_ne_shared hheld honly, ⟨?_, ?_⟩, ?_⟩
  · rw [hnext]
    exact Module.function?_prune_of_isDeclaration hf hbody
  · intro ⟨name, hrejected⟩
    obtain ⟨id, g, hg, hunused, _⟩ := exists_of_unowned hheld honly hrejected
    rw [hnext] at hg hunused ⊢
    obtain ⟨ext, g', hg', hlinkage, hunused⟩ :=
      Module.exists_external_of_unused hdefinitions hg hunused
    obtain ⟨first, hfirst, hlinkage⟩ := Module.external_of_outline houtline hg' hlinkage
    exact ⟨ext, first, hfirst, hlinkage, hunused⟩
  · intro ⟨ext, g, hg, hlinkage, hunused⟩
    have hexposed : stage.module.Exposed ext := ⟨ext, g, hg, hlinkage, .refl⟩
    obtain ⟨g', hg'⟩ := (hlive ext g hg).mpr (.inr hexposed)
    exact exists_unowned hheld honly hg' hunused
  · intro id g hg hkept hrejected
    obtain ⟨id', g', hg', hunused, hname⟩ := exists_of_unowned hheld honly hrejected
    -- the global that is reported has the name of this one, so it is this one
    obtain ⟨first, hfirst, hfirst_name⟩ : ∃ first, stage.module.global? id' = some first ∧
        first.name = g'.name := by
      rw [hnext] at hg'
      obtain ⟨first, hfirst, hfirst_name, _⟩ :=
        Module.exists_of_outline houtline (Module.global?_of_prune hg').1
      exact ⟨first, hfirst, hfirst_name⟩
    have hm := Module.wellFormed_of_defects_eq_nil hverified
    obtain rfl := hm.global_name_unique id' id first g hfirst hg (hfirst_name.trans hname)
    exact ((hlive id' g hg).mp ⟨g', hg'⟩).elim hunused hkept

/-- A counter beside an external table that refers to a cell. -/
def exported : Module :=
  Module.rebuildNames
    { name := "exported"
      functions := [some Module.bump, some Module.counterMain,
        some (.declare "show" .void [.int 32] false)]
      globals := [
        some { name := "count", valueType := .int 32, initializer := some (.i32 7) },
        some
          { name := "table", valueType := .ptr, initializer := some (.global 2),
            linkage := .external },
        some { name := "cell", valueType := .int 32, initializer := some (.i32 0) },
        some { name := "spare", valueType := .int 32, initializer := some (.i32 0) }] }

theorem compute_exported :
    Plan.compute {} exported (CallGraph.ofModule exported) = .ok { root := 1, order := [0, 1] } :=
  Plan.compute_of_pairwise rfl rfl (by decide) (by decide)

theorem exported_table_unowned : ∃ next modified, exported.defects = [] ∧
    inlining {} 1 { module := exported } = .ok (next, modified) ∧
    next.module.globals.ids = [0, 1, 2] ∧
    localization next = .error (.rejected (.unownedGlobal "table")) ∧
    ∃ root, Config.resolveRoot {} exported = some root ∧
      ∃ ext g, exported.global? ext = some g ∧ g.linkage = .external ∧
        ¬next.module.Uses root ext := by
  have hverified : exported.defects = [] := by decide +kernel
  have hinlining : ((inlining {} 1 { module := exported }).map fun result =>
      (result.1.module.globals.ids, result.1.module.owners)) =
        .ok ([0, 1, 2], .error (.rejected (.unownedGlobal "table"))) := by
    rw [inlining_outcome]
    simp only [compute_exported]
    decide +kernel
  cases h : inlining {} 1 { module := exported } with
  | error failure =>
      rw [h] at hinlining
      cases hinlining
  | ok result =>
      obtain ⟨next, modified⟩ := result
      rw [h] at hinlining
      obtain ⟨hids, howners⟩ := Prod.mk.inj (Except.ok.inj hinlining)
      have hrejected : localization next = .error (.rejected (.unownedGlobal "table")) := by
        rw [localization_eq_rejected (by rintro ⟨_, _, ⟨⟩⟩)]
        exact howners
      obtain ⟨root, _, hroot, _, _, _, hunowned, _⟩ :=
        @owners_agree_with_pruning {} 1 { module := exported } next modified hverified h
      exact ⟨next, modified, hverified, rfl, hids, hrejected, root, hroot,
        hunowned.mp ⟨"table", hrejected⟩⟩

end Pass

end Monolith
