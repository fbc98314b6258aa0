import Monolith.Proofs.Flattening.Passes
import Monolith.Proofs.Globals.LocalizedEntry
import Monolith.Proofs.Globals.Owners

/-! # Modules without globals

Globals move into their owners group by group. A function is changed only when its own globals
move, and what moves does not depend on what has moved before. So in the end every owner is the
old function with storage for its globals, and a module that was verified still is.
-/

namespace Monolith

variable {id : GlobalId} {names : List String} {m n : Module} {ids : List GlobalId}
  {owner : FunctionId} {f : Function} {owners : List (GlobalId × FunctionId)}

/-- A module admits a body with its operands computed. -/
theorem Expansion.admits_result (ex : Expansion) : ex.module.Admits ex.result where
  form := ex.wellFormed_result
  operands _ hc := (ex.holds_of_operand hc).1
  pointers _ _ hi _ haddress ty hty := by
    rw [Function.operandType?_eq] at hty
    exact Option.some.inj (hty.symm.trans (ex.pointers_result hi haddress))
  calls _ _ hi _ _ _ _ hop := ex.calls_result hi hop

namespace Module

/-! ## Moving group by group -/

/-- The globals at the given ids, as far as they are there. -/
theorem mem_globalsAt {g : Global} :
    (id, g) ∈ m.globalsAt ids ↔ id ∈ ids ∧ m.global? id = some g := by
  simp only [globalsAt, List.mem_filterMap, Option.map_eq_some_iff, Prod.mk.injEq]
  constructor
  · rintro ⟨_, hid, _, hg, rfl, rfl⟩
    exact ⟨hid, hg⟩
  · rintro ⟨hid, hg⟩
    exact ⟨id, hid, g, hg, rfl, rfl⟩

theorem tracks_globalsAt {name : String} :
    Localized.tracks { globals := m.globalsAt ids, function := name } id = true ↔
      id ∈ ids ∧ ∃ g, m.global? id = some g := by
  rw [Localized.tracks, List.any_eq_true]
  constructor
  · rintro ⟨entry, hentry, heq⟩
    obtain rfl := of_decide_eq_true heq
    obtain ⟨hid, hg⟩ := mem_globalsAt.mp hentry
    exact ⟨hid, entry.2, hg⟩
  · rintro ⟨hid, g, hg⟩
    exact ⟨(id, g), mem_globalsAt.mpr ⟨hid, hg⟩, decide_eq_true rfl⟩

/-- The globals of the groups have been moved from the first module into their owners. -/
structure Moved (m n : Module) (groups : List (FunctionId × List GlobalId)) : Prop where
  functionNames : n.functionNames = m.functionNames
  entry : n.entry = m.entry
  names : n.NamesGlobals
  globals : ∀ id, n.global? id = if id ∈ groups.flatMap Prod.snd then none else m.global? id
  others : ∀ id, id ∉ groups.map Prod.fst → n.function? id = m.function? id
  owners : ∀ group ∈ groups, ∃ f g, m.function? group.1 = some f ∧ n.function? group.1 = some g ∧
    Localized.localizeInto { globals := m.globalsAt group.2, function := f.name } f = .ok g

namespace Moved

variable {groups : List (FunctionId × List GlobalId)}

theorem start (hnames : m.NamesGlobals) : Moved m m [] where
  functionNames := rfl
  entry := rfl
  names := hnames
  globals _ := rfl
  others _ _ := rfl
  owners := List.forall_mem_nil _

/-- Neither an owner nor its globals are changed by the groups before. -/
theorem localizeGroup_eq (h : Moved m n groups) (hf : m.function? owner = some f)
    (howner : owner ∉ groups.map Prod.fst) (hids : ∀ id ∈ ids, id ∉ groups.flatMap Prod.snd) :
    n.localizeGroup owner ids = (do
      let g ← (Localized.localizeInto { globals := m.globalsAt ids, function := f.name }
        f).mapError (.map (n.setFunction owner))
      return (ids.foldl eraseGlobal (n.setFunction owner g),
        (m.globalsAt ids).map fun entry => entry.2.name)) := by
  have hsame : n.function? owner = some f := (h.others owner howner).trans hf
  have hglobals : n.globalsAt ids = m.globalsAt ids :=
    List.filterMap_congr fun id hid => by rw [h.globals, if_neg (hids id hid)]
  simp only [localizeGroup, hsame, hglobals]

/-- One more group is moved. -/
theorem step (h : Moved m n groups) (hlive : (m.function? owner).isSome = true)
    (howner : owner ∉ groups.map Prod.fst) (hids : ∀ id ∈ ids, id ∉ groups.flatMap Prod.snd)
    {n' : Module} (hstep : n.localizeGroup owner ids = .ok (n', names)) :
    Moved m n' (groups ++ [(owner, ids)]) := by
  obtain ⟨f, hf⟩ := Option.isSome_iff_exists.mp hlive
  have hsame : n.function? owner = some f := (h.others owner howner).trans hf
  rw [h.localizeGroup_eq hf howner hids] at hstep
  obtain ⟨g, hg, hstep⟩ := bind_eq_ok.mp hstep
  obtain ⟨rfl, _⟩ := Prod.mk.inj (Except.ok.inj hstep)
  rw [mapError_eq_ok] at hg
  obtain ⟨hfunctions, hfunctionNames, hentry, herased⟩ :=
    (n.setFunction owner g).foldl_eraseGlobal ids
  have hset := function?_setFunction hsame g
  have hnames : (n.setFunction owner g).NamesGlobals := ⟨h.names.names, h.names.unique⟩
  constructor
  case functionNames => exact hfunctionNames.trans h.functionNames
  case entry => exact hentry.trans h.entry
  case names => exact hnames.foldl_eraseGlobal ids
  case globals =>
    intro id
    rw [herased]
    change (if id ∈ ids then none else n.global? id) = _
    rw [h.globals]
    have hmem : id ∈ (groups ++ [(owner, ids)]).flatMap Prod.snd ↔
        id ∈ groups.flatMap Prod.snd ∨ id ∈ ids := by
      rw [List.flatMap_append, List.mem_append, List.flatMap_singleton]
    by_cases hid : id ∈ ids
    · rw [if_pos hid, if_pos (hmem.mpr (.inr hid))]
    · simp only [hmem, hid, or_false, if_false]
  case others =>
    intro id hid
    rw [List.map_append, List.mem_append, not_or] at hid
    rw [hfunctions, hset, if_neg (fun heq => hid.2 (by simp [heq]))]
    exact h.others id hid.1
  case owners =>
    intro group hgroup
    rcases List.mem_append.mp hgroup with hold | hgroup
    · obtain ⟨f', g', hf', hg', hlocalized⟩ := h.owners group hold
      have hne : owner ≠ group.1 := fun heq => howner (heq ▸ List.mem_map_of_mem hold)
      refine ⟨f', g', hf', ?_, hlocalized⟩
      rw [hfunctions, hset, if_neg hne]
      exact hg'
    · obtain rfl := List.mem_singleton.mp hgroup
      refine ⟨f, g, hf, ?_, hg⟩
      rw [hfunctions, hset, if_pos rfl]

theorem exists_function (h : Moved m n groups) {id : FunctionId} {g : Function}
    (hg : n.function? id = some g) : ∃ f, m.function? id = some f := by
  by_cases howner : id ∈ groups.map Prod.fst
  · obtain ⟨group, hgroup, rfl⟩ := List.mem_map.mp howner
    obtain ⟨f, _, hf, _⟩ := h.owners group hgroup
    exact ⟨f, hf⟩
  · exact ⟨g, (h.others id howner).symm.trans hg⟩

/-- A group shares neither its owner nor its globals with groups before. -/
theorem fresh {group : FunctionId × List GlobalId} {rest : List (FunctionId × List GlobalId)}
    (howners : ((groups ++ group :: rest).map Prod.fst).Nodup)
    (hids : ((groups ++ group :: rest).flatMap Prod.snd).Nodup) :
    group.1 ∉ groups.map Prod.fst ∧ ∀ id ∈ group.2, id ∉ groups.flatMap Prod.snd := by
  rw [List.map_append] at howners
  rw [List.flatMap_append] at hids
  refine ⟨fun hmem => (List.nodup_append.mp howners).2.2 _ hmem _ List.mem_cons_self rfl,
    fun id hid hmem => ?_⟩
  exact (List.nodup_append.mp hids).2.2 id hmem id (List.mem_append_left _ hid) rfl

/-- All groups are moved, one after the other. -/
theorem run (h : Moved m n groups) {rest : List (FunctionId × List GlobalId)}
    (hlive : ∀ group ∈ rest, (m.function? group.1).isSome = true)
    (howners : ((groups ++ rest).map Prod.fst).Nodup)
    (hids : ((groups ++ rest).flatMap Prod.snd).Nodup) {start : List String} {n' : Module}
    (hrun : rest.foldlM localizeNext (n, start) = .ok (n', names)) :
    Moved m n' (groups ++ rest) := by
  induction rest generalizing n groups start with
  | nil =>
      obtain ⟨rfl, _⟩ := Prod.mk.inj (Except.ok.inj hrun)
      rwa [List.append_nil]
  | cons group rest ih =>
      rw [List.foldlM_cons] at hrun
      obtain ⟨⟨next, total⟩, hnext, hrun⟩ := bind_eq_ok.mp hrun
      obtain ⟨_, hmoved, _⟩ := exists_of_localizeNext hnext
      obtain ⟨howner, hnew⟩ := fresh howners hids
      have hstep := h.step (hlive group List.mem_cons_self) howner hnew hmoved
      rw [List.append_cons] at howners hids ⊢
      exact ih hstep (fun other hother => hlive other (List.mem_cons_of_mem _ hother)) howners hids
        hrun

end Moved

/-- Each owner has one group, of all globals that it owns. -/
theorem mem_ownerGroups_iff : (owner, ids) ∈ ownerGroups owners ↔
      owner ∈ owners.map Prod.snd ∧
        ids = (owners.filter fun entry => entry.2 = owner).map Prod.fst := by
  rw [ownerGroups, List.mem_map]
  constructor
  · rintro ⟨f, hf, heq⟩
    obtain ⟨rfl, rfl⟩ := Prod.mk.inj heq
    exact ⟨List.mem_eraseDups.mp hf, rfl⟩
  · rintro ⟨howner, rfl⟩
    exact ⟨owner, List.mem_eraseDups.mpr howner, rfl⟩

section

variable (howners : m.owners = .ok owners)

theorem nodup_ownerGroups_owners (owners : List (GlobalId × FunctionId)) :
    ((ownerGroups owners).map Prod.fst).Nodup := by
  have hfirst : (ownerGroups owners).map Prod.fst = (owners.map Prod.snd).eraseDups := by
    rw [ownerGroups, List.map_map]
    exact List.map_id _
  rw [hfirst]
  exact eraseDups_nodup _

include howners

theorem isSome_of_mem_ownerGroups :
    ∀ group ∈ ownerGroups owners, (m.function? group.1).isSome = true := by
  intro group hgroup
  obtain ⟨entry, hentry, heq⟩ := List.mem_map.mp (mem_ownerGroups hgroup)
  rw [← heq]
  exact Arena.mem_ids.mp ((owners_spec howners).2 entry hentry)

/-- No global is in two groups. -/
theorem nodup_ownerGroups_globals : ((ownerGroups owners).flatMap Prod.snd).Nodup := by
  have hnodup : (owners.map Prod.fst).Nodup := by
    rw [(owners_spec howners).1]
    exact m.globals.ids_nodup
  exact (ownerGroups_perm hnodup).nodup_iff.mpr hnodup

end

/-- Localizing moves the groups of all owners. -/
theorem moved_of_localize (hnames : m.NamesGlobals) (howners : m.owners = .ok owners)
    (h : m.localize owners = .ok (n, names)) : Moved m n (ownerGroups owners) :=
  (Moved.start hnames).run (isSome_of_mem_ownerGroups howners) (nodup_ownerGroups_owners owners)
    (nodup_ownerGroups_globals howners) h

/-! ## Functions in another module -/

/-- What calls and names need to know of a function. -/
def signature? (m : Module) (id : FunctionId) : Option (String × List ValueId × Bool) :=
  (m.function? id).map fun f => (f.name, f.parameters, f.isVarArg)

theorem exists_of_signature {id : FunctionId} (h : n.signature? id = m.signature? id)
    (hf : m.function? id = some f) :
    ∃ g, n.function? id = some g ∧ g.name = f.name ∧ g.parameters = f.parameters ∧
      g.isVarArg = f.isVarArg := by
  rw [signature?, signature?, hf] at h
  obtain ⟨g, hg, heq⟩ := Option.map_eq_some_iff.mp h
  obtain ⟨hname, heq⟩ := Prod.mk.inj heq
  exact ⟨g, hg, hname, (Prod.mk.inj heq).1, (Prod.mk.inj heq).2⟩

theorem Holds.transfer {c : Constant} (h : m.Holds c)
    (hsignatures : ∀ id, n.signature? id = m.signature? id)
    (hglobals : ∀ id, (Constant.global id).Part c → ∃ g, n.global? id = some g) : n.Holds c where
  globals := hglobals
  functions id hid := by
    obtain ⟨f, hf⟩ := h.functions id hid
    obtain ⟨g, hg, _⟩ := exists_of_signature (hsignatures id) hf
    exact ⟨g, hg⟩

/-- A body is admitted where calls find the same functions, and its globals are there. -/
theorem Admits.transfer {m n : Module} {f : Function} (h : m.Admits f)
    (hsignatures : ∀ id, n.signature? id = m.signature? id)
    (hglobals : ∀ c, .const c ∈ f.operands → ∀ id, (Constant.global id).Part c →
      ∃ g, n.global? id = some g) : n.Admits f where
  form := h.form
  operands c hc := (h.operands c hc).transfer hsignatures (hglobals c hc)
  pointers := h.pointers
  calls b i hi dest ty callee args hop := by
    have hfits := h.calls b i hi dest ty callee args hop
    refine ⟨hfits.not_poison, fun id g hid hg => ?_⟩
    obtain ⟨f, hf, _, hparameters, hvararg⟩ := exists_of_signature (hsignatures id).symm hg
    rw [← hparameters, ← hvararg]
    exact hfits.arity id f hid hf

def confined (m : Module) (ids : List GlobalId) : Module :=
  (m.globals.ids.filter fun id => id ∉ ids).foldl eraseGlobal m

theorem function?_confined (m : Module) (ids : List GlobalId) :
    (m.confined ids).function? = m.function? :=
  (m.foldl_eraseGlobal _).1

theorem global?_confined (m : Module) (ids : List GlobalId) (id : GlobalId) :
    (m.confined ids).global? id = if id ∈ ids then m.global? id else none := by
  rw [confined, (m.foldl_eraseGlobal _).2.2.2]
  by_cases hid : id ∈ ids
  · rw [if_pos hid, if_neg (by simp [hid])]
  · rw [if_neg hid]
    cases hg : m.global? id with
    | none => exact ite_self _
    | some g =>
        refine if_pos (List.mem_filter.mpr ⟨Arena.mem_ids.mpr ?_, decide_eq_true hid⟩)
        exact Option.isSome_iff_exists.mpr ⟨g, hg⟩

/-! ## Owners -/

/-- What is asked of a module for its globals to move into functions. -/
structure Localizable (m : Module) : Prop where
  recorded : ∀ id f, m.function? id = some f → ∀ x ∈ f.defined, x < f.values.length
  entries : ∀ id f, m.function? id = some f → ∀ i ∈ f.body f.entry, i.op.isPhi = false
  operands : ∀ id f, m.function? id = some f → ∀ c, .const c ∈ f.operands → c.Computable
  initializers : ∀ id g c, m.global? id = some g → g.initializer = some c → c.Computable

/-- Whether globals can be moved is checked entry by entry. -/
theorem localizable_iff {m : Module} : m.Localizable ↔
    (∀ entry ∈ m.functions.entries,
      (∀ x ∈ entry.2.defined, x < entry.2.values.length) ∧
      (∀ i ∈ entry.2.body entry.2.entry, i.op.isPhi = false) ∧
      ∀ c ∈ entry.2.operands.filterMap Operand.const?, c.Computable) ∧
    ∀ entry ∈ m.globals.entries, ∀ c ∈ entry.2.initializer, c.Computable := by
  simp only [Operand.mem_filterMap_const?, Prod.forall, Arena.mem_entries]
  constructor
  · intro h
    exact ⟨fun id f hf => ⟨h.recorded id f hf, h.entries id f hf, h.operands id f hf⟩,
      fun id g hg c => h.initializers id g c hg⟩
  · rintro ⟨hfunctions, hglobals⟩
    exact ⟨fun id f hf => (hfunctions id f hf).1, fun id f hf => (hfunctions id f hf).2.1,
      fun id f hf => (hfunctions id f hf).2.2, fun id g c hg => hglobals id g hg c⟩

instance (m : Module) : Decidable m.Localizable := decidable_of_iff _ localizable_iff.symm

section

variable (hm : m.WellFormed) (hlocalizable : m.Localizable) (hf : m.function? owner = some f)
  (hbody : f.isDeclaration = false) (hids : ∀ id, id ∈ ids ↔ m.Uses owner id)

include hm hlocalizable hf hbody hids

/-- The owner suits the module that has only its globals. -/
theorem suits_confined : Localized.Suits { globals := m.globalsAt ids, function := f.name }
    (m.confined ids) f where
  admits := by
    have hadmits := hm.bodies owner f hf hbody
    refine hadmits.transfer (fun id => ?_) fun c hc id hid => ?_
    · rw [signature?, signature?, function?_confined]
    · rw [global?_confined, if_pos ((hids id).mpr (.mention hf hc hid))]
      exact (hadmits.operands c hc).globals id hid
  recorded := hlocalizable.recorded owner f hf
  entry := hlocalizable.entries owner f hf
  operands := hlocalizable.operands owner f hf
  initializers entry hentry c hc := by
    obtain ⟨hid, hg⟩ := mem_globalsAt.mp hentry
    have hholds := (hm.initializers entry.1 entry.2 c hg hc).1
    refine ⟨hholds.transfer (fun id => ?_) fun id hpart => ?_,
      hlocalizable.initializers entry.1 entry.2 c hg hc⟩
    · rw [signature?, signature?, function?_confined]
    · rw [global?_confined, if_pos ((hids id).mpr (.initializer ((hids _).mp hid) hg hc hpart))]
      exact hholds.globals id hpart

variable {g : Function}
  (hg : Localized.localizeInto { globals := m.globalsAt ids, function := f.name } f = .ok g)

include hg

/-- Callers of a function see no difference. -/
theorem signature_of_localizeInto :
    (g.name, g.parameters, g.isVarArg) = (f.name, f.parameters, f.isVarArg) := by
  have hsuits := suits_confined hm hlocalizable hf hbody hids
  obtain ⟨ex, _, _, hprepared, _, rfl⟩ := hsuits.exists_expansion hg
  change (ex.body.name, ex.body.parameters, ex.body.isVarArg) = _
  rw [hprepared]
  rfl

/-- Where its globals have moved, the owner mentions none. -/
theorem admits_of_localizeInto : (m.confined ids).Admits g ∧
    ∀ c, .const c ∈ g.operands → ∀ id, ¬(Constant.global id).Part c := by
  have hsuits := suits_confined hm hlocalizable hf hbody hids
  obtain ⟨ex, hmodule, hslots, _, _, rfl⟩ := hsuits.exists_expansion hg
  refine ⟨hmodule ▸ ex.admits_result, fun c hc id hid => ?_⟩
  obtain ⟨hholds, hnone⟩ := ex.holds_of_operand hc
  rw [hmodule] at hholds
  obtain ⟨global, hglobal⟩ := hholds.globals id hid
  rw [global?_confined] at hglobal
  split at hglobal
  next hmem =>
    have htracks : Localized.tracks { globals := m.globalsAt ids, function := f.name } id = true :=
      tracks_globalsAt.mpr ⟨hmem, global, hglobal⟩
    have hlookup := hnone id (Constant.mem_globals_iff.mpr hid)
    rw [(Localized.lookup_slots _ f.values.length id).1, ← hslots, hlookup] at htracks
    cases htracks
  next => cases hglobal

end

theorem Uses.exists_global (h : m.Uses owner id) (hverified : m.defects = [])
    (howners : m.owners = .ok owners) : ∃ g, m.global? id = some g := by
  have hmem := List.mem_map_of_mem (f := Prod.fst) ((mem_owners_iff hverified howners).mpr h)
  rw [(owners_spec howners).1] at hmem
  exact Option.isSome_iff_exists.mp (Arena.mem_ids.mp hmem)

section

variable (howners : m.owners = .ok owners) (hmoved : Moved m n (ownerGroups owners))

include howners hmoved

/-- No global is left. -/
theorem global?_of_moved (id : GlobalId) : n.global? id = none := by
  have hids := (owners_spec howners).1
  have hnodup : (owners.map Prod.fst).Nodup := by
    rw [hids]
    exact m.globals.ids_nodup
  rw [hmoved.globals]
  cases hg : m.global? id with
  | none => exact ite_self _
  | some g =>
      refine if_pos ((ownerGroups_perm hnodup).mem_iff.mpr ?_)
      rw [hids]
      exact Arena.mem_ids.mpr (Option.isSome_iff_exists.mpr ⟨g, hg⟩)

variable (hverified : m.defects = [])

include hverified

/-- A function uses no globals and is kept, or it owns globals and has got storage for them. -/
theorem kept_or_localized {id : FunctionId} (hf : m.function? id = some f) :
    (n.function? id = some f ∧ ∀ global, ¬m.Uses id global) ∨
      ∃ g ids, n.function? id = some g ∧ f.isDeclaration = false ∧
        (∀ global, global ∈ ids ↔ m.Uses id global) ∧ ids.Pairwise (· < ·) ∧
        m.globalsAt ids ≠ [] ∧
        Localized.localizeInto { globals := m.globalsAt ids, function := f.name } f = .ok g := by
  have huses : ∀ {global owner}, (global, owner) ∈ owners ↔ m.Uses owner global :=
    mem_owners_iff hverified howners
  by_cases howner : id ∈ owners.map Prod.snd
  · right
    have hgroup := mem_ownerGroups_iff.mpr ⟨howner, rfl⟩
    obtain ⟨f', g, hf', hg, hlocalized⟩ := hmoved.owners _ hgroup
    obtain rfl := Option.some.inj (hf.symm.trans hf')
    have hmem : ∀ global, global ∈ (owners.filter fun entry => entry.2 = id).map Prod.fst ↔
        m.Uses id global := by
      intro global
      rw [← huses]
      simp [and_comm]
    obtain ⟨entry, hentry, rfl⟩ := List.mem_map.mp howner
    refine ⟨g, _, hg, ?_, hmem, ?_, ?_, hlocalized⟩
    · exact (huses.mp hentry).isDeclaration hf
    · have hsorted := m.globals.ids_pairwise_lt
      rw [← (owners_spec howners).1] at hsorted
      exact hsorted.sublist (List.filter_sublist.map Prod.fst)
    · obtain ⟨g, hg⟩ := (huses.mp hentry).exists_global hverified howners
      exact List.ne_nil_of_mem (mem_globalsAt.mpr ⟨(hmem entry.1).mpr (huses.mp hentry), hg⟩)
  · left
    have hnot : id ∉ (ownerGroups owners).map Prod.fst := by
      intro hmem
      obtain ⟨group, hgroup, rfl⟩ := List.mem_map.mp hmem
      exact howner (mem_ownerGroups hgroup)
    refine ⟨(hmoved.others id hnot).trans hf, fun global hglobal => ?_⟩
    exact howner (List.mem_map_of_mem (huses.mpr hglobal))

variable (hlocalizable : m.Localizable)

include hlocalizable

theorem signature_of_moved (id : FunctionId) : n.signature? id = m.signature? id := by
  have hm := wellFormed_of_defects_eq_nil hverified
  cases hf : m.function? id with
  | none =>
      have hnot : id ∉ (ownerGroups owners).map Prod.fst := by
        intro hmem
        obtain ⟨group, hgroup, rfl⟩ := List.mem_map.mp hmem
        obtain ⟨f, _, hf', _⟩ := hmoved.owners group hgroup
        rw [hf] at hf'
        cases hf'
      rw [signature?, signature?, hmoved.others id hnot]
  | some f =>
      rcases kept_or_localized howners hmoved hverified hf with
        ⟨hn, _⟩ | ⟨g, ids, hn, hbody, hids, _, _, hlocalized⟩
      · rw [signature?, signature?, hn, hf]
      · rw [signature?, signature?, hn, hf]
        exact congrArg some
          (signature_of_localizeInto hm hlocalizable hf hbody hids hlocalized)

/-- The module stays well formed. -/
theorem wellFormed_of_moved : n.WellFormed := by
  have hm := wellFormed_of_defects_eq_nil hverified
  have hsignatures := signature_of_moved howners hmoved hverified hlocalizable
  have hglobals := global?_of_moved howners hmoved
  constructor
  case function_names =>
    intro name id hmem
    rw [hmoved.functionNames] at hmem
    obtain ⟨f, hf, rfl⟩ := hm.function_names name id hmem
    obtain ⟨g, hg, hname, _⟩ := exists_of_signature (hsignatures id) hf
    exact ⟨g, hg, hname⟩
  case global_names => exact hmoved.names.names
  case function_name_unique =>
    intro id id' g g' hg hg' hname
    obtain ⟨f, hf, hf_name, _⟩ := exists_of_signature (hsignatures id).symm hg
    obtain ⟨f', hf', hf_name', _⟩ := exists_of_signature (hsignatures id').symm hg'
    exact hm.function_name_unique id id' f f' hf hf' (by rw [hf_name, hf_name', hname])
  case global_name_unique => exact hmoved.names.unique
  case entry_live =>
    intro id hid
    rw [hmoved.entry] at hid
    obtain ⟨f, hf⟩ := hm.entry_live id hid
    obtain ⟨g, hg, _⟩ := exists_of_signature (hsignatures id) hf
    exact ⟨g, hg⟩
  case initializers =>
    intro id g c hg
    rw [hglobals] at hg
    cases hg
  case bodies =>
    intro id g hg hbody
    obtain ⟨f, hf, _⟩ := exists_of_signature (hsignatures id).symm hg
    rcases kept_or_localized howners hmoved hverified hf with
      ⟨hn, hunused⟩ | ⟨g', ids, hn, hdefinition, hids, _, _, hlocalized⟩
    · obtain rfl := Option.some.inj (hg.symm.trans hn)
      refine (hm.bodies id g hf hbody).transfer hsignatures fun c hc global hpart => ?_
      exact absurd (.mention hf hc hpart) (hunused global)
    · obtain rfl := Option.some.inj (hg.symm.trans hn)
      obtain ⟨hadmits, hnone⟩ :=
        admits_of_localizeInto hm hlocalizable hf hdefinition hids hlocalized
      refine hadmits.transfer (fun id => ?_) fun c hc global hpart => ?_
      · rw [hsignatures, signature?, signature?, function?_confined]
      · exact absurd hpart (hnone c hc global)

end

/-- Moving the globals of a verified module into their owners gives a verified module without
globals, in which every owner has storage for the globals that it uses. -/
theorem localization_houses_globals {stage next : Stage} {modified : Bool}
    (hverified : stage.module.defects = []) (hlocalizable : stage.module.Localizable)
    (h : Pass.localization stage = .ok (next, modified)) :
    next.module.defects = [] ∧ (∀ id, next.module.global? id = none) ∧
      (∀ id global, stage.module.global? id = some global →
        ∃! owner, stage.module.Uses owner id) ∧
      ∀ owner f, stage.module.function? owner = some f →
        ∃ g owned, next.module.function? owner = some g ∧
          owned.Pairwise (fun a b => a.1 < b.1) ∧
          (∀ id global, (id, global) ∈ owned ↔
            stage.module.global? id = some global ∧ stage.module.Uses owner id) ∧
          (owned = [] → g = f) ∧ (owned ≠ [] → f.Houses owned g) := by
  obtain ⟨owners, names, howners, hlocalize, _⟩ := Pass.exists_of_localization h
  have hm := wellFormed_of_defects_eq_nil hverified
  have hmoved := moved_of_localize ⟨hm.global_names, hm.global_name_unique⟩ howners hlocalize
  refine ⟨(wellFormed_of_moved howners hmoved hverified hlocalizable).defects_eq_nil,
    global?_of_moved howners hmoved, fun id global hglobal => ?_, fun owner f hf => ?_⟩
  · exact existsUnique_user hverified howners (Option.isSome_iff_exists.mpr ⟨global, hglobal⟩)
  rcases kept_or_localized howners hmoved hverified hf with
    ⟨hn, hunused⟩ | ⟨g, ids, hn, hbody, hids, hsorted, hne, hlocalized⟩
  · refine ⟨f, [], hn, .nil, fun id global => ?_, fun _ => rfl, fun hne => absurd rfl hne⟩
    exact ⟨fun hmem => (by cases hmem), fun hglobal => absurd hglobal.2 (hunused id)⟩
  · refine ⟨g, stage.module.globalsAt ids, hn, ?_, fun id global => ?_, ?_, ?_⟩
    · refine List.pairwise_filterMap.mpr (hsorted.imp fun {a b} hlt x hx y hy => ?_)
      obtain ⟨_, _, rfl⟩ := Option.map_eq_some_iff.mp hx
      obtain ⟨_, _, rfl⟩ := Option.map_eq_some_iff.mp hy
      exact hlt
    · rw [mem_globalsAt, hids, and_comm]
    · exact fun hnil => absurd hnil hne
    · intro _
      exact (suits_confined hm hlocalizable hf hbody hids).houses hlocalized

def pair : Ty := .struct [.ptr, .int 32] false

/-- Reads a field of a global and an address that a phi takes from globals. -/
def ringMain : Function where
  name := "main"
  returnType := .int 32
  blocks := [
    { instructions := [
        { op := .load 0 (.int 32) (.const (.elementPtr pair (.global 0) [0, 1])) 4 },
        { op := .compare .eq 1 (.var 0) (.i32 5) }]
      terminator := .branch (.var 1) 1 2 },
    { instructions := [], terminator := .jump 2 },
    { instructions := [
        { op := .phi 2 .ptr [(.const (.elementPtr pair (.global 0) [0, 1]), 0),
            (.const (.global 1), 1)] },
        { op := .load 3 (.int 32) (.var 2) 4 }]
      terminator := .ret (some (.var 3)) }]
  values := [{ ty := .int 32 }, { ty := .int 1 }, { ty := .ptr }, { ty := .int 32 }]

def ringHead : Global where
  name := "head"
  valueType := pair
  initializer := some (.aggregate pair [.elementPtr pair (.global 1) [0, 1], .i32 5])

def ringTail : Global where
  name := "tail"
  valueType := .array .ptr 2
  initializer := some (.aggregate (.array .ptr 2) [.global 0, .global 1])

def ring : Module :=
  rebuildNames
    { name := "ring", functions := [some ringMain], globals := [some ringHead, some ringTail] }

theorem localization_houses_ring :
    ring.defects = [] ∧ ring.Localizable ∧ ∃ next modified,
      Pass.localization { module := ring } = .ok (next, modified) ∧
      next.module.defects = [] ∧ (∀ id, next.module.global? id = none) ∧
      ∃ g owned, next.module.function? 0 = some g ∧ (0, ringHead) ∈ owned ∧
        (1, ringTail) ∈ owned ∧ ringMain.Houses owned g := by
  have hverified : ring.defects = [] := by decide +kernel
  have hlocalizable : ring.Localizable := by decide +kernel
  have hmain : ring.function? 0 = some ringMain := by decide +kernel
  have hhead : ring.global? 0 = some ringHead := by decide +kernel
  have htail : ring.global? 1 = some ringTail := by decide +kernel
  have huses : ring.Uses 0 0 :=
    .mention hmain (c := .elementPtr pair (.global 0) [0, 1]) (by decide +kernel) (.base .whole)
  have huses' : ring.Uses 0 1 :=
    .initializer huses hhead rfl (.element List.mem_cons_self (.base .whole))
  have hok : (Pass.localization { module := ring }).isOk = true := by decide +kernel
  obtain ⟨⟨next, modified⟩, hrun⟩ :
      ∃ result, Pass.localization { module := ring } = .ok result := by
    cases h : Pass.localization { module := ring } with
    | error => rw [h] at hok; cases hok
    | ok result => exact ⟨result, rfl⟩
  obtain ⟨hdefects, hglobals, _, howners⟩ :=
    @localization_houses_globals { module := ring } next modified hverified hlocalizable hrun
  obtain ⟨g, owned, hg, _, howned, _, hhouses⟩ := howners 0 ringMain hmain
  have hmem : (0, ringHead) ∈ owned := (howned 0 ringHead).mpr ⟨hhead, huses⟩
  exact ⟨hverified, hlocalizable, next, modified, hrun, hdefects, hglobals, g, owned, hg, hmem,
    (howned 1 ringTail).mpr ⟨htail, huses'⟩, hhouses (List.ne_nil_of_mem hmem)⟩

end Module

end Monolith
