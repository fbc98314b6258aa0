import Monolith.Proofs.Flattening.ExtendedFunctions
import Monolith.Proofs.Flattening.FlatteningSteps

/-! # Names in the order of their ids

A name table that is made from an arena lists the names by increasing id. When an entity is
erased, its name is taken out and the others stay in order. So the tables of a flattened module
are those that would be made anew.
-/

namespace Monolith

namespace NameTable

variable {table : NameTable} {names : Arena String}

/-- The table lists the names by increasing id, and no two of them are the same. -/
structure Lists (table : NameTable) (names : Arena String) : Prop where
  entries : table.entries = names.entries.map Prod.swap
  unique : ∀ id id' name, names.get? id = some name → names.get? id' = some name → id = id'

/-- New names are put behind those that are there, in order. -/
theorem entries_foldl_insertNew {added : List (String × Nat)}
    (h : ((table.entries ++ added).map Prod.fst).Nodup) :
    (added.foldl (fun table entry => table.insertNew entry.1 entry.2) table).entries =
      table.entries ++ added := by
  induction added generalizing table with
  | nil => exact (List.append_nil _).symm
  | cons entry added ih =>
      have hnew : table.lookup entry.1 = none := by
        rw [List.map_append, List.nodup_append] at h
        rw [lookup, List.lookup_eq_none_iff]
        intro old hold
        apply bne_iff_ne.mpr
        exact fun heq => h.2.2 old.1 (List.mem_map_of_mem hold) entry.1 (by simp) heq.symm
      have hinsert : table.insertNew entry.1 entry.2 = ⟨table.entries ++ [entry]⟩ := by
        rw [insertNew, hnew]
        rfl
      rw [List.foldl_cons, hinsert, ih (by simpa using h), List.append_assoc]
      rfl

namespace Lists

/-- A table that lists names has each entity under its name. -/
theorem mem_entries (h : table.Lists names) {name : String} {id : Nat} :
    (name, id) ∈ table.entries ↔ names.get? id = some name := by
  rw [h.entries, List.mem_map, ← Arena.mem_entries]
  constructor
  · intro ⟨entry, hentry, heq⟩
    rwa [← Prod.swap_swap entry, heq] at hentry
  · exact fun hentry => ⟨(id, name), hentry, rfl⟩

theorem fits (h : table.Lists names) : table.Fits names.get? id where
  names name id hmem := ⟨name, h.mem_entries.mp hmem, rfl⟩
  unique a b name name' hname hname' heq := by
    apply h.unique a b name hname
    rw [hname']
    exact congrArg some heq.symm

theorem nodup (h : table.Lists names) : (table.entries.map Prod.fst).Nodup := by
  have hids : (names.entries.map Prod.fst).Nodup := names.ids_nodup
  rw [h.entries, List.map_map]
  refine hids.of_map.map_on fun entry hentry other hother heq => ?_
  have hname : entry.2 = other.2 := heq
  refine Prod.ext (h.unique _ _ entry.2 (Arena.mem_entries.mp hentry) ?_) hname
  rw [hname]
  exact Arena.mem_entries.mp hother

/-- The table is the one that is made of the names. -/
theorem ofNames_eq (h : table.Lists names) : ofNames (names.entries.map Prod.swap) = table := by
  have hentries := @entries_foldl_insertNew {} table.entries h.nodup
  rw [← h.entries]
  exact congrArg NameTable.mk hentries

/-- Taking a name out leaves the others in order. -/
theorem erase (h : table.Lists names) {name : String} {id : Nat} (hid : names.get? id = some name) :
    (table.remove name id).Lists (names.erase id) where
  entries := by
    have hlookup := h.fits.lookup_eq_some (h.mem_entries.mpr hid)
    rw [remove, if_pos hlookup, Arena.entries_erase, h.entries, List.filter_map]
    refine congrArg (List.map _) (List.filter_congr fun entry hentry => ?_)
    have hget := Arena.mem_entries.mp hentry
    have hsame : entry.2 = name ↔ entry.1 = id := by
      constructor
      · exact fun heq => h.unique _ _ name (heq ▸ hget) hid
      · exact fun heq => Option.some.inj (hget.symm.trans (heq ▸ hid))
    simp [hsame]
  unique a a' text ha ha' := by
    rw [Arena.get?_erase] at ha ha'
    split at ha
    next => cases ha
    next =>
      split at ha'
      next => cases ha'
      next => exact h.unique a a' text ha ha'

end Lists

end NameTable

namespace Module

variable {m n : Module}

/-- Both name tables list the names by increasing id. -/
structure Listed (m : Module) : Prop where
  functions : m.functionNames.Lists (m.functions.mapLive Function.name)
  globals : m.globalNames.Lists (m.globals.mapLive Global.name)

/-- Tables that list the names are those that would be made anew. -/
theorem rebuildNames_of_listed (h : m.Listed) : m.rebuildNames = m := by
  have hfunctions := h.functions.ofNames_eq
  have hglobals := h.globals.ofNames_eq
  rw [Arena.entries_mapLive, List.map_map] at hfunctions hglobals
  change Module.mk _ _ _ _ _ _ = _
  exact congr_arg₂ (Module.mk m.name m.functions m.globals m.entry) hfunctions hglobals

theorem lists_ofNames {names : Arena String}
    (h : ∀ id id' name, names.get? id = some name → names.get? id' = some name → id = id') :
    (NameTable.ofNames (names.entries.map Prod.swap)).Lists names := by
  have hlists : NameTable.Lists ⟨names.entries.map Prod.swap⟩ names := ⟨rfl, h⟩
  rwa [hlists.ofNames_eq]

/-- A verified module whose tables are as they would be made anew lists its names. -/
theorem listed_of_rebuildNames (hverified : m.defects = []) (h : m.rebuildNames = m) :
    m.Listed := by
  have hform := wellFormed_of_defects_eq_nil hverified
  have hfunctions := @lists_ofNames (m.functions.mapLive Function.name)
      fun id id' name hid hid' => by
    rw [Arena.get?_mapLive, Option.map_eq_some_iff] at hid hid'
    obtain ⟨f, hf, rfl⟩ := hid
    obtain ⟨f', hf', hname⟩ := hid'
    exact hform.function_name_unique id id' f f' hf hf' hname.symm
  have hglobals := @lists_ofNames (m.globals.mapLive Global.name) fun id id' name hid hid' => by
    rw [Arena.get?_mapLive, Option.map_eq_some_iff] at hid hid'
    obtain ⟨g, hg, rfl⟩ := hid
    obtain ⟨g', hg', hname⟩ := hid'
    exact hform.global_name_unique id id' g g' hg hg' hname.symm
  rw [Arena.entries_mapLive, List.map_map] at hfunctions hglobals
  rw [← h]
  exact ⟨hfunctions, hglobals⟩

/-! ## What flattening keeps -/

namespace Listed

theorem setFunction (h : m.Listed) {id : FunctionId} {f g : Function}
    (hf : m.function? id = some f) (hname : g.name = f.name) : (m.setFunction id g).Listed := by
  refine ⟨?_, h.globals⟩
  have hnames : (m.setFunction id g).functions.mapLive Function.name =
      m.functions.mapLive Function.name := by
    apply Arena.mapLive_update
    intro old hold
    rw [Option.some.inj (hold.symm.trans hf), hname]
  rw [hnames]
  exact h.functions

theorem mapLive (h : m.Listed) {change : Function → Function} {update : Global → Global}
    (hchange : ∀ f, (change f).name = f.name) (hupdate : ∀ g, (update g).name = g.name) :
    { m with
      functions := m.functions.mapLive change
      globals := m.globals.mapLive update }.Listed := by
  have hfunctions : (m.functions.mapLive change).mapLive Function.name =
      m.functions.mapLive Function.name := by
    rw [Arena.mapLive_mapLive]
    exact congrArg m.functions.mapLive (funext hchange)
  have hglobals : (m.globals.mapLive update).mapLive Global.name =
      m.globals.mapLive Global.name := by
    rw [Arena.mapLive_mapLive]
    exact congrArg m.globals.mapLive (funext hupdate)
  exact ⟨hfunctions ▸ h.functions, hglobals ▸ h.globals⟩

/-- Erasing a function takes its name out of the table. -/
theorem eraseFunction (h : m.Listed) (id : FunctionId) : (m.eraseFunction id).Listed := by
  unfold Module.eraseFunction
  split
  next => exact h
  next f hf =>
    refine ⟨?_, h.globals⟩
    rw [Arena.mapLive_erase]
    apply h.functions.erase
    rw [Arena.get?_mapLive]
    exact congrArg (Option.map Function.name) hf

theorem eraseGlobal (h : m.Listed) (id : GlobalId) : (m.eraseGlobal id).Listed := by
  unfold Module.eraseGlobal
  split
  next => exact h
  next g hg =>
    refine ⟨h.functions, ?_⟩
    rw [Arena.mapLive_erase]
    apply h.globals.erase
    rw [Arena.get?_mapLive]
    exact congrArg (Option.map Global.name) hg

/-- Every change that flattening is made of keeps names listed. -/
theorem step (hstep : m.Step n) (h : m.Listed) : n.Listed := by
  cases hstep with
  | inline hcall =>
      obtain ⟨f, site, inlined, hf, _, _, _, hinlined, rfl⟩ := exists_of_inlineCall hcall
      exact h.setFunction hf (Function.extends_inlineBody hinlined).name
  | replace id => exact h.mapLive (fun _ => rfl) fun _ => rfl
  | eraseFunction id => exact h.eraseFunction id
  | eraseGlobal id => exact h.eraseGlobal id
  | localize hf hg => exact h.setFunction hf (Localized.extends_localizeInto hg).name
  | sweep =>
      have hswept := h.mapLive (fun f => f.extends_sweep.name) fun _ => rfl
      exact ⟨hswept.functions, h.globals⟩

end Listed

/-- If the names were those of the arenas before flattening, they are so afterwards. -/
theorem rebuildNames_of_flatten {config : Config} {budget : Nat} {report : Report}
    (hnames : m.rebuildNames = m) (h : m.flatten config budget = (.ok report, n)) :
    n.rebuildNames = n := by
  have hlisted := listed_of_rebuildNames (exists_of_flatten h).1 hnames
  exact rebuildNames_of_listed ((steps_flatten h).keeps (fun _ _ => Listed.step) hlisted)

end Module

end Monolith
