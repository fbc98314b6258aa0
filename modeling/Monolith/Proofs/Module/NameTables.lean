import Monolith.Module.Basic
import Monolith.Proofs.Lists
import Monolith.Proofs.Module.Arenas

/-! # Names of what is live

A table fits the entities of a module if it has only names of live ones and no two of these
have the same name. Erasing an entity together with its name keeps that.
-/

namespace Monolith

namespace NameTable

variable {α : Type} {table : NameTable} {find : Nat → Option α} {name : α → String}

/-- The table has only names of live entities, and no two have the same name. -/
structure Fits (table : NameTable) (find : Nat → Option α) (name : α → String) : Prop where
  names : ∀ text id, (text, id) ∈ table.entries → ∃ a, find id = some a ∧ name a = text
  unique : ∀ id id' a a', find id = some a → find id' = some a' → name a = name a' → id = id'

theorem lookup_filter_ne (entries : List (String × Nat)) {name other : String}
    (h : other ≠ name) :
    (entries.filter fun entry => entry.1 ≠ name).lookup other = entries.lookup other := by
  induction entries with
  | nil => rfl
  | cons entry entries ih =>
      by_cases hname : entry.1 = name
      · have hother : (other == entry.1) = false := by simpa [hname] using h
        rw [List.filter_cons_of_neg (by simp [hname]), ih, List.lookup_cons, hother]
      · rw [List.filter_cons_of_pos (by simp [hname]), List.lookup_cons, List.lookup_cons, ih]

/-- Only the given name is taken out, and only if it stands for the given entity. -/
theorem lookup_remove (name other : String) (id : Nat) :
    (table.remove name id).lookup other =
      if other = name ∧ table.lookup name = some id then none else table.lookup other := by
  unfold remove
  split
  next hlookup =>
    by_cases heq : other = name
    · rw [if_pos ⟨heq, hlookup⟩, heq, lookup, List.lookup_eq_none_iff]
      intro entry hentry
      exact bne_iff_ne.mpr (of_decide_eq_true (List.mem_filter.mp hentry).2).symm
    · rw [if_neg fun h => heq h.1]
      exact lookup_filter_ne table.entries heq
  next hlookup => rw [if_neg fun h => hlookup h.2]

namespace Fits

theorem lookup_eq_some (h : table.Fits find name) {text : String} {id : Nat}
    (hmem : (text, id) ∈ table.entries) : table.lookup text = some id := by
  obtain ⟨id', hid'⟩ := Option.isSome_iff_exists.mp
    (List.lookup_isSome_iff.mpr ⟨(text, id), hmem, beq_self_eq_true text⟩)
  obtain ⟨front, rest, heq, _⟩ := List.lookup_eq_some_iff.mp hid'
  obtain ⟨a, ha, hname⟩ := h.names text id hmem
  obtain ⟨a', ha', hname'⟩ := h.names text id' (by simp [heq])
  rw [lookup, hid', h.unique id id' a a' ha ha' (hname.trans hname'.symm)]

/-- The name of an erased entity goes with it. -/
theorem mem_of_mem_remove (h : table.Fits find name) {id : Nat} {a : α} (ha : find id = some a)
    {text : String} {other : Nat} (hmem : (text, other) ∈ (table.remove (name a) id).entries) :
    (text, other) ∈ table.entries ∧ id ≠ other := by
  have hname : (text, other) ∈ table.entries → id = other → text = name a := by
    intro hmem heq
    obtain ⟨_, hlive, hname⟩ := h.names text other hmem
    rw [← hname, Option.some.inj (ha.symm.trans (heq ▸ hlive))]
  unfold remove at hmem
  split at hmem
  next =>
    obtain ⟨hmem, hne⟩ := List.mem_filter.mp hmem
    exact ⟨hmem, fun heq => of_decide_eq_true hne (hname hmem heq)⟩
  next hlookup =>
    refine ⟨hmem, fun heq => hlookup ?_⟩
    rw [← hname hmem heq, heq]
    exact h.lookup_eq_some hmem

/-- Erasing an entity with its name leaves a table that fits. -/
theorem erase {arena : Arena α} (h : table.Fits arena.get? name) (id : Nat) :
    ((arena.get? id).elim table fun a => table.remove (name a) id).Fits (arena.erase id).get?
      name := by
  cases ha : arena.get? id with
  | none => rwa [Arena.erase_of_get?_eq_none ha]
  | some a =>
      constructor
      case names =>
        intro text other hmem
        obtain ⟨hmem, hne⟩ := h.mem_of_mem_remove ha hmem
        rw [Arena.get?_erase, if_neg hne]
        exact h.names text other hmem
      case unique =>
        have hlive : ∀ other b,
            (arena.erase id).get? other = some b → arena.get? other = some b := by
          intro other b hb
          rw [Arena.get?_erase] at hb
          exact (Option.ite_none_left_eq_some.mp hb).2
        exact fun b b' c c' hc hc' => h.unique b b' c c' (hlive b c hc) (hlive b' c' hc')

end Fits

end NameTable

namespace Module

/-! ## Erasing -/

section

variable (m : Module)

theorem functions_eraseFunction (id : FunctionId) :
    (m.eraseFunction id).functions = m.functions.erase id := by
  unfold eraseFunction
  split
  next hnone => exact (Arena.erase_of_get?_eq_none hnone).symm
  next => rfl

theorem globals_eraseGlobal (id : GlobalId) :
    (m.eraseGlobal id).globals = m.globals.erase id := by
  unfold eraseGlobal
  split
  next hnone => exact (Arena.erase_of_get?_eq_none hnone).symm
  next => rfl

theorem functionNames_eraseFunction (id : FunctionId) : (m.eraseFunction id).functionNames =
    (m.functions.get? id).elim m.functionNames fun f => m.functionNames.remove f.name id := by
  unfold eraseFunction function?
  cases m.functions.get? id <;> rfl

theorem globalNames_eraseGlobal (id : GlobalId) : (m.eraseGlobal id).globalNames =
    (m.globals.get? id).elim m.globalNames fun g => m.globalNames.remove g.name id := by
  unfold eraseGlobal global?
  cases m.globals.get? id <;> rfl

/-- Erasing a function changes nothing but functions, their names and the entry. -/
theorem view_eraseFunction {α : Type} (view : Module → α)
    (hview : ∀ (m : Module) functions functionNames entry,
      view { m with functions, functionNames, entry } = view m) (id : FunctionId) :
    view (m.eraseFunction id) = view m := by
  unfold eraseFunction
  cases m.function? id with
  | none => rfl
  | some f => exact hview m _ _ _

/-- Erasing a global changes nothing but globals and their names. -/
theorem view_eraseGlobal {α : Type} (view : Module → α)
    (hview : ∀ (m : Module) globals globalNames,
      view { m with globals, globalNames } = view m) (id : GlobalId) :
    view (m.eraseGlobal id) = view m := by
  unfold eraseGlobal
  cases m.global? id with
  | none => rfl
  | some g => exact hview m _ _

theorem function?_eraseFunction (id other : FunctionId) :
    (m.eraseFunction id).function? other = if id = other then none else m.function? other := by
  rw [function?, functions_eraseFunction]
  exact Arena.get?_erase

theorem global?_eraseGlobal (id other : GlobalId) :
    (m.eraseGlobal id).global? other = if id = other then none else m.global? other := by
  rw [global?, globals_eraseGlobal]
  exact Arena.get?_erase

theorem global?_eraseFunction (id : FunctionId) : (m.eraseFunction id).global? = m.global? :=
  m.view_eraseFunction global? (fun _ _ _ _ => rfl) id

theorem function?_eraseGlobal (id : GlobalId) : (m.eraseGlobal id).function? = m.function? :=
  m.view_eraseGlobal function? (fun _ _ _ => rfl) id

/-- Erasing functions changes nothing but functions, their names and the entry. -/
theorem foldl_eraseFunction (ids : List FunctionId) :
    (ids.foldl eraseFunction m).global? = m.global? ∧
      (ids.foldl eraseFunction m).globalNames = m.globalNames ∧
      ∀ id, (ids.foldl eraseFunction m).function? id =
        if id ∈ ids then none else m.function? id := by
  refine ⟨foldl_view global?_eraseFunction ids m, foldl_view (fun n id => n.view_eraseFunction
    globalNames (fun _ _ _ _ => rfl) id) ids m, fun id => ?_⟩
  rw [function?, ← List.foldl_hom functions fun n id => (n.functions_eraseFunction id).symm]
  exact Arena.get?_foldl_erase

/-- Erasing globals changes nothing but globals and their names. -/
theorem foldl_eraseGlobal (ids : List GlobalId) :
    (ids.foldl eraseGlobal m).function? = m.function? ∧
      (ids.foldl eraseGlobal m).functionNames = m.functionNames ∧
      (ids.foldl eraseGlobal m).entry = m.entry ∧
      ∀ id, (ids.foldl eraseGlobal m).global? id = if id ∈ ids then none else m.global? id := by
  refine ⟨foldl_view function?_eraseGlobal ids m, foldl_view (fun n id => n.view_eraseGlobal
    functionNames (fun _ _ _ => rfl) id) ids m, foldl_view (fun n id =>
    n.view_eraseGlobal entry (fun _ _ _ => rfl) id) ids m, fun id => ?_⟩
  rw [global?, ← List.foldl_hom globals fun n id => (n.globals_eraseGlobal id).symm]
  exact Arena.get?_foldl_erase

end

abbrev NamesFunctions (m : Module) : Prop := m.functionNames.Fits m.function? Function.name

abbrev NamesGlobals (m : Module) : Prop := m.globalNames.Fits m.global? Global.name

variable {m : Module}

theorem NamesFunctions.eraseFunction (h : m.NamesFunctions) (id : FunctionId) :
    (m.eraseFunction id).NamesFunctions := by
  have herased := NameTable.Fits.erase h id
  rwa [← functionNames_eraseFunction, ← functions_eraseFunction] at herased

theorem NamesGlobals.eraseGlobal (h : m.NamesGlobals) (id : GlobalId) :
    (m.eraseGlobal id).NamesGlobals := by
  have herased := NameTable.Fits.erase h id
  rwa [← globalNames_eraseGlobal, ← globals_eraseGlobal] at herased

theorem NamesFunctions.foldl_eraseFunction (h : m.NamesFunctions) (ids : List FunctionId) :
    (ids.foldl Module.eraseFunction m).NamesFunctions :=
  List.foldlRecOn ids _ h fun _ hn id _ => hn.eraseFunction id

theorem NamesGlobals.foldl_eraseGlobal (h : m.NamesGlobals) (ids : List GlobalId) :
    (ids.foldl Module.eraseGlobal m).NamesGlobals :=
  List.foldlRecOn ids _ h fun _ hn id _ => hn.eraseGlobal id

end Module

end Monolith
