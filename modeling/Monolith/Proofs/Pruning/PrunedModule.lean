import Monolith.Proofs.Globals.LocalizedModule
import Monolith.Proofs.Pruning.UsedEntities

/-! # What pruning leaves

Pruning keeps what is used as it is. All that a used entity refers to is used as well, so a
module that was well formed still is.
-/

namespace Monolith

variable {id : GlobalId} {f : Function}

namespace Module

/-! ## What is left -/

theorem entry_eraseFunction {m : Module} (hlive : ∀ id, m.entry = some id →
    ∃ f, m.function? id = some f) (id : FunctionId) :
    (m.eraseFunction id).entry = m.entry.filter (· ≠ id) := by
  unfold eraseFunction
  cases hentry : m.entry with
  | none => cases m.function? id <;> simp [hentry]
  | some entry =>
      cases hf : m.function? id with
      | none =>
          have hne : entry ≠ id := by
            rintro rfl
            obtain ⟨f, hf'⟩ := hlive entry hentry
            rw [hf] at hf'
            cases hf'
          simp [hentry, hne, Option.filter_some]
      | some f => by_cases hne : entry = id <;> simp [hne, Option.filter_some]

/-- A designated entry stays designated unless it is erased. -/
theorem entry_foldl_eraseFunction {m : Module} (hlive : ∀ id, m.entry = some id →
    ∃ f, m.function? id = some f) (ids : List FunctionId) :
    (ids.foldl eraseFunction m).entry = m.entry.filter (· ∉ ids) := by
  induction ids generalizing m with
  | nil => cases hentry : m.entry <;> simp [hentry, Option.filter_some]
  | cons first ids ih =>
      have hentry := entry_eraseFunction hlive first
      rw [List.foldl_cons, ih, hentry]
      · cases m.entry with
        | none => rfl
        | some id => by_cases hne : id = first <;> simp [hne, Option.filter_some]
      · intro id hid
        rw [hentry] at hid
        obtain ⟨hid, hne⟩ := Option.filter_eq_some_iff.mp hid
        rw [function?_eraseFunction, if_neg (Ne.symm (of_decide_eq_true hne))]
        exact hlive id hid

section

variable (m : Module)

/-- What is there and not among the unused is among the used. -/
theorem ite_unused {α : Type} (arena : Arena α) (used : List Nat) (id : Nat) :
    (if id ∈ arena.ids.filter fun id => !used.contains id then none else arena.get? id) =
      if id ∈ used then arena.get? id else none := by
  by_cases hid : id ∈ used
  · simp [hid]
  · cases ha : arena.get? id with
    | none => rw [ite_self, ite_self]
    | some a =>
        have hlive : id ∈ arena.ids := Arena.mem_ids.mpr (Option.isSome_iff_exists.mpr ⟨a, ha⟩)
        simp [hid, hlive]

theorem function?_prune (id : FunctionId) :
    m.prune.function? id = if id ∈ m.usedFunctions then m.function? id else none := by
  rw [prune, (foldl_eraseFunction _ _).2.2, (m.foldl_eraseGlobal _).1]
  exact ite_unused m.functions m.usedFunctions id

theorem global?_prune (id : GlobalId) :
    m.prune.global? id = if id ∈ m.usedGlobals then m.global? id else none := by
  rw [prune, (foldl_eraseFunction _ _).1, (m.foldl_eraseGlobal _).2.2.2]
  exact ite_unused m.globals m.usedGlobals id

end

section

variable {m : Module}

theorem function?_of_prune {id : FunctionId} (h : m.prune.function? id = some f) :
    m.function? id = some f ∧ id ∈ m.usedFunctions := by
  rw [function?_prune] at h
  split at h
  next hid => exact ⟨h, hid⟩
  next => cases h

theorem global?_of_prune {g : Global} (h : m.prune.global? id = some g) :
    m.global? id = some g ∧ id ∈ m.usedGlobals := by
  rw [global?_prune] at h
  split at h
  next hid => exact ⟨h, hid⟩
  next => cases h

theorem function?_prune_of_isDeclaration {id : FunctionId} (hf : m.function? id = some f)
    (hbody : f.isDeclaration = false) : m.prune.function? id = some f := by
  rw [function?_prune, if_pos (mem_usedFunctions.mpr (.inl ⟨f, hf, hbody⟩)), hf]

/-- What a used global refers to is left. -/
theorem Holds.of_initializer {g : Global} {c : Constant} (h : m.Holds c) (hid : id ∈ m.usedGlobals)
    (hg : m.global? id = some g) (hc : g.initializer = some c) : m.prune.Holds c where
  globals other hother := by
    rw [global?_prune, if_pos (mem_usedGlobals_of_refers hid ⟨g, c, hg, hc, hother⟩)]
    exact h.globals other hother
  functions other hother := by
    have hused := mem_usedFunctions.mpr (.inr (.inr ⟨id, hid, g, c, hg, hc, hother⟩))
    rw [function?_prune, if_pos hused]
    exact h.functions other hother

/-- What a body refers to is left. -/
theorem Holds.of_operand {id : FunctionId} {c : Constant} (h : m.Holds c)
    (hf : m.function? id = some f) (hc : .const c ∈ f.operands) : m.prune.Holds c where
  globals other hother := by
    rw [global?_prune, if_pos (mem_usedGlobals.mpr (.inl ⟨id, .mention hf hc hother⟩))]
    exact h.globals other hother
  functions other hother := by
    rw [function?_prune, if_pos (mem_usedFunctions.mpr (.inr (.inl ⟨id, f, c, hf, hc, hother⟩)))]
    exact h.functions other hother

/-- A body that fits into a module fits into one with fewer functions if its operands do. -/
theorem Admits.restrict {n : Module} (h : m.Admits f)
    (hfunctions : ∀ id g, n.function? id = some g → m.function? id = some g)
    (hholds : ∀ c, .const c ∈ f.operands → n.Holds c) : n.Admits f where
  form := h.form
  operands := hholds
  pointers := h.pointers
  calls b i hi dest ty callee args hop := by
    have hfits := h.calls b i hi dest ty callee args hop
    exact ⟨hfits.not_poison, fun id g hid hg => hfits.arity id g hid (hfunctions id g hg)⟩

theorem entry_prune (h : m.WellFormed) :
    m.prune.entry = m.entry.filter (· ∈ m.usedFunctions) := by
  obtain ⟨hfunctions, _, hentry, _⟩ := m.foldl_eraseGlobal m.unusedGlobals
  have hlive : ∀ id, (m.unusedGlobals.foldl eraseGlobal m).entry = some id →
      ∃ f, (m.unusedGlobals.foldl eraseGlobal m).function? id = some f := by
    rw [hentry, hfunctions]
    exact h.entry_live
  rw [prune, entry_foldl_eraseFunction hlive, hentry]
  cases hid : m.entry with
  | none => rfl
  | some id =>
      have hmem : id ∈ m.functions.ids :=
        Arena.mem_ids.mpr (Option.isSome_iff_exists.mpr (h.entry_live id hid))
      simp [unusedFunctions, hmem, Option.filter_some]

theorem NamesFunctions.prune (h : m.NamesFunctions) : m.prune.NamesFunctions := by
  obtain ⟨hfunctions, hnames, _, _⟩ := m.foldl_eraseGlobal m.unusedGlobals
  apply NamesFunctions.foldl_eraseFunction
  rwa [NamesFunctions, hfunctions, hnames]

theorem NamesGlobals.prune (h : m.NamesGlobals) : m.prune.NamesGlobals := by
  obtain ⟨hglobals, hnames, _⟩ :=
    (m.unusedGlobals.foldl Module.eraseGlobal m).foldl_eraseFunction m.unusedFunctions
  rw [NamesGlobals, Module.prune, hglobals, hnames]
  exact h.foldl_eraseGlobal m.unusedGlobals

theorem WellFormed.namesFunctions (h : m.WellFormed) : m.NamesFunctions :=
  ⟨h.function_names, h.function_name_unique⟩

theorem WellFormed.namesGlobals (h : m.WellFormed) : m.NamesGlobals :=
  ⟨h.global_names, h.global_name_unique⟩

theorem WellFormed.prune (h : m.WellFormed) : m.prune.WellFormed := by
  have hfunctionNames := h.namesFunctions.prune
  have hglobalNames := h.namesGlobals.prune
  constructor
  case function_names => exact hfunctionNames.names
  case function_name_unique => exact hfunctionNames.unique
  case global_names => exact hglobalNames.names
  case global_name_unique => exact hglobalNames.unique
  case entry_live =>
    intro id hid
    rw [entry_prune h] at hid
    obtain ⟨hid, hused⟩ := Option.filter_eq_some_iff.mp hid
    rw [function?_prune, if_pos (of_decide_eq_true hused)]
    exact h.entry_live id hid
  case initializers =>
    intro id g c hg hc
    obtain ⟨hg, hid⟩ := global?_of_prune hg
    obtain ⟨hholds, hty⟩ := h.initializers id g c hg hc
    exact ⟨hholds.of_initializer hid hg hc, hty⟩
  case bodies =>
    intro id f hf hbody
    obtain ⟨hf, _⟩ := function?_of_prune hf
    have hadmits := h.bodies id f hf hbody
    apply hadmits.restrict (fun id g hg => (function?_of_prune hg).1)
    exact fun c hc => (hadmits.operands c hc).of_operand hf hc

end

/-! ## Pruning twice -/

section

variable {m : Module}

/-- Pruning changes nothing in what functions use. -/
theorem uses_prune {user : FunctionId} : m.prune.Uses user id ↔ m.Uses user id := by
  constructor
  · intro huses
    induction huses with
    | mention hf hc hid => exact .mention (function?_of_prune hf).1 hc hid
    | initializer _ hg hc hid ih => exact .initializer ih (global?_of_prune hg).1 hc hid
  · intro huses
    induction huses with
    | mention hf hc hid =>
        have hbody := (Uses.mention hf hc hid).isDeclaration hf
        exact .mention (function?_prune_of_isDeclaration hf hbody) hc hid
    | initializer hholder hg hc hid ih =>
        refine .initializer ih ?_ hc hid
        rw [global?_prune, if_pos (mem_usedGlobals.mpr (.inl ⟨user, hholder⟩)), hg]

theorem exposed_prune : m.prune.Exposed id ↔ m.Exposed id := by
  constructor
  · intro ⟨ext, g, hg, hlinkage, hleads⟩
    refine ⟨ext, g, (global?_of_prune hg).1, hlinkage, ?_⟩
    refine Relation.ReflTransGen.mono (fun holder id => ?_) _ _ hleads
    exact fun ⟨g, c, hg, hc, hid⟩ => ⟨g, c, (global?_of_prune hg).1, hc, hid⟩
  · intro ⟨ext, g, hg, hlinkage, hleads⟩
    have hleft : ∀ {holder g}, m.Exposed holder → m.global? holder = some g →
        m.prune.global? holder = some g := by
      intro holder g hexposed hg
      rw [global?_prune, if_pos (mem_usedGlobals.mpr (.inr hexposed)), hg]
    refine ⟨ext, g, hleft ⟨ext, g, hg, hlinkage, .refl⟩ hg, hlinkage, ?_⟩
    induction hleads with
    | refl => exact .refl
    | tail hbefore hstep ih =>
        obtain ⟨g', c, hg', hc, hid⟩ := hstep
        exact ih.tail ⟨g', c, hleft ⟨ext, g, hg, hlinkage, hbefore⟩ hg', hc, hid⟩

theorem mem_usedGlobals_prune : id ∈ m.prune.usedGlobals ↔ id ∈ m.usedGlobals := by
  simp only [mem_usedGlobals, uses_prune, exposed_prune]

theorem mem_usedFunctions_prune {id : FunctionId} (h : id ∈ m.usedFunctions) :
    id ∈ m.prune.usedFunctions := by
  rw [mem_usedFunctions] at h ⊢
  rcases h with ⟨f, hf, hbody⟩ | ⟨user, f, c, hf, hc, hid⟩ | ⟨holder, hholder, g, c, hg, hc, hid⟩
  · exact .inl ⟨f, function?_prune_of_isDeclaration hf hbody, hbody⟩
  · obtain ⟨block, hblock, _⟩ := List.mem_flatMap.mp hc
    have hbody := Function.isDeclaration_of_mem hblock
    exact .inr (.inl ⟨user, f, c, function?_prune_of_isDeclaration hf hbody, hc, hid⟩)
  · refine .inr (.inr ⟨holder, mem_usedGlobals_prune.mpr hholder, g, c, ?_, hc, hid⟩)
    rw [global?_prune, if_pos hholder, hg]

theorem unusedFunctions_prune : m.prune.unusedFunctions = [] := by
  refine List.filter_eq_nil_iff.mpr fun id hid => ?_
  obtain ⟨f, hf⟩ := Option.isSome_iff_exists.mp (Arena.mem_ids.mp hid)
  simpa using mem_usedFunctions_prune (function?_of_prune hf).2

theorem unusedGlobals_prune : m.prune.unusedGlobals = [] := by
  refine List.filter_eq_nil_iff.mpr fun id hid => ?_
  obtain ⟨g, hg⟩ := Option.isSome_iff_exists.mp (Arena.mem_ids.mp hid)
  simpa using mem_usedGlobals_prune.mpr (global?_of_prune hg).2

/-- Pruning leaves nothing to prune. -/
theorem prune_prune : m.prune.prune = m.prune := by
  rw [prune, unusedFunctions_prune, unusedGlobals_prune]
  rfl

end

end Module

end Monolith
