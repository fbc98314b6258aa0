import Monolith.Liveness
import Monolith.Proofs.Globals.Owners

/-! # What is used

The search for what is used starts from the bodies and the external globals and follows
initializers. A global becomes pending when it is found first, so no global is looked at twice,
and the search ends by itself before the steps that it is given are used up. It has then found
what initializers lead to, and nothing else.
-/

namespace Monolith

theorem Constant.mem_functions_iff {c : Constant} {id : FunctionId} :
    id ∈ c.functions ↔ (Constant.function id).Part c :=
  Module.mem_functions.trans Constant.mem_nodes_iff

theorem Operand.mem_functions_iff {o : Operand} {id : FunctionId} :
    id ∈ o.functions ↔ ∃ c, o = .const c ∧ (Constant.function id).Part c := by
  cases o with
  | var x => simp [functions]
  | const c => simp [functions, Constant.mem_functions_iff]

/-! ## Adding what is found -/

namespace Usage

/-- Bounds the steps to come: some globals are pending, and of those that initializers mention some
are still to be found. -/
def workload (usage : Usage) (mentioned : List GlobalId) : Nat :=
  usage.pending.length + (mentioned.filter fun id => id ∉ usage.globals).length

/-- The second is the first with functions and globals added, of which the new globals are
pending. -/
structure Adds (moreFunctions : List FunctionId) (moreGlobals : List GlobalId)
    (usage next : Usage) : Prop where
  functions : ∀ id, id ∈ next.functions ↔ id ∈ usage.functions ∨ id ∈ moreFunctions
  globals : ∀ id, id ∈ next.globals ↔ id ∈ usage.globals ∨ id ∈ moreGlobals
  pending : ∀ id, id ∈ next.pending ↔
    id ∈ usage.pending ∨ id ∈ moreGlobals ∧ id ∉ usage.globals
  nodup : usage.globals.Nodup → next.globals.Nodup
  workload : ∀ mentioned, moreGlobals ⊆ mentioned →
    next.workload mentioned ≤ usage.workload mentioned

namespace Adds

variable {usage next last : Usage}

theorem refl (usage : Usage) : Adds [] [] usage usage where
  functions id := by simp
  globals id := by simp
  pending id := by simp
  nodup h := h
  workload _ _ := le_rfl

/-- What is added first and what is added then is added. -/
theorem trans {functions functions' : List FunctionId} {globals globals' : List GlobalId}
    (h : Adds functions globals usage next) (h' : Adds functions' globals' next last) :
    Adds (functions ++ functions') (globals ++ globals') usage last where
  functions id := by rw [h'.functions, h.functions, List.mem_append, or_assoc]
  globals id := by rw [h'.globals, h.globals, List.mem_append, or_assoc]
  pending id := by
    rw [h'.pending, h.pending, h.globals, List.mem_append]
    tauto
  nodup hnodup := h'.nodup (h.nodup hnodup)
  workload mentioned hsubset := by
    obtain ⟨hglobals, hglobals'⟩ := List.append_subset.mp hsubset
    exact (h'.workload mentioned hglobals').trans (h.workload mentioned hglobals)

end Adds

variable (usage : Usage)

theorem adds_addFunction (id : FunctionId) : Adds [id] [] usage (usage.addFunction id) where
  functions other := by simp [addFunction, or_comm]
  globals other := by simp [addFunction]
  pending other := by simp [addFunction]
  nodup h := h
  workload _ _ := le_rfl

/-- A global becomes pending only if it is new. -/
theorem adds_addGlobal (id : GlobalId) : Adds [] [id] usage (usage.addGlobal id) := by
  unfold addGlobal
  split
  next hknown =>
    have hid : id ∈ usage.globals := List.contains_iff_mem.mp hknown
    constructor
    case functions => simp
    case globals => simp [hid]
    case pending => simp +contextual [hid]
    case nodup => exact fun h => h
    case workload => exact fun _ _ => le_rfl
  next hnew =>
    have hid : id ∉ usage.globals := fun hid => hnew (List.contains_iff_mem.mpr hid)
    constructor
    case functions => simp
    case globals => simp [or_comm]
    case pending =>
      intro other
      by_cases hother : other = id <;> simp [hother, hid]
    case nodup => exact fun h => List.nodup_cons.mpr ⟨hid, h⟩
    case workload =>
      -- the global is pending now, and no longer one that is still to be found
      intro mentioned hsubset
      have hmentioned : id ∈ mentioned.filter fun other => other ∉ usage.globals :=
        List.mem_filter.mpr ⟨hsubset List.mem_cons_self, decide_eq_true hid⟩
      have hfewer : ((mentioned.filter fun other => other ∉ usage.globals).filter
          (· ≠ id)).length < (mentioned.filter fun other => other ∉ usage.globals).length :=
        List.length_filter_lt_length_iff_exists.mpr ⟨id, hmentioned, by simp⟩
      have hsame : (mentioned.filter fun other => other ∉ id :: usage.globals) =
          (mentioned.filter fun other => other ∉ usage.globals).filter (· ≠ id) := by
        rw [List.filter_filter]
        exact List.filter_congr fun other _ => by simp
      rw [workload, workload, hsame, List.length_cons]
      omega

theorem adds_foldl {α : Type} {add : Usage → α → Usage} {functions globals : α → List Nat}
    (hadd : ∀ usage a, Adds (functions a) (globals a) usage (add usage a)) (entries : List α)
    (usage : Usage) :
    Adds (entries.flatMap functions) (entries.flatMap globals) usage
      (entries.foldl add usage) := by
  induction entries generalizing usage with
  | nil => exact .refl usage
  | cons a entries ih => exact (hadd usage a).trans (ih (add usage a))

theorem adds_addReference (c : Constant) :
    Adds c.function?.toList c.global?.toList usage (usage.addReference c) := by
  cases c with
  | function id => exact usage.adds_addFunction id
  | global id => exact usage.adds_addGlobal id
  | _ => exact .refl usage

theorem adds_addConstant (c : Constant) :
    Adds c.functions c.globals usage (usage.addConstant c) := by
  rw [Constant.functions, Constant.globals, List.filterMap_eq_flatMap_toList,
    List.filterMap_eq_flatMap_toList]
  exact adds_foldl adds_addReference c.nodes usage

theorem adds_addOperand (o : Operand) : Adds o.functions o.globals usage (usage.addOperand o) := by
  cases o with
  | var x => exact .refl usage
  | const c => exact usage.adds_addConstant c

/-- A body adds itself and all that its operands mention. -/
theorem adds_addBody (id : FunctionId) (f : Function) :
    Adds (id :: f.operands.flatMap Operand.functions) (f.operands.flatMap Operand.globals) usage
      (usage.addBody id f) :=
  (usage.adds_addFunction id).trans (adds_foldl adds_addOperand f.operands _)

end Usage

namespace Module

/-! ## What initializers lead to -/

def Refers (m : Module) (holder id : GlobalId) : Prop :=
  ∃ g c, m.global? holder = some g ∧ g.initializer = some c ∧ (Constant.global id).Part c

def LeadsTo (m : Module) : GlobalId → GlobalId → Prop := Relation.ReflTransGen m.Refers

def Mentions (m : Module) (user : FunctionId) (id : GlobalId) : Prop :=
  ∃ f c, m.function? user = some f ∧ .const c ∈ f.operands ∧ (Constant.global id).Part c

def MentionsFunction (m : Module) (user id : FunctionId) : Prop :=
  ∃ f c, m.function? user = some f ∧ .const c ∈ f.operands ∧ (Constant.function id).Part c

def RefersToFunction (m : Module) (holder : GlobalId) (id : FunctionId) : Prop :=
  ∃ g c, m.global? holder = some g ∧ g.initializer = some c ∧ (Constant.function id).Part c

/-- Initializers lead from an external global to this one. -/
def Exposed (m : Module) (id : GlobalId) : Prop :=
  ∃ ext g, m.global? ext = some g ∧ g.linkage = .external ∧ m.LeadsTo ext id

/-- A body mentions the global, or it is external. -/
def Anchored (m : Module) (id : GlobalId) : Prop :=
  (∃ user, m.Mentions user id) ∨ ∃ g, m.global? id = some g ∧ g.linkage = .external

def initializerFunctions (m : Module) (id : GlobalId) : List FunctionId :=
  ((m.initializer? id).map Constant.functions).getD []

section

variable {m : Module} {user : FunctionId} {holder id : GlobalId}

/-- A function uses what initializers lead to from what it mentions. -/
theorem uses_iff : m.Uses user id ↔ ∃ start, m.Mentions user start ∧ m.LeadsTo start id := by
  constructor
  · intro huses
    induction huses with
    | mention hf hc hid => exact ⟨_, ⟨_, _, hf, hc, hid⟩, .refl⟩
    | initializer _ hg hc hid ih =>
        obtain ⟨start, hstart, hleads⟩ := ih
        exact ⟨start, hstart, hleads.tail ⟨_, _, hg, hc, hid⟩⟩
  · intro ⟨start, ⟨f, c, hf, hc, hid⟩, hleads⟩
    induction hleads with
    | refl => exact .mention hf hc hid
    | tail _ hstep ih =>
        obtain ⟨g, c, hg, hc, hid⟩ := hstep
        exact .initializer ih hg hc hid

theorem exists_anchored_iff {id : GlobalId} : (∃ start, m.Anchored start ∧ m.LeadsTo start id) ↔
    (∃ user, m.Uses user id) ∨ m.Exposed id := by
  simp only [uses_iff]
  constructor
  · rintro ⟨start, ⟨user, hstart⟩ | ⟨g, hg, hlinkage⟩, hleads⟩
    · exact .inl ⟨user, start, hstart, hleads⟩
    · exact .inr ⟨start, g, hg, hlinkage, hleads⟩
  · rintro (⟨user, start, hstart, hleads⟩ | ⟨start, g, hg, hlinkage, hleads⟩)
    · exact ⟨start, .inl ⟨user, hstart⟩, hleads⟩
    · exact ⟨start, .inr ⟨g, hg, hlinkage⟩, hleads⟩

theorem mem_initializerGlobals : id ∈ m.initializerGlobals holder ↔ m.Refers holder id := by
  simp only [initializerGlobals, initializer?, Refers, ← Constant.mem_globals_iff]
  cases m.global? holder with
  | none => simp
  | some g => cases hc : g.initializer <;> simp [hc]

theorem mem_initializerFunctions {id : FunctionId} :
    id ∈ m.initializerFunctions holder ↔ m.RefersToFunction holder id := by
  simp only [initializerFunctions, initializer?, RefersToFunction, ← Constant.mem_functions_iff]
  cases m.global? holder with
  | none => simp
  | some g => cases hc : g.initializer <;> simp [hc]

theorem mem_definitions {f : Function} :
    (user, f) ∈ m.definitions ↔ m.function? user = some f ∧ f.isDeclaration = false := by
  rw [definitions, List.mem_filter, Arena.mem_entries, Bool.not_eq_true']
  rfl

/-- What the operands of bodies show is shown by the constants among them. -/
theorem mem_flatMap_operands {view : Operand → List Nat} {P : Constant → Prop} {id : Nat}
    (hview : ∀ o, id ∈ view o ↔ ∃ c, o = .const c ∧ P c) :
    id ∈ (m.definitions.flatMap fun entry => entry.2.operands.flatMap view) ↔
      ∃ user f c, m.function? user = some f ∧ .const c ∈ f.operands ∧ P c := by
  simp only [List.mem_flatMap, Prod.exists, mem_definitions, hview]
  constructor
  · rintro ⟨user, f, ⟨hf, _⟩, _, ho, c, rfl, hc⟩
    exact ⟨user, f, c, hf, ho, hc⟩
  · rintro ⟨user, f, c, hf, ho, hc⟩
    -- only a function with a body has operands
    obtain ⟨block, hblock, _⟩ := List.mem_flatMap.mp ho
    exact ⟨user, f, ⟨hf, Function.isDeclaration_of_mem hblock⟩, .const c, ho, c, rfl, hc⟩

theorem mem_externalGlobals :
    id ∈ m.externalGlobals ↔ ∃ g, m.global? id = some g ∧ g.linkage = .external := by
  simp only [externalGlobals, List.mem_map, List.mem_filter, Prod.exists, Arena.mem_entries,
    decide_eq_true_eq]
  constructor
  · rintro ⟨_, g, hg, rfl⟩
    exact ⟨g, hg⟩
  · intro ⟨g, hg⟩
    exact ⟨id, g, hg, rfl⟩

/-- Only globals that are there have initializers. -/
theorem initializerGlobals_subset (m : Module) (id : GlobalId) :
    m.initializerGlobals id ⊆ m.globals.ids.flatMap m.initializerGlobals := by
  intro other hother
  obtain ⟨g, _, hg, _⟩ := mem_initializerGlobals.mp hother
  have hlive : id ∈ m.globals.ids := Arena.mem_ids.mpr (Option.isSome_iff_exists.mpr ⟨g, hg⟩)
  exact List.mem_flatMap.mpr ⟨id, hlive, hother⟩

end

/-! ## The search -/

section

variable (m : Module)

theorem adds_directUsage :
    Usage.Adds
      (m.definitions.flatMap fun entry => entry.1 :: entry.2.operands.flatMap Operand.functions)
      ((m.definitions.flatMap fun entry => entry.2.operands.flatMap Operand.globals) ++
        m.externalGlobals) {} m.directUsage := by
  have hbodies := Usage.adds_foldl (fun usage (entry : FunctionId × Function) =>
    usage.adds_addBody entry.1 entry.2) m.definitions {}
  have hexternal := Usage.adds_foldl Usage.adds_addGlobal m.externalGlobals
    (m.definitions.foldl (fun usage entry => usage.addBody entry.1 entry.2) {})
  have hnone : m.externalGlobals.flatMap (fun _ => ([] : List FunctionId)) = [] :=
    List.flatMap_eq_nil_iff.mpr fun _ _ => rfl
  have hdirect := hbodies.trans hexternal
  rwa [hnone, List.append_nil, List.flatMap_singleton'] at hdirect

theorem adds_useInitializer (usage : Usage) (id : GlobalId) :
    Usage.Adds (m.initializerFunctions id) (m.initializerGlobals id) usage
      (m.useInitializer usage id) := by
  unfold initializerFunctions initializerGlobals useInitializer
  cases m.initializer? id with
  | none => exact .refl usage
  | some c => exact usage.adds_addConstant c

end

/-- Pending globals are looked at until none is pending, and what is known then is the result. -/
inductive Exhausts (m : Module) : Usage → Usage → Prop where
  | done {usage : Usage} (hpending : usage.pending = []) : Exhausts m usage usage
  | look {usage result : Usage} {id : GlobalId} {pending : List GlobalId}
      (hpending : usage.pending = id :: pending)
      (hrest : Exhausts m (m.useInitializer { usage with pending } id) result) :
      Exhausts m usage result

/-- What is pending is known, and of the other known globals the initializers have been looked
at. -/
structure Traced (m : Module) (usage : Usage) : Prop where
  known : ∀ id ∈ usage.pending, id ∈ usage.globals
  looked : ∀ id ∈ usage.globals, id ∈ usage.pending ∨
    m.initializerGlobals id ⊆ usage.globals ∧ m.initializerFunctions id ⊆ usage.functions

section

variable {m : Module} {usage result : Usage}

/-- With enough steps the search does not stop before nothing is pending. -/
theorem exhausts_usageFrom {steps : Nat}
    (h : usage.workload (m.globals.ids.flatMap m.initializerGlobals) ≤ steps) :
    m.Exhausts usage (m.usageFrom steps usage) := by
  induction steps generalizing usage with
  | zero =>
      have hnone : usage.pending.length = 0 := Nat.eq_zero_of_add_eq_zero_right (Nat.le_zero.mp h)
      exact .done (List.length_eq_zero_iff.mp hnone)
  | succ steps ih =>
      cases hpending : usage.pending with
      | nil =>
          rw [usageFrom, hpending]
          exact .done hpending
      | cons id pending =>
          rw [usageFrom, hpending]
          refine .look hpending (ih ?_)
          have hless := (m.adds_useInitializer { usage with pending } id).workload _
            (m.initializerGlobals_subset id)
          unfold Usage.workload at h hless ⊢
          rw [hpending, List.length_cons] at h
          dsimp only at hless
          omega

theorem exhausts_usage (m : Module) : m.Exhausts m.directUsage m.usage :=
  exhausts_usageFrom (Nat.add_le_add_left (List.length_filter_le _ _) _)

/-- Looking at a pending global leaves its initializer followed. -/
theorem Traced.look {id : GlobalId} {pending : List GlobalId} (h : m.Traced usage)
    (hpending : usage.pending = id :: pending) :
    m.Traced (m.useInitializer { usage with pending } id) := by
  have hadds := m.adds_useInitializer { usage with pending } id
  have hold : ∀ other ∈ usage.globals,
      other ∈ (m.useInitializer { usage with pending } id).pending ∨
        m.initializerGlobals other ⊆ (m.useInitializer { usage with pending } id).globals ∧
        m.initializerFunctions other ⊆
          (m.useInitializer { usage with pending } id).functions := by
    intro other hother
    rcases h.looked other hother with hmem | ⟨hglobals, hfunctions⟩
    · rw [hpending] at hmem
      rcases List.mem_cons.mp hmem with rfl | hmem
      · exact .inr ⟨fun x hx => (hadds.globals x).mpr (.inr hx),
          fun x hx => (hadds.functions x).mpr (.inr hx)⟩
      · exact .inl ((hadds.pending other).mpr (.inl hmem))
    · exact .inr ⟨fun x hx => (hadds.globals x).mpr (.inl (hglobals hx)),
        fun x hx => (hadds.functions x).mpr (.inl (hfunctions hx))⟩
  constructor
  case known =>
    intro other hother
    rcases (hadds.pending other).mp hother with hother | ⟨hother, _⟩
    · have hwas := h.known other (hpending ▸ List.mem_cons_of_mem id hother)
      exact (hadds.globals other).mpr (.inl hwas)
    · exact (hadds.globals other).mpr (.inr hother)
  case looked =>
    intro other hother
    by_cases hknown : other ∈ usage.globals
    · exact hold other hknown
    · have hnew := ((hadds.globals other).mp hother).resolve_left hknown
      exact .inl ((hadds.pending other).mpr (.inr ⟨hnew, hknown⟩))

namespace Exhausts

theorem nodup (h : m.Exhausts usage result) (hnodup : usage.globals.Nodup) :
    result.globals.Nodup := by
  induction h with
  | done => exact hnodup
  | look _ _ ih => exact ih ((m.adds_useInitializer _ _).nodup hnodup)

/-- In the end all known globals have been looked at. -/
theorem traced (h : m.Exhausts usage result) (htraced : m.Traced usage) :
    m.Traced result ∧ result.pending = [] ∧ usage.globals ⊆ result.globals ∧
      usage.functions ⊆ result.functions := by
  induction h with
  | done hpending => exact ⟨htraced, hpending, List.Subset.refl _, List.Subset.refl _⟩
  | @look usage _ id pending hpending _ ih =>
      have hadds := m.adds_useInitializer { usage with pending } id
      obtain ⟨hlast, hnone, hglobals, hfunctions⟩ := ih (htraced.look hpending)
      exact ⟨hlast, hnone, fun x hx => hglobals ((hadds.globals x).mpr (.inl hx)),
        fun x hx => hfunctions ((hadds.functions x).mpr (.inl hx))⟩

/-- What holds of all that is known and is passed on by initializers holds in the end. -/
theorem induction {P : GlobalId → Prop} {Q : FunctionId → Prop} (h : m.Exhausts usage result)
    (hrefers : ∀ holder id, P holder → m.Refers holder id → P id)
    (hfunctions : ∀ holder id, P holder → m.RefersToFunction holder id → Q id)
    (hpending : ∀ id ∈ usage.pending, P id)
    (hknown : (∀ id ∈ usage.globals, P id) ∧ ∀ id ∈ usage.functions, Q id) :
    (∀ id ∈ result.globals, P id) ∧ ∀ id ∈ result.functions, Q id := by
  induction h with
  | done => exact hknown
  | @look usage _ id pending hnext _ ih =>
      have hadds := m.adds_useInitializer { usage with pending } id
      rw [hnext] at hpending
      obtain ⟨hid, hpending⟩ := List.forall_mem_cons.mp hpending
      have hfound : ∀ other ∈ m.initializerGlobals id, P other := fun other hother =>
        hrefers id other hid (mem_initializerGlobals.mp hother)
      refine ih (fun other hother => ?_) ⟨fun other hother => ?_, fun other hother => ?_⟩
      · rcases (hadds.pending other).mp hother with hother | ⟨hother, _⟩
        · exact hpending other hother
        · exact hfound other hother
      · exact ((hadds.globals other).mp hother).elim (hknown.1 other) (hfound other)
      · rcases (hadds.functions other).mp hother with hother | hother
        · exact hknown.2 other hother
        · exact hfunctions id other hid (mem_initializerFunctions.mp hother)

end Exhausts

end

section

variable {m : Module} {holder id : GlobalId}

/-- The search starts from what bodies mention and from external globals. -/
theorem mem_globals_directUsage : id ∈ m.directUsage.globals ↔ m.Anchored id := by
  rw [m.adds_directUsage.globals, List.mem_append, mem_externalGlobals,
    mem_flatMap_operands fun _ => Operand.mem_globals_iff]
  exact or_iff_right List.not_mem_nil

theorem mem_functions_directUsage {id : FunctionId} : id ∈ m.directUsage.functions ↔
    (∃ f, m.function? id = some f ∧ f.isDeclaration = false) ∨
      ∃ user, m.MentionsFunction user id := by
  have hmentioned : (∃ user, m.MentionsFunction user id) ↔ id ∈ (m.definitions.flatMap fun entry =>
      entry.2.operands.flatMap Operand.functions) :=
    (mem_flatMap_operands fun _ => Operand.mem_functions_iff).symm
  rw [m.adds_directUsage.functions, hmentioned, or_iff_right List.not_mem_nil]
  simp only [List.mem_flatMap, List.mem_cons, and_or_left, exists_or, Prod.exists,
    mem_definitions]
  refine or_congr_left ⟨?_, ?_⟩
  · rintro ⟨user, f, hf, rfl⟩
    exact ⟨f, hf⟩
  · rintro ⟨f, hf⟩
    exact ⟨id, f, hf, rfl⟩

theorem traced_directUsage (m : Module) : m.Traced m.directUsage := by
  have hadds := m.adds_directUsage
  constructor
  case known =>
    intro id hid
    obtain ⟨hid, _⟩ := ((hadds.pending id).mp hid).resolve_left List.not_mem_nil
    exact (hadds.globals id).mpr (.inr hid)
  case looked =>
    intro id hid
    have hfound := ((hadds.globals id).mp hid).resolve_left List.not_mem_nil
    exact .inl ((hadds.pending id).mpr (.inr ⟨hfound, List.not_mem_nil⟩))

theorem usedGlobals_nodup (m : Module) : m.usedGlobals.Nodup :=
  m.exhausts_usage.nodup (m.adds_directUsage.nodup List.nodup_nil)

/-- What is used in an initializer is used if its global is. -/
theorem mem_usedGlobals_of_refers (hholder : holder ∈ m.usedGlobals) (h : m.Refers holder id) :
    id ∈ m.usedGlobals := by
  obtain ⟨htraced, hnone, _, _⟩ := m.exhausts_usage.traced m.traced_directUsage
  rcases htraced.looked holder hholder with hpending | ⟨hglobals, _⟩
  · rw [hnone] at hpending
    cases hpending
  · exact hglobals (mem_initializerGlobals.mpr h)

theorem mem_usedFunctions_of_refers {id : FunctionId} (hholder : holder ∈ m.usedGlobals)
    (h : m.RefersToFunction holder id) : id ∈ m.usedFunctions := by
  obtain ⟨htraced, hnone, _, _⟩ := m.exhausts_usage.traced m.traced_directUsage
  rcases htraced.looked holder hholder with hpending | ⟨_, hfunctions⟩
  · rw [hnone] at hpending
    cases hpending
  · exact hfunctions (mem_initializerFunctions.mpr h)

/-- A global is used if initializers lead to it from one that is anchored. -/
theorem mem_usedGlobals_iff_anchored :
    id ∈ m.usedGlobals ↔ ∃ start, m.Anchored start ∧ m.LeadsTo start id := by
  obtain ⟨_, _, hglobals, _⟩ := m.exhausts_usage.traced m.traced_directUsage
  constructor
  · have hfound := m.exhausts_usage.induction
      (P := fun id => ∃ start, m.Anchored start ∧ m.LeadsTo start id) (Q := fun _ => True)
      (fun holder id hholder hid => ?_) (fun _ _ _ _ => trivial) (fun id hid => ?_)
      ⟨fun id hid => ?_, fun _ _ => trivial⟩
    · exact hfound.1 id
    · obtain ⟨start, hstart, hleads⟩ := hholder
      exact ⟨start, hstart, hleads.tail hid⟩
    · have hknown := m.traced_directUsage.known id hid
      exact ⟨id, mem_globals_directUsage.mp hknown, .refl⟩
    · exact ⟨id, mem_globals_directUsage.mp hid, .refl⟩
  · rintro ⟨start, hstart, hleads⟩
    induction hleads with
    | refl => exact hglobals (mem_globals_directUsage.mpr hstart)
    | tail _ hlast ih => exact mem_usedGlobals_of_refers ih hlast

/-- A global is used if a function uses it, or an external global leads to it. -/
theorem mem_usedGlobals : id ∈ m.usedGlobals ↔ (∃ user, m.Uses user id) ∨ m.Exposed id :=
  mem_usedGlobals_iff_anchored.trans exists_anchored_iff

/-- A function is used if it has a body, or is mentioned in one or in the initializer of a
used global. -/
theorem mem_usedFunctions {id : FunctionId} :
    id ∈ m.usedFunctions ↔
      (∃ f, m.function? id = some f ∧ f.isDeclaration = false) ∨
      (∃ user, m.MentionsFunction user id) ∨
      ∃ holder ∈ m.usedGlobals, m.RefersToFunction holder id := by
  obtain ⟨_, _, hglobals, hfunctions⟩ := m.exhausts_usage.traced m.traced_directUsage
  rw [← or_assoc, ← mem_functions_directUsage]
  constructor
  · have hfound := m.exhausts_usage.induction (P := fun id => id ∈ m.usedGlobals)
      (Q := fun id => id ∈ m.directUsage.functions ∨
        ∃ holder ∈ m.usedGlobals, m.RefersToFunction holder id)
      (fun holder id => mem_usedGlobals_of_refers)
      (fun holder id hholder hid => .inr ⟨holder, hholder, hid⟩)
      (fun id hid => hglobals (m.traced_directUsage.known id hid))
      ⟨fun id hid => hglobals hid, fun id => .inl⟩
    exact hfound.2 id
  · rintro (hdirect | ⟨holder, hholder, hid⟩)
    · exact hfunctions hdirect
    · exact mem_usedFunctions_of_refers hholder hid

end

end Module

end Monolith
