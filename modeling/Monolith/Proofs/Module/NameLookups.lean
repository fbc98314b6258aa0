import Mathlib.Data.List.Induction
import Mathlib.Data.Nat.Find
import Mathlib.Order.Bounds.Basic
import Monolith.Proofs.Json.ReadModules
import Monolith.Proofs.Json.StoredModules
import Monolith.Proofs.Module.NameTables

/-! # What names stand for

A name is given to an entity that is added while the name is free, and it is free again when
that entity is erased, also if others with the same name are still there. These are passed
over: the name stands for none of them any more. As long as no live entity has been passed
over, a name stands for the first live entity that has it, as if the table were made anew.
-/

namespace Monolith

variable {id : Nat} {α : Type} {s : Set Nat}

/-! ## Tables -/

namespace NameTable

variable {table : NameTable}

theorem lookup_insertNew (name other : String) (id : Nat) :
    (table.insertNew name id).lookup other =
      (table.lookup other).or (if other = name then some id else none) := by
  unfold insertNew
  split
  next hsome =>
    obtain ⟨old, hold⟩ := Option.isSome_iff_exists.mp hsome
    by_cases heq : other = name
    · rw [heq, hold, Option.some_or]
    · rw [if_neg heq, Option.or_none]
  next =>
    have hnew : [(name, id)].lookup other = if other = name then some id else none := by
      rw [List.lookup_cons]
      by_cases heq : other = name
      · rw [beq_iff_eq.mpr heq, if_pos heq]
      · rw [beq_eq_false_iff_ne.mpr heq, if_neg heq]
        rfl
    rw [lookup, List.lookup_append, hnew]
    rfl

/-- In a table that is made of names, a name stands for the first entity that is listed with it. -/
theorem lookup_ofNames (names : List (String × Nat)) (name : String) :
    (ofNames names).lookup name = names.lookup name := by
  have hfold : ∀ table : NameTable,
      (names.foldl (fun table entry => table.insertNew entry.1 entry.2) table).lookup name =
        (table.lookup name).or (names.lookup name) := by
    induction names with
    | nil => exact fun table => (Option.or_none).symm
    | cons entry names ih =>
        intro table
        rw [List.foldl_cons, ih, lookup_insertNew, Option.or_assoc, List.lookup_cons]
        by_cases heq : name = entry.1
        · rw [if_pos heq, beq_iff_eq.mpr heq, Option.some_or]
        · rw [if_neg heq, beq_eq_false_iff_ne.mpr heq, Option.none_or]
  exact (hfold {}).trans (Option.none_or)

/-- The name stands for the first live entity that has it, and for none if there is none. -/
structure StandsForFirst {α : Type} (table : NameTable) (find : Nat → Option α)
    (label : α → String) (name : String) : Prop where
  first : ∀ id, table.lookup name = some id ↔
    IsLeast {other | ∃ a, find other = some a ∧ label a = name} id
  none : table.lookup name = none ↔ ∀ id a, find id = some a → label a ≠ name

end NameTable

theorem Arena.get?_append_singleton (arena : Arena α) (slot : Option α) (id : Nat) :
    Arena.get? (arena ++ [slot]) id = if id = arena.length then slot else arena.get? id := by
  unfold get?
  rcases Nat.lt_trichotomy id arena.length with hlt | rfl | hgt
  · rw [List.getElem?_append_left hlt, if_neg (Nat.ne_of_lt hlt)]
  · simp
  · rw [if_neg (Nat.ne_of_gt hgt), List.getElem?_eq_none (by rw [List.length_append]; exact hgt),
      List.getElem?_eq_none (Nat.le_of_lt hgt)]

theorem Arena.get?_mapLive_eq_some_iff {β : Type} {arena : Arena α} {f : α → β} {b : β} :
    (arena.mapLive f).get? id = some b ↔ ∃ a, arena.get? id = some a ∧ f a = b := by
  rw [get?_mapLive, Option.map_eq_some_iff]

theorem Arena.lt_of_get?_eq_some {arena : Arena α} {a : α} (h : arena.get? id = some a) :
    id < arena.length :=
  (List.getElem?_eq_some_iff.mp (get?_eq_some_iff.mp h)).1

/-! ## Least numbers -/

/-- A set of numbers is empty or has a least one. -/
theorem exists_isLeast {x : Nat} (hx : x ∈ s) : ∃ least, IsLeast s least := by
  classical
  have hsome : ∃ x, x ∈ s := ⟨x, hx⟩
  exact ⟨Nat.find hsome, Nat.find_spec hsome, fun _ hy => Nat.find_min' hsome hy⟩

/-- A number above all others is the least one only if there are no others. -/
theorem isLeast_insert_iff {last : Nat} (h : ∀ x ∈ s, x < last) :
    IsLeast (insert last s) id ↔ IsLeast s id ∨ ((∀ x, x ∉ s) ∧ last = id) := by
  constructor
  · rintro ⟨rfl | hid, hlower⟩
    · refine .inr ⟨fun x hx => ?_, rfl⟩
      exact Nat.lt_irrefl x (Nat.lt_of_lt_of_le (h x hx) (hlower (.inr hx)))
    · exact .inl ⟨hid, fun x hx => hlower (.inr hx)⟩
  · rintro (hleast | ⟨hempty, rfl⟩)
    · refine ⟨.inr hleast.1, ?_⟩
      rintro x (rfl | hx)
      · exact Nat.le_of_lt (h id hleast.1)
      · exact hleast.2 hx
    · refine ⟨.inl rfl, ?_⟩
      rintro x (rfl | hx)
      · exact Nat.le_refl x
      · exact absurd hx (hempty x)

/-- The least number stays when another one is taken out. -/
theorem isLeast_diff_singleton_iff {gone : Nat} (h : ¬IsLeast s gone) :
    IsLeast (s \ {gone}) id ↔ IsLeast s id := by
  constructor
  · rintro ⟨⟨hid, _⟩, hlower⟩
    obtain ⟨least, hleast⟩ := exists_isLeast hid
    have hkept : least ∈ s \ {gone} := ⟨hleast.1, fun heq => h (heq ▸ hleast)⟩
    exact Nat.le_antisymm (hlower hkept) (hleast.2 hid) ▸ hleast
  · intro hleast
    exact ⟨⟨hleast.1, fun heq => h (heq ▸ hleast)⟩, fun x hx => hleast.2 hx.1⟩

/-! ## Registers -/

/-- The names of the entities in an arena, and the table of the names. -/
structure Register where
  names : Arena String
  table : NameTable

namespace Register

inductive Change where
  | add (name : String)
  | erase (id : Nat)

def change (r : Register) : Change → Register
  | .add name =>
      { names := r.names ++ [some name], table := r.table.insertNew name r.names.length }
  | .erase id =>
      match r.names.get? id with
      | none => r
      | some name => { names := r.names.erase id, table := r.table.remove name id }

def Exact (r : Register) (name : String) : Prop :=
  ∀ id, r.table.lookup name = some id ↔ IsLeast {other | r.names.get? other = some name} id

def rebuilt (r : Register) : Register :=
  { r with table := .ofNames (r.names.entries.map Prod.swap) }

variable {r : Register} {name : String}

theorem change_erase_of_none (h : r.names.get? id = none) : r.change (.erase id) = r := by
  rw [change, h]

theorem change_erase_of_some (h : r.names.get? id = some name) :
    r.change (.erase id) = { names := r.names.erase id, table := r.table.remove name id } := by
  rw [change, h]

/-- Erasing an entity by its name, where the entities are not only their names. -/
theorem change_erase_mapLive (arena : Arena α) (label : α → String) (table : NameTable) (id : Nat) :
    (Register.mk (arena.mapLive label) table).change (.erase id) =
      (arena.get? id).elim (Register.mk (arena.mapLive label) table) fun a =>
        Register.mk ((arena.erase id).mapLive label) (table.remove (label a) id) := by
  have hget : (arena.mapLive label).get? id = (arena.get? id).map label := Arena.get?_mapLive
  cases ha : arena.get? id with
  | none =>
      rw [ha] at hget
      exact change_erase_of_none hget
  | some a =>
      rw [ha] at hget
      rw [change_erase_of_some hget, Option.elim_some, Arena.mapLive_erase]

/-- The live entities with the name that are not passed over. -/
def candidates (r : Register) (name : String) (passed : Nat → Prop) : Set Nat :=
  {other | r.names.get? other = some name ∧ ¬passed other}

section

variable {passed : Nat → Prop}

theorem candidates_add_of_ne {new : String} (h : new ≠ name) :
    (r.change (.add new)).candidates name passed = r.candidates name passed := by
  ext other
  have hget := r.names.get?_append_singleton (some new) other
  refine and_congr_left fun _ => ?_
  rw [change, hget]
  split
  next heq => simp [heq, h, Arena.get?]
  next => rfl

theorem candidates_add (h : ¬passed r.names.length) :
    (r.change (.add name)).candidates name passed =
      insert r.names.length (r.candidates name passed) := by
  ext other
  have hget := r.names.get?_append_singleton (some name) other
  rw [candidates, Set.mem_ofPred_eq, change, hget]
  by_cases heq : other = r.names.length
  · simp [heq, h]
  · simp [heq, candidates]

theorem candidates_erase (names : Arena String) (table : NameTable) (id : Nat) :
    (Register.mk (names.erase id) table).candidates name passed =
      (Register.mk names table).candidates name passed \ {id} := by
  ext other
  simp only [candidates, Arena.get?_erase, Set.mem_ofPred_eq, Set.mem_sdiff, Set.mem_singleton_iff]
  by_cases heq : id = other
  · simp [heq]
  · simp [heq, Ne.symm heq]

end

/-- The name stands for the first of its live entities that are not passed over, and those that
are passed over come before the others. -/
structure Follows (r : Register) (name : String) (passed : Nat → Prop) : Prop where
  first : ∀ id, r.table.lookup name = some id ↔ IsLeast (r.candidates name passed) id
  before : ∀ other, passed other → ∀ id ∈ r.candidates name passed, other < id
  lt : ∀ other, passed other → other < r.names.length

theorem Exact.follows (h : r.Exact name) : r.Follows name fun _ => False where
  first id := by simpa [candidates] using h id
  before _ hother := hother.elim
  lt _ hother := hother.elim

namespace Follows

variable {passed : Nat → Prop}

theorem mem_of_lookup (h : r.Follows name passed) (hlookup : r.table.lookup name = some id) :
    id ∈ r.candidates name passed :=
  ((h.first id).mp hlookup).1

theorem lookup_eq_none_iff (h : r.Follows name passed) :
    r.table.lookup name = none ↔ ∀ id, id ∉ r.candidates name passed := by
  rw [Option.eq_none_iff_forall_ne_some]
  constructor
  · intro hnone id hid
    obtain ⟨least, hleast⟩ := exists_isLeast hid
    exact hnone least ((h.first least).mpr hleast)
  · exact fun hempty id hid => hempty id (h.mem_of_lookup hid)

/-- A new entity comes last, so the name stands for it only if there is no other. -/
theorem add (h : r.Follows name passed) (new : String) :
    (r.change (.add new)).Follows name passed := by
  have hlookup : (r.change (.add new)).table.lookup name =
      (r.table.lookup name).or (if name = new then some r.names.length else none) :=
    NameTable.lookup_insertNew new name r.names.length
  have hlength : (r.change (.add new)).names.length = r.names.length + 1 := List.length_append
  have hnew : ¬passed r.names.length := fun hpassed => Nat.lt_irrefl _ (h.lt _ hpassed)
  have hold : ∀ id ∈ r.candidates name passed, id < r.names.length :=
    fun id hid => Arena.lt_of_get?_eq_some hid.1
  constructor
  case first =>
    intro id
    rw [hlookup]
    by_cases heq : new = name
    · subst heq
      rw [if_pos rfl, candidates_add hnew, isLeast_insert_iff hold, ← h.first,
        ← h.lookup_eq_none_iff]
      cases r.table.lookup new <;> simp
    · rw [if_neg (Ne.symm heq), Option.or_none, candidates_add_of_ne heq]
      exact h.first id
  case before =>
    intro other hother id hid
    by_cases heq : new = name
    · subst heq
      rw [candidates_add hnew] at hid
      rcases hid with rfl | hid
      · exact h.lt other hother
      · exact h.before other hother id hid
    · rw [candidates_add_of_ne heq] at hid
      exact h.before other hother id hid
  case lt =>
    intro other hother
    rw [hlength]
    exact Nat.lt_succ_of_lt (h.lt other hother)

/-- If the name does not stand for the entity that is erased, it stands for the same as before. -/
theorem erase_of_ne (h : r.Follows name passed) (hne : r.table.lookup name ≠ some id) :
    (r.change (.erase id)).Follows name passed := by
  cases hid : r.names.get? id with
  | none =>
      rw [change_erase_of_none hid]
      exact h
  | some old =>
      have hlookup : (r.table.remove old id).lookup name = r.table.lookup name := by
        rw [NameTable.lookup_remove, if_neg]
        rintro ⟨rfl, hold⟩
        exact hne hold
      have hlength : (r.names.erase id).length = r.names.length := List.length_set
      rw [change_erase_of_some hid]
      constructor
      case first =>
        intro other
        have hleast : ¬IsLeast (r.candidates name passed) id := (h.first id).not.mp hne
        rw [hlookup, candidates_erase, h.first]
        exact (isLeast_diff_singleton_iff hleast).symm
      case before =>
        intro other hother kept hkept
        rw [candidates_erase] at hkept
        exact h.before other hother kept hkept.1
      case lt =>
        intro other hother
        rw [hlength]
        exact h.lt other hother

/-- Erasing the entity that the name stands for passes over all others with the name. -/
theorem erase (h : r.Follows name passed) (id : Nat) :
    (r.change (.erase id)).Follows name fun other =>
      passed other ∨ (r.table.lookup name = some id ∧ other ≠ id ∧
        r.names.get? other = some name) := by
  by_cases hstands : r.table.lookup name = some id
  · have hid := h.mem_of_lookup hstands
    have hlength : (r.names.erase id).length = r.names.length := List.length_set
    rw [change_erase_of_some hid.1]
    simp only [hstands, true_and]
    -- the table does not look for the next entity, so none may be left to stand for
    have hnone : ∀ table other, other ∉ (Register.mk (r.names.erase id) table).candidates name
        fun other => passed other ∨ (other ≠ id ∧ r.names.get? other = some name) := by
      intro table other hother
      rw [candidates_erase] at hother
      exact hother.1.2 (.inr ⟨hother.2, hother.1.1⟩)
    constructor
    case first =>
      intro other
      rw [NameTable.lookup_remove, if_pos ⟨rfl, hstands⟩]
      constructor
      · intro hother
        cases hother
      · exact fun hleast => absurd hleast.1 (hnone _ other)
    case before => exact fun _ _ other hother => absurd hother (hnone _ other)
    case lt =>
      rintro other (hother | ⟨_, hother⟩)
      · exact hlength ▸ h.lt other hother
      · exact hlength ▸ Arena.lt_of_get?_eq_some hother
  · simp only [hstands, false_and, or_false]
    exact h.erase_of_ne hstands

/-- The name stands for the first entity just if none that is live has been passed over. -/
theorem exact_iff (h : r.Follows name passed) :
    r.Exact name ↔ ∀ id, r.names.get? id = some name → ¬passed id := by
  constructor
  · intro hexact id hid hpassed
    obtain ⟨least, hleast⟩ := exists_isLeast (s := {other | r.names.get? other = some name}) hid
    -- what is passed over comes first, so the name would have to stand for it
    have hlt := h.before id hpassed least (h.mem_of_lookup ((hexact least).mpr hleast))
    exact Nat.lt_irrefl id (Nat.lt_of_lt_of_le hlt (hleast.2 hid))
  · intro hnone id
    have hset : r.candidates name passed = {other | r.names.get? other = some name} := by
      ext other
      exact and_iff_left_of_imp (hnone other)
    rw [h.first, hset]

end Follows

/-! ## Tables made anew -/

theorem lookup_eq_some_iff_isLeast {entries : List (String × Nat)}
    (hsorted : (entries.map Prod.snd).Pairwise (· < ·)) :
    entries.lookup name = some id ↔ IsLeast {other | (name, other) ∈ entries} id := by
  induction entries with
  | nil => exact ⟨fun h => (by cases h), fun h => absurd h.1 List.not_mem_nil⟩
  | cons entry entries ih =>
      obtain ⟨hfirst, hrest⟩ := List.pairwise_cons.mp hsorted
      rw [List.lookup_cons]
      by_cases heq : name = entry.1
      · have hleast : IsLeast {other | (name, other) ∈ entry :: entries} entry.2 := by
          refine ⟨by simp [heq], fun other hother => ?_⟩
          rcases List.mem_cons.mp hother with hother | hother
          · exact Nat.le_of_eq (congrArg Prod.snd hother).symm
          · exact Nat.le_of_lt (hfirst other (List.mem_map_of_mem hother))
        rw [beq_iff_eq.mpr heq]
        exact ⟨fun h => Option.some.inj h ▸ hleast, fun h => congrArg some (hleast.unique h)⟩
      · have hset : {other | (name, other) ∈ entry :: entries} =
            {other | (name, other) ∈ entries} := by
          ext other
          refine ⟨fun hother => ?_, fun hother => List.mem_cons_of_mem entry hother⟩
          exact (List.mem_cons.mp hother).resolve_left fun h => heq (congrArg Prod.fst h)
        rw [beq_eq_false_iff_ne.mpr heq, hset]
        exact ih hrest

theorem exact_rebuilt (r : Register) (name : String) : r.rebuilt.Exact name := by
  intro id
  have hsorted : ((r.names.entries.map Prod.swap).map Prod.snd).Pairwise (· < ·) := by
    rw [List.map_map]
    exact r.names.ids_pairwise_lt
  have hmem : ∀ other, (name, other) ∈ r.names.entries.map Prod.swap ↔
      r.names.get? other = some name := by
    intro other
    rw [← Arena.mem_entries]
    constructor
    · intro h
      obtain ⟨entry, hentry, heq⟩ := List.mem_map.mp h
      rwa [← Prod.swap_swap entry, heq] at hentry
    · exact fun h => List.mem_map.mpr ⟨_, h, rfl⟩
  have hlookup : r.rebuilt.table.lookup name = (r.names.entries.map Prod.swap).lookup name :=
    NameTable.lookup_ofNames _ name
  rw [hlookup, lookup_eq_some_iff_isLeast hsorted]
  simp only [hmem]
  rfl

theorem exact_iff_lookup_eq : r.Exact name ↔
    r.table.lookup name = r.rebuilt.table.lookup name := by
  have hrebuilt := r.exact_rebuilt name
  constructor
  · intro h
    exact Option.ext fun id => (h id).trans (hrebuilt id).symm
  · intro h id
    rw [h]
    exact hrebuilt id

/-- In terms of the entities: the first one that is live, and none if there is none. -/
theorem exact_iff_standsForFirst {arena : Arena α} {label : α → String} {table : NameTable} :
    (Register.mk (arena.mapLive label) table).Exact name ↔
      table.StandsForFirst arena.get? label name := by
  simp only [Exact, Arena.get?_mapLive_eq_some_iff]
  refine ⟨fun hfirst => ⟨hfirst, ?_⟩, fun h => h.first⟩
  constructor
  · intro hnone id a ha hname
    obtain ⟨least, hleast⟩ := exists_isLeast
      (s := {other | ∃ a, arena.get? other = some a ∧ label a = name}) ⟨a, ha, hname⟩
    rw [(hfirst least).mpr hleast] at hnone
    cases hnone
  · intro hnone
    rw [Option.eq_none_iff_forall_ne_some]
    intro id hid
    obtain ⟨a, ha, hname⟩ := ((hfirst id).mp hid).1
    exact hnone id a ha hname

theorem Follows.standsForFirst_iff {arena : Arena α} {label : α → String} {table : NameTable}
    {passed : Nat → Prop} (h : (Register.mk (arena.mapLive label) table).Follows name passed) :
    table.StandsForFirst arena.get? label name ↔
      ∀ id a, arena.get? id = some a → label a = name → ¬passed id := by
  rw [← exact_iff_standsForFirst, h.exact_iff]
  simp only [Arena.get?_mapLive_eq_some_iff, forall_exists_index, and_imp]

end Register

/-! ## Modules -/

namespace Module

inductive Edit where
  | addFunction (f : Function)
  | addGlobal (g : Global)
  | eraseFunction (id : FunctionId)
  | eraseGlobal (id : GlobalId)

def edit (m : Module) : Edit → Module
  | .addFunction f => (m.addFunction f).1
  | .addGlobal g => (m.addGlobal g).1
  | .eraseFunction id => m.eraseFunction id
  | .eraseGlobal id => m.eraseGlobal id

def edited (m : Module) (edits : List Edit) : Module := edits.foldl edit m

theorem edited_append_singleton (m : Module) (edits : List Edit) (e : Edit) :
    m.edited (edits ++ [e]) = (m.edited edits).edit e := List.foldl_concat _ _ _ _

/-- One kind of entities: their register, and what a change of the module does to it. -/
structure Side where
  register : Module → Register
  change? : Edit → Option Register.Change
  register_edit : ∀ m e, register (m.edit e) = (change? e).elim (register m) (register m).change
  register_rebuildNames : ∀ m, register m.rebuildNames = (register m).rebuilt

namespace Side

def functions : Side where
  register m := { names := m.functions.mapLive Function.name, table := m.functionNames }
  change?
    | .addFunction f => some (.add f.name)
    | .eraseFunction id => some (.erase id)
    | .addGlobal _ | .eraseGlobal _ => none
  register_edit m e := by
    cases e with
    | addFunction f => simp [edit, addFunction, Register.change, Arena.mapLive]
    | addGlobal g => rfl
    | eraseFunction id =>
        refine Eq.trans ?_ (Register.change_erase_mapLive _ _ _ id).symm
        simp only [edit, eraseFunction, function?]
        cases m.functions.get? id <;> rfl
    | eraseGlobal id =>
        simp only [edit, eraseGlobal]
        cases m.global? id <;> rfl
  register_rebuildNames m := by
    rw [Register.rebuilt, Arena.entries_mapLive, List.map_map]
    rfl

def globals : Side where
  register m := { names := m.globals.mapLive Global.name, table := m.globalNames }
  change?
    | .addGlobal g => some (.add g.name)
    | .eraseGlobal id => some (.erase id)
    | .addFunction _ | .eraseFunction _ => none
  register_edit m e := by
    cases e with
    | addFunction f => rfl
    | addGlobal g => simp [edit, addGlobal, Register.change, Arena.mapLive]
    | eraseFunction id =>
        simp only [edit, eraseFunction]
        cases m.function? id <;> rfl
    | eraseGlobal id =>
        refine Eq.trans ?_ (Register.change_erase_mapLive _ _ _ id).symm
        simp only [edit, eraseGlobal, global?]
        cases m.globals.get? id <;> rfl
  register_rebuildNames m := by
    rw [Register.rebuilt, Arena.entries_mapLive, List.map_map]
    rfl

/-- The entity had the name when the one that the name stood for was erased. -/
def PassedOver (side : Side) (m : Module) (edits : List Edit) (name : String) (other : Nat) :
    Prop :=
  ∃ before e after id, edits = before ++ e :: after ∧ side.change? e = some (.erase id) ∧
    (side.register (m.edited before)).table.lookup name = some id ∧ other ≠ id ∧
    (side.register (m.edited before)).names.get? other = some name

variable {side : Side} {m : Module} {name : String}

theorem passedOver_append_singleton {edits : List Edit} {last : Edit} {other : Nat} :
    side.PassedOver m (edits ++ [last]) name other ↔
      side.PassedOver m edits name other ∨
        ∃ id, side.change? last = some (.erase id) ∧
          (side.register (m.edited edits)).table.lookup name = some id ∧ other ≠ id ∧
          (side.register (m.edited edits)).names.get? other = some name := by
  constructor
  · rintro ⟨before, e, after, id, heq, h⟩
    rcases List.eq_nil_or_concat after with rfl | ⟨init, final, rfl⟩
    · obtain ⟨rfl, hlast⟩ := List.append_inj' heq rfl
      obtain rfl := (List.cons.inj hlast).1
      exact .inr ⟨id, h⟩
    · rw [List.concat_eq_append, ← List.cons_append, ← List.append_assoc] at heq
      exact .inl ⟨before, e, init, id, (List.append_inj' heq rfl).1, h⟩
  · rintro (⟨before, e, after, id, rfl, h⟩ | ⟨id, h⟩)
    · exact ⟨before, e, after ++ [last], id, by simp, h⟩
    · exact ⟨edits, last, [], id, rfl, h⟩

/-- If names stand for the first entities at the start, they follow what is passed over. -/
theorem follows (h : (side.register m).Exact name) (edits : List Edit) :
    (side.register (m.edited edits)).Follows name (side.PassedOver m edits name) := by
  induction edits using List.reverseRecOn with
  | nil =>
      have hnone : side.PassedOver m [] name = fun _ => False := by
        funext other
        simp [PassedOver]
      rw [hnone]
      exact h.follows
  | append_singleton edits last ih =>
      have hpassed := funext fun other =>
        propext (@passedOver_append_singleton side m name edits last other)
      rw [hpassed, edited_append_singleton, side.register_edit]
      cases hchange : side.change? last with
      | none => simpa using ih
      | some change =>
          cases change with
          | add new => simpa using ih.add new
          | erase id =>
              simp only [Option.some.injEq, Register.Change.erase.injEq, exists_eq_left']
              exact ih.erase id

theorem exact_of_rebuildNames (side : Side) (hnames : m.rebuildNames = m) (name : String) :
    (side.register m).Exact name := by
  rw [← hnames, side.register_rebuildNames]
  exact (side.register m).exact_rebuilt name

/-- What a name stands for is live and has the name. -/
theorem get?_of_lookup {edits : List Edit} (h : (side.register m).Exact name)
    (hlookup : (side.register (m.edited edits)).table.lookup name = some id) :
    (side.register (m.edited edits)).names.get? id = some name :=
  ((side.follows h edits).mem_of_lookup hlookup).1

theorem exact_iff_lookup_rebuildNames :
    (side.register m).Exact name ↔
      (side.register m).table.lookup name =
        (side.register m.rebuildNames).table.lookup name := by
  rw [side.register_rebuildNames]
  exact Register.exact_iff_lookup_eq

end Side

/-- The tables of a new module and of one that was loaded are those of its arenas. -/
theorem rebuildNames_of_start {start : Module}
    (h : (∃ name, start = { name }) ∨ ∃ text, read? text = some start) :
    start.rebuildNames = start := by
  rcases h with ⟨name, rfl⟩ | ⟨text, h⟩
  · rfl
  · obtain ⟨json, _, hdecode⟩ := Option.bind_eq_some_iff.mp h
    exact (stored_of_reads ⟨json, hdecode⟩).2.2

/-- When a new or loaded module has been changed, a name stands for the first live entity that
has it just if no live entity with that name has been passed over, and just if it stands for the
same in tables made anew, which is what storing and loading the module gives. Whatever has been
passed over, a name never stands for an entity that is erased or has another name. -/
theorem names_stand_for_first_iff {start m : Module} {edits : List Edit}
    (hstart : (∃ name, start = { name }) ∨ ∃ text, read? text = some start)
    (hm : start.edited edits = m) (name : String) :
    (m.functionNames.StandsForFirst m.function? Function.name name ↔
      ∀ id f, m.function? id = some f → f.name = name →
        ¬Side.functions.PassedOver start edits name id) ∧
    (m.globalNames.StandsForFirst m.global? Global.name name ↔
      ∀ id g, m.global? id = some g → g.name = name →
        ¬Side.globals.PassedOver start edits name id) ∧
    (m.functionNames.StandsForFirst m.function? Function.name name ↔
      m.lookupFunction name = m.rebuildNames.lookupFunction name) ∧
    (m.globalNames.StandsForFirst m.global? Global.name name ↔
      m.lookupGlobal name = m.rebuildNames.lookupGlobal name) ∧
    (∀ id, m.lookupFunction name = some id → ∃ f, m.function? id = some f ∧ f.name = name) ∧
    (∀ id, m.lookupGlobal name = some id → ∃ g, m.global? id = some g ∧ g.name = name) ∧
    (AreWords m.ids → m.toJson.nesting ≤ Json.nestingLimit →
      read? m.toJson.compact = some m.rebuildNames ∧
        read? m.toJson.pretty = some m.rebuildNames) := by
  have hnames := rebuildNames_of_start hstart
  have hfunctions := Side.functions.exact_of_rebuildNames hnames name
  have hglobals := Side.globals.exact_of_rebuildNames hnames name
  subst hm
  refine ⟨(Side.functions.follows hfunctions edits).standsForFirst_iff,
    (Side.globals.follows hglobals edits).standsForFirst_iff, ?_, ?_, fun id hid => ?_,
    fun id hid => ?_, fun hids hnesting => ⟨?_, ?_⟩⟩
  · exact Register.exact_iff_standsForFirst.symm.trans Side.functions.exact_iff_lookup_rebuildNames
  · exact Register.exact_iff_standsForFirst.symm.trans Side.globals.exact_iff_lookup_rebuildNames
  · exact Arena.get?_mapLive_eq_some_iff.mp (Side.functions.get?_of_lookup hfunctions hid)
  · exact Arena.get?_mapLive_eq_some_iff.mp (Side.globals.get?_of_lookup hglobals hid)
  · exact read?_write Json.Style.plain_compact hids hnesting
  · exact read?_write Json.Style.plain_pretty hids hnesting

def twin : Function := .define "main" .void

/-- Of two functions with one name, the second is erased. -/
def firstKept : List Edit := [.addFunction twin, .addFunction twin, .eraseFunction 1]

theorem names_stand_for_first_kept :
    (edited { name := "twins" } firstKept).functionNames.StandsForFirst
      (edited { name := "twins" } firstKept).function? Function.name "main" :=
  (names_stand_for_first_iff (.inl ⟨"twins", rfl⟩) rfl "main").2.2.1.mpr (by decide)

/-- Of two functions with one name, the first is erased, and the name stands for none. -/
def firstErased : Module :=
  edited { name := "twins" } [.addFunction twin, .addFunction twin, .eraseFunction 0]

/-- The second function has the name, and the name stands for it only after the module has been
stored and loaded. If the name is used again before that, it stands for a later function. -/
theorem second_passed_over :
    firstErased.function? 1 = some twin ∧ firstErased.lookupFunction "main" = none ∧
      ¬firstErased.functionNames.StandsForFirst firstErased.function? Function.name "main" ∧
      (∃ loaded, read? firstErased.toJson.compact = some loaded ∧
        loaded.lookupFunction "main" = some 1) ∧
      (firstErased.addFunction twin).1.lookupFunction "main" = some 2 := by
  have htwin : firstErased.function? 1 = some twin := by decide
  have hnone : firstErased.lookupFunction "main" = none := by decide
  refine ⟨htwin, hnone, fun hfirst => ?_, ⟨firstErased.rebuildNames, ?_, by decide⟩, by decide⟩
  · exact hfirst.none.mp hnone 1 twin htwin rfl
  · exact read?_write Json.Style.plain_compact (by decide) (by decide)

end Module

end Monolith
