import Monolith.Proofs.CallGraph.Exploration
import Monolith.Proofs.Module.Census
import Monolith.Proofs.Verify.WellFormedModule

/-! # Who owns a global

The users of a global are the functions that mention it or mention a global whose
initializer leads to it. If every global has one user, a function mentions only globals
that it owns, and so do the initializers of its globals.
-/

namespace Monolith

variable {id : GlobalId} {m : Module} {user : FunctionId}

theorem Constant.mem_globals_iff {c : Constant} : id ∈ c.globals ↔ (Constant.global id).Part c :=
  Module.mem_globals.trans Constant.mem_nodes_iff

theorem Operand.mem_globals_iff {o : Operand} {id : GlobalId} :
    id ∈ o.globals ↔ ∃ c, o = .const c ∧ (Constant.global id).Part c := by
  cases o with
  | var x => simp [globals]
  | const c => simp [globals, Constant.mem_globals_iff]

namespace Module

/-- The function mentions the global, or the initializer of a global that it uses does. -/
inductive Uses (m : Module) (user : FunctionId) : GlobalId → Prop where
  | mention {f : Function} {c : Constant} {id : GlobalId} (hf : m.function? user = some f)
      (hc : .const c ∈ f.operands) (hid : (Constant.global id).Part c) : Uses m user id
  | initializer {holder : GlobalId} {g : Global} {c : Constant} {id : GlobalId}
      (hholder : Uses m user holder) (hg : m.global? holder = some g)
      (hc : g.initializer = some c) (hid : (Constant.global id).Part c) : Uses m user id

theorem Uses.exists_mention (h : m.Uses user id) :
    ∃ f c, m.function? user = some f ∧ .const c ∈ f.operands := by
  induction h with
  | mention hf hc => exact ⟨_, _, hf, hc⟩
  | initializer _ _ _ _ ih => exact ih

/-- Only a body can use a global. -/
theorem Uses.isDeclaration {m : Module} {user : FunctionId} {id : GlobalId} (h : m.Uses user id)
    {f : Function} (hf : m.function? user = some f) : f.isDeclaration = false := by
  obtain ⟨f', c, hf', hc⟩ := h.exists_mention
  obtain rfl := Option.some.inj (hf.symm.trans hf')
  obtain ⟨block, hblock, _⟩ := List.mem_flatMap.mp hc
  exact Function.isDeclaration_of_mem hblock

/-- The functions with an operand that mentions the global. -/
theorem mem_mentioners :
    user ∈ m.mentioners id ↔ ∃ f, m.function? user = some f ∧ ∃ o ∈ f.operands, id ∈ o.globals := by
  simp only [mentioners, List.mem_map, List.mem_filter, Prod.exists, Arena.mem_entries,
    List.any_eq_true, Operand.mentionsGlobal, List.contains_iff_mem]
  constructor
  · rintro ⟨_, f, ⟨hf, hmentions⟩, rfl⟩
    exact ⟨f, hf, hmentions⟩
  · rintro ⟨f, hf, hmentions⟩
    exact ⟨user, f, ⟨hf, hmentions⟩, rfl⟩

/-- The globals with an initializer that mentions the global. -/
theorem mem_holders {holder : GlobalId} :
    holder ∈ m.holders id ↔
      ∃ g c, m.global? holder = some g ∧ g.initializer = some c ∧ id ∈ c.globals := by
  simp only [holders, List.mem_map, List.mem_filter, Prod.exists, Arena.mem_entries,
    Option.any_eq_true_iff_get, Constant.mentionsGlobal, List.contains_iff_mem]
  constructor
  · rintro ⟨_, g, ⟨hg, hsome, hmentions⟩, rfl⟩
    exact ⟨g, _, hg, (Option.some_get hsome).symm, hmentions⟩
  · rintro ⟨g, c, hg, hc, hmentions⟩
    refine ⟨holder, g, ⟨hg, ?_⟩, rfl⟩
    simpa [hc] using hmentions

/-- The owner of a global is its only user. -/
theorem users_of_owner {g : Global} (h : m.owner id g = .ok user) : m.users id = [user] := by
  unfold owner at h
  split at h
  next => cases h
  next husers =>
    obtain rfl := Except.ok.inj h
    exact husers
  next => cases h

theorem users_of_mem_owners {owners : List (GlobalId × FunctionId)}
    (howners : m.owners = .ok owners) {owner : FunctionId} (hmem : (id, owner) ∈ owners) :
    m.users id = [owner] := by
  unfold Module.owners at howners
  generalize m.globals.entries = entries at howners
  induction entries generalizing owners with
  | nil =>
      obtain rfl := Except.ok.inj howners
      cases hmem
  | cons entry entries ih =>
      rw [List.mapM_cons] at howners
      obtain ⟨first, hfirst, howners⟩ := bind_eq_ok.mp howners
      obtain ⟨user, huser, hfirst⟩ := bind_eq_ok.mp hfirst
      obtain ⟨rest, hrest, howners⟩ := bind_eq_ok.mp howners
      obtain rfl := Except.ok.inj hfirst
      obtain rfl := Except.ok.inj howners
      rcases List.mem_cons.mp hmem with heq | hmem
      · obtain ⟨rfl, rfl⟩ := Prod.mk.inj heq
        exact users_of_owner huser
      · exact ih hmem hrest

/-- If owners are found, each global has one. -/
theorem exists_owner {owners : List (GlobalId × FunctionId)} (howners : m.owners = .ok owners)
    (hlive : (m.global? id).isSome = true) : ∃ owner, (id, owner) ∈ owners := by
  have hmem : id ∈ owners.map Prod.fst := by
    rw [(owners_spec howners).1]
    exact Arena.mem_ids.mpr hlive
  obtain ⟨entry, hentry, rfl⟩ := List.mem_map.mp hmem
  exact ⟨entry.2, hentry⟩

def InitializersHeld (m : Module) : Prop :=
  ∀ holder id, holder ∈ m.holders id → (m.global? id).isSome = true

theorem initializersHeld_of_verified (hverified : m.defects = []) : m.InitializersHeld := by
  intro holder id hholder
  obtain ⟨g, c, hg, hc, hmentions⟩ := mem_holders.mp hholder
  have hdefects := (defects_eq_nil_iff.mp hverified).2.2.2.1 holder g hg
  simp only [globalDefects, hc, List.append_eq_nil_iff] at hdefects
  exact (referenceDefects_eq_nil_iff.mp hdefects.1).1 id hmentions

/-- From a global to those that hold it in their initializers, and on to those that hold them,
one comes only to globals that are there. -/
def Traceable (m : Module) (id : GlobalId) : Prop := Lists m.globals.ids m.holders [id]

theorem traceable_of_live (hlive : (m.global? id).isSome = true) : m.Traceable id := by
  intro x hx y hconnects _
  obtain rfl := List.mem_singleton.mp hx
  refine Arena.mem_ids.mpr ?_
  rcases hconnects.cases_tail with rfl | ⟨z, _, hstep⟩
  · exact hlive
  · obtain ⟨g, _, hg, _⟩ := mem_holders.mp hstep
    exact Option.isSome_iff_exists.mpr ⟨g, hg⟩

/-- Where initializers mention only what is there, all users are found. -/
theorem InitializersHeld.traceable (hheld : m.InitializersHeld) (id : GlobalId) :
    m.Traceable id := by
  refine lists_of_forall (fun x hx => ?_) [id]
  obtain ⟨holder, hholder⟩ := List.exists_mem_of_ne_nil _ hx
  exact Arena.mem_ids.mpr (hheld holder x hholder)

theorem mem_users_iff (htraceable : m.Traceable id) :
    user ∈ m.users id ↔ ∃ other, Connects m.holders id other ∧ user ∈ m.mentioners other := by
  simp only [users, List.mem_eraseDups, List.mem_flatMap, mem_explore_iff htraceable,
    List.mem_singleton, exists_eq_left]

/-- The users that are found are the functions that use the global. -/
theorem Traceable.mem_users_iff_uses (htraceable : m.Traceable id) :
    user ∈ m.users id ↔ m.Uses user id := by
  rw [mem_users_iff htraceable]
  clear htraceable
  constructor
  · rintro ⟨other, hconnects, hmentions⟩
    induction hconnects using Relation.ReflTransGen.head_induction_on with
    | refl =>
        obtain ⟨f, hf, o, ho, hid⟩ := mem_mentioners.mp hmentions
        obtain ⟨c, rfl, hpart⟩ := Operand.mem_globals_iff.mp hid
        exact .mention hf ho hpart
    | head hstep _ ih =>
        obtain ⟨g, c, hg, hc, hid⟩ := mem_holders.mp hstep
        exact .initializer ih hg hc (Constant.mem_globals_iff.mp hid)
  · intro huses
    induction huses with
    | mention hf hc hid =>
        have hmentions := mem_mentioners.mpr ⟨_, hf, _, hc, Constant.mem_globals_iff.mpr hid⟩
        exact ⟨_, .refl, hmentions⟩
    | initializer _ hg hc hid ih =>
        obtain ⟨other, hconnects, hmentions⟩ := ih
        have hstep := mem_holders.mpr ⟨_, _, hg, hc, Constant.mem_globals_iff.mpr hid⟩
        exact ⟨other, .head hstep hconnects, hmentions⟩

theorem mem_users_iff_uses (hheld : m.InitializersHeld) : user ∈ m.users id ↔ m.Uses user id :=
  (hheld.traceable id).mem_users_iff_uses

section

variable {owner : FunctionId} {owners : List (GlobalId × FunctionId)}

theorem users_nodup : (m.users id).Nodup := eraseDups_nodup _

/-- A global has one owner if exactly one function uses it. -/
theorem users_eq_singleton_iff (hlive : (m.global? id).isSome = true) :
    m.users id = [owner] ↔ ∀ user, m.Uses user id ↔ user = owner := by
  rw [← List.perm_singleton, List.perm_ext_iff_of_nodup users_nodup (List.nodup_singleton owner)]
  refine forall_congr' fun user => ?_
  rw [(traceable_of_live hlive).mem_users_iff_uses, List.mem_singleton]

theorem existsUnique_of_users (hlive : (m.global? id).isSome = true) (h : m.users id = [owner]) :
    ∃! user, m.Uses user id := by
  have huses := (users_eq_singleton_iff hlive).mp h
  exact ⟨owner, (huses owner).mpr rfl, fun user huser => (huses user).mp huser⟩

/-- The owner of a global that is there is the function that uses it. -/
theorem mem_owners_iff_uses (howners : m.owners = .ok owners) :
    (id, owner) ∈ owners ↔ (m.global? id).isSome = true ∧ m.Uses owner id := by
  constructor
  · intro hmem
    have hlive : (m.global? id).isSome = true := by
      refine Arena.mem_ids.mp ?_
      rw [← (owners_spec howners).1]
      exact List.mem_map_of_mem hmem
    have huses := (users_eq_singleton_iff hlive).mp (users_of_mem_owners howners hmem)
    exact ⟨hlive, (huses owner).mpr rfl⟩
  · rintro ⟨hlive, huser⟩
    obtain ⟨other, hother⟩ := exists_owner howners hlive
    have huses := (users_eq_singleton_iff hlive).mp (users_of_mem_owners howners hother)
    rwa [(huses owner).mp huser]

end

section

variable {owners : List (GlobalId × FunctionId)} (hverified : m.defects = [])
  (howners : m.owners = .ok owners)

include hverified howners

/-- The owner is the function that uses the global. -/
theorem mem_owners_iff {owner : FunctionId} : (id, owner) ∈ owners ↔ m.Uses owner id := by
  refine (mem_owners_iff_uses howners).trans ⟨And.right, fun huses => ⟨?_, huses⟩⟩
  cases huses with
  | mention hf hc hid =>
      obtain ⟨b, block, hb, hc⟩ := mem_operands_iff.mp hc
      have hbody := Function.isDeclaration_of_mem (List.mem_of_getElem? hb)
      have hdefects := (defects_eq_nil_iff.mp hverified).2.2.2.2 owner _ hf
      have hresolves := operands_resolve_of_blockDefects (blockDefects_eq_nil hbody hdefects hb)
      exact (hresolves _ hc).1 id (Constant.mem_globals_iff.mpr hid)
  | initializer _ hg hc hid =>
      exact initializersHeld_of_verified hverified _ id
        (mem_holders.mpr ⟨_, _, hg, hc, Constant.mem_globals_iff.mpr hid⟩)

/-- If owners are found, exactly one function uses each global. -/
theorem existsUnique_user (hlive : (m.global? id).isSome = true) : ∃! owner, m.Uses owner id := by
  obtain ⟨owner, howner⟩ := exists_owner howners hlive
  refine ⟨owner, (mem_owners_iff hverified howners).mp howner, fun other hother => ?_⟩
  have hsame := users_of_mem_owners howners ((mem_owners_iff hverified howners).mpr hother)
  rw [users_of_mem_owners howners howner] at hsame
  exact (List.cons.inj hsame).1.symm

end

end Module

end Monolith
