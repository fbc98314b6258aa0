import Monolith.Proofs.Flattening.FailingPasses
import Monolith.Proofs.Pruning.PrunedModule

/-! # Resolving owners

In every module, owners are found just if each global has exactly one user. If some global has
not, the first such global is reported, and it is told whether no function uses it or which ones
do. A global has the same owner as what its initializer mentions.
-/

namespace Monolith.Module

/-- Why a global has no owner: no function uses it, or several do, of which each is named once. -/
inductive LacksOwner (m : Module) (id : GlobalId) (name : String) : Failure → Prop where
  | unused (hunused : ∀ user, ¬m.Uses user id) :
      LacksOwner m id name (.rejected (.unownedGlobal name))
  | shared {users : List FunctionId} (hseveral : 2 ≤ users.length) (hnodup : users.Nodup)
      (husers : ∀ user, user ∈ users ↔ m.Uses user id) :
      LacksOwner m id name (.rejected (.sharedGlobal name (users.map m.functionName)))

section

variable {m : Module} {id : GlobalId}

/-! ## The users of one global -/

/-- The users are found by working off the globals that lead to this one. -/
theorem exists_explores (hlive : (m.global? id).isSome = true) :
    ∃ found, Explores m.holders [id] [] found ∧
      m.users id = (found.reverse.flatMap m.mentioners).eraseDups := by
  refine ⟨_, explores_explore (traceable_of_live hlive), ?_⟩
  rw [List.reverse_reverse]
  rfl

theorem lacksOwner_of_owner {g : Global} (hg : m.global? id = some g) {failure : Failure}
    (h : m.owner id g = .error failure) : m.LacksOwner id g.name failure := by
  have huses : ∀ user, user ∈ m.users id ↔ m.Uses user id := fun user =>
    (traceable_of_live (Option.isSome_iff_exists.mpr ⟨g, hg⟩)).mem_users_iff_uses
  have hnodup : (m.users id).Nodup := users_nodup
  unfold Module.owner at h
  generalize m.users id = users at h huses hnodup
  split at h
  next =>
    obtain rfl := Except.error.inj h
    exact .unused fun user huser => List.not_mem_nil ((huses user).mpr huser)
  next => cases h
  next hnone hone =>
    obtain rfl := Except.error.inj h
    refine .shared ?_ hnodup huses
    by_contra hfew
    rcases users with _ | ⟨first, _ | ⟨_, _⟩⟩
    · exact hnone rfl
    · exact hone first rfl
    · simp at hfew

/-- A global that lacks an owner has not exactly one user. -/
theorem LacksOwner.not_existsUnique {name : String} {failure : Failure}
    (h : m.LacksOwner id name failure) : ¬∃! user, m.Uses user id := by
  rintro ⟨owner, howner, honly⟩
  cases h with
  | unused hunused => exact hunused owner howner
  | @shared users hseveral hnodup husers =>
      have hsub : users ⊆ [owner] := fun user huser =>
        List.mem_singleton.mpr (honly user ((husers user).mp huser))
      have hle : users.length ≤ 1 := (hnodup.subperm hsub).length_le
      omega

/-! ## All globals -/

theorem owner_of_pair {g : Global} {entry : GlobalId × FunctionId}
    (h : (do return (id, ← m.owner id g) : Except Failure (GlobalId × FunctionId)) = .ok entry) :
    m.owner id g = .ok entry.2 := by
  obtain ⟨owner, howner, hentry⟩ := bind_eq_ok.mp h
  obtain rfl := Except.ok.inj hentry
  exact howner

/-- If owners are not found, the first global without an owner is reported. -/
theorem exists_lacksOwner {failure : Failure} (h : m.owners = .error failure) :
    ∃ id g, m.global? id = some g ∧ m.LacksOwner id g.name failure ∧
      ∀ earlier g', earlier < id → m.global? earlier = some g' → ∃! user, m.Uses user earlier := by
  obtain ⟨front, ⟨id, g⟩, back, hentries, hfront, hfails⟩ := first_of_mapM_eq_error h
  have hmem : ∀ entry, entry ∈ front ++ (id, g) :: back → m.global? entry.1 = some entry.2 :=
    fun entry hentry => Arena.mem_entries.mp (hentries ▸ hentry)
  have hg := hmem (id, g) (List.mem_append_right front List.mem_cons_self)
  have howner : m.owner id g = .error failure := by
    rcases bind_eq_error.mp hfails with howner | ⟨_, _, hpure⟩
    · exact howner
    · cases hpure
  refine ⟨id, g, hg, lacksOwner_of_owner hg howner, fun earlier g' hlt hg' => ?_⟩
  -- ids come by size, so an earlier global stands in front
  have hsorted := m.globals.ids_pairwise_lt
  have hearlier : (earlier, g') ∈ front := by
    have hentry : (earlier, g') ∈ front ++ (id, g) :: back := hentries ▸ Arena.mem_entries.mpr hg'
    rw [Arena.ids, hentries, List.map_append, List.pairwise_append, List.map_cons,
      List.pairwise_cons] at hsorted
    rcases List.mem_append.mp hentry with hentry | hentry
    · exact hentry
    · rcases List.mem_cons.mp hentry with heq | hentry
      · obtain ⟨rfl, rfl⟩ := Prod.mk.inj heq
        exact absurd hlt (Nat.lt_irrefl earlier)
      · have hafter := hsorted.2.1.1 earlier (List.mem_map_of_mem hentry)
        exact absurd hlt (Nat.lt_asymm hafter)
  obtain ⟨entry, hok⟩ := hfront (earlier, g') hearlier
  exact existsUnique_of_users (Option.isSome_iff_exists.mpr ⟨g', hg'⟩)
    (users_of_owner (owner_of_pair hok))

end

/-- The search for the users of each global comes to its end. Owners are found just if every
global has exactly one user; they are then listed by the ids of the globals, and globals that an
initializer mentions have the same owner. If owners are not found, the global with the lowest id
that has not exactly one user is reported. -/
theorem owners_exact (m : Module) :
    (∀ id, (m.global? id).isSome = true → ∃ found, Explores m.holders [id] [] found ∧
      m.users id = (found.reverse.flatMap m.mentioners).eraseDups) ∧
    ((∃ owners, m.owners = .ok owners) ↔
      ∀ id, (m.global? id).isSome = true → ∃! user, m.Uses user id) ∧
    (∀ owners, m.owners = .ok owners →
      (owners.map Prod.fst).Pairwise (· < ·) ∧
      (∀ id owner, (id, owner) ∈ owners ↔
        (m.global? id).isSome = true ∧ m.Uses owner id) ∧
      ∀ holder id owner, (holder, owner) ∈ owners → m.Refers holder id →
        (m.global? id).isSome = true → (id, owner) ∈ owners) ∧
    ∀ failure, m.owners = .error failure →
      ∃ id g, m.global? id = some g ∧ m.LacksOwner id g.name failure ∧
        ∀ earlier, earlier < id → (m.global? earlier).isSome = true →
          ∃! user, m.Uses user earlier := by
  refine ⟨fun id => exists_explores, ⟨?_, fun hunique => ?_⟩, fun owners howners => ?_,
    fun failure h => ?_⟩
  · rintro ⟨owners, howners⟩ id hlive
    obtain ⟨owner, howner⟩ := exists_owner howners hlive
    exact existsUnique_of_users hlive (users_of_mem_owners howners howner)
  · cases h : m.owners with
    | ok owners => exact ⟨owners, rfl⟩
    | error failure =>
        obtain ⟨id, g, hg, hlacks, _⟩ := exists_lacksOwner h
        exact absurd (hunique id (Option.isSome_iff_exists.mpr ⟨g, hg⟩)) hlacks.not_existsUnique
  · refine ⟨?_, fun id owner => mem_owners_iff_uses howners,
      fun holder id owner hmem href hlive => ?_⟩
    · rw [(owners_spec howners).1]
      exact m.globals.ids_pairwise_lt
    · obtain ⟨g, c, hg, hc, hid⟩ := href
      have huses := ((mem_owners_iff_uses howners).mp hmem).2
      exact (mem_owners_iff_uses howners).mpr ⟨hlive, .initializer huses hg hc hid⟩
  · obtain ⟨id, g, hg, hlacks, hearlier⟩ := exists_lacksOwner h
    refine ⟨id, g, hg, hlacks, fun earlier hlt hlive => ?_⟩
    obtain ⟨g', hg'⟩ := Option.isSome_iff_exists.mp hlive
    exact hearlier earlier g' hlt hg'

end Monolith.Module
