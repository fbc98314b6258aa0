import Monolith.Proofs.Module.Census

/-! # What a plan forces

A plan forces all definitions of the module but the root.
-/

namespace Monolith

namespace Module

theorem isSome_of_lookupFunction {m : Module} (hstale : m.staleNames = []) {name : String}
    {id : FunctionId} (h : m.lookupFunction name = some id) :
    (m.function? id).isSome = true := by
  obtain ⟨front, back, hentries, _⟩ := List.lookup_eq_some_iff.mp h
  have hmem : (name, id) ∈ m.functionNames.entries := by
    rw [hentries]
    exact List.mem_append_right _ List.mem_cons_self
  have hlength := congrArg List.length hstale
  rw [staleNames, List.length_mergeSort] at hlength
  obtain ⟨hfunctions, _⟩ := List.append_eq_nil_iff.mp (List.length_eq_zero_iff.mp hlength)
  have hname := List.filter_eq_nil_iff.mp (List.map_eq_nil_iff.mp hfunctions) _ hmem
  cases hid : m.function? id with
  | none => simp [hid] at hname
  | some f => rfl

theorem isSome_of_resolveRoot {config : Config} {m : Module} (hstale : m.staleNames = [])
    {root : FunctionId} (h : config.resolveRoot m = some root) :
    (m.function? root).isSome = true := by
  unfold Config.resolveRoot at h
  split at h
  next => exact isSome_of_lookupFunction hstale h
  next =>
    rcases Option.or_eq_some_iff.mp h with hentry | ⟨_, hmain⟩
    · exact (Option.filter_eq_some_iff.mp hentry).2
    · exact isSome_of_lookupFunction hstale hmain

/-- A definition is a function that is found with a body. -/
theorem mem_definitions_ids {m : Module} {id : FunctionId} :
    id ∈ m.definitions.map Prod.fst ↔ m.kinds.get? id = some false := by
  simp [definitions_ids, Arena.mem_entries]

theorem definitions_nodup (m : Module) : (m.definitions.map Prod.fst).Nodup :=
  m.functions.ids_nodup.sublist (List.filter_sublist.map _)

end Module

namespace Plan

theorem forced_eq (plan : Plan) : plan.forced = plan.order.filter (· ≠ plan.root) := by
  refine List.filter_congr fun id hid => ?_
  simp [forces, hid]

theorem orderOf_perm (graph : CallGraph) (root : FunctionId) (ids : List FunctionId) :
    (orderOf graph root ids).Perm ids := by
  refine ((List.mergeSort_perm _ _).map Prod.fst).trans ?_
  rw [List.map_map]
  exact .of_eq (List.map_id ids)

section

variable {config : Config} {m : Module} {graph : CallGraph} {plan : Plan}

theorem compute_eq_ok (h : compute config m graph = .ok plan) :
    config.resolveRoot m = some plan.root ∧
      (m.function? plan.root).any Function.isDeclaration = false ∧
      plan.order.Perm (m.definitions.map Prod.fst) := by
  unfold compute at h
  split at h
  next => cases h
  next root hroot =>
    split at h
    next => cases h
    next hbody =>
      obtain rfl := Except.ok.inj h
      exact ⟨hroot, by simpa using hbody, orderOf_perm graph root _⟩

/-- Functions that are in order already are planned in the order of their ids. -/
theorem compute_of_pairwise {root : FunctionId} {ids : List FunctionId}
    (hroot : config.resolveRoot m = some root)
    (hbody : (m.function? root).any Function.isDeclaration = false)
    (hids : m.definitions.map Prod.fst = ids)
    (hsorted : (ids.map fun id => (id, (graph.transitiveCallees id).length)).Pairwise
      fun f g => precedes root f g) :
    compute config m graph = .ok { root, order := ids } := by
  rw [compute, hroot, hids]
  dsimp only
  rw [hbody, if_neg Bool.false_ne_true, orderOf, List.mergeSort_of_pairwise hsorted, List.map_map]
  have horder : ids.map (Prod.fst ∘ fun id => (id, (graph.transitiveCallees id).length)) = ids :=
    List.map_id ids
  rw [horder]

/-- The root of a verified module has a body. -/
theorem kinds_root (hstale : m.staleNames = []) (h : compute config m graph = .ok plan) :
    m.kinds.get? plan.root = some false := by
  obtain ⟨hroot, hbody, _⟩ := compute_eq_ok h
  obtain ⟨f, hf⟩ := Option.isSome_iff_exists.mp (Module.isSome_of_resolveRoot hstale hroot)
  rw [hf] at hbody
  rw [Module.get?_kinds, hf]
  exact congrArg some hbody

theorem forced_nodup (h : compute config m graph = .ok plan) : plan.forced.Nodup :=
  ((compute_eq_ok h).2.2.nodup_iff.mpr m.definitions_nodup).filter _

theorem mem_forced (h : compute config m graph = .ok plan) {id : FunctionId} :
    id ∈ plan.forced ↔ m.kinds.get? id = some false ∧ id ≠ plan.root := by
  rw [forced_eq, List.mem_filter, (compute_eq_ok h).2.2.mem_iff, Module.mem_definitions_ids,
    decide_eq_true_iff]

end

end Plan

end Monolith
