import Monolith.Proofs.CallGraph.Searches
import Monolith.Proofs.Inlining.FirstOrder

/-! # The order of a plan

A plan lists all functions with a body, the root last. A function that is called reaches no more
functions than its caller, and fewer if it does not reach itself, so it stands before the caller.
-/

namespace Monolith

namespace CallGraph

variable {graph : CallGraph} {f g : FunctionId}

theorem transitiveCallees_nodup (graph : CallGraph) (f : FunctionId) :
    (graph.transitiveCallees f).Nodup := explore_nodup (lists_callees _)

/-- A function that is called and does not reach itself reaches fewer functions than its caller:
the caller reaches it, and all that it reaches. -/
theorem length_transitiveCallees_lt (hcalls : graph.Calls f g)
    (hback : ¬Relation.TransGen graph.Calls g g) :
    (graph.transitiveCallees g).length < (graph.transitiveCallees f).length := by
  have hnot : g ∉ graph.transitiveCallees g := fun hmem =>
    hback (mem_transitiveCallees_iff.mp hmem)
  have hsubset : g :: graph.transitiveCallees g ⊆ graph.transitiveCallees f := by
    intro id hid
    rw [mem_transitiveCallees_iff]
    rcases List.mem_cons.mp hid with rfl | hid
    · exact .single hcalls
    · exact .head hcalls (mem_transitiveCallees_iff.mp hid)
  have hnodup := List.nodup_cons.mpr ⟨hnot, graph.transitiveCallees_nodup g⟩
  exact (hnodup.subperm hsubset).length_le

end CallGraph

namespace Plan

/-! ## Sorting -/

section

variable {root : FunctionId} {f g k : FunctionId × Nat}

theorem precedes_iff : precedes root f g = true ↔
    g.1 = root ∨ f.1 ≠ root ∧ (f.2 < g.2 ∨ f.2 = g.2 ∧ f.1 ≤ g.1) := by
  unfold precedes
  split_ifs with hf hg heq
  · simp [hf]
  · simp [hg]
  · simp [hf, hg, heq]
  · simp [hf, hg, heq]

theorem precedes_trans (hfg : precedes root f g = true) (hgk : precedes root g k = true) :
    precedes root f k = true := by
  rw [precedes_iff] at *
  grind

theorem precedes_total : (precedes root f g || precedes root g f) = true := by
  rw [Bool.or_eq_true, precedes_iff, precedes_iff]
  grind

theorem eq_of_precedes (hfg : precedes root f g = true) (hgf : precedes root g f = true) :
    f.1 = g.1 := by
  rw [precedes_iff] at *
  grind

end

def weigh (graph : CallGraph) (id : FunctionId) : FunctionId × Nat :=
  (id, (graph.transitiveCallees id).length)

section

variable {graph : CallGraph} {root : FunctionId} {ids : List FunctionId}

theorem orderOf_eq_mergeSort : orderOf graph root ids =
    ids.mergeSort fun f g => precedes root (weigh graph f) (weigh graph g) := by
  have hsort : (ids.mergeSort fun f g => precedes root (weigh graph f) (weigh graph g)).map
      (weigh graph) = (ids.map (weigh graph)).mergeSort (precedes root) :=
    List.map_mergeSort fun _ _ _ _ => rfl
  change ((ids.map (weigh graph)).mergeSort (precedes root)).map Prod.fst = _
  rw [← hsort, List.map_map]
  exact List.map_id _

theorem orderOf_pairwise (graph : CallGraph) (root : FunctionId) (ids : List FunctionId) :
    (orderOf graph root ids).Pairwise fun f g =>
      precedes root (weigh graph f) (weigh graph g) = true := by
  rw [orderOf_eq_mergeSort]
  apply List.pairwise_mergeSort
  · exact fun _ _ _ => precedes_trans
  · exact fun _ _ => precedes_total

/-- There is one order only in which each function may stand before the next ones. -/
theorem orderOf_eq_of_perm {order : List FunctionId} (hperm : order.Perm ids)
    (hsorted : order.Pairwise fun f g => precedes root (weigh graph f) (weigh graph g) = true) :
    orderOf graph root ids = order := by
  refine List.Perm.eq_of_pairwise ?_ (orderOf_pairwise graph root ids) hsorted
    ((orderOf_perm graph root ids).trans hperm.symm)
  exact fun _ _ _ _ hfg hgf => eq_of_precedes hfg hgf

/-- Nothing may stand behind the root. -/
theorem getLast?_orderOf (hroot : root ∈ ids) :
    (orderOf graph root ids).getLast? = some root := by
  have hmem : root ∈ orderOf graph root ids := (orderOf_perm graph root ids).mem_iff.mpr hroot
  have hsorted := orderOf_pairwise graph root ids
  rcases List.eq_nil_or_concat (orderOf graph root ids) with hnil | ⟨front, last, hlast⟩
  · rw [hnil] at hmem
    cases hmem
  · rw [List.concat_eq_append] at hlast
    rw [hlast, List.getLast?_concat, Option.some.injEq]
    rw [hlast] at hmem hsorted
    rcases List.mem_append.mp hmem with hfront | hend
    · have hbefore := (List.pairwise_append.mp hsorted).2.2 root hfront last List.mem_cons_self
      exact (precedes_iff.mp hbefore).resolve_right fun hne => hne.1 rfl
    · exact (List.mem_singleton.mp hend).symm

/-- Of two functions, the one that reaches fewer others stands first if neither is the root. -/
theorem idxOf_orderOf_lt {f g : FunctionId} (hg : g ∈ ids) (hf : f ∈ ids) (hroot : g ≠ root)
    (hless : (graph.transitiveCallees g).length < (graph.transitiveCallees f).length) :
    (orderOf graph root ids).idxOf g < (orderOf graph root ids).idxOf f := by
  have hmem : ∀ {id}, id ∈ ids → (orderOf graph root ids).idxOf id <
      (orderOf graph root ids).length := fun hid =>
    List.idxOf_lt_length_iff.mpr ((orderOf_perm graph root ids).mem_iff.mpr hid)
  by_contra hnot
  rcases Nat.eq_or_lt_of_le (Nat.not_lt.mp hnot) with heq | hlt
  · have hsame : f = g := by
      rw [← List.getElem_idxOf (hmem hf), ← List.getElem_idxOf (hmem hg)]
      simp only [heq]
    rw [hsame] at hless
    exact Nat.lt_irrefl _ hless
  · have hbefore := List.pairwise_iff_getElem.mp (orderOf_pairwise graph root ids) _ _
      (hmem hf) (hmem hg) hlt
    rw [List.getElem_idxOf, List.getElem_idxOf, precedes_iff] at hbefore
    rcases hbefore with hend | ⟨_, hmore⟩
    · exact hroot hend
    · simp only [weigh] at hmore
      omega

end

/-! ## Callees before callers -/

section

variable {config : Config} {m : Module} {plan : Plan}

/-- A plan with a root that is in the module lists the functions with a body, each once, and the
root last. It forces all of them but the root, and nothing else. A function that the plan forces
stands before every other forced function that calls it, unless calls lead from it back to
itself. -/
theorem callees_before_callers (h : compute config m (CallGraph.ofModule m) = .ok plan)
    (hlive : (m.function? plan.root).isSome = true) :
    plan.order.Perm (m.definitions.map Prod.fst) ∧ plan.order.Nodup ∧
    plan.order.getLast? = some plan.root ∧
    (∀ id, plan.forces id = true ↔ m.Inlinable plan.root id) ∧
    ∀ f g, m.Inlinable plan.root f → m.Inlinable plan.root g → m.CallsDirectly f g →
      ¬Relation.TransGen (CallGraph.ofModule m).Calls g g →
      plan.order.idxOf g < plan.order.idxOf f := by
  obtain ⟨_, hbody, hperm⟩ := compute_eq_ok h
  have hdefinition : ∀ {id}, (∃ f, m.function? id = some f ∧ f.isDeclaration = false) →
      id ∈ m.definitions.map Prod.fst := by
    intro id hid
    rwa [Module.mem_definitions_ids, Module.get?_kinds, Option.map_eq_some_iff]
  refine ⟨hperm, hperm.nodup_iff.mpr m.definitions_nodup, ?_,
    fun id => forces_iff_inlinable h, ?_⟩
  · obtain ⟨f, hf⟩ := Option.isSome_iff_exists.mp hlive
    rw [hf] at hbody
    rw [order_eq h]
    exact getLast?_orderOf (hdefinition ⟨f, hf, hbody⟩)
  · intro f g hf hg hcalls hback
    obtain ⟨callee, hcallee, _⟩ := hg.2
    obtain ⟨body, hbody, hmem⟩ := hcalls
    have hedge : (CallGraph.ofModule m).Calls f g := by
      rw [← CallGraph.mem_callees]
      exact CallGraph.mem_callees_ofModule.mpr ⟨body, hbody, hmem, by rw [hcallee]; rfl⟩
    rw [order_eq h]
    exact idxOf_orderOf_lt (hdefinition hg.2) (hdefinition hf.2) hg.1
      (CallGraph.length_transitiveCallees_lt hedge hback)

end

/-- The root comes first in the module, and one of the functions that it calls calls it back. -/
def tower : Module :=
  Module.rebuildNames
    { name := "tower"
      functions := [some (calling "main" [1]), some (calling "outer" [2, 0]),
        some (calling "inner" [])] }

theorem compute_tower :
    compute {} tower (CallGraph.ofModule tower) = .ok { root := 0, order := [2, 1, 0] } := by
  have hroot : Config.resolveRoot {} tower = some 0 := by decide
  have hbody : (tower.function? 0).any Function.isDeclaration = false := by decide
  have hperm : [2, 1, 0].Perm (tower.definitions.map Prod.fst) := by decide
  have hsorted : [2, 1, 0].Pairwise fun f g => precedes 0
      (weigh (CallGraph.ofModule tower) f) (weigh (CallGraph.ofModule tower) g) = true := by
    decide
  rw [compute, hroot]
  dsimp only
  rw [hbody, if_neg Bool.false_ne_true, orderOf_eq_of_perm hperm hsorted]

theorem tower_callees_before_callers :
    compute {} tower (CallGraph.ofModule tower) = .ok { root := 0, order := [2, 1, 0] } ∧
      tower.Inlinable 0 1 ∧ tower.Inlinable 0 2 ∧ tower.CallsDirectly 1 2 ∧
      [2, 1, 0].idxOf 2 < [2, 1, 0].idxOf 1 := by
  have hlive : (tower.function? 0).isSome = true := rfl
  have houter : tower.Inlinable 0 1 := ⟨by decide, _, rfl, rfl⟩
  have hinner : tower.Inlinable 0 2 := ⟨by decide, _, rfl, rfl⟩
  have hcalls : tower.CallsDirectly 1 2 := ⟨_, rfl, by decide⟩
  have hback : ¬Relation.TransGen (CallGraph.ofModule tower).Calls 2 2 := by
    rw [← CallGraph.mem_transitiveCallees_iff]
    decide
  obtain ⟨_, _, _, _, hbefore⟩ := callees_before_callers compute_tower hlive
  exact ⟨compute_tower, houter, hinner, hcalls, hbefore 1 2 houter hinner hcalls hback⟩

end Plan

end Monolith
