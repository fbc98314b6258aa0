import Monolith.Proofs.CallGraph.Cycles
import Monolith.Proofs.CallGraph.Exploration

/-! # Searches in call graphs

In every call graph, the functions that are found to be called from a function, directly or not,
are those that chains of calls lead to. A way back to it is found just if there is one through
functions that are allowed, and it then goes through no function twice.
-/

namespace Monolith.CallGraph

def Calls (graph : CallGraph) (f g : FunctionId) : Prop :=
  ∃ sites, graph.sites.get? f = some sites ∧ some g ∈ sites

section

variable {graph : CallGraph} {allowed : FunctionId → Bool} {f g : FunctionId}

theorem mem_callees : (fun a b => b ∈ graph.callees a) = graph.Calls := by
  funext a b
  exact propext mem_callees_iff

/-! ## Callees of callees -/

theorem connects_callees : Connects graph.callees = Relation.ReflTransGen graph.Calls :=
  congrArg Relation.ReflTransGen mem_callees

/-- Only functions of the graph call others. -/
theorem lists_callees (entries : List FunctionId) :
    Lists graph.sites.ids graph.callees entries := by
  refine lists_of_forall (fun id hid => ?_) entries
  obtain ⟨callee, hcallee⟩ := List.exists_mem_of_ne_nil _ hid
  obtain ⟨sites, hsites, _⟩ := mem_callees_iff.mp hcallee
  exact Arena.mem_ids.mpr (Option.isSome_iff_exists.mpr ⟨sites, hsites⟩)

theorem mem_transitiveCallees_iff :
    g ∈ graph.transitiveCallees f ↔ Relation.TransGen graph.Calls f g := by
  rw [transitiveCallees, mem_explore_iff (lists_callees _), connects_callees,
    Relation.TransGen.head'_iff]
  exact exists_congr fun callee => and_congr_left fun _ => mem_callees_iff

/-! ## Ways back -/

theorem exists_cycle_iff : (∃ path, graph.Cycle allowed f path) ↔
    ∃ between, (f :: (between ++ [f])).IsChain graph.Calls ∧ ∀ id ∈ between, allowed id = true := by
  constructor
  · rintro ⟨_, ⟨between, rfl, hbetween⟩, hcalls⟩
    rw [mem_callees] at hcalls
    exact ⟨between, hcalls, hbetween⟩
  · rintro ⟨between, hcalls, hbetween⟩
    rw [← mem_callees] at hcalls
    exact ⟨_, ⟨between, rfl, hbetween⟩, hcalls⟩

theorem isSome_findCycle_iff :
    (graph.findCycle allowed f).isSome = true ↔ ∃ path, graph.Cycle allowed f path := by
  rw [Option.isSome_iff_ne_none, Ne, findCycle_eq_none_iff, not_forall_not]

end

/-- Both searches come to their ends, the second without missing where a function was reached
from. The first gives the functions that one or more calls lead to. The second gives a path just
if calls lead back to the function through allowed ones, and the path is one whose functions
between the ends are allowed and distinct. -/
theorem searches_exact (graph : CallGraph) (allowed : FunctionId → Bool) (f : FunctionId) :
    Explores graph.callees (graph.callees f).reverse [] (graph.transitiveCallees f).reverse ∧
    (graph.transitiveCallees f).Nodup ∧
    (∀ g, g ∈ graph.transitiveCallees f ↔ Relation.TransGen graph.Calls f g) ∧
    graph.Searches allowed f [f] [] (graph.findCycle allowed f) ∧
    ((graph.findCycle allowed f).isSome = true ↔
      ∃ between, (f :: (between ++ [f])).IsChain graph.Calls ∧
        ∀ id ∈ between, allowed id = true) ∧
    ∀ path, graph.findCycle allowed f = some path →
      ∃ between, path = f :: (between ++ [f]) ∧ path.IsChain graph.Calls ∧
        (∀ id ∈ between, allowed id = true ∧ id ≠ f) ∧ between.Nodup := by
  refine ⟨explores_explore (lists_callees _), explore_nodup (lists_callees _),
    fun g => mem_transitiveCallees_iff, searches_findCycle graph allowed f,
    isSome_findCycle_iff.trans exists_cycle_iff, fun path hpath => ?_⟩
  obtain ⟨between, rfl, ⟨⟨inner, heq, hallowed⟩, hcalls⟩, hf, hnodup⟩ := findCycle_eq_some hpath
  obtain rfl : between = inner := by simpa using heq
  rw [mem_callees] at hcalls
  refine ⟨between, rfl, hcalls, fun id hid => ⟨hallowed id hid, ?_⟩, hnodup⟩
  rintro rfl
  exact hf hid

end Monolith.CallGraph
