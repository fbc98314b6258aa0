import Mathlib.Data.List.Chain
import Mathlib.Data.List.Nodup
import Mathlib.Tactic.Common
import Monolith.Proofs.Module.Arenas
import Monolith.Proofs.Module.Census
import Monolith.Proofs.Verify.WellFormedModule

/-! # Cycles of calls

The search for a way back to a function keeps, for each function that it has reached, the one
that it was reached from. So what it gives is a cycle, and if it gives nothing, all that it
has reached leads nowhere else and not back.
-/

namespace Monolith.CallGraph

/-- A path of calls from `origin` back to it, whose other functions are allowed. -/
structure Cycle (graph : CallGraph) (allowed : FunctionId → Bool) (origin : FunctionId)
    (path : List FunctionId) : Prop where
  ends : ∃ between, path = origin :: (between ++ [origin]) ∧ ∀ id ∈ between, allowed id = true
  calls : path.IsChain fun f g => g ∈ graph.callees f

/-- The functions between `origin` and `current` on a way of calls, all of them distinct. -/
structure Way (graph : CallGraph) (allowed : FunctionId → Bool) (origin : FunctionId)
    (reached : List FunctionId) (current : FunctionId) (between : List FunctionId) : Prop where
  last : (origin :: between).getLast? = some current
  calls : (origin :: between).IsChain fun f g => g ∈ graph.callees f
  inner : ∀ id ∈ between, allowed id = true ∧ id ≠ origin ∧ id ∈ reached
  nodup : between.Nodup

/-- Every function was reached from `origin` or from one that was reached before it. -/
inductive Traced (graph : CallGraph) (allowed : FunctionId → Bool) (origin : FunctionId) :
    List (FunctionId × FunctionId) → Prop where
  | nil : Traced graph allowed origin []
  | cons {id parent : FunctionId} {parents : List (FunctionId × FunctionId)}
      (hcall : id ∈ graph.callees parent) (hallowed : allowed id = true) (hid : id ≠ origin)
      (hfresh : id ∉ parents.map Prod.fst)
      (hparent : parent = origin ∨ parent ∈ parents.map Prod.fst)
      (htraced : Traced graph allowed origin parents) :
      Traced graph allowed origin ((id, parent) :: parents)

def freshCallees (graph : CallGraph) (allowed : FunctionId → Bool) (current : FunctionId)
    (parents : List (FunctionId × FunctionId)) : List FunctionId :=
  (graph.callees current).filter fun id => allowed id && (parents.lookup id).isNone

/-- Going back from `current`, each function has an entry that tells where it was reached from,
until `origin` is met. The path back is put before `path`. -/
inductive Retraces (parents : List (FunctionId × FunctionId)) (origin : FunctionId) :
    FunctionId → List FunctionId → List FunctionId → Prop where
  | home {path : List FunctionId} : Retraces parents origin origin path (origin :: path)
  | back {current parent : FunctionId} {path result : List FunctionId} (hne : current ≠ origin)
      (hparent : parents.lookup current = some parent)
      (hrest : Retraces parents origin parent (current :: path) result) :
      Retraces parents origin current path result

/-- The search with these functions pending comes to its end with the result. -/
inductive Searches (graph : CallGraph) (allowed : FunctionId → Bool) (origin : FunctionId) :
    List FunctionId → List (FunctionId × FunctionId) → Option (List FunctionId) → Prop where
  | exhausted {parents : List (FunctionId × FunctionId)} :
      Searches graph allowed origin [] parents none
  | found {current : FunctionId} {pending path : List FunctionId}
      {parents : List (FunctionId × FunctionId)} (hback : origin ∈ graph.callees current)
      (hpath : Retraces parents origin current [origin] path) :
      Searches graph allowed origin (current :: pending) parents (some path)
  | onward {current : FunctionId} {pending : List FunctionId}
      {parents : List (FunctionId × FunctionId)} {result : Option (List FunctionId)}
      (hback : origin ∉ graph.callees current)
      (hrest : Searches graph allowed origin
        ((graph.freshCallees allowed current parents).reverse ++ pending)
        ((graph.freshCallees allowed current parents).map (·, current) ++ parents) result) :
      Searches graph allowed origin (current :: pending) parents result

/-- A search for cycles gives one of distinct functions, or there is none. -/
def Answers (graph : CallGraph) (allowed : FunctionId → Bool) (origin : FunctionId) :
    Option (List FunctionId) → Prop
  | some path => ∃ between, path = origin :: (between ++ [origin]) ∧
      graph.Cycle allowed origin path ∧ origin ∉ between ∧ between.Nodup
  | none => ∀ path, ¬graph.Cycle allowed origin path

section

variable {graph : CallGraph} {allowed : FunctionId → Bool} {origin : FunctionId}
  {parents : List (FunctionId × FunctionId)}

theorem mem_callees_iff {f g : FunctionId} :
    g ∈ graph.callees f ↔ ∃ sites, graph.sites.get? f = some sites ∧ some g ∈ sites := by
  rw [callees, List.mem_eraseDups]
  cases graph.sites.get? f <;> simp

/-! ## The way back -/

namespace Way

variable {reached : List FunctionId} {current next : FunctionId} {between : List FunctionId}

theorem start (graph : CallGraph) (allowed : FunctionId → Bool) (origin : FunctionId)
    (reached : List FunctionId) : graph.Way allowed origin reached origin [] where
  last := by simp
  calls := by simp
  inner := by simp
  nodup := by simp

/-- The way and a call from its last function are a chain of calls. -/
theorem isChain_concat (h : graph.Way allowed origin reached current between)
    (hcall : next ∈ graph.callees current) :
    (origin :: (between ++ [next])).IsChain fun f g => g ∈ graph.callees f := by
  rw [← List.cons_append, List.isChain_append]
  refine ⟨h.calls, by simp, ?_⟩
  simp only [h.last, List.head?_cons, Option.mem_def, Option.some.injEq]
  rintro _ rfl _ rfl
  exact hcall

/-- The way goes on to a function that was not reached before. -/
theorem extend (h : graph.Way allowed origin reached current between)
    (hcall : next ∈ graph.callees current) (hallowed : allowed next = true)
    (hnext : next ≠ origin) (hfresh : next ∉ reached) :
    graph.Way allowed origin (next :: reached) next (between ++ [next]) where
  last := by rw [← List.cons_append, List.getLast?_concat]
  calls := h.isChain_concat hcall
  inner := by
    intro id hid
    rcases List.mem_append.mp hid with hid | hid
    · obtain ⟨hallowed, hne, hmem⟩ := h.inner id hid
      exact ⟨hallowed, hne, List.mem_cons_of_mem _ hmem⟩
    · obtain rfl := List.mem_singleton.mp hid
      exact ⟨hallowed, hnext, List.mem_cons_self⟩
  nodup := by
    refine List.nodup_append.mpr ⟨h.nodup, by simp, ?_⟩
    rintro id hid _ hlast rfl
    obtain rfl := List.mem_singleton.mp hlast
    exact hfresh (h.inner id hid).2.2

theorem mono (h : graph.Way allowed origin reached current between) (other : FunctionId) :
    graph.Way allowed origin (other :: reached) current between :=
  { h with
    inner := fun id hid =>
      (h.inner id hid).imp_right fun hreached => hreached.imp_right (List.mem_cons_of_mem _) }

/-- A call of `origin` closes the way. -/
theorem cycle (h : graph.Way allowed origin reached current between)
    (hcall : origin ∈ graph.callees current) :
    graph.Cycle allowed origin (origin :: (between ++ [origin])) where
  ends := ⟨between, rfl, fun id hid => (h.inner id hid).1⟩
  calls := h.isChain_concat hcall

end Way

theorem retraces_of_retrace {steps : Nat} {current : FunctionId} {path result : List FunctionId}
    (h : retrace parents origin steps current path = some result) :
    Retraces parents origin current path result := by
  induction steps generalizing current path with
  | zero => cases h
  | succ steps ih =>
      rw [retrace] at h
      split at h
      next heq =>
        obtain rfl := Option.some.inj h
        exact heq ▸ .home
      next hne =>
        obtain ⟨parent, hparent, hrest⟩ := Option.bind_eq_some_iff.mp h
        exact .back hne hparent (ih hrest)

theorem Retraces.unique {current : FunctionId} {path result other : List FunctionId}
    (h : Retraces parents origin current path result)
    (hother : Retraces parents origin current path other) : result = other := by
  induction h with
  | home =>
      cases hother with
      | home => rfl
      | back hne => exact absurd rfl hne
  | back hne hparent _ ih =>
      cases hother with
      | home => exact absurd rfl hne
      | back _ hparent' hrest' =>
          obtain rfl := Option.some.inj (hparent.symm.trans hparent')
          exact ih hrest'

namespace Traced

theorem nodup (h : graph.Traced allowed origin parents) : (parents.map Prod.fst).Nodup := by
  induction h with
  | nil => simp
  | cons _ _ _ hfresh _ _ ih => exact List.nodup_cons.mpr ⟨hfresh, ih⟩

theorem lookup_of_mem (h : graph.Traced allowed origin parents) {entry : FunctionId × FunctionId}
    (hmem : entry ∈ parents) : parents.lookup entry.1 = some entry.2 := by
  induction h with
  | nil => simp at hmem
  | @cons other _ parents _ _ _ hfresh _ _ ih =>
      rcases List.mem_cons.mp hmem with rfl | holder
      · simp
      · have hne : entry.1 ≠ other := fun heq => hfresh (heq ▸ List.mem_map_of_mem holder)
        rw [List.lookup_cons, beq_false_of_ne hne]
        exact ih holder

/-- Functions that a reached function calls have been reached too. -/
theorem append (h : graph.Traced allowed origin parents) {current : FunctionId}
    (hcurrent : current = origin ∨ current ∈ parents.map Prod.fst) {fresh : List FunctionId}
    (hnodup : fresh.Nodup)
    (hfresh : ∀ id ∈ fresh, id ∈ graph.callees current ∧ allowed id = true ∧ id ≠ origin ∧
      id ∉ parents.map Prod.fst) :
    graph.Traced allowed origin (fresh.map (·, current) ++ parents) := by
  induction fresh with
  | nil => exact h
  | cons id fresh ih =>
      obtain ⟨hid, hnodup⟩ := List.nodup_cons.mp hnodup
      obtain ⟨⟨hcall, hallowed, hne, hnew⟩, hfresh⟩ := List.forall_mem_cons.mp hfresh
      rw [List.map_cons, List.cons_append]
      refine .cons hcall hallowed hne ?_ ?_ (ih hnodup hfresh)
      · rw [List.map_append, List.mem_append]
        simpa [hid] using hnew
      · rw [List.map_append, List.mem_append]
        exact hcurrent.imp_right .inr

/-- Going from each function to the one it was reached from leads back to `origin`. -/
theorem retrace {older : List (FunctionId × FunctionId)} {current : FunctionId} {steps : Nat}
    (h : graph.Traced allowed origin older)
    (hlookup : ∀ entry ∈ older, parents.lookup entry.1 = some entry.2)
    (hcurrent : current = origin ∨ current ∈ older.map Prod.fst) (hsteps : older.length < steps)
    (path : List FunctionId) :
    ∃ between, CallGraph.retrace parents origin steps current path =
        some (origin :: (between ++ path)) ∧
      graph.Way allowed origin (older.map Prod.fst) current between := by
  induction h generalizing steps current path with
  | nil =>
      obtain rfl : current = origin := by simpa using hcurrent
      obtain ⟨steps, rfl⟩ := Nat.exists_eq_succ_of_ne_zero (Nat.ne_zero_of_lt hsteps)
      exact ⟨[], by simp [CallGraph.retrace], .start ..⟩
  | @cons id parent older hcall hallowed hid hfresh hparent _ ih =>
      obtain ⟨hhead, holder⟩ := List.forall_mem_cons.mp hlookup
      rw [List.length_cons] at hsteps
      by_cases heq : current = id
      · subst heq
        obtain ⟨steps, rfl⟩ := Nat.exists_eq_succ_of_ne_zero (Nat.ne_zero_of_lt hsteps)
        have hrest : older.length < steps := by omega
        obtain ⟨between, hpath, hway⟩ := ih holder hparent hrest (current :: path)
        refine ⟨between ++ [current], ?_, hway.extend hcall hallowed hid hfresh⟩
        simp [CallGraph.retrace, hid, hhead, hpath]
      · -- the function that was reached last is not on the way
        have hreached : current = origin ∨ current ∈ older.map Prod.fst :=
          hcurrent.imp_right fun hmem => (List.mem_cons.mp hmem).resolve_left heq
        have hrest : older.length < steps := by omega
        obtain ⟨between, hpath, hway⟩ := ih holder hreached hrest path
        exact ⟨between, hpath, hway.mono id⟩

end Traced

/-! ## The search -/

variable (graph allowed origin) in
/-- What has been reached while the search goes on. What is not pending any more has been
looked at: it does not call `origin`, and all that it calls and that is allowed is reached. -/
structure Searching (pending : List FunctionId) (parents : List (FunctionId × FunctionId)) :
    Prop where
  traced : graph.Traced allowed origin parents
  pending_reached : ∀ id ∈ pending, id = origin ∨ id ∈ parents.map Prod.fst
  looked : ∀ id, id = origin ∨ id ∈ parents.map Prod.fst → id ∉ pending →
    ∀ callee ∈ graph.callees id,
      callee ≠ origin ∧ (allowed callee = true → callee ∈ parents.map Prod.fst)

theorem mem_freshCallees {current id : FunctionId} :
    id ∈ graph.freshCallees allowed current parents ↔
      id ∈ graph.callees current ∧ allowed id = true ∧ id ∉ parents.map Prod.fst := by
  have hlookup : (parents.lookup id).isNone = true ↔ id ∉ parents.map Prod.fst := by
    rw [Option.isNone_iff_eq_none, List.lookup_eq_none_iff]
    simp only [List.mem_map, not_exists, not_and, bne_iff_ne]
    exact forall₂_congr fun entry _ => not_congr eq_comm
  simp only [freshCallees, List.mem_filter, Bool.and_eq_true, hlookup]

namespace Searching

variable {current : FunctionId} {pending : List FunctionId}

theorem start : graph.Searching allowed origin [origin] [] where
  traced := .nil
  pending_reached := by simp
  looked := by simp

/-- Looking at a function that does not call `origin`. -/
theorem step (h : graph.Searching allowed origin (current :: pending) parents)
    (hback : origin ∉ graph.callees current) :
    graph.Searching allowed origin ((graph.freshCallees allowed current parents).reverse ++ pending)
      ((graph.freshCallees allowed current parents).map (·, current) ++ parents) where
  traced := by
    refine h.traced.append (h.pending_reached current List.mem_cons_self) ?_ fun id hid => ?_
    · exact (eraseDups_nodup _).filter _
    · obtain ⟨hcall, hallowed, hnew⟩ := mem_freshCallees.mp hid
      refine ⟨hcall, hallowed, ?_, hnew⟩
      rintro rfl
      exact hback hcall
  pending_reached := by
    intro id hid
    rw [List.map_append, List.mem_append, List.map_map]
    rcases List.mem_append.mp hid with hid | hid
    · exact .inr (.inl (by simpa [Function.comp_def] using hid))
    · exact (h.pending_reached id (List.mem_cons_of_mem _ hid)).imp_right .inr
  looked := by
    intro id hid hnot callee hcallee
    rw [List.map_append, List.mem_append, List.map_map] at hid ⊢
    have hfresh : id ∉ graph.freshCallees allowed current parents := fun hmem =>
      hnot (List.mem_append_left _ (List.mem_reverse.mpr hmem))
    replace hid : id = origin ∨ id ∈ parents.map Prod.fst := by
      simpa [Function.comp_def, hfresh] using hid
    by_cases heq : id = current
    · subst heq
      refine ⟨fun heq => hback (heq ▸ hcallee), fun hallowed => ?_⟩
      by_cases hold : callee ∈ parents.map Prod.fst
      · exact .inr hold
      · have hmem := mem_freshCallees.mpr ⟨hcallee, hallowed, hold⟩
        exact .inl (by simpa [Function.comp_def] using hmem)
    · have hpending : id ∉ current :: pending := by
        simp only [List.mem_cons, not_or]
        exact ⟨heq, fun hmem => hnot (List.mem_append_right _ hmem)⟩
      obtain ⟨hne, hclosed⟩ := h.looked id hid hpending callee hcallee
      exact ⟨hne, fun hallowed => .inr (hclosed hallowed)⟩

/-- From each function that was reached, the way back to `origin` is found. -/
theorem way (h : graph.Searching allowed origin pending parents)
    (hcurrent : current = origin ∨ current ∈ parents.map Prod.fst) (path : List FunctionId) :
    ∃ between, retrace parents origin (parents.length + 1) current path =
        some (origin :: (between ++ path)) ∧
      graph.Way allowed origin (parents.map Prod.fst) current between :=
  h.traced.retrace (fun _ hentry => h.traced.lookup_of_mem hentry) hcurrent
    (Nat.lt_succ_self _) path

/-- When nothing is pending, there is no way back. -/
theorem no_cycle (h : graph.Searching allowed origin [] parents) (path : List FunctionId) :
    ¬graph.Cycle allowed origin path := by
  rintro ⟨⟨between, rfl, hbetween⟩, hcalls⟩
  -- each function on the path has been reached, so the last one does not call `origin`
  have hway : ∀ (between : List FunctionId) (id : FunctionId),
      id = origin ∨ id ∈ parents.map Prod.fst → (∀ id ∈ between, allowed id = true) →
      ¬(id :: (between ++ [origin])).IsChain fun f g => g ∈ graph.callees f := by
    intro between
    induction between with
    | nil =>
        intro id hid _ hchain
        have hback : origin ∈ graph.callees id := by simpa using hchain
        exact (h.looked id hid (by simp) origin hback).1 rfl
    | cons next between ih =>
        intro id hid hallowed hchain
        obtain ⟨hnext, hallowed⟩ := List.forall_mem_cons.mp hallowed
        obtain ⟨hcall, hchain⟩ := List.isChain_cons_cons.mp hchain
        exact ih next (.inr ((h.looked id hid (by simp) next hcall).2 hnext)) hallowed hchain
  exact hway between origin (.inl rfl) hbetween hcalls

/-- Every function that is reached is one that is called. -/
theorem length_le (h : graph.Searching allowed origin pending parents) :
    parents.length ≤ (graph.sites.ids.flatMap graph.callees).length := by
  have hcalled : ∀ id ∈ parents.map Prod.fst, id ∈ graph.sites.ids.flatMap graph.callees := by
    have htraced := h.traced
    clear h
    induction htraced with
    | nil => simp
    | @cons _ parent _ hcall _ _ _ _ _ ih =>
        obtain ⟨sites, hsites, _⟩ := mem_callees_iff.mp hcall
        have hparent : parent ∈ graph.sites.ids :=
          Arena.mem_ids.mpr (Option.isSome_iff_exists.mpr ⟨sites, hsites⟩)
        exact List.forall_mem_cons.mpr ⟨List.mem_flatMap.mpr ⟨parent, hparent, hcall⟩, ih⟩
  simpa using (h.traced.nodup.subperm hcalled).length_le

/-- With a step for each function that can still be reached, the search comes to its end. -/
theorem searches (h : graph.Searching allowed origin pending parents) {steps : Nat}
    (hsteps : pending.length + ((graph.sites.ids.flatMap graph.callees).length - parents.length) ≤
      steps) :
    graph.Searches allowed origin pending parents
      (graph.cycleFrom allowed origin steps pending parents) := by
  induction steps generalizing pending parents with
  | zero =>
      obtain rfl : pending = [] := List.length_eq_zero_iff.mp (by omega)
      exact .exhausted
  | succ steps ih =>
      cases pending with
      | nil => exact .exhausted
      | cons current pending =>
          by_cases hback : origin ∈ graph.callees current
          · obtain ⟨between, hpath, _⟩ :=
              h.way (h.pending_reached current List.mem_cons_self) [origin]
            rw [CallGraph.cycleFrom, if_pos (List.contains_iff_mem.mpr hback), hpath]
            exact .found hback (retraces_of_retrace hpath)
          · have hnext := h.step hback
            have hfits := hnext.length_le
            rw [CallGraph.cycleFrom, if_neg (fun hmem => hback (List.contains_iff_mem.mp hmem))]
            refine .onward hback (ih hnext ?_)
            simp only [List.length_append, List.length_reverse, List.length_map,
              List.length_cons] at hsteps hfits ⊢
            omega

/-- What a search gives is a cycle of distinct functions, or there is none. -/
theorem answers {result : Option (List FunctionId)}
    (hsearches : graph.Searches allowed origin pending parents result)
    (h : graph.Searching allowed origin pending parents) : graph.Answers allowed origin result := by
  induction hsearches with
  | exhausted => exact h.no_cycle
  | found hback hretraces =>
      obtain ⟨between, hpath, hway⟩ := h.way (h.pending_reached _ List.mem_cons_self) [origin]
      obtain rfl := hretraces.unique (retraces_of_retrace hpath)
      exact ⟨between, rfl, hway.cycle hback, fun hmem => (hway.inner origin hmem).2.1 rfl,
        hway.nodup⟩
  | onward hback _ ih => exact ih (h.step hback)

end Searching

variable (graph allowed origin) in
theorem searches_findCycle :
    graph.Searches allowed origin [origin] [] (graph.findCycle allowed origin) :=
  Searching.start.searches (by simp [Nat.add_comm])

variable (graph allowed origin) in
theorem answers_findCycle : graph.Answers allowed origin (graph.findCycle allowed origin) :=
  Searching.start.answers (searches_findCycle graph allowed origin)

/-- What is found is a cycle of distinct functions. -/
theorem findCycle_eq_some {path : List FunctionId}
    (h : graph.findCycle allowed origin = some path) :
    ∃ between, path = origin :: (between ++ [origin]) ∧ graph.Cycle allowed origin path ∧
      origin ∉ between ∧ between.Nodup := by
  have hanswers := answers_findCycle graph allowed origin
  rwa [h] at hanswers

theorem findCycle_eq_none_iff :
    graph.findCycle allowed origin = none ↔ ∀ path, ¬graph.Cycle allowed origin path := by
  constructor
  · intro h
    have hanswers := answers_findCycle graph allowed origin
    rwa [h] at hanswers
  · intro h
    cases hfound : graph.findCycle allowed origin with
    | none => rfl
    | some path =>
        obtain ⟨_, _, hcycle, _⟩ := findCycle_eq_some hfound
        exact absurd hcycle (h path)

end

/-! ## The graph of a module -/

theorem mem_callees_ofModule {m : Module} {id callee : FunctionId} :
    callee ∈ (ofModule m).callees id ↔ ∃ f, m.function? id = some f ∧
      .const (.function callee) ∈ f.callees ∧ (m.function? callee).isSome = true := by
  simp only [mem_callees_iff, ofModule, Arena.get?_mapLive, Option.map_eq_some_iff]
  constructor
  · rintro ⟨_, ⟨f, hf, rfl⟩, hmem⟩
    obtain ⟨operand, hoperand, hcallee⟩ := List.mem_map.mp hmem
    obtain ⟨hfunction, hlive⟩ := Option.filter_eq_some_iff.mp hcallee
    refine ⟨f, hf, ?_, hlive⟩
    rwa [← Module.function?_eq_some_iff.mp hfunction]
  · rintro ⟨f, hf, hmem, hlive⟩
    refine ⟨_, ⟨f, hf, rfl⟩, List.mem_map.mpr ⟨_, hmem, ?_⟩⟩
    exact Option.filter_eq_some_iff.mpr ⟨rfl, hlive⟩

end Monolith.CallGraph
