import Mathlib.Logic.Hydra
import Monolith.Proofs.Inlining.Knowledge

/-! # Chains of calls when a call is inlined

A chain of calls that begins with the inlined call gets shorter by it, and no other
chain changes. If chains are bounded, so is the number of calls that are inlined: one
call is replaced by calls from which the chains are shorter.
-/

namespace Monolith

variable {bodies : FunctionId → Option Function} {o : Operand}

theorem leads_call_iff {frames next : List Frame} {dest : Option ValueId} {ty : Ty}
    {callee : Operand} {args : List Operand} :
    Leads bodies frames (.call dest ty callee args) next ↔
      ∃ target g, Known bodies frames callee target ∧ bodies target = some g ∧
        next = ⟨g, args⟩ :: frames := by
  constructor
  · rintro ⟨hcallee, hbody⟩
    exact ⟨_, _, hcallee, hbody, rfl⟩
  · rintro ⟨target, g, hcallee, hbody, rfl⟩
    exact .intro hcallee hbody

/-- What a copied call leads to depends on its operands only. -/
theorem leads_copy_iff {frames next : List Frame} {names : Renaming} {become : Operand → Operand}
    {op : Operation} :
    Leads bodies frames ((names.call op).mapOperands become) next ↔
      Leads bodies frames (op.mapOperands fun o => become (names.operand o)) next := by
  cases op with
  | call dest ty callee args =>
      simp only [Renaming.call, Operation.mapOperands, Operation.mapDest, leads_call_iff,
        List.map_map, Function.comp_def]
  | _ => constructor <;> rintro ⟨⟩

namespace Splice

variable {sp : Splice bodies}

/-! ## The result is tidy -/

theorem le_result_values : sp.caller.values.length ≤ sp.result.values.length := by
  rw [sp.result_values]
  exact Nat.le_add_right _ _

theorem copied_records {x : ValueId} (hx : x ∉ sp.callee.parameters)
    (hlt : x < sp.callee.values.length) : sp.names.dest x < sp.result.values.length := by
  rw [sp.result_values]
  exact sp.copies.dest_lt hx hlt

theorem result_records (ho : sp.caller.Records o) : sp.result.Records o :=
  fun x hx => Nat.lt_of_lt_of_le (ho x hx) le_result_values

theorem names_records (ho : sp.callee.Records o) : sp.result.Records (sp.names.operand o) := by
  rcases sp.names_cases ho with ⟨c, rfl, hc⟩ | ⟨x, rfl, harg⟩ | ⟨x, rfl, hx, hlt, hdest⟩
  · rw [hc]
    exact nofun
  · exact result_records (sp.arg_records (List.of_mem_zip harg).2)
  · rw [hdest]
    intro y hy
    obtain rfl := Operand.var.inj hy
    exact copied_records hx hlt

theorem subst_records (ho : sp.result.Records o) : sp.result.Records (sp.subst o) := by
  rcases sp.subst_cases o with hsame | hpoison | ⟨x, value, _, rfl, hvalue, hsubst⟩
  · rwa [hsame]
  · rw [hpoison]
    exact nofun
  · rw [hsubst]
    exact names_records (sp.callee_tidy.result_records _ (hvalue ▸ List.mem_singleton_self _))

/-- The results of calls are those of the calls that are kept, and new ones for the copies. -/
theorem result_dests : (sp.result.calls.filterMap Operation.dest?).Perm
    (sp.kept.filterMap Operation.dest? ++
      (sp.callee.calls.filterMap Operation.dest?).map sp.names.dest) := by
  refine (sp.result_perm.filterMap _).trans (List.Perm.of_eq ?_)
  rw [List.filterMap_map, List.filterMap_append, List.filterMap_map, List.map_filterMap]
  simp only [Function.comp_def, Operation.dest?_mapOperands, Renaming.call,
    Operation.dest?_mapDest]

/-- The calls stay tidy. -/
theorem result_tidy : sp.result.TidyCalls where
  dests_nodup := by
    rw [result_dests.nodup_iff, List.nodup_append]
    refine ⟨sp.caller_dests_nodup.sublist ((List.sublist_cons_self _ _).filterMap _),
      List.Nodup.map_on ?_ sp.callee_tidy.dests_nodup, ?_⟩
    · intro x hx y hy heq
      obtain ⟨op, hop, hopx⟩ := List.mem_filterMap.mp hx
      obtain ⟨other, hother, hothery⟩ := List.mem_filterMap.mp hy
      exact sp.copies.dest_inj (sp.callee_tidy.dest_not_parameter op hop x hopx)
        (sp.callee_tidy.dest_lt op hop x hopx)
        (sp.callee_tidy.dest_not_parameter other hother y hothery)
        (sp.callee_tidy.dest_lt other hother y hothery) heq
    · rintro x hx y hy rfl
      obtain ⟨op, hop, hopx⟩ := List.mem_filterMap.mp hx
      obtain ⟨y, hcopied, rfl⟩ := List.mem_map.mp hy
      obtain ⟨other, hother, hothery⟩ := List.mem_filterMap.mp hcopied
      have hle := sp.copies.le_dest (sp.callee_tidy.dest_not_parameter other hother y hothery)
        (sp.callee_tidy.dest_lt other hother y hothery)
      exact Nat.not_lt.mpr hle (sp.tidy.dest_lt op (sp.mem_caller_of_kept hop) _ hopx)
  dest_lt := by
    intro op hop x hx
    have hmem := result_dests.mem_iff.mp (List.mem_filterMap.mpr ⟨op, hop, hx⟩)
    rcases List.mem_append.mp hmem with hkept | hcopied
    · obtain ⟨old, hold, holdx⟩ := List.mem_filterMap.mp hkept
      exact Nat.lt_of_lt_of_le (sp.tidy.dest_lt old (sp.mem_caller_of_kept hold) x holdx)
        le_result_values
    · obtain ⟨y, hy, rfl⟩ := List.mem_map.mp hcopied
      obtain ⟨old, hold, holdy⟩ := List.mem_filterMap.mp hy
      exact copied_records (sp.callee_tidy.dest_not_parameter old hold y holdy)
        (sp.callee_tidy.dest_lt old hold y holdy)
  operand_records := by
    intro op hop o ho
    rcases sp.mem_result_calls hop with ⟨old, hold, rfl⟩ | ⟨old, hold, rfl⟩
    · rw [Operation.operands_mapOperands] at ho
      obtain ⟨source, hsource, rfl⟩ := List.mem_map.mp ho
      have hrecords := sp.tidy.operand_records old (sp.mem_caller_of_kept hold) source hsource
      exact subst_records (result_records hrecords)
    · simp only [Operation.operands_mapOperands, Renaming.call, Operation.operands_mapDest,
        List.map_map] at ho
      obtain ⟨source, hsource, rfl⟩ := List.mem_map.mp ho
      exact subst_records (names_records (sp.callee_tidy.operand_records old hold source hsource))

/-! ## Where calls lead -/

variable (sp) in
/-- Frames in which the same function was called, before and after inlining. -/
inductive Above : List Frame → List Frame → Prop where
  | intro {frame : Frame} {below frames : List Frame} {become : Operand → Operand} {g : Function}
      {args : List Operand} (hover : sp.Over (frame :: below) frames become)
      (hargs : ∀ arg ∈ args, frame.function.Records arg) (hg : g.TidyBody) :
      Above (⟨g, args⟩ :: frame :: below) (⟨g, args.map become⟩ :: frames)

section

variable {frame : Frame} {below frames frames' next next' : List Frame} {become : Operand → Operand}
  {op : Operation} {n : Nat}

/-- A call that is kept or copied leads where it led before. -/
theorem leads_over (h : Leads bodies (frame :: below) op next)
    (hover : sp.Over (frame :: below) frames' become)
    (hop : ∀ o ∈ op.operands, frame.function.Records o) :
    ∃ next', Leads bodies frames' (op.mapOperands become) next' ∧ sp.Above next next' := by
  cases h with
  | intro hcallee hbody =>
      exact ⟨_, .intro (known_over hcallee hover (hop _ List.mem_cons_self)) hbody,
        .intro hover (fun arg harg => hop arg (List.mem_cons_of_mem _ harg))
          (sp.tidy_bodies _ _ hbody)⟩

/-- It leads nowhere else. -/
theorem leads_of_over (h : Leads bodies frames' (op.mapOperands become) next')
    (hover : sp.Over (frame :: below) frames' become)
    (hop : ∀ o ∈ op.operands, frame.function.Records o) :
    ∃ next, Leads bodies (frame :: below) op next ∧ sp.Above next next' := by
  generalize hop' : op.mapOperands become = op' at h
  cases h with
  | intro hcallee hbody =>
      obtain ⟨callee, args, rfl, rfl, rfl⟩ := Operation.mapOperands_eq_call hop'
      exact ⟨_, .intro (known_of_over hcallee hover (hop _ List.mem_cons_self) rfl) hbody,
        .intro hover (fun arg harg => hop arg (List.mem_cons_of_mem _ harg))
          (sp.tidy_bodies _ _ hbody)⟩

namespace Above

/-- Chains go on after inlining as they did before. -/
theorem enters (h : sp.Above frames frames') (henters : Enters bodies frames next) :
    ∃ next', Enters bodies frames' next' ∧ sp.Above next next' := by
  obtain ⟨hover, hargs, hg⟩ := h
  obtain ⟨hcall, hleads⟩ := henters
  obtain ⟨next', hleads', habove⟩ := leads_over hleads (hover.push hargs hg)
    (hg.operand_records _ hcall)
  rw [Operation.mapOperands_id] at hleads'
  exact ⟨next', .intro hcall hleads', habove⟩

theorem enters_of (h : sp.Above frames frames') (henters : Enters bodies frames' next') :
    ∃ next, Enters bodies frames next ∧ sp.Above next next' := by
  obtain ⟨hover, hargs, hg⟩ := h
  obtain @⟨_, _, _, op, hcall, hleads⟩ := henters
  rw [← op.mapOperands_id] at hleads
  obtain ⟨next, hleads, habove⟩ := leads_of_over hleads (hover.push hargs hg)
    (hg.operand_records _ hcall)
  exact ⟨next, .intro hcall hleads, habove⟩

/-- Chains above the caller have the same lengths. -/
theorem chainsWithin_iff (h : sp.Above frames frames') :
    ChainsWithin bodies n frames ↔ ChainsWithin bodies n frames' := by
  induction n generalizing frames frames' with
  | zero =>
      constructor
      · intro hchains next' henters
        obtain ⟨next, henters, _⟩ := h.enters_of henters
        exact hchains next henters
      · intro hchains next henters
        obtain ⟨next', henters, _⟩ := h.enters henters
        exact hchains next' henters
  | succ n ih =>
      constructor
      · intro hchains next' henters
        obtain ⟨next, henters, habove⟩ := h.enters_of henters
        exact (ih habove).mp (hchains next henters)
      · intro hchains next henters
        obtain ⟨next', henters, habove⟩ := h.enters henters
        exact (ih habove).mpr (hchains next' henters)

/-- They come to the same calls that cannot be inlined. -/
theorem misfitAfter_iff (h : sp.Above frames frames') :
    MisfitAfter bodies n frames ↔ MisfitAfter bodies n frames' := by
  induction n generalizing frames frames' with
  | zero =>
      obtain ⟨_, _, _⟩ := h
      simp only [MisfitAfter, Frame.Fits, List.length_map]
  | succ n ih =>
      constructor
      · rintro ⟨next, henters, hmisfit⟩
        obtain ⟨next', henters, habove⟩ := h.enters henters
        exact ⟨next', henters, (ih habove).mp hmisfit⟩
      · rintro ⟨next', henters, hmisfit⟩
        obtain ⟨next, henters, habove⟩ := h.enters_of henters
        exact ⟨next, henters, (ih habove).mpr hmisfit⟩

end Above

theorem enters_within : Enters bodies sp.caller.alone sp.within :=
  .intro sp.site_mem (.intro .const sp.body)

theorem eq_within_of_leads (h : Leads bodies sp.caller.alone sp.op next) : next = sp.within := by
  obtain ⟨target, g, hcallee, hbody, rfl⟩ := leads_call_iff.mp h
  cases hcallee
  obtain rfl := Option.some.inj (sp.body.symm.trans hbody)
  rfl

/-- A copied call leads where it led in the callee. -/
theorem leads_of_copied (hop : op ∈ sp.callee.calls)
    (h : Leads bodies sp.result.alone ((sp.names.call op).mapOperands sp.subst) next') :
    ∃ next, Leads bodies sp.within op next ∧ sp.Above next next' :=
  leads_of_over (leads_copy_iff.mp h) .inner (sp.callee_tidy.operand_records op hop)

/-- A call that is kept leads where it led in the caller. -/
theorem leads_of_kept (hop : op ∈ sp.kept)
    (h : Leads bodies sp.result.alone (op.mapOperands sp.subst) next') :
    ∃ next, Leads bodies sp.caller.alone op next ∧ sp.Above next next' :=
  leads_of_over h .outer (sp.tidy.operand_records op (sp.mem_caller_of_kept hop))

/-- A chain from the caller begins with the inlined call, or is there still. -/
theorem enters_result_of_caller (h : Enters bodies sp.caller.alone next) :
    next = sp.within ∨ ∃ next', Enters bodies sp.result.alone next' ∧ sp.Above next next' := by
  obtain ⟨hcall, hleads⟩ := h
  rcases sp.mem_caller_calls.mp hcall with rfl | hkept
  · exact .inl (eq_within_of_leads hleads)
  · obtain ⟨next', hleads', habove⟩ := leads_over hleads .outer (sp.tidy.operand_records _ hcall)
    exact .inr ⟨next', .intro (sp.mem_result_of_kept hkept) hleads', habove⟩

theorem enters_result_of_within (h : Enters bodies sp.within next) :
    ∃ next', Enters bodies sp.result.alone next' ∧ sp.Above next next' := by
  obtain ⟨hcall, hleads⟩ := h
  obtain ⟨next', hleads', habove⟩ := leads_over hleads .inner
    (sp.callee_tidy.operand_records _ hcall)
  exact ⟨next', .intro (sp.mem_result_of_copied hcall) (leads_copy_iff.mpr hleads'), habove⟩

/-- Each chain from the result was one from the caller or from the callee. -/
theorem enters_of_result (h : Enters bodies sp.result.alone next') :
    ∃ next, sp.Above next next' ∧
      (Enters bodies sp.caller.alone next ∨ Enters bodies sp.within next) := by
  obtain ⟨hcall, hleads⟩ := h
  rcases sp.mem_result_calls hcall with ⟨old, hold, rfl⟩ | ⟨old, hold, rfl⟩
  · obtain ⟨next, hleads, habove⟩ := leads_of_kept hold hleads
    exact ⟨next, habove, .inl (.intro (sp.mem_caller_of_kept hold) hleads)⟩
  · obtain ⟨next, hleads, habove⟩ := leads_of_copied hold hleads
    exact ⟨next, habove, .inr (.intro hold hleads)⟩

/-- The chains of the caller are longer than those of the result by one call at most. -/
theorem chainsWithin_caller (h : ChainsWithin bodies n sp.result.alone) :
    ChainsWithin bodies (n + 1) sp.caller.alone := by
  intro next henters
  rcases enters_result_of_caller henters with rfl | ⟨next', henters', habove⟩
  · apply chainsWithin_of_forall
    intro next henters
    obtain ⟨next', henters', habove⟩ := enters_result_of_within henters
    obtain ⟨k, rfl, hchains⟩ := h.exists_of_enters henters'
    exact ⟨k, rfl, habove.chainsWithin_iff.mpr hchains⟩
  · obtain ⟨k, rfl, hchains⟩ := h.exists_of_enters henters'
    exact (habove.chainsWithin_iff.mpr hchains).mono (Nat.le_succ k)

/-- What cannot be inlined in the result could not be inlined before. -/
theorem exists_misfitAfter_caller (h : MisfitAfter bodies (n + 1) sp.result.alone) :
    ∃ k, MisfitAfter bodies (k + 1) sp.caller.alone := by
  obtain ⟨next', henters', hmisfit⟩ := h
  obtain ⟨next, habove, henters | henters⟩ := enters_of_result henters'
  · exact ⟨n, next, henters, habove.misfitAfter_iff.mpr hmisfit⟩
  · exact ⟨n + 1, sp.within, enters_within, next, henters, habove.misfitAfter_iff.mpr hmisfit⟩

end

end Splice

/-! ## Bounded chains -/

/-- Every call has a number, and no chain of calls that begins with it is longer. -/
structure Labelled (bodies : FunctionId → Option Function) (f : Function)
    (labels : Multiset (Operation × Nat)) : Prop where
  calls : labels.map Prod.fst = f.calls
  bound : ∀ entry ∈ labels, ∀ next, Leads bodies f.alone entry.1 next →
    ∃ k, entry.2 = k + 1 ∧ ChainsWithin bodies k next

/-- Where chains are bounded, the calls can be numbered. -/
theorem ChainsWithin.exists_labelled {f : Function} {n : Nat} (h : ChainsWithin bodies n f.alone) :
    ∃ labels, Labelled bodies f labels := by
  refine ⟨(f.calls : Multiset Operation).map fun op => (op, n), ?_, ?_⟩
  · rw [Multiset.map_map]
    exact Multiset.map_id' _
  · intro entry hentry next hleads
    obtain ⟨op, hop, rfl⟩ := Multiset.mem_map.mp hentry
    exact h.exists_of_enters (.intro hop hleads)

/-- The inlined call is replaced by calls with smaller numbers; the others keep theirs. -/
theorem Labelled.exists_result {sp : Splice bodies} {labels : Multiset (Operation × Nat)}
    (h : Labelled bodies sp.caller labels) :
    ∃ labels', Labelled bodies sp.result labels' ∧
      Relation.CutExpand (· < ·) (labels'.map Prod.snd) (labels.map Prod.snd) := by
  have hmem : sp.op ∈ labels.map Prod.fst := by
    rw [h.calls]
    exact sp.site_mem
  obtain ⟨entry, hentry, hop⟩ := Multiset.mem_map.mp hmem
  obtain ⟨k, hk, hchains⟩ := h.bound entry hentry sp.within (hop ▸ .intro .const sp.body)
  obtain ⟨others, rfl⟩ := Multiset.exists_cons_of_mem hentry
  have hothers : others.map Prod.fst = sp.kept := by
    have hcalls := h.calls
    rw [Multiset.map_cons, hop, Multiset.coe_eq_coe.mpr sp.caller_perm, ← Multiset.cons_coe,
      Multiset.cons_inj_right] at hcalls
    exact hcalls
  let copied : Multiset (Operation × Nat) :=
    (sp.callee.calls : Multiset Operation).map fun op =>
      ((sp.names.call op).mapOperands sp.subst, k)
  refine ⟨others.map (fun other => (other.1.mapOperands sp.subst, other.2)) + copied,
    ⟨?_, ?_⟩, ?_⟩
  · have hkept : (others.map fun other => other.1.mapOperands sp.subst) =
        (sp.kept.map (Operation.mapOperands sp.subst) : Multiset Operation) := by
      rw [← Multiset.map_coe, ← hothers, Multiset.map_map]
      rfl
    rw [Multiset.map_add, Multiset.map_map, Multiset.map_map,
      Multiset.coe_eq_coe.mpr sp.result_perm, List.map_append, ← Multiset.coe_add, List.map_map]
    exact congrArg (· + _) hkept
  · intro other hother next' hleads
    rcases Multiset.mem_add.mp hother with hkept | hcopied
    · obtain ⟨old, hold, rfl⟩ := Multiset.mem_map.mp hkept
      have holdKept : old.1 ∈ sp.kept := by
        rw [← Multiset.mem_coe, ← hothers]
        exact Multiset.mem_map_of_mem _ hold
      obtain ⟨next, hleads, habove⟩ := Splice.leads_of_kept holdKept hleads
      obtain ⟨j, hj, hnext⟩ := h.bound old (Multiset.mem_cons_of_mem hold) next hleads
      exact ⟨j, hj, habove.chainsWithin_iff.mp hnext⟩
    · obtain ⟨old, hold, rfl⟩ := Multiset.mem_map.mp hcopied
      obtain ⟨next, hleads, habove⟩ := Splice.leads_of_copied hold hleads
      obtain ⟨j, hj, hnext⟩ := hchains.exists_of_enters (.intro hold hleads)
      exact ⟨j, hj, habove.chainsWithin_iff.mp hnext⟩
  · refine ⟨copied.map Prod.snd, k + 1, ?_, ?_⟩
    · intro label hlabel
      obtain ⟨other, hother, rfl⟩ := Multiset.mem_map.mp hlabel
      obtain ⟨_, _, rfl⟩ := Multiset.mem_map.mp hother
      exact Nat.lt_succ_self k
    · rw [Multiset.map_add, Multiset.map_map, Multiset.map_cons, hk, ← Multiset.singleton_add,
        add_comm, ← add_assoc]
      rfl

end Monolith
