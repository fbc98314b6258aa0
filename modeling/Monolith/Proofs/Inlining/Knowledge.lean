import Monolith.Proofs.Inlining.Calls

/-! # What stays known when a call is inlined

Inlining a call merges the frame of the callee into that of the caller. What is known
of an operand, in the two frames and in all that are called from them, is known of what
it has become.
-/

namespace Monolith

variable {o value : Operand} {x : ValueId} {ty : Ty} {args : List Operand} {frame : Frame}
  {below frames' : List Frame} {become : Operand → Operand}

namespace Function

/-- The operand is no variable but one that is recorded. -/
def Records (f : Function) (o : Operand) : Prop := ∀ x, o = .var x → x < f.values.length

/-- The variables of the calls are recorded, and no two calls have the same result. -/
structure TidyCalls (f : Function) : Prop where
  dests_nodup : (f.calls.filterMap Operation.dest?).Nodup
  dest_lt : ∀ op ∈ f.calls, ∀ x, op.dest? = some x → x < f.values.length
  operand_records : ∀ op ∈ f.calls, ∀ o ∈ op.operands, f.Records o

structure TidyBody (f : Function) : Prop extends TidyCalls f where
  entry_lt : f.entry < f.blocks.length
  parameters_nodup : f.parameters.Nodup
  dest_not_parameter : ∀ op ∈ f.calls, ∀ x, op.dest? = some x → x ∉ f.parameters
  result_records : ∀ o ∈ f.results, f.Records o

end Function

theorem Operation.mapOperands_eq_call {g : Operand → Operand} {op : Operation}
    {dest : Option ValueId} {callee : Operand} (h : op.mapOperands g = .call dest ty callee args) :
    ∃ callee₀ args₀, op = .call dest ty callee₀ args₀ ∧ g callee₀ = callee ∧
      args₀.map g = args := by
  cases op with
  | call dest₀ ty₀ callee₀ args₀ =>
      obtain ⟨rfl, rfl, rfl, rfl⟩ := Operation.call.inj h
      exact ⟨callee₀, args₀, rfl, rfl, rfl⟩
  | _ => cases h

theorem Operation.mapDest_eq_call {rename : ValueId → ValueId} {op : Operation}
    {dest : Option ValueId} {callee : Operand} (h : op.mapDest rename = .call dest ty callee args) :
    ∃ dest₀, op = .call dest₀ ty callee args ∧ dest₀.map rename = dest := by
  cases op with
  | call dest₀ ty₀ callee₀ args₀ =>
      obtain ⟨rfl, rfl, rfl, rfl⟩ := Operation.call.inj h
      exact ⟨dest₀, rfl, rfl⟩
  | _ => cases h

/-- A direct call that has been inlined: what that has done to the calls of the caller. -/
structure Splice (bodies : FunctionId → Option Function) where
  caller : Function
  result : Function
  site : CallSite
  target : FunctionId
  /-- The calls of the blocks in front of that of the call. -/
  front : List (List Operation)
  before : List Operation
  after : List Operation
  back : List (List Operation)
  body : bodies target = some site.callee
  caller_calls : caller.blockCalls = front ++
    (before ++ .call site.dest site.returnType (.const (.function target)) site.args :: after) ::
      back
  result_calls : result.blockCalls =
    (front ++ before :: back ++ [after] ++
      site.callee.blockCalls.map (List.map (site.renaming caller).call)).map
      (List.map (Operation.mapOperands
        (site.subst (site.callee.results.map (site.renaming caller).operand))))
  result_values : result.values.length = caller.values.length + site.callee.innerValues.length
  fits : Frame.Fits ⟨site.callee, site.args⟩
  tidy : caller.TidyCalls
  tidy_bodies : ∀ id g, bodies id = some g → g.TidyBody

namespace Splice

variable {bodies : FunctionId → Option Function} (sp : Splice bodies)

abbrev callee : Function := sp.site.callee

abbrev names : Renaming := sp.site.renaming sp.caller

def subst : Operand → Operand := sp.site.subst (sp.callee.results.map sp.names.operand)

abbrev op : Operation :=
  .call sp.site.dest sp.site.returnType (.const (.function sp.target)) sp.site.args

def kept : List Operation := sp.front.flatten ++ sp.before ++ sp.after ++ sp.back.flatten

theorem callee_tidy : sp.callee.TidyBody := sp.tidy_bodies _ _ sp.body

theorem copies : sp.names.Copies sp.callee sp.site.args sp.caller.values.length where
  values := rfl
  nodup := sp.callee_tidy.parameters_nodup
  arity := sp.fits.2

theorem caller_perm : sp.caller.calls.Perm (sp.op :: sp.kept) := by
  rw [Function.calls, sp.caller_calls]
  simp only [List.flatten_append, List.flatten_cons, kept, List.append_assoc, List.cons_append]
  rw [← List.append_assoc, ← List.append_assoc sp.front.flatten]
  exact List.perm_middle

theorem result_perm : sp.result.calls.Perm
    ((sp.kept ++ sp.callee.calls.map sp.names.call).map (Operation.mapOperands sp.subst)) := by
  rw [Function.calls, sp.result_calls, ← List.map_flatten]
  refine List.Perm.map _ ?_
  simp only [List.flatten_append, List.flatten_cons, List.flatten_nil, List.append_nil, kept,
    List.append_assoc, Function.calls, List.map_flatten]
  refine List.Perm.append_left _ (List.Perm.append_left _ ?_)
  rw [← List.append_assoc, ← List.append_assoc]
  exact List.Perm.append_right _ List.perm_append_comm

theorem site_mem : sp.op ∈ sp.caller.calls := sp.caller_perm.mem_iff.mpr List.mem_cons_self

/-! ## What becomes of operands and calls -/

theorem subst_const (c : Constant) : sp.subst (.const c) = .const c := sp.site.subst_const _ c

theorem subst_of_ne (h : sp.site.dest ≠ some x) : sp.subst (.var x) = .var x := by
  rcases sp.site.subst_cases (sp.callee.results.map sp.names.operand) with
    hid | ⟨dest, _, hdest, hsubst, _⟩
  · exact congrFun hid _
  · refine (congrFun hsubst _).trans (if_neg fun heq => h ?_)
    rw [hdest, Operand.var.inj heq]

/-- The result of the call is replaced by the one value that is returned. -/
theorem subst_dest (hdest : sp.site.dest = some x) (hvalue : sp.callee.results = [value]) :
    sp.subst (.var x) = sp.names.operand value := by
  unfold subst CallSite.subst
  rw [hdest, hvalue]
  exact if_pos rfl

theorem subst_cases (o : Operand) :
    sp.subst o = o ∨ sp.subst o = .poison sp.site.returnType ∨
      ∃ x value, sp.site.dest = some x ∧ o = .var x ∧ sp.callee.results = [value] ∧
        sp.subst o = sp.names.operand value := by
  by_cases hsame : sp.subst o = o
  · exact .inl hsame
  · rcases sp.site.subst_cases (sp.callee.results.map sp.names.operand) with
      hid | ⟨x, value, hdest, hsubst, hvalue⟩
    · exact absurd (congrFun hid o) hsame
    · have hreplaced : sp.subst o = Operand.replaceVar x value o := congrFun hsubst o
      unfold Operand.replaceVar at hreplaced
      split at hreplaced
      next heq =>
        rcases hvalue with rfl | hvalue
        · exact .inr (.inl hreplaced)
        · obtain ⟨result, hresult, rfl⟩ := List.map_eq_singleton_iff.mp hvalue
          exact .inr (.inr ⟨x, result, hdest, heq, hresult, hreplaced⟩)
      next => exact absurd hreplaced hsame

/-- What replaces the result is not itself replaced. -/
theorem subst_value (hvalue : sp.callee.results = [value]) :
    sp.subst (sp.names.operand value) = sp.names.operand value := by
  cases hoperand : sp.names.operand value with
  | const c => exact sp.subst_const c
  | var y =>
      by_cases hy : sp.site.dest = some y
      · rw [sp.subst_dest hy hvalue, hoperand]
      · exact sp.subst_of_ne hy

/-- In the copy, an operand of the callee is the same constant, an argument, or a new
variable. -/
theorem names_cases (ho : sp.callee.Records o) :
    (∃ c, o = .const c ∧ sp.names.operand o = .const c) ∨
      (∃ x, o = .var x ∧ (x, sp.names.operand o) ∈ sp.callee.parameters.zip sp.site.args) ∨
      ∃ x, o = .var x ∧ x ∉ sp.callee.parameters ∧ x < sp.callee.values.length ∧
        sp.names.operand o = .var (sp.names.dest x) := by
  cases o with
  | const c => exact .inl ⟨c, rfl, rfl⟩
  | var x =>
      by_cases hx : x ∈ sp.callee.parameters
      · obtain ⟨arg, harg⟩ := sp.copies.exists_zip hx
        refine .inr (.inl ⟨x, rfl, ?_⟩)
        rwa [sp.copies.operand_of_zip harg]
      · have hlt := ho x rfl
        exact .inr (.inr ⟨x, rfl, hx, hlt, sp.copies.operand_inner hx hlt⟩)

theorem arg_records {arg : Operand} (h : arg ∈ sp.site.args) : sp.caller.Records arg :=
  sp.tidy.operand_records _ sp.site_mem arg (List.mem_cons_of_mem _ h)

/-- The new variables of the copy are replaced by nothing. -/
theorem subst_copied (hx : x ∉ sp.callee.parameters) (hlt : x < sp.callee.values.length) :
    sp.subst (.var (sp.names.dest x)) = .var (sp.names.dest x) := by
  refine sp.subst_of_ne fun hdest => ?_
  have hrecorded := sp.tidy.dest_lt _ sp.site_mem _ hdest
  exact absurd hrecorded (Nat.not_lt.mpr (sp.copies.le_dest hx hlt))

/-- Every call of the caller but the one that is inlined is kept. -/
theorem mem_caller_calls {op : Operation} : op ∈ sp.caller.calls ↔ op = sp.op ∨ op ∈ sp.kept :=
  sp.caller_perm.mem_iff.trans List.mem_cons

theorem mem_result_of_kept {op : Operation} (h : op ∈ sp.kept) :
    op.mapOperands sp.subst ∈ sp.result.calls :=
  sp.result_perm.mem_iff.mpr (List.mem_map_of_mem (List.mem_append_left _ h))

theorem mem_result_of_copied {op : Operation} (h : op ∈ sp.callee.calls) :
    (sp.names.call op).mapOperands sp.subst ∈ sp.result.calls :=
  sp.result_perm.mem_iff.mpr
    (List.mem_map_of_mem (List.mem_append_right _ (List.mem_map_of_mem h)))

/-- Every call of the result comes from the caller or from the callee. -/
theorem mem_result_calls {op : Operation} (h : op ∈ sp.result.calls) :
    (∃ old ∈ sp.kept, old.mapOperands sp.subst = op) ∨
      ∃ old ∈ sp.callee.calls, (sp.names.call old).mapOperands sp.subst = op := by
  obtain ⟨old, hold, rfl⟩ := List.mem_map.mp (sp.result_perm.mem_iff.mp h)
  rcases List.mem_append.mp hold with hcaller | hcopied
  · exact .inl ⟨old, hcaller, rfl⟩
  · obtain ⟨source, hsource, rfl⟩ := List.mem_map.mp hcopied
    exact .inr ⟨source, hsource, rfl⟩

theorem mem_caller_of_kept {op : Operation} (h : op ∈ sp.kept) : op ∈ sp.caller.calls :=
  sp.mem_caller_calls.mpr (.inr h)

theorem caller_dests_nodup : ((sp.op :: sp.kept).filterMap Operation.dest?).Nodup :=
  (sp.caller_perm.filterMap _).nodup_iff.mp sp.tidy.dests_nodup

/-- No other call has the result of the one that is inlined. -/
theorem dest_ne_of_kept {op : Operation} (h : op ∈ sp.kept) (hx : op.dest? = some x) :
    sp.site.dest ≠ some x := by
  intro hdest
  have hnodup := sp.caller_dests_nodup
  rw [List.filterMap_cons_some (show sp.op.dest? = some x from hdest)] at hnodup
  exact (List.nodup_cons.mp hnodup).1 (List.mem_filterMap.mpr ⟨op, h, hx⟩)

/-! ## What becomes of frames -/

abbrev within : List Frame := ⟨sp.callee, sp.site.args⟩ :: sp.caller.alone

/-- The frames after inlining, and what an operand of the first of them has become. -/
inductive Over : List Frame → List Frame → (Operand → Operand) → Prop where
  | outer : Over sp.caller.alone sp.result.alone sp.subst
  | inner : Over sp.within sp.result.alone fun o => sp.subst (sp.names.operand o)
  | push {frame : Frame} {below frames : List Frame} {become : Operand → Operand} {g : Function}
      {args : List Operand} (hover : Over (frame :: below) frames become)
      (hargs : ∀ arg ∈ args, frame.function.Records arg) (hg : g.TidyBody) :
      Over (⟨g, args⟩ :: frame :: below) (⟨g, args.map become⟩ :: frames) id

variable {sp}

theorem Over.const {frames frames' : List Frame} {become : Operand → Operand}
    (h : sp.Over frames frames' become) (c : Constant) : become (.const c) = .const c := by
  cases h with
  | outer => exact sp.subst_const c
  | inner => exact sp.subst_const c
  | push => rfl

theorem Over.tidy {frame : Frame} {below frames' : List Frame} {become : Operand → Operand}
    (h : sp.Over (frame :: below) frames' become) : frame.function.TidyCalls := by
  cases h with
  | outer => exact sp.tidy
  | inner => exact sp.callee_tidy.toTidyCalls
  | push _ _ hg => exact hg.toTidyCalls

/-- What is known is known of what it has become. -/
theorem knownIn_over {id : FunctionId} {n : Nat} (h : KnownIn bodies n (frame :: below) o id)
    (hover : sp.Over (frame :: below) frames' become) (ho : frame.function.Records o) :
    KnownIn bodies n frames' (become o) id := by
  generalize hframes : frame :: below = frames at h
  induction h generalizing frame below frames' become with
  | const =>
      rw [hover.const]
      exact .const
  | argument harg hknown ih =>
      obtain ⟨rfl, rfl⟩ := List.cons.inj hframes
      cases hover with
      | outer =>
          rw [List.zip_nil_right] at harg
          cases harg
      | inner =>
          change KnownIn bodies _ _ (sp.subst (sp.names.operand _)) _
          rw [sp.copies.operand_of_zip harg]
          exact ih .outer (sp.arg_records (List.of_mem_zip harg).2) rfl
      | push hbelow hargs _ =>
          refine .argument ?_ (ih hbelow (hargs _ (List.of_mem_zip harg).2) rfl)
          rw [List.zip_map_right]
          exact List.mem_map.mpr ⟨_, harg, rfl⟩
  | result hcall hcallee hbody hvalue hknown hbound ihcallee ihknown =>
      obtain ⟨rfl, rfl⟩ := List.cons.inj hframes
      have hrecords := hover.tidy.operand_records _ hcall
      have hg := sp.tidy_bodies _ _ hbody
      have hresult := hg.result_records _ (hvalue ▸ List.mem_singleton_self _)
      have hknown' := ihcallee hover (hrecords _ List.mem_cons_self) rfl
      have hreturned := ihknown (hover.push (fun arg harg => hrecords arg
        (List.mem_cons_of_mem _ harg)) hg) hresult rfl
      cases hover with
      | outer =>
          rcases sp.mem_caller_calls.mp hcall with heq | hkept
          · -- the frame that was looked into has become part of the first one
            obtain ⟨hdest, rfl, rfl, rfl⟩ := Operation.call.inj heq
            cases hcallee
            obtain rfl := Option.some.inj (sp.body.symm.trans hbody)
            have hinner := ihknown .inner hresult rfl
            rw [sp.subst_dest hdest.symm hvalue]
            rw [sp.subst_value hvalue] at hinner
            exact hinner.mono (Nat.le_trans (Nat.le_add_left _ _) (Nat.le_of_lt hbound))
          · rw [sp.subst_of_ne (sp.dest_ne_of_kept hkept rfl)]
            exact .result (sp.mem_result_of_kept hkept) hknown' hbody hvalue hreturned hbound
      | inner =>
          have hx := sp.callee_tidy.dest_not_parameter _ hcall _ rfl
          have hlt := sp.callee_tidy.dest_lt _ hcall _ rfl
          have hmem := sp.mem_result_of_copied hcall
          change KnownIn bodies _ _ (sp.subst (sp.names.operand _)) _
          rw [sp.copies.operand_inner hx hlt, sp.subst_copied hx hlt]
          simp only [Renaming.call, Operation.mapOperands, Operation.mapDest, List.map_map] at hmem
          exact .result hmem hknown' hbody hvalue hreturned hbound
      | push =>
          rw [List.map_id] at hreturned
          exact .result hcall hknown' hbody hvalue hreturned hbound

theorem known_over {id : FunctionId} (h : Known bodies (frame :: below) o id)
    (hover : sp.Over (frame :: below) frames' become) (ho : frame.function.Records o) :
    Known bodies frames' (become o) id := by
  obtain ⟨n, hknown⟩ := h.exists_bound
  exact (knownIn_over hknown hover ho).known

variable (sp) in
/-- Where it was known before what an operand of the result is known to be. -/
inductive Source : Operand → FunctionId → Prop where
  | const {id : FunctionId} : Source (.const (.function id)) id
  | kept {x : ValueId} {id : FunctionId} (hlt : x < sp.caller.values.length)
      (hknown : Known bodies sp.caller.alone (.var x) id) : Source (.var x) id
  | copied {x : ValueId} {id : FunctionId} (hx : x ∉ sp.callee.parameters)
      (hlt : x < sp.callee.values.length) (hknown : Known bodies sp.within (.var x) id) :
      Source (.var (sp.names.dest x)) id

namespace Source

/-- What is recorded in the caller has no new name. -/
theorem known_of_records {id : FunctionId} (h : sp.Source o id) (ho : sp.caller.Records o) :
    Known bodies sp.caller.alone o id := by
  cases h with
  | const => exact .const
  | kept _ hknown => exact hknown
  | copied hx hlt _ => exact absurd (ho _ rfl) (Nat.not_lt.mpr (sp.copies.le_dest hx hlt))

theorem known_of_names {id : FunctionId} (h : sp.Source (sp.names.operand o) id)
    (ho : sp.callee.Records o) : Known bodies sp.within o id := by
  rcases sp.names_cases ho with ⟨c, rfl, hc⟩ | ⟨x, rfl, harg⟩ | ⟨x, rfl, hx, hlt, hdest⟩
  · rw [hc] at h
    cases h
    exact .const
  · exact .argument harg (h.known_of_records (sp.arg_records (List.of_mem_zip harg).2))
  · rw [hdest] at h
    generalize hnew : sp.names.dest x = y at h
    cases h with
    | kept hrecorded _ =>
        rw [← hnew] at hrecorded
        exact absurd hrecorded (Nat.not_lt.mpr (sp.copies.le_dest hx hlt))
    | copied hx' hlt' hknown =>
        obtain rfl := sp.copies.dest_inj hx hlt hx' hlt' hnew
        exact hknown

theorem known_of_subst {id : FunctionId} (h : sp.Source (sp.subst o) id) (ho : sp.caller.Records o)
    : Known bodies sp.caller.alone o id := by
  rcases sp.subst_cases o with hsame | hpoison | ⟨x, value, hdest, rfl, hvalue, hsubst⟩
  · rw [hsame] at h
    exact h.known_of_records ho
  · rw [hpoison] at h
    cases h
  · rw [hsubst] at h
    have hresult := sp.callee_tidy.result_records _ (hvalue ▸ List.mem_singleton_self _)
    have hcall := sp.site_mem
    rw [Splice.op, hdest] at hcall
    exact .result hcall .const sp.body hvalue (h.known_of_names hresult)

theorem known_of_copy {id : FunctionId} (h : sp.Source (sp.subst (sp.names.operand o)) id)
    (ho : sp.callee.Records o) : Known bodies sp.within o id := by
  rcases sp.names_cases ho with ⟨c, rfl, hc⟩ | ⟨x, rfl, harg⟩ | ⟨x, rfl, hx, hlt, hdest⟩
  · rw [hc, sp.subst_const, ← hc] at h
    exact h.known_of_names ho
  · exact .argument harg (h.known_of_subst (sp.arg_records (List.of_mem_zip harg).2))
  · rw [hdest, sp.subst_copied hx hlt, ← hdest] at h
    exact h.known_of_names ho

end Source

/-- The result of a call of the result was known before, if what it calls and what is
returned there was known. -/
theorem source_of_call {callee : Operand} {target id : FunctionId} {g : Function}
    (hcall : .call (some x) ty callee args ∈ sp.result.calls) (hbody : bodies target = some g)
    (hvalue : g.results = [value])
    (hcallee : ∀ {frame : Frame} {below : List Frame} {become : Operand → Operand} {o : Operand},
      sp.Over (frame :: below) sp.result.alone become → frame.function.Records o →
      become o = callee → Known bodies (frame :: below) o target)
    (hknown : ∀ {frame : Frame} {below : List Frame} {become : Operand → Operand} {o : Operand},
      sp.Over (frame :: below) (⟨g, args⟩ :: sp.result.alone) become →
      frame.function.Records o → become o = value → Known bodies (frame :: below) o id) :
    sp.Source (.var x) id := by
  have hg := sp.tidy_bodies _ _ hbody
  have hresult := hg.result_records _ (hvalue ▸ List.mem_singleton_self _)
  rcases sp.mem_result_calls hcall with ⟨old, hold, heq⟩ | ⟨old, hold, heq⟩
  · obtain ⟨callee₀, args₀, rfl, rfl, rfl⟩ := Operation.mapOperands_eq_call heq
    have hmem := sp.mem_caller_of_kept hold
    have hrecords := sp.tidy.operand_records _ hmem
    have hpush := Over.outer.push (fun arg harg => hrecords arg (List.mem_cons_of_mem _ harg)) hg
    exact .kept (sp.tidy.dest_lt _ hmem _ rfl) (.result hmem
      (hcallee .outer (hrecords _ List.mem_cons_self) rfl) hbody hvalue (hknown hpush hresult rfl))
  · obtain ⟨callee₁, args₁, hcopy, rfl, rfl⟩ := Operation.mapOperands_eq_call heq
    obtain ⟨dest₀, hcopy, hdest⟩ := Operation.mapDest_eq_call hcopy
    obtain ⟨callee₀, args₀, rfl, rfl, rfl⟩ := Operation.mapOperands_eq_call hcopy
    obtain ⟨x₀, rfl, rfl⟩ := Option.map_eq_some_iff.mp hdest
    have hrecords := sp.callee_tidy.operand_records _ hold
    have hpush := Over.inner.push (fun arg harg => hrecords arg (List.mem_cons_of_mem _ harg)) hg
    rw [List.map_map] at hknown
    exact .copied (sp.callee_tidy.dest_not_parameter _ hold _ rfl)
      (sp.callee_tidy.dest_lt _ hold _ rfl) (.result hold
      (hcallee .inner (hrecords _ List.mem_cons_self) rfl) hbody hvalue (hknown hpush hresult rfl))

/-- What is known of what an operand has become was known of it. -/
theorem known_of_over {o' : Operand} {id : FunctionId} (h : Known bodies frames' o' id)
    (hover : sp.Over (frame :: below) frames' become) (ho : frame.function.Records o)
    (ho' : become o = o') : Known bodies (frame :: below) o id := by
  induction h generalizing frame below become o with
  | const =>
      cases hover with
      | outer => exact Source.known_of_subst (ho' ▸ .const) ho
      | inner =>
          refine Source.known_of_copy ?_ ho
          rw [show sp.subst (sp.names.operand o) = _ from ho']
          exact .const
      | push =>
          obtain rfl : o = _ := ho'
          exact .const
  | argument harg _ ih =>
      cases hover with
      | outer =>
          rw [List.zip_nil_right] at harg
          cases harg
      | inner =>
          rw [List.zip_nil_right] at harg
          cases harg
      | push hbelow hargs _ =>
          obtain rfl : o = _ := ho'
          rw [List.zip_map_right] at harg
          obtain ⟨entry, hentry, heq⟩ := List.mem_map.mp harg
          obtain ⟨rfl, rfl⟩ := Prod.mk.inj heq
          exact .argument hentry (ih hbelow (hargs _ (List.of_mem_zip hentry).2) rfl)
  | result hcall hcallee hbody hvalue hknown ihcallee ihknown =>
      cases hover with
      | outer =>
          have hsource := source_of_call hcall hbody hvalue ihcallee ihknown
          rw [← ho'] at hsource
          exact hsource.known_of_subst ho
      | inner =>
          have hsource := source_of_call hcall hbody hvalue ihcallee ihknown
          rw [← ho'] at hsource
          exact hsource.known_of_copy ho
      | push hbelow hargs hg =>
          obtain rfl : o = _ := ho'
          have hover := hbelow.push hargs hg
          have hrecords := hg.operand_records _ hcall
          have hbodyTidy := sp.tidy_bodies _ _ hbody
          have hresult := hbodyTidy.result_records _ (hvalue ▸ List.mem_singleton_self _)
          have hpush := hover.push (fun arg harg => hrecords arg
            (List.mem_cons_of_mem _ harg)) hbodyTidy
          rw [List.map_id] at hpush
          exact .result hcall (ihcallee hover (hrecords _ List.mem_cons_self) rfl) hbody hvalue
            (ihknown hpush hresult rfl)

end Splice

end Monolith
