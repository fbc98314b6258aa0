import Monolith.Proofs.Code.Meaning
import Monolith.Proofs.Inlining.Form

/-! # Values after inlining

The environments of a run before and after inlining agree on the variables that are
visible: what is read in place of a variable has its value. A variable that is read
in place of the result of the call is not set again while the result is visible,
since its definition is passed before the call on every walk.
-/

namespace Monolith

variable {done rest : List Instruction} {b source : BlockId} {r : Operand → Operand}
  {x d z y : ValueId} {i : Instruction} {block : Block}

namespace Interpretation

variable (I : Interpretation)

theorem evalAll_map {env env' : Env I.Value} {operands : List Operand}
    (h : ∀ o ∈ operands, I.eval env' (r o) = I.eval env o) :
    I.evalAll env' (operands.map r) = I.evalAll env operands := by
  induction operands with
  | nil => rfl
  | cons o operands ih =>
      have htail := ih fun o ho => h o (List.mem_cons_of_mem _ ho)
      simp only [evalAll, List.map_cons, List.mapM_cons, h o List.mem_cons_self] at htail ⊢
      rw [htail]

theorem exists_evalAll {env : Env I.Value} {operands : List Operand}
    (h : ∀ o ∈ operands, ∃ v, I.eval env o = some v) :
    ∃ values, I.evalAll env operands = some values ∧ values.length = operands.length := by
  induction operands with
  | nil => exact ⟨[], rfl, rfl⟩
  | cons o operands ih =>
      obtain ⟨v, hv⟩ := h o List.mem_cons_self
      obtain ⟨values, hvalues, hlength⟩ := ih fun o ho => h o (List.mem_cons_of_mem _ ho)
      refine ⟨v :: values, ?_, congrArg (· + 1) hlength⟩
      simp only [evalAll, List.mapM_cons, hv] at hvalues ⊢
      rw [hvalues]
      rfl

theorem target?_map {env env' : Env I.Value} {t : Terminator}
    (h : ∀ o ∈ t.operands, I.eval env' (r o) = I.eval env o) :
    I.target? env' (t.mapOperands r) = I.target? env t := by
  cases t with
  | branch condition onTrue onFalse =>
      have hcondition := h condition List.mem_cons_self
      simp only [Terminator.mapOperands, target?, hcondition]
  | _ => rfl

theorem return?_map {env env' : Env I.Value} {t : Terminator}
    (h : ∀ o ∈ t.operands, I.eval env' (r o) = I.eval env o) :
    I.return? env' (t.mapOperands r) = I.return? env t := by
  cases t with
  | ret value =>
      cases value with
      | none => rfl
      | some value =>
          have hvalue := h value List.mem_cons_self
          simp only [Terminator.mapOperands, Option.map_some, return?, hvalue]
  | _ => rfl

theorem phiValues_keys {env : Env I.Value} {phis : List Instruction}
    {values : List (ValueId × I.Value)} (h : I.phiValues env source phis = some values) :
    values.map Prod.fst = defsOf phis := by
  induction phis generalizing values with
  | nil =>
      obtain rfl := Option.some.inj h
      rfl
  | cons i phis ih =>
      simp only [phiValues, List.mapM_cons, Option.bind_eq_bind, Option.bind_eq_some_iff,
        Option.pure_def, Option.some.injEq] at h
      obtain ⟨⟨dest, value⟩, hvalue, rest, hrest, rfl⟩ := h
      rw [List.map_cons, ih hrest, defsOf_cons]
      cases hop : i.op with
      | phi dest' ty incoming =>
          simp only [hop, phiValue, Option.bind_eq_bind, Option.bind_eq_some_iff, Option.pure_def,
            Option.some.injEq, Prod.mk.injEq] at hvalue
          obtain ⟨_, _, _, _, rfl, _⟩ := hvalue
          rfl
      | _ => simp [hop, phiValue] at hvalue

/-- A phi that is renamed, with the blocks that it lists, takes the value that it took. -/
theorem phiValue_map {env env' : Env I.Value} {s : BlockId → BlockId} {dest : ValueId} {ty : Ty}
    {incoming : List (Operand × BlockId)}
    (hsource : ∀ entry ∈ incoming, s entry.2 = s source → entry.2 = source)
    (hvalue : ∀ o, (o, source) ∈ incoming → I.eval env' (r o) = I.eval env o)
    (δ : ValueId → ValueId) :
    I.phiValue env' (s source) (.phi (δ dest) ty (incoming.map fun (o, b) => (r o, s b))) =
      (I.phiValue env source (.phi dest ty incoming)).map fun entry => (δ entry.1, entry.2) := by
  induction incoming with
  | nil => rfl
  | cons entry incoming ih =>
      obtain ⟨o, b⟩ := entry
      by_cases hb : b = source
      · subst hb
        cases hold : I.eval env o <;> simp [phiValue, hvalue o List.mem_cons_self, hold]
      · have hne : s b ≠ s source := fun heq => hb (hsource (o, b) List.mem_cons_self heq)
        have htail := ih (fun entry hentry => hsource entry (List.mem_cons_of_mem _ hentry))
          fun o ho => hvalue o (List.mem_cons_of_mem _ ho)
        simpa [phiValue, hb, hne] using htail

/-- The phi is renamed, and what it takes from the given block keeps its value. -/
def Renamed (env env' : Env I.Value) (source : BlockId) (r : Operand → Operand)
    (s : BlockId → BlockId) (δ : ValueId → ValueId) (i i' : Instruction) : Prop :=
  ∃ dest ty incoming, i.op = .phi dest ty incoming ∧
    i'.op = .phi (δ dest) ty (incoming.map fun (o, b) => (r o, s b)) ∧
    (∀ entry ∈ incoming, s entry.2 = s source → entry.2 = source) ∧
    ∀ o, (o, source) ∈ incoming → I.eval env' (r o) = I.eval env o

theorem phiValues_map {env env' : Env I.Value} {s : BlockId → BlockId} {δ : ValueId → ValueId}
    {g : Instruction → Instruction} {phis : List Instruction}
    (h : ∀ i ∈ phis, I.Renamed env env' source r s δ i (g i)) :
    I.phiValues env' (s source) (phis.map g) =
      (I.phiValues env source phis).map (·.map fun entry => (δ entry.1, entry.2)) := by
  induction phis with
  | nil => rfl
  | cons i phis ih =>
      obtain ⟨dest, ty, incoming, hop, hop', hsource, hvalue⟩ := h i List.mem_cons_self
      have htail := ih fun i hi => h i (List.mem_cons_of_mem _ hi)
      have hhead : I.phiValue env' (s source) (g i).op =
          (I.phiValue env source i.op).map fun entry => (δ entry.1, entry.2) := by
        rw [hop, hop']
        exact I.phiValue_map hsource hvalue δ
      simp only [phiValues, List.map_cons, List.mapM_cons, hhead] at htail ⊢
      rw [htail]
      cases I.phiValue env source i.op with
      | none => rfl
      | some entry => cases (phis.mapM fun i => I.phiValue env source i.op) <;> rfl

end Interpretation

namespace SoundInlining

open Inlining

variable (inl : SoundInlining)

/-- Where the call is first made, its result has no value yet. -/
theorem dest_not_visible (hreached : inl.caller.Reached inl.block) (hd : inl.site.dest = some d) :
    ¬inl.caller.Visible inl.block inl.before d := by
  intro hvisible
  obtain ⟨rest, hwalk⟩ := hreached
  obtain ⟨_, first, _, hnot, hfirst⟩ := hwalk.first_visit List.mem_cons_self
  have hbody := inl.dest_mem_body hd
  rcases hvisible first hfirst with hparam | hbefore | ⟨a, ha, hx⟩
  · exact Function.not_parameter_of_body inl.wellFormed.nodup hbody hparam
  · exact inl.dest_not_before hd hbefore
  · rw [Function.block_unique inl.wellFormed.nodup hx hbody] at ha
    exact hnot ha

theorem dest_not_arg (hreached : inl.caller.Reached inl.block) (hd : inl.site.dest = some d) :
    .var d ∉ inl.site.args := fun harg =>
  inl.dest_not_visible hreached hd (inl.wellFormed.reads_visible _ _ d (inl.reads_arg harg))

/-- When an argument of the call is set again, the result of the call is not visible: every
walk to there passes the call before, and the argument is set before every call. -/
theorem not_visible_dest {e : BlockId} (hd : inl.site.dest = some d) (hz : .var z ∈ inl.site.args)
    (hbody : inl.caller.body e = done ++ i :: rest) (hi : i.op.dest? = some z)
    (hreached : inl.caller.Reached e) : ¬inl.caller.Visible e (done ++ [i]) d := by
  intro hvisible
  have hnodup := inl.wellFormed.nodup
  have hdest := inl.dest_mem_body hd
  have hplace : (inl.caller.body e)[done.length]? = some i := by simp [hbody]
  have hze : z ∈ defsOf (inl.caller.body e) :=
    mem_defsOf.mpr ⟨i, List.mem_of_getElem? hplace, hi⟩
  have harg := inl.wellFormed.reads_visible _ _ z (inl.reads_arg hz)
  obtain ⟨walk, hwalk⟩ := hreached
  -- On the first visit of the block, it was not passed before.
  obtain ⟨_, first, _, hnot, hfirst⟩ := hwalk.first_visit List.mem_cons_self
  have hnone : ∀ a ∈ first, z ∉ defsOf (inl.caller.body a) := by
    intro a ha hza
    rw [Function.block_unique hnodup hza hze] at ha
    exact hnot ha
  rcases hvisible first hfirst with hparam | hdone | ⟨a, ha, hx⟩
  · exact Function.not_parameter_of_body hnodup hdest hparam
  · obtain ⟨j, hj, hjd⟩ := mem_defsOf.mp hdone
    obtain ⟨index, hlt, rfl⟩ := List.getElem_of_mem hj
    have hindex : (inl.caller.body e)[index]? = some (done ++ [i])[index] := by
      rw [hbody, List.append_cons, List.getElem?_append_left hlt, List.getElem?_eq_getElem hlt]
    have hcall : (inl.caller.body inl.block)[inl.before.length]? = some inl.call := by
      simp [inl.body_block]
    have hop : inl.call.op.dest? = some d := by
      rw [inl.call_eq]
      exact hd
    obtain ⟨rfl, rfl⟩ := Function.place_unique hnodup hindex hjd hcall hop
    rcases harg first hfirst with hparam | hbefore | ⟨a, ha, hx⟩
    · exact Function.not_parameter_of_body hnodup hze hparam
    · obtain ⟨j', hj', hz'⟩ := mem_defsOf.mp hbefore
      obtain ⟨index', hlt', rfl⟩ := List.getElem_of_mem hj'
      have hindex' : (inl.caller.body inl.block)[index']? = some inl.before[index'] := by
        rw [body_block, List.getElem?_append_left hlt', List.getElem?_eq_getElem hlt']
      have heq := (Function.place_unique hnodup hplace hi hindex' hz').2
      rw [List.length_append, List.length_singleton] at hlt
      omega
    · exact hnone a ha hx
  · rw [Function.block_unique hnodup hx hdest] at ha
    obtain ⟨front, outer, rfl⟩ := List.append_of_mem ha
    rw [← List.cons_append] at hfirst
    rcases harg outer hfirst.suffix with hparam | hbefore | ⟨a', ha', hx'⟩
    · exact Function.not_parameter_of_body hnodup hze hparam
    · refine hnone inl.block ha ?_
      rw [body_block, defsOf_append]
      exact List.mem_append_left _ hbefore
    · exact hnone a' (by simp [ha']) hx'

/-- What is read in place of a variable: the variable itself or, for the result of the
call, something else. -/
theorem subst_var_cases (h : inl.subst (.var y) = .var z) :
    z = y ∨ inl.site.dest = some y ∧ (.var z ∈ inl.site.args ∨ inl.caller.values.length ≤ z) := by
  by_cases hd : inl.site.dest = some y
  · rcases inl.subst_dest hd with ⟨hsame, _⟩ | ⟨hpoison, _⟩ | ⟨value, source, hvalue, hreturned⟩
    · rw [h] at hsame
      exact .inl (Operand.var.inj hsame)
    · rw [h] at hpoison
      cases hpoison
    · have hmem : (value, source) ∈ inl.returned := by simp [hreturned]
      obtain ⟨c, passed, o, hreads, hrenamed⟩ := inl.reads_returned hmem
      rw [← hvalue, h] at hrenamed
      rcases inl.operand_cases hreads hrenamed with harg | ⟨x, _, hx, hdefs, rfl⟩
      · exact .inr ⟨hd, .inl harg⟩
      · exact .inr ⟨hd, .inr (inl.copies.le_dest hx (inl.inner_of_defs hdefs).2)⟩
  · rw [inl.subst_var_of_ne hd] at h
    exact .inl (Operand.var.inj h).symm

/-! ## Agreement with the caller -/

variable (I : Interpretation)

/-- A variable that is visible has a value, and so has what is read in place of it. -/
def Agrees (b : BlockId) (done : List Instruction) (env env' : Env I.Value) : Prop :=
  ∀ x, inl.caller.Visible b done x →
    ∃ v, env x = some v ∧ I.eval env' (inl.subst (.var x)) = some v

variable {inl I}

theorem Agrees.exists_eval {env env' : Env I.Value} (h : inl.Agrees I b done env env') {o : Operand}
    (ho : inl.caller.Reads b done o) :
    ∃ v, I.eval env o = some v ∧ I.eval env' (inl.subst o) = some v := by
  cases o with
  | const c =>
      rw [subst_const]
      exact ⟨_, rfl, rfl⟩
  | var x => exact h x (inl.wellFormed.reads_visible b done x ho)

theorem Agrees.eval {b : BlockId} {done : List Instruction} {env env' : Env I.Value}
    (h : inl.Agrees I b done env env') {o : Operand} (ho : inl.caller.Reads b done o) :
    I.eval env' (inl.subst o) = I.eval env o := by
  obtain ⟨v, hv, hv'⟩ := h.exists_eval ho
  rw [hv, hv']

theorem Agrees.eval_terminator {env env' : Env I.Value}
    (h : inl.Agrees I b (inl.caller.body b) env env') (hblock : inl.caller.block? b = some block) :
    ∀ o ∈ block.terminator.operands, I.eval env' (inl.subst o) = I.eval env o := by
  rw [Function.body_eq hblock] at h
  exact fun o ho => h.eval (.terminator hblock ho)

theorem agrees_start {values : List I.Value}
    (hlength : inl.caller.parameters.length ≤ values.length) :
    inl.Agrees I inl.caller.entry [] (Env.ofArguments inl.caller.parameters values)
      (Env.ofArguments inl.caller.parameters values) := by
  intro x hvisible
  have hx : x ∈ inl.caller.parameters := by
    rcases hvisible [] .start with hparam | hdone | ⟨_, ha, _⟩
    · exact hparam
    · cases hdone
    · cases ha
  have hne : inl.site.dest ≠ some x := fun hd =>
    Function.not_parameter_of_body inl.wellFormed.nodup (inl.dest_mem_body hd) hx
  obtain ⟨v, hv⟩ := Env.exists_ofArguments hlength hx
  rw [inl.subst_var_of_ne hne]
  exact ⟨v, hv, hv⟩

/-- Only the call defines its result. -/
theorem ne_dest_of_place (hbody : inl.caller.body b = done ++ i :: rest)
    (hplace : b = inl.block → done.length ≠ inl.before.length) (hx : i.op.dest? = some x) :
    inl.site.dest ≠ some x := by
  intro hd
  have hi : (inl.caller.body b)[done.length]? = some i := by simp [hbody]
  have hcall : (inl.caller.body inl.block)[inl.before.length]? = some inl.call := by
    simp [inl.body_block]
  have hop : inl.call.op.dest? = some x := by
    rw [inl.call_eq]
    exact hd
  obtain ⟨hb, hindex⟩ := Function.place_unique inl.wellFormed.nodup hi hx hcall hop
  exact hplace hb hindex

theorem mem_body_of_place {f : Function} (hbody : f.body b = done ++ i :: rest)
    (hx : i.op.dest? = some x) : x ∈ defsOf (f.body b) :=
  mem_defsOf.mpr ⟨i, by simp [hbody], hx⟩

theorem lt_of_place (hbody : inl.caller.body b = done ++ i :: rest) (hx : i.op.dest? = some x) :
    x < inl.caller.values.length :=
  inl.recorded x
    (List.mem_append_right _ (Function.mem_defs_of_body (mem_body_of_place hbody hx)))

/-- An instruction of the caller other than the call keeps the agreement. -/
theorem Agrees.assign {b : BlockId} {done rest : List Instruction} {i : Instruction}
    {env env' : Env I.Value} (h : inl.Agrees I b done env env')
    (hbody : inl.caller.body b = done ++ i :: rest) (hreached : inl.caller.Reached b)
    (hplace : b = inl.block → done.length ≠ inl.before.length) (v : I.Value) :
    inl.Agrees I b (done ++ [i]) (env.assign i.op.dest? v) (env'.assign i.op.dest? v) := by
  intro y hvisible
  by_cases hy : i.op.dest? = some y
  · rw [inl.subst_var_of_ne (ne_dest_of_place hbody hplace hy), hy]
    exact ⟨v, Env.set_self _ _ _, Env.set_self _ _ _⟩
  · have hold : inl.caller.Visible b done y := by
      refine hvisible.of_append ?_
      rw [defsOf_cons]
      simpa using hy
    obtain ⟨old, henv, heval⟩ := h y hold
    refine ⟨old, (Env.assign_of_ne _ _ hy).trans henv, heval ▸ ?_⟩
    cases hsubst : inl.subst (.var y) with
    | const c => rfl
    | var z =>
        refine Env.assign_of_ne _ _ fun hz => ?_
        rcases inl.subst_var_cases hsubst with rfl | ⟨hd, harg | hfresh⟩
        · exact hy hz
        · exact inl.not_visible_dest hd harg hbody hz hreached hvisible
        · exact absurd (lt_of_place hbody hz) (Nat.not_lt.mpr hfresh)

/-- Passing from block to block keeps the agreement. -/
theorem Agrees.enter {a : BlockId} {env env' : Env I.Value}
    (h : inl.Agrees I a (inl.caller.body a) env env') (hedge : inl.caller.Edge a b)
    (hblock : inl.caller.block? b = some block) (hreached : inl.caller.Reached a)
    {values : List (ValueId × I.Value)} (hkeys : values.map Prod.fst = defsOf block.phis) :
    inl.Agrees I b block.phis (env.setAll values) (env'.setAll values) := by
  have hbody : inl.caller.body b = block.phis ++ block.code := by
    rw [Function.body_eq hblock, block.instructions_eq]
  have hphi : ∀ i ∈ block.phis, i.op.isPhi = true := fun i hi =>
    List.mem_takeWhile_imp (p := fun i : Instruction => i.op.isPhi) hi
  have hne : ∀ x ∈ defsOf block.phis, inl.site.dest ≠ some x := by
    intro x hx hd
    obtain ⟨i, hi, hxi⟩ := mem_defsOf.mp hx
    obtain ⟨front, back, hsplit⟩ := List.append_of_mem hi
    have hplace : inl.caller.body b = front ++ i :: (back ++ block.code) := by
      rw [hbody, hsplit]
      simp
    refine ne_dest_of_place hplace ?_ hxi hd
    rintro rfl hlength
    rw [inl.body_block] at hplace
    have hcall := (List.append_inj hplace hlength.symm).2
    obtain ⟨rfl, _⟩ := List.cons.inj hcall
    have := hphi _ hi
    rw [inl.call_not_phi] at this
    cases this
  intro y hvisible
  by_cases hy : y ∈ defsOf block.phis
  · rw [inl.subst_var_of_ne (hne y hy)]
    rw [← hkeys] at hy
    obtain ⟨v, hv⟩ := Env.exists_setAll hy
    exact ⟨v, hv env, hv env'⟩
  · have hstart : inl.caller.Visible b [] y := by
      rw [← List.nil_append block.phis] at hvisible
      exact hvisible.of_append hy
    have hold := hstart.of_edge hedge
    obtain ⟨old, henv, heval⟩ := h y hold
    rw [← hkeys] at hy
    refine ⟨old, (Env.setAll_of_not_mem _ hy).trans henv, heval ▸ ?_⟩
    cases hsubst : inl.subst (.var y) with
    | const c => rfl
    | var z =>
        refine Env.setAll_of_not_mem _ fun hz => ?_
        rcases inl.subst_var_cases hsubst with rfl | ⟨hd, hcase⟩
        · exact hy hz
        rw [hkeys] at hz
        obtain ⟨i, hi, hzi⟩ := mem_defsOf.mp hz
        obtain ⟨front, back, hsplit⟩ := List.append_of_mem hi
        have hplace : inl.caller.body b = front ++ i :: (back ++ block.code) := by
          rw [hbody, hsplit]
          simp
        rcases hcase with harg | hfresh
        · refine inl.not_visible_dest hd harg hplace hzi (hreached.step hedge) ?_
          exact hstart.mono (List.nil_subset _)
        · exact absurd (lt_of_place hplace hzi) (Nat.not_lt.mpr hfresh)

/-! ## Agreement with the callee -/

/-- A variable of the callee that is visible has a value, and so has what stands for it. -/
def Mirrors (inl : SoundInlining) (I : Interpretation) (c : BlockId) (done : List Instruction)
    (env env' : Env I.Value) : Prop :=
  ∀ x, inl.callee.Visible c done x →
    ∃ v, env x = some v ∧ I.eval env' (inl.names.operand (.var x)) = some v

theorem Mirrors.exists_eval {c : BlockId} {env env' : Env I.Value}
    (h : inl.Mirrors I c done env env') {o : Operand} (ho : inl.callee.Reads c done o) :
    ∃ v, I.eval env o = some v ∧ I.eval env' (inl.names.operand o) = some v := by
  cases o with
  | const c => exact ⟨_, rfl, rfl⟩
  | var x => exact h x (inl.callee_wellFormed.reads_visible c done x ho)

theorem Mirrors.eval {c : BlockId} {done : List Instruction} {env env' : Env I.Value}
    (h : inl.Mirrors I c done env env')
    (hargs : ∀ d, inl.site.dest = some d → .var d ∉ inl.site.args) {o : Operand}
    (ho : inl.callee.Reads c done o) :
    I.eval env' (inl.subst (inl.names.operand o)) = I.eval env o := by
  obtain ⟨v, hv, hv'⟩ := h.exists_eval ho
  rw [hv, ← hv']
  cases hrenamed : inl.names.operand o with
  | const value => rw [subst_const]
  | var y => rw [inl.subst_var_of_ne (inl.operand_ne_dest hargs ho hrenamed)]

/-- A parameter has the value of the argument that it stands for. -/
theorem lookup_zip {env : Env I.Value} {parameters : List ValueId} {args : List Operand}
    {values : List I.Value} (hnodup : parameters.Nodup) (hvalues : I.evalAll env args = some values)
    {a : Operand} (h : (x, a) ∈ parameters.zip args) :
    (parameters.zip values).lookup x = I.eval env a := by
  induction parameters generalizing args values with
  | nil => cases h
  | cons p parameters ih =>
      cases args with
      | nil => cases h
      | cons o args =>
          simp only [Interpretation.evalAll, List.mapM_cons, Option.bind_eq_bind,
            Option.bind_eq_some_iff, Option.pure_def, Option.some.injEq] at hvalues
          obtain ⟨v, hv, rest, hrest, rfl⟩ := hvalues
          obtain ⟨hp, hnodup⟩ := List.nodup_cons.mp hnodup
          rcases List.mem_cons.mp h with heq | h
          · obtain ⟨rfl, rfl⟩ := Prod.mk.inj heq
            simp [hv]
          · have hne : x ≠ p := fun heq => hp (heq ▸ (List.of_mem_zip h).1)
            rw [List.zip_cons_cons, List.lookup_cons, beq_eq_false_iff_ne.mpr hne]
            exact ih hnodup hrest h

/-- When control enters the copy of the callee, its parameters have the values of the
arguments. -/
theorem mirrors_start {env env' : Env I.Value} {values : List I.Value}
    (hargs : ∀ d, inl.site.dest = some d → .var d ∉ inl.site.args)
    (h : inl.Agrees I inl.block inl.before env env')
    (hvalues : I.evalAll env inl.site.args = some values) :
    inl.Mirrors I inl.callee.entry [] (Env.ofArguments inl.callee.parameters values) env' := by
  intro x hvisible
  have hx : x ∈ inl.callee.parameters := by
    rcases hvisible [] .start with hparam | hdone | ⟨_, ha, _⟩
    · exact hparam
    · cases hdone
    · cases ha
  obtain ⟨a, ha⟩ := inl.copies.exists_zip hx
  have harg := (List.of_mem_zip ha).2
  have hsubst : inl.subst a = a := by
    cases a with
    | const c => exact inl.subst_const c
    | var y => exact inl.subst_var_of_ne fun hd => hargs y hd harg
  obtain ⟨v, hv, hv'⟩ := h.exists_eval (inl.reads_arg harg)
  rw [hsubst] at hv'
  rw [inl.copies.operand_of_zip ha, Env.ofArguments, lookup_zip inl.copies.nodup hvalues ha]
  exact ⟨v, hv, hv'⟩

/-- What stands for a variable of the callee is no new name of another variable. -/
theorem operand_ne_copy (hx : x ∈ inl.callee.defined)
    (hy : y ∈ inl.callee.blocks.flatMap Block.defs) (hne : x ≠ y)
    (hz : inl.names.operand (.var x) = .var z) : z ≠ inl.names.dest y := by
  rintro rfl
  obtain ⟨hparam, hlt⟩ := inl.inner_of_defs hy
  by_cases hxp : x ∈ inl.callee.parameters
  · have harg := inl.copies.operand_mem_args hxp
    rw [hz] at harg
    have hdefined := inl.wellFormed.reads_defined _ _ _ (inl.reads_arg harg)
    exact absurd (inl.recorded _ hdefined) (Nat.not_lt.mpr (inl.copies.le_dest hparam hlt))
  · have hxlt := inl.callee_recorded x hx
    rw [inl.copies.operand_inner hxp hxlt] at hz
    exact hne (inl.copies.dest_inj hxp hxlt hparam hlt (Operand.var.inj hz))

/-- An instruction of a copy keeps the agreement. -/
theorem Mirrors.assign {c : BlockId} {done rest : List Instruction} {i : Instruction}
    {env env' : Env I.Value} (h : inl.Mirrors I c done env env')
    (hbody : inl.callee.body c = done ++ i :: rest) (hreached : inl.callee.Reached c)
    (v : I.Value) :
    inl.Mirrors I c (done ++ [i]) (env.assign i.op.dest? v)
      (env'.assign (i.op.dest?.map inl.names.dest) v) := by
  have hdefs : ∀ x, i.op.dest? = some x → x ∈ inl.callee.blocks.flatMap Block.defs :=
    fun x hx => Function.mem_defs_of_body (mem_body_of_place hbody hx)
  intro y hvisible
  by_cases hy : i.op.dest? = some y
  · obtain ⟨hparam, hlt⟩ := inl.inner_of_defs (hdefs y hy)
    rw [inl.copies.operand_inner hparam hlt, hy]
    exact ⟨v, Env.set_self _ _ _, Env.set_self _ _ _⟩
  · have hold : inl.callee.Visible c done y := by
      refine hvisible.of_append ?_
      rw [defsOf_cons]
      simpa using hy
    have hdefined := hold.defined hreached (by simp [hbody])
    obtain ⟨old, henv, heval⟩ := h y hold
    refine ⟨old, (Env.assign_of_ne _ _ hy).trans henv, heval ▸ ?_⟩
    cases hrenamed : inl.names.operand (.var y) with
    | const value => rfl
    | var z =>
        refine Env.assign_of_ne _ _ fun hz => ?_
        obtain ⟨x, hx, rfl⟩ := Option.map_eq_some_iff.mp hz
        have hne : y ≠ x := fun heq => hy (heq ▸ hx)
        exact operand_ne_copy hdefined (hdefs x hx) hne hrenamed rfl

theorem setAll_map {δ : ValueId → ValueId} {values : List (ValueId × I.Value)}
    (hinj : ∀ x ∈ values.map Prod.fst, δ x = δ y → x = y) (hy : y ∈ values.map Prod.fst)
    (env env' : Env I.Value) :
    env'.setAll (values.map fun entry => (δ entry.1, entry.2)) (δ y) = env.setAll values y := by
  induction values generalizing env env' with
  | nil => cases hy
  | cons entry values ih =>
      have htail : ∀ x ∈ values.map Prod.fst, δ x = δ y → x = y := fun x hx =>
        hinj x (List.mem_cons_of_mem _ hx)
      by_cases hrest : y ∈ values.map Prod.fst
      · exact ih htail hrest _ _
      · have hentry : y = entry.1 := (List.mem_cons.mp hy).resolve_right hrest
        have hrenamed : δ y ∉ (values.map fun entry => (δ entry.1, entry.2)).map Prod.fst := by
          rw [List.map_map]
          intro hmem
          obtain ⟨other, hother, heq⟩ := List.mem_map.mp hmem
          have hkey := List.mem_map_of_mem (f := Prod.fst) hother
          exact hrest (htail _ hkey heq ▸ hkey)
        have hset : env.setAll (entry :: values) y = some entry.2 := by
          refine (Env.setAll_of_not_mem _ hrest).trans ?_
          rw [hentry]
          exact env.set_self _ _
        rw [hset]
        refine (Env.setAll_of_not_mem _ hrenamed).trans ?_
        rw [hentry]
        exact env'.set_self _ _

/-- Passing from copy to copy keeps the agreement. -/
theorem Mirrors.enter {a c : BlockId} {env env' : Env I.Value}
    (h : inl.Mirrors I a (inl.callee.body a) env env') (hedge : inl.callee.Edge a c)
    (hblock : inl.callee.block? c = some block) (hreached : inl.callee.Reached a)
    {values : List (ValueId × I.Value)} (hkeys : values.map Prod.fst = defsOf block.phis) :
    inl.Mirrors I c block.phis (env.setAll values)
      (env'.setAll (values.map fun entry => (inl.names.dest entry.1, entry.2))) := by
  have hdefs : ∀ x ∈ values.map Prod.fst, x ∈ inl.callee.blocks.flatMap Block.defs := by
    intro x hx
    rw [hkeys] at hx
    apply Function.mem_defs_of_body (b := c)
    rw [Function.body_eq hblock, block.instructions_eq, defsOf_append]
    exact List.mem_append_left _ hx
  intro y hvisible
  by_cases hy : y ∈ values.map Prod.fst
  · obtain ⟨hparam, hlt⟩ := inl.inner_of_defs (hdefs y hy)
    rw [inl.copies.operand_inner hparam hlt]
    obtain ⟨v, hv⟩ := Env.exists_setAll hy
    refine ⟨v, hv env, (setAll_map (fun x hx heq => ?_) hy env env').trans (hv env)⟩
    obtain ⟨hxparam, hxlt⟩ := inl.inner_of_defs (hdefs x hx)
    exact inl.copies.dest_inj hxparam hxlt hparam hlt heq
  · have hstart : inl.callee.Visible c [] y := by
      rw [← List.nil_append block.phis] at hvisible
      exact hvisible.of_append (hkeys ▸ hy)
    have hold := hstart.of_edge hedge
    have hdefined := hold.defined hreached (List.Subset.refl _)
    obtain ⟨old, henv, heval⟩ := h y hold
    refine ⟨old, (Env.setAll_of_not_mem _ hy).trans henv, heval ▸ ?_⟩
    cases hrenamed : inl.names.operand (.var y) with
    | const value => rfl
    | var z =>
        refine Env.setAll_of_not_mem _ fun hz => ?_
        rw [List.map_map] at hz
        obtain ⟨entry, hentry, rfl⟩ := List.mem_map.mp hz
        have hkey := List.mem_map_of_mem (f := Prod.fst) hentry
        have hne : y ≠ entry.1 := fun heq => hy (heq ▸ hkey)
        exact operand_ne_copy hdefined (hdefs _ hkey) hne hrenamed rfl

end SoundInlining

end Monolith
