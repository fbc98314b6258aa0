import Monolith.Proofs.Flattening.PhiSources
import Monolith.Proofs.Globals.ExpandedOperands
import Monolith.Proofs.Globals.LocalizedModule
import Monolith.Proofs.Globals.SplitAggregates

/-! # Mentions that are left

When globals move, an operand that is an aggregate with a mention of one is refused. Constant
expressions are computed, down to the first part that is none. If that part is an aggregate, it
becomes an operand as it is, and what it mentions is left. Aggregates in initializers are split,
but constant expressions in them are computed like any others.
-/

namespace Monolith

variable {c : Constant} {id : GlobalId}

namespace Constant

/-- An aggregate in the constant mentions the global. -/
def Boxes (c : Constant) (id : GlobalId) : Prop :=
  ∃ a : Constant, a.Part c ∧ a.isAggregate = true ∧ (Constant.global id).Part a

/-- A constant expression in the constant has an aggregate in it that mentions the global. -/
def Buries (c : Constant) (id : GlobalId) : Prop :=
  ∃ e : Constant, e.Part c ∧ e.isExpr = true ∧ e.Boxes id

def boxes (id : GlobalId) : Constant → Bool
  | .aggregate ty elements => (aggregate ty elements).mentionsGlobal id
  | .elementPtr _ base _ => base.boxes id
  | .cast _ value _ => value.boxes id
  | _ => false

theorem mentionsGlobal_iff : c.mentionsGlobal id = true ↔ (Constant.global id).Part c := by
  rw [mentionsGlobal, List.contains_iff_mem, mem_globals_iff]

theorem Boxes.part (h : c.Boxes id) : (Constant.global id).Part c := by
  obtain ⟨a, hpart, _, hid⟩ := h
  exact hid.trans hpart

theorem Buries.part {id : GlobalId} (h : c.Buries id) : (Constant.global id).Part c := by
  obtain ⟨e, hpart, _, hboxes⟩ := h
  exact hboxes.part.trans hpart

theorem Boxes.of_part {e : Constant} (h : e.Boxes id) (hpart : e.Part c) : c.Boxes id := by
  obtain ⟨a, ha, haggregate, hid⟩ := h
  exact ⟨a, ha.trans hpart, haggregate, hid⟩

theorem boxes_iff {id : GlobalId} : {c : Constant} → (c.boxes id = true ↔ c.Boxes id)
  | .aggregate ty elements => by
      constructor
      · exact fun h => ⟨_, .whole, rfl, mentionsGlobal_iff.mp h⟩
      · exact fun h => mentionsGlobal_iff.mpr h.part
  | .elementPtr source base indices => by
      rw [boxes, boxes_iff]
      constructor
      · exact fun h => h.of_part (.base .whole)
      · rintro ⟨a, hpart, haggregate, hid⟩
        cases hpart with
        | whole => cases haggregate
        | base hpart => exact ⟨a, hpart, haggregate, hid⟩
  | .cast op value ty => by
      rw [boxes, boxes_iff]
      constructor
      · exact fun h => h.of_part (.value .whole)
      · rintro ⟨a, hpart, haggregate, hid⟩
        cases hpart with
        | whole => cases haggregate
        | value hpart => exact ⟨a, hpart, haggregate, hid⟩
  | .int .. | .null | .undef _ | .poison _ | .bytes _ | .global _ | .function _ => by
      constructor
      · intro h
        cases h
      · rintro ⟨a, hpart, haggregate, _⟩
        cases hpart
        cases haggregate

/-! ## What is stored of an initializer -/

theorem buries_aggregate_iff {ty : Ty} {elements : List Constant} :
    (aggregate ty elements).Buries id ↔ ∃ c ∈ elements, c.Buries id := by
  constructor
  · rintro ⟨e, hpart, hexpr, hboxes⟩
    cases hpart with
    | whole => cases hexpr
    | element hmem hpart => exact ⟨_, hmem, e, hpart, hexpr, hboxes⟩
  · rintro ⟨c, hmem, e, hpart, hexpr, hboxes⟩
    exact ⟨e, .element hmem hpart, hexpr, hboxes⟩

theorem isExpr_of_boxes (h : c.boxes id = true) (haggregate : c.isAggregate = false) :
    c.isExpr = true := by
  cases c with
  | aggregate => cases haggregate
  | elementPtr => rfl
  | cast => rfl
  | _ => cases h

theorem buries_iff_boxes (haggregate : c.isAggregate = false) :
    c.Buries id ↔ c.boxes id = true := by
  rw [boxes_iff]
  constructor
  · rintro ⟨e, hpart, _, hboxes⟩
    exact hboxes.of_part hpart
  · exact fun h => ⟨c, .whole, isExpr_of_boxes (boxes_iff.mpr h) haggregate, h⟩

variable {tracked : GlobalId → Bool}

/-- What is buried in an aggregate is taken out of it. -/
theorem any_takenOut_iff (c : Constant) : ∀ path,
    (c.takenOut tracked path).any (fun entry => entry.2.boxes id) = true ↔ c.Buries id := by
  induction c using aggregate_induction with
  | haggregate ty elements ih =>
      intro path
      rw [buries_aggregate_iff, takenOut]
      generalize 0 = index
      induction elements generalizing index with
      | nil => simp [takenOutFrom]
      | cons c elements ihrest =>
          obtain ⟨hc, helements⟩ := List.forall_mem_cons.mp ih
          rw [takenOutFrom, List.any_append, Bool.or_eq_true, hc, ihrest helements]
          simp only [List.mem_cons, exists_eq_or_imp]
  | hother c hc =>
      intro path
      rw [takenOut_of_not_aggregate hc, buries_iff_boxes hc]
      split
      next => simp
      next hstays =>
        refine iff_of_false (fun h => by cases h) fun hboxes => hstays ?_
        rw [isMoved, isExpr_of_boxes hboxes hc, Bool.true_or]

theorem not_aggregate_of_mem_takenOut (c : Constant) :
    ∀ entry ∈ c.takenOut tracked [], entry.2.isAggregate = false := by
  induction c using aggregate_induction with
  | haggregate ty elements ih =>
      intro entry hentry
      obtain ⟨_, c, path, hc, _, hmem⟩ := exists_of_mem_takenOutFrom hentry
      exact ih c (List.mem_of_getElem? hc) (path, entry.2) hmem
  | hother c hc =>
      intro entry hentry
      rw [takenOut_of_not_aggregate hc] at hentry
      split at hentry
      next =>
        obtain rfl := List.mem_singleton.mp hentry
        exact hc
      next => cases hentry

/-- What is left of an aggregate does not mention a tracked global. -/
theorem not_part_remainder (htracked : tracked id = true) (c : Constant) :
    ¬(Constant.global id).Part (c.remainder tracked) := by
  intro hpart
  have hmoved := c.not_moved_of_part_remainder (.global id) hpart
  rw [isMoved, global?, Option.any_some, htracked, Bool.or_true] at hmoved
  cases hmoved

theorem not_aggregate_of_mem_separate {entry : List Nat × Constant} (h : entry ∈ c.separate tracked)
    : entry.2.isAggregate = false := by
  unfold separate at h
  split at h
  next => exact c.not_aggregate_of_mem_takenOut entry h
  next => cases h

/-- An aggregate that is stored at once does not mention a tracked global. -/
theorem not_part_bulk (htracked : tracked id = true)
    (haggregate : (c.bulk tracked).isAggregate = true) :
    ¬(Constant.global id).Part (c.bulk tracked) := by
  unfold bulk at haggregate ⊢
  split at haggregate
  next hc =>
    rw [if_pos hc]
    exact not_part_remainder htracked c
  next hc => exact absurd haggregate hc

/-- What is buried in an initializer is stored somewhere. -/
theorem stored_iff_buries (htracked : tracked id = true) (c : Constant) :
    ((c.bulk tracked).boxes id || (c.separate tracked).any fun entry => entry.2.boxes id) = true ↔
      c.Buries id := by
  unfold bulk separate
  cases haggregate : c.isAggregate with
  | false =>
      rw [buries_iff_boxes haggregate]
      simp
  | true =>
      have hleft : (c.remainder tracked).boxes id = false := by
        rw [Bool.eq_false_iff]
        intro hboxes
        exact not_part_remainder htracked c (boxes_iff.mp hboxes).part
      simp only [if_true, hleft, Bool.false_or]
      exact c.any_takenOut_iff []

end Constant

def Operand.boxes (id : GlobalId) : Operand → Bool
  | .var _ => false
  | .const c => c.boxes id

/-- Some operand is a constant of the kind, where variables are not of it. -/
theorem any_operands_iff {p : Operand → Bool} (hvar : ∀ x, p (.var x) = false)
    {os : List Operand} : os.any p = true ↔ ∃ c, .const c ∈ os ∧ p (.const c) = true := by
  rw [List.any_eq_true]
  constructor
  · rintro ⟨o, ho, hp⟩
    cases o with
    | var x =>
        rw [hvar] at hp
        cases hp
    | const c => exact ⟨c, ho, hp⟩
  · rintro ⟨c, hc, hp⟩
    exact ⟨.const c, hc, hp⟩

theorem any_mentionsGlobal_iff {os : List Operand} :
    os.any (·.mentionsGlobal id) = true ↔ ∃ c, .const c ∈ os ∧ (Constant.global id).Part c := by
  rw [any_operands_iff fun _ => rfl]
  exact exists_congr fun c => and_congr_right fun _ => Constant.mentionsGlobal_iff

namespace Localized

variable {scope : Localized}

/-- What is put in front of a function has a global in an aggregate just if it is buried in an
initializer. -/
theorem any_front_boxes_iff (htracks : scope.tracks id = true) (first : ValueId) :
    anyOperand (Operand.boxes id) (scope.allocas first ++ scope.stores first) = true ↔
      ∃ entry ∈ scope.globals, ∃ c, entry.2.initializer = some c ∧ c.Buries id := by
  rw [any_front (fun _ => rfl) (fun _ => rfl), List.any_eq_true]
  simp only [Option.any_eq_true, Operand.boxes, Constant.stored_iff_buries htracks]

/-- Nothing that is put in front of a function is refused. -/
theorem any_front_refusal (scope : Localized) (first : ValueId) :
    anyOperand (fun o => (scope.refusal? o).isSome)
      (scope.allocas first ++ scope.stores first) = false := by
  rw [any_front (fun _ => rfl) (fun _ => rfl), List.any_eq_false]
  rintro entry - hany
  obtain ⟨c, -, hrefused⟩ := (Option.any_eq_true _ _).mp hany
  rw [Bool.or_eq_true, List.any_eq_true] at hrefused
  simp only [isSome_refusal?_const] at hrefused
  -- an aggregate is stored at once without its tracked globals, and no other one is stored
  rcases hrefused with ⟨haggregate, id, hid, htracks⟩ | ⟨entry, hentry, haggregate, _⟩
  · exact Constant.not_part_bulk htracks haggregate (Constant.mem_globals_iff.mp hid)
  · rw [Constant.not_aggregate_of_mem_separate hentry] at haggregate
    cases haggregate

/-! ## Operands -/

theorem mentionsGlobal_of_useSlot {slots : List (GlobalId × ValueId)} {o : Operand}
    (h : (useSlot slots o).mentionsGlobal id = true) : o.mentionsGlobal id = true := by
  by_cases hglobal : ∃ global, o = .const (.global global)
  · obtain ⟨global, rfl⟩ := hglobal
    rw [useSlot] at h
    split at h
    next => cases h
    next => exact h
  · rwa [useSlot_of_not_global fun global heq => hglobal ⟨global, heq⟩] at h

/-- Whether the operand still mentions the global when bare references have become reads of
slots. -/
def stillMentions (slots : List (GlobalId × ValueId)) (id : GlobalId) (o : Operand) : Bool :=
  (useSlot slots o).mentionsGlobal id

section

variable {slots : List (GlobalId × ValueId)}
  (hslots : ∀ id, scope.tracks id = (slots.lookup id).isSome) (htracks : scope.tracks id = true)

include htracks

/-- A constant without tracked globals does not mention the global. -/
theorem mentionsGlobal_eq_false (h : c.globals.any scope.tracks = false) :
    c.mentionsGlobal id = false := by
  rw [Bool.eq_false_iff]
  intro hmentions
  exact List.any_eq_false.mp h id (List.contains_iff_mem.mp hmentions) htracks

theorem boxes_eq_false (h : c.globals.any scope.tracks = false) : c.boxes id = false := by
  rw [Bool.eq_false_iff]
  intro hboxes
  exact Bool.false_ne_true ((mentionsGlobal_eq_false htracks h).symm.trans
    (Constant.mentionsGlobal_iff.mpr (Constant.boxes_iff.mp hboxes).part))

include hslots

/-- Where a constant stays as it is, just an aggregate mentions the global in the end. -/
theorem stillMentions_const (h : c.isExpr = true → c.globals.any scope.tracks = false) :
    stillMentions slots id (.const c) = c.boxes id := by
  cases c with
  | global other =>
      -- a bare reference to a tracked global becomes a read, so the global is another one
      change (useSlot slots (.const (.global other))).mentionsGlobal id = false
      rw [useSlot]
      cases hlookup : slots.lookup other with
      | some slot => rfl
      | none =>
          refine mentionsGlobal_eq_false htracks ?_
          change (scope.tracks other || false) = false
          rw [hslots, hlookup]
          rfl
  | elementPtr | cast =>
      exact (mentionsGlobal_eq_false htracks (h rfl)).trans (boxes_eq_false htracks (h rfl)).symm
  | _ => rfl

theorem carries_boxes : scope.Carries (Operand.boxes id) (stillMentions slots id) :=
  carries_of_kept (fun _ => ⟨rfl, rfl⟩) (fun _ => rfl) (fun _ _ _ => rfl) (fun _ _ _ => rfl)
    fun _ hkept => stillMentions_const hslots htracks hkept

end

/-- No mention is lost when an operand is computed, and none is new. -/
theorem carries_mentions (scope : Localized) (id : GlobalId) :
    scope.Carries (Operand.mentionsGlobal id) (Operand.mentionsGlobal id) :=
  carries_of_kept (fun _ => ⟨rfl, rfl⟩) (fun _ => rfl) (fun _ _ _ => rfl) (fun _ _ _ => rfl)
    fun _ _ => rfl

/-! ## Functions -/

section

variable {f g : Function}

/-- What the function mentions in the end is what an operand has in an aggregate, or what is
buried in an initializer. -/
theorem mentions_localizeInto_iff (h : scope.localizeInto f = .ok g)
    (htracks : scope.tracks id = true) :
    g.operands.any (·.mentionsGlobal id) = true ↔
      (∃ c, .const c ∈ f.operands ∧ c.Boxes id) ∨
        ∃ entry ∈ scope.globals, ∃ c, entry.2.initializer = some c ∧ c.Buries id := by
  have hentry := entry_lt_of_localizeInto h
  obtain ⟨expanded, hexpanded, rfl⟩ := expandFunction_of_localizeInto h
  have hslots := fun id => (scope.lookup_slots f.values.length id).1
  have hcarried := expandFunction_carried (carries_boxes hslots htracks) hexpanded
  rw [prepared, Function.any_operands_prepend _ _ _ _ hentry] at hcarried
  rw [Function.operands_mapOperands, List.any_map]
  change expanded.operands.any (stillMentions (scope.slots f.values.length) id) = true ↔ _
  rw [hcarried, Bool.or_eq_true, any_front_boxes_iff htracks, or_comm,
    any_operands_iff fun _ => rfl]
  simp only [Operand.boxes, Constant.boxes_iff]

/-- What the function mentions in the end, it or an initializer has mentioned before. -/
theorem mentions_of_localizeInto (h : scope.localizeInto f = .ok g)
    (hid : g.operands.any (·.mentionsGlobal id) = true) :
    f.operands.any (·.mentionsGlobal id) = true ∨
      ∃ entry ∈ scope.globals, ∃ c, entry.2.initializer = some c ∧
        (Constant.global id).Part c := by
  have hentry := entry_lt_of_localizeInto h
  obtain ⟨expanded, hexpanded, rfl⟩ := expandFunction_of_localizeInto h
  have hcarried := expandFunction_carried (scope.carries_mentions id) hexpanded
  rw [prepared, Function.any_operands_prepend _ _ _ _ hentry,
    any_front (fun _ => rfl) (fun _ => rfl)] at hcarried
  rw [Function.operands_mapOperands, List.any_map, List.any_eq_true] at hid
  obtain ⟨o, ho, hid⟩ := hid
  have hmentions := List.any_eq_true.mpr ⟨o, ho, mentionsGlobal_of_useSlot hid⟩
  rw [hcarried, Bool.or_eq_true] at hmentions
  refine hmentions.symm.imp_right fun hfront => ?_
  obtain ⟨entry, hentry, hany⟩ := List.any_eq_true.mp hfront
  obtain ⟨c, hc, hstored⟩ := (Option.any_eq_true _ _).mp hany
  refine ⟨entry, hentry, c, hc, ?_⟩
  rcases Bool.or_eq_true_iff.mp hstored with hbulk | hseparate
  · exact Constant.part_of_part_bulk (Constant.mentionsGlobal_iff.mp hbulk) rfl (by simp)
  · obtain ⟨element, helement, hid⟩ := List.any_eq_true.mp hseparate
    exact (Constant.mentionsGlobal_iff.mp hid).trans (Constant.part_of_mem_separate helement)

/-- A function is given storage, unless an operand of it is refused. -/
theorem localizeInto_eq_error_iff (hf : f.Enclosed) {e : Failure} :
    (scope.localizeInto f).mapError Aborted.failure = .error e ↔
      f.operands.findSome? scope.refusal? = some e := by
  have hentry : f.entry < f.blocks.length := f.length_exits ▸ hf.entry_lt
  obtain ⟨block, hblock⟩ := Function.exists_block hentry
  obtain ⟨first, last, hold, hnew⟩ := f.exists_operands_prepend
    (scope.allocas f.values.length ++ scope.stores f.values.length)
    (scope.preparedValues f.values) hentry
  have hfront := scope.any_front_refusal f.values.length
  rw [anyOperand, ← List.any_flatMap, List.any_eq_false] at hfront
  have hnone := List.findSome?_eq_none_iff.mpr fun o ho =>
    Option.not_isSome_iff_eq_none.mp (hfront o ho)
  have hsame : (scope.prepared f).operands.findSome? scope.refusal? =
      f.operands.findSome? scope.refusal? := by
    rw [prepared, hnew, hold, List.findSome?_append, List.findSome?_append, List.findSome?_append,
      hnone, Option.none_or]
  -- putting slots in place cannot fail, so only the expansion can
  rw [localizeInto_eq, hblock, ← hsame, ← expandFunction_eq_error_iff (sources_prepared_lt hf)]
  change (scope.expandFunction (scope.prepared f) >>= _).mapError Aborted.failure = _ ↔ _
  rw [mapError_bind, bind_eq_error]
  refine or_iff_left ?_
  rintro ⟨_, _, h⟩
  cases h

end

end Localized

/-! ## Modules -/

namespace Module

variable {m n : Module} {groups : List (FunctionId × List GlobalId)}

/-- If moving fails, that is because an owner cannot be given storage. -/
theorem Moved.exists_of_error (h : Moved m n groups) {rest : List (FunctionId × List GlobalId)}
    (hlive : ∀ group ∈ rest, (m.function? group.1).isSome = true)
    (howners : ((groups ++ rest).map Prod.fst).Nodup)
    (hids : ((groups ++ rest).flatMap Prod.snd).Nodup) {start : List String}
    {e : Aborted (Module × List String)} (hrun : rest.foldlM localizeNext (n, start) = .error e) :
    ∃ group ∈ rest, ∃ f, m.function? group.1 = some f ∧
      (Localized.localizeInto { globals := m.globalsAt group.2, function := f.name } f).mapError
        Aborted.failure = .error e.failure := by
  induction rest generalizing n groups start with
  | nil => cases hrun
  | cons group rest ih =>
      obtain ⟨howner, hnew⟩ := fresh howners hids
      obtain ⟨f, hf⟩ := Option.isSome_iff_exists.mp (hlive group List.mem_cons_self)
      rw [List.foldlM_cons] at hrun
      rcases bind_eq_error.mp hrun with hfirst | ⟨⟨next, total⟩, hnext, hrun⟩
      · rcases bind_eq_error.mp hfirst with hfails | ⟨_, _, hpure⟩
        · obtain ⟨_, hgroup, rfl⟩ := mapError_eq_error.mp hfails
          rw [h.localizeGroup_eq hf howner hnew] at hgroup
          rcases bind_eq_error.mp hgroup with howned | ⟨_, _, hpure⟩
          · obtain ⟨aborted, hinto, rfl⟩ := mapError_eq_error.mp howned
            exact ⟨group, List.mem_cons_self, f, hf, mapError_eq_error.mpr ⟨aborted, hinto, rfl⟩⟩
          · cases hpure
        · cases hpure
      · obtain ⟨_, hmoved, _⟩ := exists_of_localizeNext hnext
        have hstep := h.step (hlive group List.mem_cons_self) howner hnew hmoved
        rw [List.append_cons] at howners hids
        obtain ⟨other, hother, hfails⟩ := ih hstep
          (fun other hother => hlive other (List.mem_cons_of_mem _ hother)) howners hids hrun
        exact ⟨other, List.mem_cons_of_mem _ hother, hfails⟩

theorem globalName_globalsAt {ids : List GlobalId} {name : String} {g : Global} (hid : id ∈ ids)
    (hg : m.global? id = some g) :
    Localized.globalName { globals := m.globalsAt ids, function := name } id = g.name := by
  have hsome : ((m.globalsAt ids).lookup id).isSome = true :=
    List.lookup_isSome_iff.mpr ⟨(id, g), mem_globalsAt.mpr ⟨hid, hg⟩, beq_self_eq_true id⟩
  obtain ⟨g', hlookup⟩ := Option.isSome_iff_exists.mp hsome
  obtain ⟨front, rest, heq, _⟩ := List.lookup_eq_some_iff.mp hlookup
  have hmem : (id, g') ∈ m.globalsAt ids := by
    rw [heq]
    exact List.mem_append_right _ List.mem_cons_self
  obtain rfl := Option.some.inj (hg.symm.trans (mem_globalsAt.mp hmem).2)
  rw [Localized.globalName, hlookup]
  rfl

def AggregateUse (m : Module) (f : Function) (global : Global) : Prop :=
  ∃ owner id c, m.function? owner = some f ∧ m.global? id = some global ∧
    .const c ∈ f.operands ∧ c.isAggregate = true ∧ (Constant.global id).Part c

/-- An aggregate in an operand of the function mentions the global, or one below a constant
expression in the initializer of a global that it uses. -/
def Leaves (m : Module) (owner : FunctionId) (f : Function) (id : GlobalId) : Prop :=
  (∃ c, .const c ∈ f.operands ∧ c.Boxes id) ∨
    ∃ holder global c, m.Uses owner holder ∧ m.global? holder = some global ∧
      global.initializer = some c ∧ c.Buries id

theorem Leaves.uses {owner : FunctionId} {f : Function} (h : m.Leaves owner f id)
    (hf : m.function? owner = some f) : m.Uses owner id := by
  rcases h with ⟨c, hc, hboxes⟩ | ⟨holder, global, c, hholder, hglobal, hc, hburies⟩
  · exact .mention hf hc hboxes.part
  · exact .initializer hholder hglobal hc hburies.part

section

variable {owners : List (GlobalId × FunctionId)} (hverified : m.defects = [])
  (howners : m.owners = .ok owners)

include hverified howners

/-- If globals cannot be moved, a use of one in an aggregate is reported. -/
theorem aggregateUse_of_error {e : Aborted (Module × List String)}
    (h : m.localize owners = .error e) :
    ∃ f global, e.failure = .rejected (.unsupportedConstantUse global.name f.name) ∧
      m.AggregateUse f global := by
  have hm := wellFormed_of_defects_eq_nil hverified
  obtain ⟨group, hgroup, f, hf, hfails⟩ :=
    (Moved.start ⟨hm.global_names, hm.global_name_unique⟩).exists_of_error
      (isSome_of_mem_ownerGroups howners) (nodup_ownerGroups_owners owners)
      (nodup_ownerGroups_globals howners) h
  have hbody : f.isDeclaration = false := by
    obtain ⟨entry, hentry, heq⟩ := List.mem_map.mp (mem_ownerGroups hgroup)
    have huses := (mem_owners_iff hverified howners).mp hentry
    rw [heq] at huses
    exact huses.isDeclaration hf
  have henclosed := enclosed_of_verified hverified group.1 f hf hbody
  have hfind := (Localized.localizeInto_eq_error_iff henclosed).mp hfails
  obtain ⟨o, ho, hrefusal⟩ := List.exists_of_findSome?_eq_some hfind
  obtain ⟨c, id, rfl, haggregate, hid, htracks, hfailure⟩ := Localized.exists_of_refusal hrefusal
  obtain ⟨hids, global, hglobal⟩ := tracks_globalsAt.mp htracks
  rw [globalName_globalsAt hids hglobal] at hfailure
  exact ⟨f, global, hfailure, group.1, id, c, hf, hglobal, ho, haggregate,
    Constant.mem_globals_iff.mp hid⟩

variable (hmoved : Moved m n (ownerGroups owners))

include hmoved

/-- If globals have been moved, none was used in an aggregate. -/
theorem not_aggregateUse_of_moved (f : Function) (global : Global) :
    ¬m.AggregateUse f global := by
  rintro ⟨owner, id, c, hf, hglobal, hc, haggregate, hid⟩
  have huses : m.Uses owner id := .mention hf hc hid
  rcases kept_or_localized howners hmoved hverified hf with
    ⟨_, hunused⟩ | ⟨g, ids, _, hbody, hids, _, _, hlocalized⟩
  · exact hunused id huses
  have htracks : Localized.tracks { globals := m.globalsAt ids, function := f.name } id = true :=
    tracks_globalsAt.mpr ⟨(hids id).mpr huses, global, hglobal⟩
  have henclosed := enclosed_of_verified hverified owner f hf hbody
  have hrefused := Localized.isSome_refusal?_const.mpr
    ⟨haggregate, id, Constant.mem_globals_iff.mpr hid, htracks⟩
  obtain ⟨e, he⟩ := Option.isSome_iff_exists.mp (List.findSome?_isSome_iff.mpr ⟨_, hc, hrefused⟩)
  have hfails := (Localized.localizeInto_eq_error_iff henclosed).mpr he
  rw [hlocalized] at hfails
  cases hfails

/-- What a function still mentions when globals have been moved. -/
theorem mentions_of_moved_iff {owner : FunctionId} {f g : Function}
    (hf : m.function? owner = some f) (hg : n.function? owner = some g) (id : GlobalId) :
    (∃ c, .const c ∈ g.operands ∧ (Constant.global id).Part c) ↔ m.Leaves owner f id := by
  rw [← any_mentionsGlobal_iff]
  rcases kept_or_localized howners hmoved hverified hf with
    ⟨hn, hunused⟩ | ⟨g', ids, hn, _, hids, _, _, hlocalized⟩
  · obtain rfl := Option.some.inj (hg.symm.trans hn)
    refine iff_of_false (fun hmentions => ?_) fun hleaves => hunused id (hleaves.uses hf)
    obtain ⟨c, hc, hid⟩ := any_mentionsGlobal_iff.mp hmentions
    exact hunused id (.mention hf hc hid)
  obtain rfl := Option.some.inj (hg.symm.trans hn)
  -- only globals that the function uses have slots, and it mentions no others
  by_cases huses : m.Uses owner id
  · have htracks : Localized.tracks { globals := m.globalsAt ids, function := f.name } id = true :=
      tracks_globalsAt.mpr ⟨(hids id).mpr huses, huses.exists_global hverified howners⟩
    rw [Localized.mentions_localizeInto_iff hlocalized htracks]
    simp only [Prod.exists, mem_globalsAt, hids, and_assoc, Leaves, exists_and_left]
  · refine iff_of_false (fun hmentions => huses ?_) fun hleaves => huses (hleaves.uses hf)
    rcases Localized.mentions_of_localizeInto hlocalized hmentions with
      hmentions | ⟨entry, hentry, c, hc, hid⟩
    · obtain ⟨c, hc, hid⟩ := any_mentionsGlobal_iff.mp hmentions
      exact .mention hf hc hid
    · obtain ⟨hholder, hglobal⟩ := mem_globalsAt.mp hentry
      exact .initializer ((hids _).mp hholder) hglobal hc hid

end

/-- Moving the globals of a verified module. If every global has an owner, it succeeds unless an
operand is an aggregate that mentions a global, and then such a use is reported. If it succeeds,
no globals are there any more, but functions may still mention some: those that are in an
aggregate below a constant expression, in an operand or in the initializer of a global that the
function owns, and no others. -/
theorem localization_leaves_buried {stage : Stage} (hverified : stage.module.defects = []) :
    (∀ owners, stage.module.owners = .ok owners →
      ((∃ next modified, Pass.localization stage = .ok (next, modified)) ∧
        ∀ f global, ¬stage.module.AggregateUse f global) ∨
      ∃ f global, stage.module.AggregateUse f global ∧
        Pass.localization stage =
          .error (.rejected (.unsupportedConstantUse global.name f.name))) ∧
    ∀ next modified, Pass.localization stage = .ok (next, modified) →
      (∀ id, next.module.global? id = none) ∧
      ∀ owner g, next.module.function? owner = some g →
        ∃ f, stage.module.function? owner = some f ∧ ∀ id,
          (∃ c, .const c ∈ g.operands ∧ (Constant.global id).Part c) ↔
            stage.module.Leaves owner f id := by
  have hm := wellFormed_of_defects_eq_nil hverified
  have hnames : stage.module.NamesGlobals := ⟨hm.global_names, hm.global_name_unique⟩
  constructor
  · intro owners howners
    rw [Pass.localization_outcome, howners]
    cases hlocalize : stage.module.localize owners with
    | ok result =>
        left
        have hmoved := moved_of_localize hnames howners hlocalize
        refine ⟨?_, not_aggregateUse_of_moved hverified howners hmoved⟩
        refine ⟨_, _, bind_eq_ok.mpr ⟨owners, rfl, bind_eq_ok.mpr ⟨result, ?_, rfl⟩⟩⟩
        exact mapError_eq_ok.mpr hlocalize
    | error e =>
        right
        obtain ⟨f, global, hfailure, huse⟩ := aggregateUse_of_error hverified howners hlocalize
        refine ⟨f, global, huse, bind_eq_error.mpr (.inr ⟨owners, rfl, ?_⟩)⟩
        exact bind_eq_error.mpr (.inl (mapError_eq_error.mpr ⟨e, hlocalize, hfailure⟩))
  · intro next modified h
    obtain ⟨owners, names, howners, hlocalize, _⟩ := Pass.exists_of_localization h
    have hmoved := moved_of_localize hnames howners hlocalize
    refine ⟨global?_of_moved howners hmoved, fun owner g hg => ?_⟩
    obtain ⟨f, hf⟩ := hmoved.exists_function hg
    exact ⟨f, hf, mentions_of_moved_iff hverified howners hmoved hf hg⟩

def cellBox (id : GlobalId) : Constant := .aggregate (.struct [.ptr] false) [.global id]

def reader (address : Constant) : Function where
  name := "main"
  returnType := .ptr
  blocks := [
    { instructions := [{ op := .load 0 .ptr (.const address) 8 }]
      terminator := .ret (some (.var 0)) }]
  values := [{ ty := .ptr }]

def cell : Global where
  name := "cell"
  valueType := .int 32

def table : Global where
  name := "table"
  valueType := .struct [.ptr] false
  initializer := some (.aggregate (.struct [.ptr] false) [.cast .bitcast (cellBox 1) .ptr])

/-- A global is buried in the initializer of another. -/
def buriedInTable : Module :=
  rebuildNames
    { name := "table"
      functions := [some (reader (.global 0))]
      globals := [some table, some cell] }

theorem localization_leaves_cell :
    buriedInTable.defects = [] ∧ ∃ next modified,
      Pass.localization { module := buriedInTable } = .ok (next, modified) ∧
      next.module.global? 1 = none ∧
      ∃ g c, next.module.function? 0 = some g ∧ .const c ∈ g.operands ∧
        (Constant.global 1).Part c := by
  have hverified : buriedInTable.defects = [] := by decide +kernel
  have hok : ((Pass.localization { module := buriedInTable }).toOption.bind fun result =>
      result.1.module.function? 0).isSome = true := by decide +kernel
  have hmain : buriedInTable.function? 0 = some (reader (.global 0)) := by decide +kernel
  have htable : buriedInTable.global? 0 = some table := by decide +kernel
  cases hrun : Pass.localization { module := buriedInTable } with
  | error e =>
      rw [hrun] at hok
      cases hok
  | ok result =>
      rw [hrun] at hok
      obtain ⟨g, hg⟩ := Option.isSome_iff_exists.mp hok
      obtain ⟨-, hsucceeds⟩ :=
        @localization_leaves_buried { module := buriedInTable } hverified
      obtain ⟨hglobals, hfunctions⟩ := hsucceeds result.1 result.2 hrun
      obtain ⟨f, hf, hmentions⟩ := hfunctions 0 g hg
      have huses : buriedInTable.Uses 0 0 :=
        .mention hmain (c := .global 0) (by decide +kernel) .whole
      have hburies : Constant.Buries (.aggregate (.struct [.ptr] false)
          [.cast .bitcast (cellBox 1) .ptr]) 1 :=
        ⟨_, .element List.mem_cons_self .whole, rfl, cellBox 1, .value .whole, rfl,
          .element List.mem_cons_self .whole⟩
      obtain ⟨c, hc, hid⟩ := (hmentions 1).mpr (.inr ⟨0, table, _, huses, htable, rfl, hburies⟩)
      exact ⟨hverified, result.1, result.2, rfl, hglobals 1, g, c, hg, hc, hid⟩

/-- The address is computed of an aggregate that mentions the global. -/
def boxed : Module :=
  rebuildNames
    { name := "boxed"
      functions := [some (reader (.cast .bitcast (cellBox 0) .ptr))]
      globals := [some cell] }

/-- The mention below the constant expression is not reported, and it is left. -/
theorem boxed_mention_left :
    boxed.defects = [] ∧ (Constant.cast .bitcast (cellBox 0) .ptr).Boxes 0 ∧
    ((Pass.localization { module := boxed }).toOption.map fun result =>
      (result.1.module.globals.ids, result.1.module.defects)) =
        some ([], [.erasedGlobal (.block "main" 0) 0]) := by
  refine ⟨by decide +kernel, ⟨cellBox 0, .value .whole, rfl, .element List.mem_cons_self .whole⟩,
    by decide +kernel⟩

end Module

end Monolith
