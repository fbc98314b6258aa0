import Monolith.Proofs.Globals.PreparedEntry

/-! # Bodies with storage for globals

A function that gets storage for globals is prepared with allocas and stores of initializers,
and then its operands are computed from the slots. The module admits it with the globals gone,
and its entry shows the allocas, the stores and the old instructions in this order.
-/

namespace Monolith

namespace Constant

theorem Computable.part {c e : Constant} (h : c.Computable) (hpart : e.Part c) :
    e.Computable where
  no_aggregate e' p he' hexpr hp := h.no_aggregate e' p (he'.trans hpart) hexpr hp
  pointers source base indices he := h.pointers source base indices (he.trans hpart)

variable {tracked : GlobalId → Bool} {c : Constant}

theorem part_of_part_bulk {p : Constant} (hp : p.Part (c.bulk tracked))
    (haggregate : p.isAggregate = false) (hundef : ∀ ty, p ≠ .undef ty) : p.Part c := by
  unfold bulk at hp
  split at hp
  next => exact part_of_part_remainder c hp haggregate hundef
  next => exact hp

theorem part_of_mem_separate {entry : List Nat × Constant} (h : entry ∈ c.separate tracked) :
    entry.2.Part c := by
  unfold separate at h
  split at h
  next => exact part_of_mem_takenOut c h
  next => cases h

end Constant

/-- A constant of the module whose expressions can be computed. -/
structure Module.Offers (m : Module) (c : Constant) : Prop where
  holds : m.Holds c
  computable : c.Computable

namespace Module.Offers

variable {m : Module} {c : Constant}

theorem part {e : Constant} (h : m.Offers c) (hpart : e.Part c) : m.Offers e :=
  ⟨h.holds.part hpart, h.computable.part hpart⟩

theorem supplies (h : m.Offers c) : m.Supplies c := ⟨h.holds, h.computable.pointers⟩

theorem i32 (m : Module) (value : Int64) : m.Offers (.i32 value) where
  holds := m.holds_i32 value
  computable := by
    refine ⟨fun e p he hexpr _ => ?_, fun _ _ _ he => by cases he⟩
    cases he
    cases hexpr

theorem bulk (h : m.Offers c) (tracked : GlobalId → Bool) : m.Offers (c.bulk tracked) where
  holds :=
    { globals := fun id hid => h.holds.globals id (Constant.part_of_part_bulk hid rfl (by simp))
      functions := fun id hid =>
        h.holds.functions id (Constant.part_of_part_bulk hid rfl (by simp)) }
  computable :=
    { no_aggregate := fun e p he hexpr hp => by
        refine h.computable.no_aggregate e p (Constant.part_of_part_bulk he ?_ ?_) hexpr hp
        · cases e <;> first | rfl | cases hexpr
        · rintro ty rfl
          cases hexpr
      pointers := fun source base indices he => h.computable.pointers source base indices
        (Constant.part_of_part_bulk he rfl (by simp)) }

end Module.Offers

/-! ## The code that prepares a function -/

section

variable {m : Module} {There : ValueId → Prop} {values : List ValueInfo}

/-- The address of an element and a store to it. -/
theorem emitted_elementStore {slot : ValueId} (hslot : There slot)
    (htyped : Operand.typeIn values (.var slot) = some .ptr) (source : Ty) (path : List Nat)
    {value : Constant} (hvalue : m.Offers value) :
    Emitted There m.Offers values (values ++ [{ ty := .ptr }])
      (elementStores source (.var slot) values.length [(path, value)]) := by
  have haddress : Emitted There m.Offers values (values ++ [{ ty := .ptr }])
      ([] ++ [{ op := .elementPtr values.length source (.var slot)
                  ((0 :: path).map fun index => Operand.i32 (Int64.ofNat index)) true }]) := by
    refine Emitted.nil.snoc rfl ⟨rfl, rfl, fun x hx => ?_, fun c hc => ?_, fun address h => ?_⟩
    · rcases List.mem_cons.mp hx with hx | hx
      · exact .inl (Operand.var.inj hx ▸ hslot)
      · obtain ⟨index, _, hindex⟩ := List.mem_map.mp hx
        cases hindex
    · rcases List.mem_cons.mp hc with hc | hc
      · cases hc
      · obtain ⟨index, _, hindex⟩ := List.mem_map.mp hc
        exact Operand.const.inj hindex ▸ .i32 m _
    · exact Option.some.inj h ▸ htyped
  refine haddress.silent rfl ⟨rfl, rfl, fun x hx => ?_, fun c hc => ?_, fun address h => ?_⟩
  · obtain rfl : x = values.length := by simpa [Operation.operands] using hx
    exact .inr (List.mem_singleton_self _)
  · obtain rfl : c = value := by simpa [Operation.operands] using hc
    exact hvalue
  · obtain rfl := Option.some.inj h
    simp [Operand.typeIn]

theorem emitted_elementStores {slot : ValueId} (hslot : There slot)
    (htyped : Operand.typeIn values (.var slot) = some .ptr) (source : Ty)
    {entries : List (List Nat × Constant)} (hentries : ∀ entry ∈ entries, m.Offers entry.2) :
    Emitted There m.Offers values (values ++ addresses entries.length)
      (elementStores source (.var slot) values.length entries) := by
  induction entries generalizing values with
  | nil => simpa [addresses, elementStores] using Emitted.nil
  | cons entry entries ih =>
      have hfirst := emitted_elementStore hslot htyped source entry.1
        (hentries entry List.mem_cons_self)
      have hrest := ih (Operand.typeIn_of_prefix hfirst.grows htyped)
        fun other hother => hentries other (List.mem_cons_of_mem _ hother)
      simpa [addresses, elementStores, List.replicate_succ] using hfirst.append hrest

/-- The stores of an initializer compute addresses from the slot only. -/
theorem emitted_stores {slot : ValueId} (hslot : There slot)
    (htyped : Operand.typeIn values (.var slot) = some .ptr) (tracked : GlobalId → Bool)
    {g : Global} (hinitializer : ∀ c, g.initializer = some c → m.Offers c) :
    Emitted There m.Offers values (values ++ addresses (g.elements tracked).length)
      (g.stores tracked slot values.length) := by
  unfold Global.stores Global.elements
  cases hc : g.initializer with
  | none => simpa [addresses] using Emitted.nil
  | some c =>
      have hoffers := hinitializer c hc
      have hstore : Emitted There m.Offers values values
          ([] ++ [{ op := .store (.const (c.bulk tracked)) (.var slot) g.alignment
                    comment := some ("initializer of @" ++ g.name) }]) := by
        refine Emitted.nil.silent rfl
          ⟨rfl, rfl, fun x hx => ?_, fun e he => ?_, fun address h => ?_⟩
        · obtain rfl : x = slot := by simpa [Operation.operands] using hx
          exact .inl hslot
        · obtain rfl : e = c.bulk tracked := by simpa [Operation.operands] using he
          exact hoffers.bulk tracked
        · exact Option.some.inj h ▸ htyped
      exact hstore.append (emitted_elementStores hslot htyped g.valueType fun entry hentry =>
        hoffers.part (Constant.part_of_mem_separate hentry))

theorem emitted_initializerStores (tracked : GlobalId → Bool) {globals : List Global}
    {slot : ValueId} (hslots : ∀ k < globals.length, There (slot + k) ∧
      Operand.typeIn values (.var (slot + k)) = some .ptr)
    (hinitializers : ∀ g ∈ globals, ∀ c, g.initializer = some c → m.Offers c) :
    Emitted There m.Offers values
      (values ++ addresses (globals.flatMap (Global.elements tracked)).length)
      (initializerStores tracked slot values.length globals) := by
  induction globals generalizing values slot with
  | nil => simpa [addresses, initializerStores] using Emitted.nil
  | cons g globals ih =>
      obtain ⟨hslot, htyped⟩ := hslots 0 (Nat.zero_lt_succ _)
      have hfirst := emitted_stores hslot htyped tracked (hinitializers g List.mem_cons_self)
      have hrest := @ih _ (slot + 1) (fun k hk => by
        obtain ⟨hthere, hty⟩ := hslots (k + 1) (Nat.succ_lt_succ hk)
        rw [Nat.add_right_comm, Nat.add_assoc]
        exact ⟨hthere, Operand.typeIn_of_prefix hfirst.grows hty⟩)
        fun other hother => hinitializers other (List.mem_cons_of_mem _ hother)
      simpa [addresses, initializerStores] using hfirst.append hrest

end

namespace Localized

theorem emitted_allocas (m : Module) (There : ValueId → Prop) (globals : List (GlobalId × Global))
    (values : List ValueInfo) (first offset : Nat) (hlength : values.length = first + offset) :
    Emitted There m.Offers values
      (values ++ globals.map fun entry => { ty := .ptr, name := some entry.2.name })
      ((globals.zipIdx offset).map fun entry =>
        { op := .alloca (first + entry.2) entry.1.2.valueType entry.1.2.alignment
            entry.1.2.addrSpace }) := by
  induction globals generalizing values offset with
  | nil => simpa using Emitted.nil
  | cons entry globals ih =>
      have hfirst : Emitted There m.Offers values
          (values ++ [{ ty := .ptr, name := some entry.2.name }])
          ([] ++ [{ op := .alloca (first + offset) entry.2.valueType entry.2.alignment
                      entry.2.addrSpace }]) := by
        refine Emitted.nil.snoc (by rw [hlength]; rfl) ⟨rfl, rfl, ?_, ?_, ?_⟩
        · exact fun x hx => by cases hx
        · exact fun c hc => by cases hc
        · exact fun address h => by cases h
      have hrest := ih (values ++ [{ ty := .ptr, name := some entry.2.name }]) (offset + 1)
        (by rw [List.length_append, hlength]; rfl)
      simpa using hfirst.append hrest

def stores (scope : Localized) (first : ValueId) : List Instruction :=
  initializerStores scope.tracks first (first + scope.globals.length) (scope.globals.map Prod.snd)

/-- What is put in front computes addresses and stores to them. -/
theorem plain_of_mem_elementStores {source : Ty} {base : Operand} {next : ValueId}
    {entries : List (List Nat × Constant)} {i : Instruction}
    (h : i ∈ elementStores source base next entries) :
    i.op.isPhi = false ∧ i.op.isCall = false := by
  induction entries generalizing next with
  | nil => cases h
  | cons entry entries ih =>
      rcases List.mem_cons.mp h with rfl | h
      · exact ⟨rfl, rfl⟩
      · rcases List.mem_cons.mp h with rfl | h
        · exact ⟨rfl, rfl⟩
        · exact ih h

theorem plain_of_mem_initializerStores {tracked : GlobalId → Bool} {slot next : ValueId}
    {globals : List Global} {i : Instruction}
    (h : i ∈ initializerStores tracked slot next globals) :
    i.op.isPhi = false ∧ i.op.isCall = false := by
  induction globals generalizing slot next with
  | nil => cases h
  | cons g globals ih =>
      rcases List.mem_append.mp h with h | h
      · unfold Global.stores at h
        split at h
        next => cases h
        next =>
          rcases List.mem_cons.mp h with rfl | h
          · exact ⟨rfl, rfl⟩
          · exact plain_of_mem_elementStores h
      · exact ih h

/-- Neither phis nor calls are put in front. -/
theorem plain_of_mem_front {scope : Localized} {first : ValueId} {i : Instruction}
    (h : i ∈ scope.allocas first ++ scope.stores first) :
    i.op.isPhi = false ∧ i.op.isCall = false := by
  rcases List.mem_append.mp h with h | h
  · obtain ⟨_, _, rfl⟩ := List.mem_map.mp h
    exact ⟨rfl, rfl⟩
  · exact plain_of_mem_initializerStores h

/-- The variables of a prepared function: slots and addresses of elements are new. -/
def preparedValues (scope : Localized) (values : List ValueInfo) : List ValueInfo :=
  values ++ (scope.globals.map fun entry => { ty := .ptr, name := some entry.2.name }) ++
    addresses ((scope.globals.map Prod.snd).flatMap (Global.elements scope.tracks)).length

def prepared (scope : Localized) (f : Function) : Function :=
  f.prepend (scope.allocas f.values.length ++ scope.stores f.values.length)
    (scope.preparedValues f.values)

/-- With an entry to put it in front of, the code is put there and then expanded. -/
theorem localizeInto_eq (scope : Localized) (f : Function) : scope.localizeInto f = (do
    let _ ← leaving f (faulting (f.block f.entry))
    let expanded ← scope.expandFunction (scope.prepared f)
    return expanded.mapOperands (useSlot (scope.slots f.values.length))) := by
  simp only [localizeInto, storeInitializers_eq, List.length_append, List.length_map]
  have hblock : ∀ values, { f with values }.block f.entry = f.block f.entry := fun _ => rfl
  rw [Function.updateBlock, hblock]
  cases f.block f.entry with
  | error fault => rfl
  | ok block => rfl

theorem entry_lt_of_localizeInto {scope : Localized} {f g : Function}
    (h : scope.localizeInto f = .ok g) : f.entry < f.blocks.length := by
  rw [localizeInto_eq] at h
  obtain ⟨block, hblock, _⟩ := bind_eq_ok.mp h
  exact Function.block_lt_of_eq_ok (faulting_eq_ok.mp (leaving_eq_ok.mp hblock))

theorem expandFunction_of_localizeInto {scope : Localized} {f g : Function}
    (h : scope.localizeInto f = .ok g) :
    ∃ expanded, scope.expandFunction (scope.prepared f) = .ok expanded ∧
      g = expanded.mapOperands (useSlot (scope.slots f.values.length)) := by
  rw [localizeInto_eq] at h
  obtain ⟨_, _, h⟩ := bind_eq_ok.mp h
  obtain ⟨expanded, hexpanded, h⟩ := bind_eq_ok.mp h
  exact ⟨expanded, hexpanded, (Except.ok.inj h).symm⟩

/-- A global has a slot if it is moved, and the slots are the first new variables. -/
theorem lookup_slots (scope : Localized) (first : ValueId) (id : GlobalId) :
    scope.tracks id = ((scope.slots first).lookup id).isSome ∧
      ∀ x, (scope.slots first).lookup id = some x →
        ∃ k < scope.globals.length, x = first + k := by
  have hfrom : ∀ (globals : List (GlobalId × Global)) (offset : Nat),
      globals.any (fun entry => entry.1 = id) =
        (((globals.zipIdx offset).map fun entry => (entry.1.1, first + entry.2)).lookup id).isSome ∧
      ∀ x, ((globals.zipIdx offset).map fun entry => (entry.1.1, first + entry.2)).lookup id =
        some x → ∃ k < globals.length, x = first + (offset + k) := by
    intro globals
    induction globals with
    | nil => exact fun offset => ⟨rfl, fun x hx => by cases hx⟩
    | cons entry globals ih =>
        intro offset
        obtain ⟨hany, hlookup⟩ := ih (offset + 1)
        rw [List.zipIdx_cons, List.map_cons, List.lookup_cons, List.any_cons]
        by_cases hid : entry.1 = id
        · rw [hid, beq_self_eq_true]
          exact ⟨by simp, fun x hx => ⟨0, Nat.zero_lt_succ _, (Option.some.inj hx).symm⟩⟩
        · rw [beq_false_of_ne (Ne.symm hid)]
          refine ⟨by simpa [hid] using hany, fun x hx => ?_⟩
          obtain ⟨k, hk, rfl⟩ := hlookup x hx
          exact ⟨k + 1, Nat.succ_lt_succ hk, by rw [Nat.add_assoc offset, Nat.add_comm 1]⟩
  obtain ⟨hany, hlookup⟩ := hfrom scope.globals 0
  refine ⟨hany, fun x hx => ?_⟩
  obtain ⟨k, hk, rfl⟩ := hlookup x hx
  exact ⟨k, hk, by rw [Nat.zero_add]⟩

/-- The function can get storage for the globals. -/
structure Suits (scope : Localized) (m : Module) (f : Function) : Prop where
  admits : m.Admits f
  recorded : ∀ x ∈ f.defined, x < f.values.length
  entry : ∀ i ∈ f.body f.entry, i.op.isPhi = false
  operands : ∀ c, .const c ∈ f.operands → c.Computable
  initializers : ∀ entry ∈ scope.globals, ∀ c, entry.2.initializer = some c → m.Offers c

namespace Suits

variable {scope : Localized} {m : Module} {f : Function}

theorem mem_defsOf_allocas (m : Module) {values : List ValueInfo} {k : Nat}
    (hk : k < scope.globals.length) :
    values.length + k ∈ defsOf (scope.allocas values.length) := by
  have hallocas := emitted_allocas m (fun _ => False) scope.globals values values.length 0 rfl
  rw [← List.count_pos_iff]
  refine Nat.lt_of_lt_of_eq ?_ (hallocas.counts (values.length + k)).symm
  have hlt : values.length + k < (values ++ scope.globals.map fun entry =>
      { ty := .ptr, name := some entry.2.name : ValueInfo }).length := by
    rw [List.length_append, List.length_map]
    exact Nat.add_lt_add_left hk _
  rw [between, if_pos ⟨Nat.le_add_right _ _, hlt⟩]
  exact Nat.one_pos

theorem typeIn_slot (scope : Localized) (values : List ValueInfo) {k : Nat}
    (hk : k < scope.globals.length) (more : List ValueInfo) :
    Operand.typeIn (values ++ (scope.globals.map fun entry =>
      { ty := .ptr, name := some entry.2.name : ValueInfo }) ++ more)
        (.var (values.length + k)) = some .ptr := by
  rw [Operand.typeIn, List.append_assoc, List.getElem?_append_right (Nat.le_add_right _ _),
    Nat.add_sub_cancel_left, List.getElem?_append_left (by rwa [List.length_map]),
    List.getElem?_map, List.getElem?_eq_getElem hk]
  rfl

/-- What is put in front reads only slots and its own variables. -/
theorem emitted (h : scope.Suits m f) :
    Emitted (fun _ => False) m.Offers f.values (scope.preparedValues f.values)
      (scope.allocas f.values.length ++ scope.stores f.values.length) := by
  have hallocas := emitted_allocas m (fun _ => False) scope.globals f.values f.values.length 0 rfl
  have hstores := @emitted_initializerStores m
    (fun x => x ∈ defsOf (scope.allocas f.values.length))
    (f.values ++ scope.globals.map fun entry => { ty := .ptr, name := some entry.2.name })
    scope.tracks (scope.globals.map Prod.snd) f.values.length
    (fun k hk => by
      rw [List.length_map] at hk
      refine ⟨mem_defsOf_allocas m hk, ?_⟩
      simpa using typeIn_slot scope f.values hk [])
    (fun g hg => by
      obtain ⟨entry, hentry, rfl⟩ := List.mem_map.mp hg
      exact h.initializers entry hentry)
  rw [List.length_append, List.length_map] at hstores
  exact hallocas.after hstores fun x hx => .inr hx

/-- The allocas and stores may stand in front of the function. -/
theorem prepares (h : scope.Suits m f) : m.Prepares f.values (scope.preparedValues f.values)
    (scope.allocas f.values.length ++ scope.stores f.values.length) where
  grows := h.emitted.grows
  counts := h.emitted.counts
  computes before i after hsplit := by
    have hi := h.emitted.computes before i after hsplit
    exact ⟨hi.not_phi, hi.not_call, hi.reads, fun c hc => (hi.holds c hc).holds, hi.pointers⟩

theorem offers_prepared (h : scope.Suits m f) {c : Constant}
    (hc : .const c ∈ (scope.prepared f).operands) : m.Offers c := by
  rcases f.mem_operands_prepend _ _ hc with ⟨i, hi, hc⟩ | hc
  · obtain ⟨_, hcomputes⟩ := h.emitted.exists_computes hi
    exact hcomputes.holds c hc
  · exact ⟨h.admits.operands c hc, h.operands c hc⟩

theorem recorded_prepared (h : scope.Suits m f) {x : ValueId}
    (hx : x ∈ (scope.prepared f).defined) : x < (scope.prepared f).values.length := by
  have hgrows := h.emitted.grows.length_le
  rw [← List.count_pos_iff, prepared, Function.count_prepend _ _ h.admits.form.entry_lt,
    h.emitted.counts] at hx
  by_cases hold : x ∈ f.defined
  · exact Nat.lt_of_lt_of_le (h.recorded x hold) hgrows
  · rw [List.count_eq_zero_of_not_mem hold, Nat.zero_add, between] at hx
    split at hx
    next hbetween => exact hbetween.2
    next => cases hx

/-- What localization gives is an expansion of the prepared function. -/
theorem exists_expansion (h : scope.Suits m f) {g : Function}
    (hg : scope.localizeInto f = .ok g) :
    ∃ ex : Monolith.Expansion, ex.module = m ∧ ex.slots = scope.slots f.values.length ∧
      ex.body = scope.prepared f ∧ ex.allocas = scope.allocas f.values.length ∧
      ex.result = g := by
  obtain ⟨expanded, hexpanded, rfl⟩ := expandFunction_of_localizeInto hg
  obtain ⟨blocks, edges, values, hblocks, hlt, heq⟩ := expandFunction_spec
    (fun id => (scope.lookup_slots f.values.length id).1) hexpanded
    fun c hc => (h.offers_prepared hc).computable
  refine ⟨{
    module := m
    slots := scope.slots f.values.length
    body := scope.prepared f
    blocks := blocks
    edges := edges
    values := values
    expanded := hblocks
    edges_lt := hlt
    admits := h.admits.prepend h.recorded h.entry h.prepares
    recorded := fun x => h.recorded_prepared
    supplies := fun c hc => (h.offers_prepared hc).supplies
    allocas := scope.allocas f.values.length
    preamble := ⟨scope.stores f.values.length ++ f.body f.entry, ?_⟩
    allocas_plain := ?_
    slots_defined := ?_
    slots_typed := ?_ }, rfl, rfl, rfl, rfl, heq.symm⟩
  · rw [← List.append_assoc]
    exact Function.body_prepend_entry _ _ h.admits.form.entry_lt
  · intro i hi
    obtain ⟨entry, _, rfl⟩ := List.mem_map.mp hi
    exact ⟨rfl, rfl⟩
  · intro id x hx
    obtain ⟨k, hk, rfl⟩ := (scope.lookup_slots f.values.length id).2 x hx
    exact mem_defsOf_allocas m hk
  · intro id x hx
    obtain ⟨k, hk, rfl⟩ := (scope.lookup_slots f.values.length id).2 x hx
    exact typeIn_slot scope f.values hk _

end Suits

end Localized

end Monolith
