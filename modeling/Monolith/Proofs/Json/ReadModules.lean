import Monolith.Proofs.Json.DecodedForms
import Monolith.Proofs.Verify.WellFormedModule

/-! # What can be read

Whatever the document, a value that is read from it could be written again within as many levels
as its reading was allowed, and the ids in it are 64-bit words.
-/

namespace Monolith

variable {levels : Nat} {c : Constant}

namespace Json

/-- The decoder reads some document within the levels as the value. -/
def Decoder.Reads {α : Type} (item : Decoder α) (levels : Nat) (value : α) : Prop :=
  ∃ json, item levels json = some value

section

variable {α β : Type}

theorem reads_of_mapM {read : Json → Option α} {items : List Json} {values : List α}
    (h : items.mapM read = some values) : ∀ value ∈ values, ∃ json, read json = some value := by
  induction items generalizing values with
  | nil =>
      obtain rfl := Option.some.inj h
      exact List.forall_mem_nil _
  | cons item items ih =>
      simp only [List.mapM_cons, Option.bind_eq_bind, Option.bind_eq_some_iff] at h
      obtain ⟨first, hfirst, rest, hrest, h⟩ := h
      obtain rfl := Option.some.inj h
      exact List.forall_mem_cons.mpr ⟨⟨item, hfirst⟩, ih hrest⟩

namespace Decode

/-- Each member of a list has been read with one level less. -/
theorem reads_of_list {item : Decoder α} {values : List α}
    (h : Decoder.Reads (list item) levels values) :
    ∃ inner, levels = inner + 1 ∧ ∀ value ∈ values, item.Reads inner value := by
  obtain ⟨json, h⟩ := h
  unfold list at h
  split at h
  next inner items => exact ⟨inner, rfl, reads_of_mapM h⟩
  next => cases h

/-- Each part of a pair has been read with one level less. -/
theorem reads_of_pair {first : Decoder α} {second : Decoder β} {value : α × β}
    (h : Decoder.Reads (pair first second) levels value) :
    ∃ inner, levels = inner + 1 ∧ first.Reads inner value.1 ∧ second.Reads inner value.2 := by
  obtain ⟨json, h⟩ := h
  unfold pair at h
  split at h
  next inner a b =>
    simp only [Option.bind_eq_bind, Option.bind_eq_some_iff] at h
    obtain ⟨x, hx, y, hy, h⟩ := h
    obtain rfl := Option.some.inj h
    exact ⟨inner, rfl, ⟨a, hx⟩, b, hy⟩
  next => cases h

theorem reads_of_nullable {item : Decoder α} {value : Option α}
    (h : Decoder.Reads (nullable item) levels value) : ∀ v ∈ value, item.Reads levels v := by
  obtain ⟨json, h⟩ := h
  unfold nullable at h
  split at h
  next =>
    obtain rfl := Option.some.inj h
    exact fun v hv => by cases hv
  next =>
    obtain ⟨v, hv, rfl⟩ := Option.map_eq_some_iff.mp h
    exact fun w hw => Option.some.inj hw ▸ ⟨_, hv⟩

/-- An id that is read is a word. -/
theorem lt_of_index {id : Nat} (h : Decoder.Reads index levels id) : id < UInt64.size := by
  obtain ⟨json, h⟩ := h
  unfold index natBelow at h
  split at h
  next =>
    split at h
    next hlt => exact Option.some.inj h ▸ hlt
    next => cases h
  next => cases h

end Decode

namespace Record

variable {record : Record} {key : String} {item : Decoder α}

/-- What a record has to have has been read if the record has. -/
theorem reads_of_required {value : α} (h : record.required key (item levels) = some value) :
    item.Reads levels value := by
  obtain ⟨json, _, h⟩ := Option.bind_eq_some_iff.mp h
  exact ⟨json, h⟩

/-- What a record may leave out has been read if it is there. -/
theorem reads_of_optional {value : Option α}
    (h : record.optional key (item levels) = some value) :
    ∀ v ∈ value, item.Reads levels v := by
  have hnone : some none = some value → ∀ v ∈ value, item.Reads levels v :=
    fun heq v hv => by cases Option.some.inj heq ▸ hv
  unfold optional at h
  split at h
  next => exact hnone h
  next json _ _ =>
    obtain ⟨v, hv, rfl⟩ := Option.map_eq_some_iff.mp h
    exact fun w hw => Option.some.inj hw ▸ ⟨json, hv⟩
  next => exact hnone h

/-- A field that may be null is read as one that may also be left out. -/
theorem reads_of_nullable {value : Option α}
    (h : record.nullable key (item levels) = some value) :
    ∀ v ∈ value, item.Reads levels v := by
  suffices hoptional : record.optional key (item levels) = some value from
    reads_of_optional hoptional
  unfold nullable at h
  unfold optional
  split at h
  next => exact h
  next => exact h
  next => exact (Option.ite_none_left_eq_some.mp h).2

end Record

end

end Json

open Json

/-! ## Types -/

namespace Ty

theorem mem_listToJson {json : Json} {ts : List Ty} :
    json ∈ listToJson ts ↔ ∃ t ∈ ts, t.toJson = json := by
  induction ts with
  | nil => simp [listToJson]
  | cons t ts ih => simp [listToJson, ih, eq_comm]

theorem decodeList_eq (levels : Nat) (json : Json) :
    decodeList levels json = Decode.list decode levels json := by
  cases levels <;> cases json <;> rfl

/-- A type that is read is nested no deeper than its reading was allowed. -/
theorem nesting_of_reads {t : Ty} (h : Decoder.Reads decode levels t) :
    t.toJson.nesting ≤ levels := by
  obtain ⟨json, h⟩ := h
  induction levels using Nat.strongRecOn generalizing json t with
  | ind levels ih =>
      unfold decode at h
      split at h <;> simp only [Option.bind_eq_bind, Option.bind_eq_some_iff,
        Option.map_eq_some_iff, Option.pure_def, Option.some.injEq, reduceCtorEq] at h
      -- four types have no parts
      iterate 4 exact h ▸ Nat.zero_le _
      · obtain ⟨bits, _, rfl⟩ := h
        simp [toJson]
      · obtain ⟨record, _, element, helement, len, _, rfl⟩ := h
        obtain ⟨document, _, helement⟩ := Option.bind_eq_some_iff.mp helement
        simp [toJson, ih _ (by omega) document helement]
      · obtain ⟨record, _, fields, hfields, packed, _, rfl⟩ := h
        obtain ⟨document, _, hfields⟩ := Option.bind_eq_some_iff.mp hfields
        rw [decodeList_eq] at hfields
        obtain ⟨last, rfl, hitems⟩ := Decode.reads_of_list ⟨document, hfields⟩
        have hnesting : ∀ t ∈ fields, t.toJson.nesting ≤ last := by
          intro t ht
          obtain ⟨item, hitem⟩ := hitems t ht
          exact ih last (by omega) item hitem
        simpa [toJson, mem_listToJson] using hnesting

end Ty

/-! ## Constants -/

namespace Constant

theorem mem_listToJson {json : Json} {cs : List Constant} :
    json ∈ listToJson cs ↔ ∃ c ∈ cs, c.toJson = json := by
  induction cs with
  | nil => simp [listToJson]
  | cons c cs ih => simp [listToJson, ih, eq_comm]

theorem decodeList_eq (levels : Nat) (json : Json) :
    decodeList levels json = Decode.list decode levels json := by
  cases levels <;> cases json <;> rfl

/-- The constant can be written within the levels, and what it refers to are words. -/
structure Stored (levels : Nat) (c : Constant) : Prop where
  nesting : c.toJson.nesting ≤ levels
  indexes : ∀ node ∈ c.nodes, node.Indexes

theorem Stored.areWords (h : c.Stored levels) : AreWords c.ids := by
  apply areWords_append.mpr
  constructor
  · intro id hid
    obtain ⟨node, hnode, hid⟩ := List.mem_filterMap.mp hid
    exact h.indexes node hnode id (.inl hid)
  · intro id hid
    obtain ⟨node, hnode, hid⟩ := List.mem_filterMap.mp hid
    exact h.indexes node hnode id (.inr hid)

namespace Stored

variable {ty : Ty}

/-- A constant without parts can be written if the id in it, if any, is a word. -/
theorem of_leaf (h : c.toJson.nesting ≤ levels) (hleaf : c.nodes = [c]) (hid : c.Indexes) :
    c.Stored levels := by
  refine ⟨h, ?_⟩
  rwa [hleaf, List.forall_mem_singleton]

/-- Most constants without parts refer to nothing. -/
theorem of_plain (h : c.toJson.nesting ≤ levels) (hleaf : c.nodes = [c])
    (hglobal : c.global? = none) (hfunction : c.function? = none) : c.Stored levels :=
  of_leaf h hleaf fun id hid => by simp [hglobal, hfunction] at hid

/-- An aggregate opens three containers around its elements. -/
theorem aggregate {elements : List Constant} (hty : ty.toJson.nesting ≤ levels + 1)
    (h : ∀ c ∈ elements, c.Stored levels) :
    (Constant.aggregate ty elements).Stored (levels + 3) := by
  constructor
  · simp only [toJson, nesting_tagged_le_succ, nesting_object_le_succ, nesting_arr_le_succ,
      List.forall_mem_cons, mem_listToJson]
    refine ⟨hty, ?_, List.forall_mem_nil _⟩
    rintro _ ⟨c, hc, rfl⟩
    exact (h c hc).nesting
  · rw [nodes, List.forall_mem_cons]
    refine ⟨fun id hid => by simp [global?, function?] at hid, fun node hnode => ?_⟩
    obtain ⟨c, hc, hnode⟩ := mem_nodesAll.mp hnode
    exact (h c hc).indexes node hnode

theorem elementPtr {base : Constant} (hty : ty.toJson.nesting ≤ levels + 1)
    (h : base.Stored (levels + 1)) (indices : List Int64) :
    (Constant.elementPtr ty base indices).Stored (levels + 4) := by
  constructor
  · simp [toJson, hty, h.nesting]
  · rw [nodes, List.forall_mem_cons]
    exact ⟨fun id hid => by simp [global?, function?] at hid, h.indexes⟩

theorem cast {value : Constant} (h : value.Stored levels) (hty : ty.toJson.nesting ≤ levels)
    (op : CastOp) : (Constant.cast op value ty).Stored (levels + 3) := by
  constructor
  · simp [toJson, CastOp.toJson, hty, h.nesting]
  · rw [nodes, List.forall_mem_cons]
    exact ⟨fun id hid => by simp [global?, function?] at hid, h.indexes⟩

end Stored

/-- A constant that is read can be written again, and its references are words. -/
theorem stored_of_reads (h : Decoder.Reads decode levels c) : c.Stored levels := by
  obtain ⟨json, h⟩ := h
  induction levels using Nat.strongRecOn generalizing json c with
  | ind levels ih =>
      unfold decode at h
      split at h <;> simp only [Option.bind_eq_bind, Option.bind_eq_some_iff,
        Option.map_eq_some_iff, Option.pure_def, Option.some.injEq, reduceCtorEq] at h
      -- null is written in two ways; undefined values and poison are only of a type
      iterate 2 exact h ▸ .of_plain (Nat.zero_le _) rfl rfl rfl
      iterate 2
        obtain ⟨ty, hty, rfl⟩ := h
        have hty := Ty.nesting_of_reads ⟨_, hty⟩
        exact .of_plain (by simpa [toJson] using hty) rfl rfl rfl
      · obtain ⟨data, hdata, rfl⟩ := h
        obtain ⟨inner, rfl, _⟩ := Decode.reads_of_list ⟨_, hdata⟩
        exact .of_plain (by simp [toJson]) rfl rfl rfl
      -- references to functions and to globals
      iterate 2
        obtain ⟨id, hid, rfl⟩ := h
        have hlt := Decode.lt_of_index ⟨_, hid⟩
        exact .of_leaf (by simp [toJson]) rfl (by simpa [Indexes, global?, function?] using hlt)
      · obtain ⟨record, _, ty, hty, value, _, rfl⟩ := h
        have hty := Ty.nesting_of_reads (Record.reads_of_required hty)
        exact .of_plain (by simp [toJson, hty]) rfl rfl rfl
      · obtain ⟨record, _, ty, hty, elements, helements, rfl⟩ := h
        obtain ⟨document, _, helements⟩ := Option.bind_eq_some_iff.mp helements
        rw [decodeList_eq] at helements
        obtain ⟨last, rfl, hitems⟩ := Decode.reads_of_list ⟨document, helements⟩
        refine .aggregate (Ty.nesting_of_reads (Record.reads_of_required hty)) fun c hc => ?_
        obtain ⟨item, hitem⟩ := hitems c hc
        exact ih last (by omega) item hitem
      · obtain ⟨record, _, source, hsource, base, hbase, indices, hindices, rfl⟩ := h
        obtain ⟨document, _, hbase⟩ := Option.bind_eq_some_iff.mp hbase
        obtain ⟨last, rfl, _⟩ := Decode.reads_of_list (Record.reads_of_required hindices)
        exact .elementPtr (Ty.nesting_of_reads (Record.reads_of_required hsource))
          (ih (last + 1) (by omega) document hbase) indices
      · obtain ⟨record, _, op, _, value, hvalue, ty, hty, rfl⟩ := h
        obtain ⟨document, _, hvalue⟩ := Option.bind_eq_some_iff.mp hvalue
        exact .cast (ih _ (by omega) document hvalue)
          (Ty.nesting_of_reads (Record.reads_of_required hty)) op

end Constant

/-! ## Instructions -/

namespace Operand

/-- The operand can be written within the levels, and its ids are words. -/
structure Stored (levels : Nat) (o : Operand) : Prop where
  nesting : o.toJson.nesting ≤ levels
  words : AreWords o.ids

theorem stored_of_reads {levels : Nat} {o : Operand} (h : Decoder.Reads decode levels o) :
    o.Stored levels := by
  obtain ⟨json, h⟩ := h
  unfold decode at h
  split at h
  next =>
    obtain ⟨id, hid, rfl⟩ := Option.map_eq_some_iff.mp h
    have hlt := Decode.lt_of_index ⟨_, hid⟩
    exact ⟨by simp [toJson], by simp [ids, hlt]⟩
  next =>
    obtain ⟨c, hc, rfl⟩ := Option.map_eq_some_iff.mp h
    have hstored := Constant.stored_of_reads ⟨_, hc⟩
    exact ⟨by simp [toJson, hstored.nesting], hstored.areWords⟩
  next => cases h

/-- Each of the operands that are read as a list can be written. -/
theorem stored_of_readsList {os : List Operand} (h : Decoder.Reads (Decode.list decode) levels os) :
    ∃ inner, levels = inner + 1 ∧ ∀ o ∈ os, o.Stored inner := by
  obtain ⟨inner, rfl, hitems⟩ := Decode.reads_of_list h
  exact ⟨inner, rfl, fun o ho => stored_of_reads (hitems o ho)⟩

end Operand

namespace Operation

/-- The operation can be written within the levels, and its ids are words. -/
structure Stored (levels : Nat) (op : Operation) : Prop where
  nesting : op.toJson.nesting ≤ levels
  dest : ∀ id ∈ op.dest?, id < UInt64.size
  operands : ∀ o ∈ op.operands, AreWords o.ids
  sources : AreWords op.sources

namespace Stored

variable {dest : ValueId} {ty : Ty} {o o' : Operand} {os : List Operand}

theorem alloca (hdest : dest < UInt64.size) (hty : ty.toJson.nesting ≤ levels)
    (align : UInt64) (addrSpace : UInt32) :
    (Operation.alloca dest ty align addrSpace).Stored (levels + 2) := by
  constructor <;> simp [toJson, dest?, Operation.operands, Operation.sources, hdest, hty]

theorem load (hdest : dest < UInt64.size) (hty : ty.toJson.nesting ≤ levels)
    (h : o.Stored levels) (align : UInt64) :
    (Operation.load dest ty o align).Stored (levels + 2) := by
  constructor <;> simp [toJson, dest?, Operation.operands, Operation.sources, hdest, hty,
    h.nesting, h.words]

theorem store (h : o.Stored levels) (h' : o'.Stored levels) (align : UInt64) :
    (Operation.store o o' align).Stored (levels + 2) := by
  constructor <;> simp [toJson, dest?, Operation.operands, Operation.sources, h.nesting, h.words,
    h'.nesting, h'.words]

theorem binary (hdest : dest < UInt64.size) (hty : ty.toJson.nesting ≤ levels)
    (h : o.Stored levels) (h' : o'.Stored levels) (op : BinaryOp) :
    (Operation.binary op dest ty o o').Stored (levels + 2) := by
  constructor <;> simp [toJson, BinaryOp.toJson, dest?, Operation.operands, Operation.sources,
    hdest, hty, h.nesting, h.words, h'.nesting, h'.words]

theorem compare (hdest : dest < UInt64.size) (h : o.Stored levels) (h' : o'.Stored levels)
    (predicate : Predicate) : (Operation.compare predicate dest o o').Stored (levels + 2) := by
  constructor <;> simp [toJson, Predicate.toJson, dest?, Operation.operands, Operation.sources,
    hdest, h.nesting, h.words, h'.nesting, h'.words]

theorem cast (hdest : dest < UInt64.size) (h : o.Stored levels)
    (hty : ty.toJson.nesting ≤ levels) (op : CastOp) :
    (Operation.cast op dest o ty).Stored (levels + 2) := by
  constructor <;> simp [toJson, CastOp.toJson, dest?, Operation.operands, Operation.sources,
    hdest, hty, h.nesting, h.words]

theorem elementPtr (hdest : dest < UInt64.size) (hty : ty.toJson.nesting ≤ levels + 1)
    (h : o.Stored (levels + 1)) (hos : ∀ o ∈ os, o.Stored levels) (inbounds : Bool) :
    (Operation.elementPtr dest ty o os inbounds).Stored (levels + 3) where
  nesting := by simpa [toJson, hty, h.nesting] using fun o ho => (hos o ho).nesting
  dest := by simp [dest?, hdest]
  operands := List.forall_mem_cons.mpr ⟨h.words, fun o ho => (hos o ho).words⟩
  sources := areWords_nil

theorem call {dest : Option ValueId} (hdest : ∀ x ∈ dest, x < UInt64.size)
    (hty : ty.toJson.nesting ≤ levels + 1) (h : o.Stored (levels + 1))
    (hos : ∀ o ∈ os, o.Stored levels) : (Operation.call dest ty o os).Stored (levels + 3) where
  nesting := by
    simpa [toJson, nesting_optional_le, hty, h.nesting] using fun o ho => (hos o ho).nesting
  dest := hdest
  operands := List.forall_mem_cons.mpr ⟨h.words, fun o ho => (hos o ho).words⟩
  sources := areWords_nil

/-- A phi opens three containers around its entries. -/
theorem phi {incoming : List (Operand × BlockId)} (hdest : dest < UInt64.size)
    (hty : ty.toJson.nesting ≤ levels + 1)
    (h : ∀ entry ∈ incoming, (incomingToJson entry).nesting ≤ levels ∧ AreWords entry.1.ids ∧
      entry.2 < UInt64.size) : (Operation.phi dest ty incoming).Stored (levels + 3) where
  nesting := by
    simp only [toJson, nesting_tagged_le_succ, nesting_object_le_succ, nesting_arr_le_succ,
      List.forall_mem_cons, List.forall_mem_map]
    exact ⟨Nat.zero_le _, hty, fun entry hentry => (h entry hentry).1, List.forall_mem_nil _⟩
  dest := by simp [dest?, hdest]
  operands := List.forall_mem_map.mpr fun entry hentry => (h entry hentry).2.1
  sources := List.forall_mem_map.mpr fun entry hentry => (h entry hentry).2.2

end Stored

theorem stored_of_readsIncoming {entry : Operand × BlockId}
    (h : Decoder.Reads (Decode.pair Operand.decode Decode.index) levels entry) :
    (incomingToJson entry).nesting ≤ levels ∧ AreWords entry.1.ids ∧
      entry.2 < UInt64.size := by
  obtain ⟨inner, rfl, hvalue, hblock⟩ := Decode.reads_of_pair h
  have hvalue := Operand.stored_of_reads hvalue
  refine ⟨?_, hvalue.words, Decode.lt_of_index hblock⟩
  simp [incomingToJson, hvalue.nesting]

/-- Whatever form of operation the fields are read as, it can be stored. -/
theorem stored_of_ofFields? {content : Json} {name : String} {op : Operation}
    (h : ofFields? levels content name = some op) : op.Stored (levels + 2) := by
  have hid : ∀ {record : Record} {key : String} {id : Nat},
      record.required key (Decode.index levels) = some id → id < UInt64.size :=
    fun h => Decode.lt_of_index (Record.reads_of_required h)
  have hty : ∀ {record : Record} {key : String} {ty : Ty},
      record.required key (Ty.decode levels) = some ty → ty.toJson.nesting ≤ levels :=
    fun h => Ty.nesting_of_reads (Record.reads_of_required h)
  have ho : ∀ {record : Record} {key : String} {o : Operand},
      record.required key (Operand.decode levels) = some o → o.Stored levels :=
    fun h => Operand.stored_of_reads (Record.reads_of_required h)
  unfold ofFields? at h
  split at h <;> simp only [Option.bind_eq_bind, Option.bind_eq_some_iff, Option.pure_def,
    Option.some.injEq, reduceCtorEq] at h
  · obtain ⟨record, _, dest, h₁, ty, h₂, align, _, addrSpace, _, rfl⟩ := h
    exact .alloca (hid h₁) (hty h₂) align addrSpace
  · obtain ⟨record, _, dest, h₁, ty, h₂, address, h₃, align, _, rfl⟩ := h
    exact .load (hid h₁) (hty h₂) (ho h₃) align
  · obtain ⟨record, _, value, h₁, address, h₂, align, _, rfl⟩ := h
    exact .store (ho h₁) (ho h₂) align
  · obtain ⟨record, _, dest, h₁, source, h₂, base, h₃, indices, h₄, inbounds, _, rfl⟩ := h
    have hdest := hid h₁
    have hsource := hty h₂
    have hbase := ho h₃
    obtain ⟨inner, rfl, hitems⟩ := Operand.stored_of_readsList (Record.reads_of_required h₄)
    exact .elementPtr hdest hsource hbase hitems inbounds
  · obtain ⟨record, _, op, _, dest, h₁, ty, h₂, lhs, h₃, rhs, h₄, rfl⟩ := h
    exact .binary (hid h₁) (hty h₂) (ho h₃) (ho h₄) op
  · obtain ⟨record, _, predicate, _, dest, h₁, lhs, h₂, rhs, h₃, rfl⟩ := h
    exact .compare (hid h₁) (ho h₂) (ho h₃) predicate
  · obtain ⟨record, _, op, _, dest, h₁, value, h₂, ty, h₃, rfl⟩ := h
    exact .cast (hid h₁) (ho h₂) (hty h₃) op
  · obtain ⟨record, _, dest, h₁, ty, h₂, callee, h₃, args, h₄, rfl⟩ := h
    have hdest := fun x hx => Decode.lt_of_index (Record.reads_of_nullable h₁ x hx)
    have htype := hty h₂
    have hcallee := ho h₃
    obtain ⟨inner, rfl, hitems⟩ := Operand.stored_of_readsList (Record.reads_of_required h₄)
    exact .call hdest htype hcallee hitems
  · obtain ⟨record, _, dest, h₁, ty, h₂, incoming, h₃, rfl⟩ := h
    have hdest := hid h₁
    have htype := hty h₂
    obtain ⟨inner, rfl, hitems⟩ := Decode.reads_of_list (Record.reads_of_required h₃)
    exact .phi hdest htype fun entry hentry => stored_of_readsIncoming (hitems entry hentry)

/-- Whatever the operation, it can be written again as it was read. -/
theorem stored_of_reads {op : Operation} (h : Decoder.Reads decode levels op) :
    op.Stored levels := by
  obtain ⟨json, h⟩ := h
  unfold decode at h
  split at h
  next => exact stored_of_ofFields? h
  next => cases h

end Operation

/-- A comment takes no more levels than the operation. -/
theorem Instruction.stored_of_reads {levels : Nat} {i : Instruction}
    (h : Decoder.Reads decode levels i) : i.toJson.nesting ≤ levels ∧ AreWords i.op.ids := by
  obtain ⟨json, h⟩ := h
  unfold decode at h
  split at h <;> simp only [Option.bind_eq_bind, Option.bind_eq_some_iff, Option.pure_def,
    Option.some.injEq, reduceCtorEq] at h
  obtain ⟨record, _, op, hop, comment, _, rfl⟩ := h
  have hop := Operation.stored_of_reads (Record.reads_of_required hop)
  refine ⟨?_, Operation.areWords_ids.mpr ⟨hop.dest, hop.operands, hop.sources⟩⟩
  rw [toJson, nesting_object_le_succ, List.forall_mem_append, forall_mem_member?]
  simp [hop.nesting]

/-! ## Blocks -/

namespace Terminator

theorem stored_of_reads {levels : Nat} {t : Terminator} (h : Decoder.Reads decode levels t) :
    t.toJson.nesting ≤ levels ∧ AreWords t.ids := by
  obtain ⟨json, h⟩ := h
  unfold decode at h
  split at h <;> simp only [Option.bind_eq_bind, Option.bind_eq_some_iff, Option.pure_def,
    Option.some.injEq, reduceCtorEq] at h
  -- that control cannot come here is written in two ways
  iterate 2 exact h ▸ ⟨Nat.zero_le _, areWords_nil⟩
  · obtain ⟨record, _, target, htarget, rfl⟩ := h
    have htarget := Decode.lt_of_index (Record.reads_of_required htarget)
    simp [toJson, ids, operands, targets, htarget]
  · obtain ⟨record, _, condition, hcondition, onTrue, htrue, onFalse, hfalse, rfl⟩ := h
    have hcondition := Operand.stored_of_reads (Record.reads_of_required hcondition)
    have htrue := Decode.lt_of_index (Record.reads_of_required htrue)
    have hfalse := Decode.lt_of_index (Record.reads_of_required hfalse)
    simp [toJson, ids, operands, targets, hcondition.nesting, hcondition.words, htrue, hfalse]
  · obtain ⟨record, _, value, hvalue, rfl⟩ := h
    have hvalue : ∀ o ∈ value, o.Stored _ := fun o ho =>
      Operand.stored_of_reads (Record.reads_of_nullable hvalue o ho)
    constructor
    · simpa [toJson, nesting_optional_le] using fun o ho => (hvalue o ho).nesting
    · rw [ids, areWords_append, areWords_flatMap]
      exact ⟨fun o ho => (hvalue o (Option.mem_toList.mp ho)).words, areWords_nil⟩

end Terminator

/-- A block that is read can be written again, and its ids are words. -/
theorem Block.stored_of_reads {levels : Nat} {block : Block}
    (h : Decoder.Reads decode levels block) :
    block.toJson.nesting ≤ levels ∧ AreWords block.ids := by
  obtain ⟨json, h⟩ := h
  unfold decode at h
  split at h <;> simp only [Option.bind_eq_bind, Option.bind_eq_some_iff, Option.pure_def,
    Option.some.injEq, reduceCtorEq] at h
  obtain ⟨record, _, name, _, instructions, hinstructions, terminator, hterminator, rfl⟩ := h
  obtain ⟨inner, rfl, hitems⟩ := Decode.reads_of_list (Record.reads_of_required hinstructions)
  have hitems := fun i hi => Instruction.stored_of_reads (hitems i hi)
  have hterminator := Terminator.stored_of_reads (Record.reads_of_required hterminator)
  constructor
  · simp only [toJson, nesting_object_le_succ, nesting_arr_le_succ, List.forall_mem_append,
      List.forall_mem_cons, List.forall_mem_map, forall_mem_member?]
    refine ⟨by simp, fun i hi => (hitems i hi).1, hterminator.1, List.forall_mem_nil _⟩
  · rw [ids, areWords_append, areWords_flatMap]
    exact ⟨fun i hi => (hitems i hi).2, hterminator.2⟩

/-! ## Functions and globals -/

theorem ValueInfo.nesting_of_reads {levels : Nat} {info : ValueInfo}
    (h : Decoder.Reads decode levels info) : info.toJson.nesting ≤ levels := by
  obtain ⟨json, h⟩ := h
  unfold decode at h
  split at h <;> simp only [Option.bind_eq_bind, Option.bind_eq_some_iff, Option.pure_def,
    Option.some.injEq, reduceCtorEq] at h
  obtain ⟨record, _, ty, hty, name, _, rfl⟩ := h
  have hty := Ty.nesting_of_reads (Record.reads_of_required hty)
  rw [toJson, nesting_object_le_succ, List.forall_mem_append, forall_mem_member?]
  simp [hty]

/-- Attributes are flags, so their object is all there is. -/
theorem Attributes.nesting_toJson (attributes : Attributes) : attributes.toJson.nesting = 1 := rfl

theorem Linkage.nesting_toJson (linkage : Linkage) : linkage.toJson.nesting = 0 := by
  cases linkage <;> rfl

/-- A function that is read can be written again, and its ids are words. -/
theorem Function.stored_of_reads {levels : Nat} {f : Function}
    (h : Decoder.Reads decode levels f) : f.toJson.nesting ≤ levels ∧ AreWords f.ids := by
  obtain ⟨json, h⟩ := h
  unfold decode at h
  split at h <;> simp only [Option.bind_eq_bind, Option.bind_eq_some_iff, Option.pure_def,
    Option.some.injEq, reduceCtorEq] at h
  obtain ⟨record, _, name, _, linkage, _, attributes, _, returnType, htype, parameters,
    hparameters, isVarArg, _, blocks, hblocks, entry, hentry, values, hvalues, rfl⟩ := h
  obtain ⟨inner, rfl, hids⟩ := Decode.reads_of_list (Record.reads_of_required hparameters)
  obtain ⟨_, heq, hitems⟩ := Decode.reads_of_list (Record.reads_of_required hblocks)
  obtain rfl := Nat.succ.inj heq
  obtain ⟨_, heq, hinfos⟩ := Decode.reads_of_list (Record.reads_of_required hvalues)
  obtain rfl := Nat.succ.inj heq
  have htype := Ty.nesting_of_reads (Record.reads_of_required htype)
  have hitems := fun block hblock => Block.stored_of_reads (hitems block hblock)
  have hentry := Decode.lt_of_index (Record.reads_of_required hentry)
  constructor
  · simp only [toJson, nesting_object_le_succ, nesting_arr_le_succ, List.forall_mem_cons,
      List.forall_mem_map, Attributes.nesting_toJson, Linkage.nesting_toJson, nesting_string,
      nesting_nat, nesting_bool]
    exact ⟨Nat.zero_le _, Nat.zero_le _, Nat.succ_pos _, htype, fun _ _ => Nat.zero_le _,
      Nat.zero_le _, fun block hblock => (hitems block hblock).1, Nat.zero_le _,
      fun info hinfo => ValueInfo.nesting_of_reads (hinfos info hinfo), List.forall_mem_nil _⟩
  · rw [ids, areWords_append, areWords_cons, areWords_flatMap]
    exact ⟨fun id hid => Decode.lt_of_index (hids id hid), hentry,
      fun block hblock => (hitems block hblock).2⟩

/-- A global that is read can be written again, and its ids are words. -/
theorem Global.stored_of_reads {levels : Nat} {g : Global}
    (h : Decoder.Reads decode levels g) : g.toJson.nesting ≤ levels ∧ AreWords g.ids := by
  obtain ⟨json, h⟩ := h
  unfold decode at h
  split at h <;> simp only [Option.bind_eq_bind, Option.bind_eq_some_iff, Option.pure_def,
    Option.some.injEq, reduceCtorEq] at h
  obtain ⟨record, _, name, _, valueType, htype, initializer, hinitializer, align, _, addrSpace, _,
    linkage, _, isConstant, _, rfl⟩ := h
  have htype := Ty.nesting_of_reads (Record.reads_of_required htype)
  have hinitializer := fun c hc =>
    Constant.stored_of_reads (Record.reads_of_optional hinitializer c hc)
  constructor
  · simp only [toJson, nesting_object_le_succ, List.forall_mem_append, List.forall_mem_cons,
      forall_mem_member?, Option.forall_mem_map, Linkage.nesting_toJson, nesting_string,
      nesting_nat, nesting_bool]
    simpa [htype] using fun c hc => (hinitializer c hc).nesting
  · rw [ids, areWords_flatMap]
    exact fun c hc => (hinitializer c (Option.mem_toList.mp hc)).areWords

/-! ## Modules -/

namespace Module

/-- A module that is read can be written again, and its name tables are those that the reader
makes. -/
theorem stored_of_reads {levels : Nat} {m : Module} (h : Decoder.Reads decode levels m) :
    m.toJson.nesting ≤ levels ∧ AreWords m.ids ∧ m.rebuildNames = m := by
  obtain ⟨json, h⟩ := h
  unfold decode at h
  split at h <;> simp only [Option.bind_eq_bind, Option.bind_eq_some_iff, Option.pure_def,
    Option.some.injEq, reduceCtorEq] at h
  obtain ⟨record, _, name, _, functions, hfunctions, globals, hglobals, entry, hentry, rfl⟩ := h
  obtain ⟨inner, rfl, hslots⟩ := Decode.reads_of_list (Record.reads_of_required hfunctions)
  obtain ⟨_, heq, hslots'⟩ := Decode.reads_of_list (Record.reads_of_required hglobals)
  obtain rfl := Nat.succ.inj heq
  have hfunctions := fun slot hslot f hf =>
    Function.stored_of_reads (Decode.reads_of_nullable (hslots slot hslot) f hf)
  have hglobals := fun slot hslot g hg =>
    Global.stored_of_reads (Decode.reads_of_nullable (hslots' slot hslot) g hg)
  have hentry := fun id hid => Decode.lt_of_index (Record.reads_of_optional hentry id hid)
  refine ⟨?_, ?_, rfl⟩
  · simp only [toJson, rebuildNames, nesting_object_le_succ, nesting_arr_le_succ,
      nesting_optional_le, List.forall_mem_append, List.forall_mem_cons, List.forall_mem_map,
      forall_mem_member?, Option.forall_mem_map]
    exact ⟨⟨Nat.zero_le _, fun slot hslot f hf => (hfunctions slot hslot f hf).1,
      fun slot hslot g hg => (hglobals slot hslot g hg).1, List.forall_mem_nil _⟩,
      fun _ _ => Nat.zero_le _⟩
  · simp only [ids, rebuildNames, areWords_append, areWords_flatMap, Option.mem_toList]
    exact ⟨⟨fun id hid => hentry id (Option.mem_toList.mp hid),
      fun slot hslot f hf => (hfunctions slot hslot f hf).2⟩,
      fun slot hslot g hg => (hglobals slot hslot g hg).2⟩

end Module

end Monolith
