import Monolith.Module.Json
import Monolith.Proofs.Code.Rewriting
import Monolith.Proofs.Json.DecodedValues

/-! # Decoding the parts of a module

Every part of a module is given back by its decoder, if its ids are 64-bit words.
-/

namespace Monolith

open Json

variable {levels : Nat}

/-! ## Ids -/

def Constant.ids (c : Constant) : List Nat := c.globals ++ c.functions

def Operand.ids : Operand → List Nat
  | .var id => [id]
  | .const value => value.ids

def Operation.ids (op : Operation) : List Nat :=
  op.dest?.toList ++ op.operands.flatMap Operand.ids ++ op.sources

def Terminator.ids (t : Terminator) : List Nat := t.operands.flatMap Operand.ids ++ t.targets

def Block.ids (block : Block) : List Nat :=
  block.instructions.flatMap (·.op.ids) ++ block.terminator.ids

def Function.ids (f : Function) : List Nat :=
  f.parameters ++ f.entry :: f.blocks.flatMap Block.ids

def Global.ids (g : Global) : List Nat := g.initializer.toList.flatMap Constant.ids

def Module.ids (m : Module) : List Nat :=
  m.entry.toList ++ m.functions.flatMap (·.toList.flatMap Function.ids) ++
    m.globals.flatMap (·.toList.flatMap Global.ids)

def AreWords (ids : List Nat) : Prop := ∀ id ∈ ids, id < UInt64.size

instance (ids : List Nat) : Decidable (AreWords ids) :=
  inferInstanceAs (Decidable (∀ id ∈ ids, id < UInt64.size))

@[simp] theorem areWords_nil : AreWords [] := List.forall_mem_nil _

@[simp] theorem areWords_append {front back : List Nat} :
    AreWords (front ++ back) ↔ AreWords front ∧ AreWords back :=
  List.forall_mem_append

@[simp] theorem areWords_cons {id : Nat} {ids : List Nat} :
    AreWords (id :: ids) ↔ id < UInt64.size ∧ AreWords ids :=
  List.forall_mem_cons

/-- Ids that are gathered are words if all of those that they come from are. -/
@[simp] theorem areWords_flatMap {α : Type} {values : List α} {ids : α → List Nat} :
    AreWords (values.flatMap ids) ↔ ∀ value ∈ values, AreWords (ids value) := by
  simp only [AreWords, List.mem_flatMap]
  exact ⟨fun h value hvalue id hid => h id ⟨value, hvalue, hid⟩,
    fun h id ⟨value, hvalue, hid⟩ => h value hvalue id hid⟩

/-! ## Types -/

namespace Ty

mutual

/-- A type is read back if its document is nested no deeper than is allowed. -/
theorem decode_toJson (levels : Nat) :
    (t : Ty) → t.toJson.nesting ≤ levels → decode levels t.toJson = some t
  | .void, _ => by simp [toJson, string, decode]
  | .int bits, h => by
      rw [toJson] at h ⊢
      obtain ⟨inner, rfl, _⟩ := nesting_tagged_le.mp h
      simp [tagged_eq, decode]
  | .ptr, _ => by simp [toJson, string, decode]
  | .array element len, h => by
      rw [toJson] at h ⊢
      obtain ⟨inner, rfl, helement, _⟩ := nesting_variant_le.mp h
      have helement := decode_toJson inner element helement
      rw [tagged_eq, decode, Record.ofJson?_object _ (by simp)]
      simp [List.lookup_cons, helement]
  | .struct fields packed, h => by
      rw [toJson] at h ⊢
      obtain ⟨inner, rfl, hlist, _⟩ := nesting_variant_le.mp h
      obtain ⟨_, rfl, hfields⟩ := nesting_arr_le.mp hlist
      have hfields := mapM_listToJson _ fields hfields
      rw [tagged_eq, decode, Record.ofJson?_object _ (by simp)]
      simp [List.lookup_cons, decodeList, hfields]

/-- So is a list of types. -/
theorem mapM_listToJson (levels : Nat) :
    (ts : List Ty) → (∀ item ∈ listToJson ts, item.nesting ≤ levels) →
      (listToJson ts).mapM (decode levels) = some ts
  | [], _ => rfl
  | t :: ts, h => by
      rw [listToJson, List.forall_mem_cons] at h
      simp [listToJson, List.mapM_cons, decode_toJson levels t h.1, mapM_listToJson levels ts h.2]

end

end Ty

/-! ## Constants -/

@[simp] theorem CastOp.decode_toJson (levels : Nat) (op : CastOp) :
    decode levels op.toJson = some op :=
  Decode.choice_string (by cases op <;> decide)

namespace Constant

/-- The node is no reference, or one to an id that is a word. -/
def Indexes (node : Constant) : Prop :=
  ∀ id, node.global? = some id ∨ node.function? = some id → id < UInt64.size

/-- References in a constant whose ids are words can be written. -/
theorem indexes_of_areWords {c : Constant} (h : AreWords c.ids) :
    ∀ node ∈ c.nodes, node.Indexes := by
  obtain ⟨hglobals, hfunctions⟩ := areWords_append.mp h
  rintro node hnode id (hid | hid)
  · exact hglobals id (List.mem_filterMap.mpr ⟨node, hnode, hid⟩)
  · exact hfunctions id (List.mem_filterMap.mpr ⟨node, hnode, hid⟩)

mutual

/-- A constant is read back if the references in it can be written. -/
theorem decode_toJson_of_indexes (levels : Nat) :
    (c : Constant) → (∀ node ∈ c.nodes, node.Indexes) → c.toJson.nesting ≤ levels →
      decode levels c.toJson = some c
  | .int ty value, _, h => by
      rw [toJson] at h ⊢
      obtain ⟨inner, rfl, hty, _⟩ := nesting_variant_le.mp h
      rw [tagged_eq, decode, Record.ofJson?_object _ (by simp)]
      simp [List.lookup_cons, ty.decode_toJson inner hty]
  | .null, _, _ => by simp [toJson, string, decode]
  | .undef ty, _, h => by
      rw [toJson] at h ⊢
      obtain ⟨inner, rfl, hcontent⟩ := nesting_tagged_le.mp h
      simp [tagged_eq, decode, ty.decode_toJson inner hcontent]
  | .poison ty, _, h => by
      rw [toJson] at h ⊢
      obtain ⟨inner, rfl, hcontent⟩ := nesting_tagged_le.mp h
      simp [tagged_eq, decode, ty.decode_toJson inner hcontent]
  | .bytes data, _, h => by
      rw [toJson] at h ⊢
      obtain ⟨inner, rfl, hcontent⟩ := nesting_tagged_le.mp h
      have hdata := Decode.list_arr Decode.byte hcontent fun byte _ _ _ => Decode.byte_nat byte
      simp [tagged_eq, decode, hdata]
  | .aggregate ty elements, hnodes, h => by
      rw [toJson] at h ⊢
      obtain ⟨inner, rfl, hty, hlist⟩ := nesting_variant_le.mp h
      obtain ⟨_, rfl, hitems⟩ := nesting_arr_le.mp hlist
      rw [nodes, List.forall_mem_cons] at hnodes
      have helements := mapM_listToJson _ elements hnodes.2 hitems
      rw [tagged_eq, decode, Record.ofJson?_object _ (by simp)]
      simp [List.lookup_cons, ty.decode_toJson _ hty, decodeList, helements]
  | .global id, hnodes, h => by
      rw [toJson] at h ⊢
      obtain ⟨inner, rfl, _⟩ := nesting_tagged_le.mp h
      have hid := hnodes (.global id) (by simp [nodes]) id (.inl rfl)
      simp [tagged_eq, decode, Decode.index_nat hid]
  | .function id, hnodes, h => by
      rw [toJson] at h ⊢
      obtain ⟨inner, rfl, _⟩ := nesting_tagged_le.mp h
      have hid := hnodes (.function id) (by simp [nodes]) id (.inr rfl)
      simp [tagged_eq, decode, Decode.index_nat hid]
  | .elementPtr source base indices, hnodes, h => by
      rw [toJson] at h ⊢
      obtain ⟨_, rfl, hcontent⟩ := nesting_tagged_le.mp h
      obtain ⟨inner, rfl, hsource, hbase, hindices⟩ := nesting_variant_le.mp hcontent
      rw [nodes, List.forall_mem_cons] at hnodes
      have hbase := decode_toJson_of_indexes inner base hnodes.2 hbase
      have hindices := Decode.list_arr Decode.signed64 hindices
        fun index _ _ _ => Decode.signed64_int index
      rw [tagged_eq, tagged_eq, decode, Record.ofJson?_object _ (by simp)]
      simp [List.lookup_cons, source.decode_toJson inner hsource, hbase, hindices]
  | .cast op value ty, hnodes, h => by
      rw [toJson] at h ⊢
      obtain ⟨_, rfl, hcontent⟩ := nesting_tagged_le.mp h
      obtain ⟨inner, rfl, _, hvalue, hty⟩ := nesting_variant_le.mp hcontent
      rw [nodes, List.forall_mem_cons] at hnodes
      have hvalue := decode_toJson_of_indexes inner value hnodes.2 hvalue
      rw [tagged_eq, tagged_eq, decode, Record.ofJson?_object _ (by simp)]
      simp [List.lookup_cons, ty.decode_toJson inner hty, hvalue]

theorem mapM_listToJson (levels : Nat) :
    (cs : List Constant) → (∀ node ∈ nodesAll cs, node.Indexes) →
      (∀ item ∈ listToJson cs, item.nesting ≤ levels) →
      (listToJson cs).mapM (decode levels) = some cs
  | [], _, _ => rfl
  | c :: cs, hnodes, h => by
      rw [nodesAll, List.forall_mem_append] at hnodes
      rw [listToJson, List.forall_mem_cons] at h
      simp [listToJson, List.mapM_cons, decode_toJson_of_indexes levels c hnodes.1 h.1,
        mapM_listToJson levels cs hnodes.2 h.2]

end

/-- A constant is never written as null, which stands for no constant. -/
theorem toJson_ne_null (c : Constant) : c.toJson ≠ .null := by
  cases c <;> simp [toJson, tagged_eq, string]

/-- A constant is read back if its ids are words. -/
theorem decode_toJson {c : Constant} (hids : AreWords c.ids) (h : c.toJson.nesting ≤ levels) :
    decode levels c.toJson = some c :=
  decode_toJson_of_indexes levels c (indexes_of_areWords hids) h

end Constant

/-! ## Instructions -/

namespace Operand

theorem toJson_ne_null (operand : Operand) : operand.toJson ≠ .null := by
  cases operand <;> simp [toJson, tagged_eq]

/-- An operand is read back if its ids are words. -/
theorem decode_toJson {operand : Operand} (hids : AreWords operand.ids)
    (h : operand.toJson.nesting ≤ levels) : decode levels operand.toJson = some operand := by
  cases operand with
  | var id =>
      rw [toJson] at h ⊢
      obtain ⟨inner, rfl, _⟩ := nesting_tagged_le.mp h
      simp [tagged_eq, decode, Decode.index_nat (hids id (by simp [ids]))]
  | const value =>
      rw [toJson] at h ⊢
      obtain ⟨inner, rfl, hvalue⟩ := nesting_tagged_le.mp h
      simp [tagged_eq, decode, Constant.decode_toJson hids hvalue]

theorem decode_list {operands : List Operand} (hids : ∀ operand ∈ operands, AreWords operand.ids)
    (h : (Json.arr (operands.map toJson)).nesting ≤ levels) :
    Decode.list decode levels (.arr (operands.map toJson)) = some operands :=
  Decode.list_arr decode h fun operand hoperand _ => decode_toJson (hids operand hoperand)

end Operand

@[simp] theorem BinaryOp.decode_toJson (levels : Nat) (op : BinaryOp) :
    decode levels op.toJson = some op :=
  Decode.choice_string (by cases op <;> decide)

@[simp] theorem Predicate.decode_toJson (levels : Nat) (predicate : Predicate) :
    decode levels predicate.toJson = some predicate :=
  Decode.choice_string (by cases predicate <;> decide)

namespace Operation

/-- The entries of a phi are read back as pairs. -/
theorem decode_incoming {incoming : List (Operand × BlockId)}
    (hvalues : ∀ entry ∈ incoming, AreWords entry.1.ids)
    (hblocks : ∀ entry ∈ incoming, entry.2 < UInt64.size)
    (h : (Json.arr (incoming.map incomingToJson)).nesting ≤ levels) :
    Decode.list (Decode.pair Operand.decode Decode.index) levels
      (.arr (incoming.map incomingToJson)) = some incoming :=
  Decode.list_arr _ h fun entry hentry _ hlevels => Decode.pair_arr _ _ hlevels
    (fun _ hvalue => Operand.decode_toJson (hvalues entry hentry) hvalue)
    (fun _ _ => Decode.index_nat (hblocks entry hentry))

/-- The ids of an operation are its result, those of its operands and the blocks that it lists. -/
theorem areWords_ids {op : Operation} :
    AreWords op.ids ↔ (∀ id ∈ op.dest?, id < UInt64.size) ∧
      (∀ operand ∈ op.operands, AreWords operand.ids) ∧ AreWords op.sources := by
  have hdest : AreWords op.dest?.toList ↔ ∀ id ∈ op.dest?, id < UInt64.size := by simp [AreWords]
  rw [ids, areWords_append, areWords_append, areWords_flatMap, hdest, and_assoc]

/-- An operation of any kind is read back if its ids are words. -/
theorem decode_toJson {op : Operation} (hids : AreWords op.ids) (h : op.toJson.nesting ≤ levels) :
    decode levels op.toJson = some op := by
  obtain ⟨hdest, hoperands, hsources⟩ := areWords_ids.mp hids
  cases op with
  | alloca dest ty align addrSpace =>
      rw [toJson] at h ⊢
      obtain ⟨inner, rfl, _, hty, _⟩ := nesting_variant_le.mp h
      rw [tagged_eq, decode, ofFields?, Record.ofJson?_object _ (by simp)]
      simp [List.lookup_cons, Decode.index_nat (hdest dest rfl), ty.decode_toJson inner hty]
  | load dest ty address align =>
      rw [toJson] at h ⊢
      obtain ⟨inner, rfl, _, hty, haddress, _⟩ := nesting_variant_le.mp h
      have haddress := Operand.decode_toJson (hoperands address (by simp [operands])) haddress
      rw [tagged_eq, decode, ofFields?, Record.ofJson?_object _ (by simp)]
      simp [List.lookup_cons, Decode.index_nat (hdest dest rfl),
        ty.decode_toJson inner hty, haddress]
  | store value address align =>
      rw [toJson] at h ⊢
      obtain ⟨inner, rfl, hvalue, haddress, _⟩ := nesting_variant_le.mp h
      have hvalue := Operand.decode_toJson (hoperands value (by simp [operands])) hvalue
      have haddress := Operand.decode_toJson (hoperands address (by simp [operands])) haddress
      rw [tagged_eq, decode, ofFields?, Record.ofJson?_object _ (by simp)]
      simp [List.lookup_cons, hvalue, haddress]
  | elementPtr dest source base indices inbounds =>
      rw [toJson] at h ⊢
      obtain ⟨inner, rfl, _, hsource, hbase, hindices, _⟩ := nesting_variant_le.mp h
      rw [operands, List.forall_mem_cons] at hoperands
      have hbase := Operand.decode_toJson hoperands.1 hbase
      have hindices := Operand.decode_list hoperands.2 hindices
      rw [tagged_eq, decode, ofFields?, Record.ofJson?_object _ (by simp)]
      simp [List.lookup_cons, Decode.index_nat (hdest dest rfl), source.decode_toJson inner hsource,
        hbase, hindices]
  | binary op dest ty lhs rhs =>
      rw [toJson] at h ⊢
      obtain ⟨inner, rfl, _, _, hty, hlhs, hrhs⟩ := nesting_variant_le.mp h
      have hlhs := Operand.decode_toJson (hoperands lhs (by simp [operands])) hlhs
      have hrhs := Operand.decode_toJson (hoperands rhs (by simp [operands])) hrhs
      rw [tagged_eq, decode, ofFields?, Record.ofJson?_object _ (by simp)]
      simp [List.lookup_cons, Decode.index_nat (hdest dest rfl),
        ty.decode_toJson inner hty, hlhs, hrhs]
  | compare predicate dest lhs rhs =>
      rw [toJson] at h ⊢
      obtain ⟨inner, rfl, _, _, hlhs, hrhs⟩ := nesting_variant_le.mp h
      have hlhs := Operand.decode_toJson (hoperands lhs (by simp [operands])) hlhs
      have hrhs := Operand.decode_toJson (hoperands rhs (by simp [operands])) hrhs
      rw [tagged_eq, decode, ofFields?, Record.ofJson?_object _ (by simp)]
      simp [List.lookup_cons, Decode.index_nat (hdest dest rfl), hlhs, hrhs]
  | cast op dest value ty =>
      rw [toJson] at h ⊢
      obtain ⟨inner, rfl, _, _, hvalue, hty⟩ := nesting_variant_le.mp h
      have hvalue := Operand.decode_toJson (hoperands value (by simp [operands])) hvalue
      rw [tagged_eq, decode, ofFields?, Record.ofJson?_object _ (by simp)]
      simp [List.lookup_cons, Decode.index_nat (hdest dest rfl), hvalue, ty.decode_toJson inner hty]
  | call dest returnType callee args =>
      rw [toJson] at h ⊢
      obtain ⟨inner, rfl, _, hreturnType, hcallee, hargs⟩ := nesting_variant_le.mp h
      rw [operands, List.forall_mem_cons] at hoperands
      have hdest : Decode.nullable Decode.index inner (.optional (dest.map .nat)) = some dest :=
        Decode.nullable_optional nat_ne_null fun id hid => Decode.index_nat (hdest id hid)
      have hcallee := Operand.decode_toJson hoperands.1 hcallee
      have hargs := Operand.decode_list hoperands.2 hargs
      rw [tagged_eq, decode, ofFields?, Record.ofJson?_object _ (by simp)]
      simp [List.lookup_cons, hdest, returnType.decode_toJson inner hreturnType, hcallee, hargs]
  | phi dest ty incoming =>
      rw [toJson] at h ⊢
      obtain ⟨inner, rfl, _, hty, hincoming⟩ := nesting_variant_le.mp h
      rw [operands, List.forall_mem_map] at hoperands
      have hincoming := decode_incoming hoperands (List.forall_mem_map.mp hsources) hincoming
      rw [tagged_eq, decode, ofFields?, Record.ofJson?_object _ (by simp)]
      simp [List.lookup_cons, Decode.index_nat (hdest dest rfl),
        ty.decode_toJson inner hty, hincoming]

end Operation

theorem Instruction.decode_toJson {instruction : Instruction} (hids : AreWords instruction.op.ids)
    (h : instruction.toJson.nesting ≤ levels) :
    decode levels instruction.toJson = some instruction := by
  rw [toJson] at h ⊢
  obtain ⟨inner, rfl, hmembers⟩ := nesting_object_le.mp h
  have hop := Operation.decode_toJson hids (hmembers ("kind", instruction.op.toJson) (by simp))
  have hcomment : (instruction.comment.map string).elim (some none)
      (Decode.nullable Decode.text inner) = some instruction.comment :=
    Decode.elim_nullable string_ne_null fun text _ => Decode.text_string text
  rw [decode, Record.ofJson?_object _ (by cases instruction.comment <;> simp [member?])]
  simp [List.lookup_cons, hop, hcomment]

/-! ## Blocks -/

namespace Terminator

/-- A terminator is read back if its ids are words. -/
theorem decode_toJson {t : Terminator} (hids : AreWords t.ids) (h : t.toJson.nesting ≤ levels) :
    decode levels t.toJson = some t := by
  rw [ids, areWords_append, areWords_flatMap] at hids
  obtain ⟨hoperands, htargets⟩ := hids
  cases t with
  | jump target =>
      rw [toJson] at h ⊢
      obtain ⟨inner, rfl, _⟩ := nesting_variant_le.mp h
      have htarget := htargets target (by simp [targets])
      rw [tagged_eq, decode, Record.ofJson?_object _ (by simp)]
      simp [Decode.index_nat htarget]
  | branch condition onTrue onFalse =>
      rw [toJson] at h ⊢
      obtain ⟨inner, rfl, hcondition, _⟩ := nesting_variant_le.mp h
      have hcondition :=
        Operand.decode_toJson (hoperands condition (by simp [operands])) hcondition
      have honTrue := htargets onTrue (by simp [targets])
      have honFalse := htargets onFalse (by simp [targets])
      rw [tagged_eq, decode, Record.ofJson?_object _ (by simp)]
      simp [List.lookup_cons, hcondition, Decode.index_nat honTrue, Decode.index_nat honFalse]
  | ret value =>
      rw [toJson] at h ⊢
      obtain ⟨inner, rfl, hoperand⟩ := nesting_variant_le.mp h
      have hvalue : Decode.nullable Operand.decode inner (.optional (value.map Operand.toJson)) =
          some value := by
        refine Decode.nullable_optional Operand.toJson_ne_null ?_
        rintro operand rfl
        exact Operand.decode_toJson (hoperands operand (by simp [operands])) hoperand
      rw [tagged_eq, decode, Record.ofJson?_object _ (by simp)]
      simp [hvalue]
  | unreachable => simp [toJson, string, decode]

end Terminator

/-- A block is read back if all of its ids are words. -/
theorem Block.decode_toJson {block : Block} (hids : AreWords block.ids)
    (h : block.toJson.nesting ≤ levels) : decode levels block.toJson = some block := by
  rw [ids, areWords_append, areWords_flatMap] at hids
  rw [toJson] at h ⊢
  obtain ⟨inner, rfl, hmembers⟩ := nesting_object_le.mp h
  simp only [List.forall_mem_append, List.forall_mem_cons] at hmembers
  obtain ⟨_, hinstructions, hterminator, _⟩ := hmembers
  have hname : (block.name.map string).elim (some none) (Decode.nullable Decode.text inner) =
      some block.name :=
    Decode.elim_nullable string_ne_null fun text _ => Decode.text_string text
  have hinstructions := Decode.list_arr Instruction.decode hinstructions
    fun instruction hinstruction _ =>
      Instruction.decode_toJson (hids.1 instruction hinstruction)
  have hterminator := Terminator.decode_toJson hids.2 hterminator
  rw [decode, Record.ofJson?_object _ (by cases block.name <;> simp [member?])]
  simp [List.lookup_cons, List.lookup_append, hname, hinstructions, hterminator]

/-! ## Functions and globals -/

@[simp] theorem Linkage.decode_toJson (levels : Nat) (linkage : Linkage) :
    decode levels linkage.toJson = some linkage := by
  cases linkage <;> exact Decode.choice_string (by decide)

/-- All attributes are written, so reading them takes no default. -/
theorem Attributes.decode_toJson {attributes : Attributes}
    (h : attributes.toJson.nesting ≤ levels) :
    decode levels attributes.toJson = some attributes := by
  rw [toJson] at h ⊢
  obtain ⟨inner, rfl, _⟩ := nesting_object_le.mp h
  rw [decode, Record.ofJson?_object _ (by simp)]
  simp [List.lookup_cons]

theorem ValueInfo.decode_toJson {info : ValueInfo} (h : info.toJson.nesting ≤ levels) :
    decode levels info.toJson = some info := by
  rw [toJson] at h ⊢
  obtain ⟨inner, rfl, hmembers⟩ := nesting_object_le.mp h
  have hty := info.ty.decode_toJson inner (hmembers ("ty", info.ty.toJson) (by simp))
  have hname : (info.name.map string).elim (some none) (Decode.nullable Decode.text inner) =
      some info.name :=
    Decode.elim_nullable string_ne_null fun text _ => Decode.text_string text
  rw [decode, Record.ofJson?_object _ (by cases info.name <;> simp [member?])]
  simp [List.lookup_cons, hty, hname]

namespace Function

theorem toJson_ne_null (f : Function) : f.toJson ≠ .null := object_ne_null _

/-- A function is read back, with its attributes and the types of its variables. -/
theorem decode_toJson {f : Function} (hids : AreWords f.ids) (h : f.toJson.nesting ≤ levels) :
    decode levels f.toJson = some f := by
  rw [ids, areWords_append, areWords_cons, areWords_flatMap] at hids
  obtain ⟨hparameters, hentry, hblocks⟩ := hids
  rw [toJson] at h ⊢
  obtain ⟨inner, rfl, hmembers⟩ := nesting_object_le.mp h
  simp only [List.forall_mem_cons] at hmembers
  obtain ⟨_, _, hattributes, hreturnType, hids, _, hcode, _, hvalues, _⟩ := hmembers
  have hattributes := Attributes.decode_toJson hattributes
  have hreturnType := f.returnType.decode_toJson inner hreturnType
  have hparameters := Decode.list_arr Decode.index hids
    fun id hid _ _ => Decode.index_nat (hparameters id hid)
  have hblocks := Decode.list_arr Block.decode hcode
    fun block hblock _ => Block.decode_toJson (hblocks block hblock)
  have hvalues := Decode.list_arr ValueInfo.decode hvalues
    fun _ _ _ => ValueInfo.decode_toJson
  rw [decode, Record.ofJson?_object _ (by simp)]
  simp [List.lookup_cons, hattributes, hreturnType, hparameters, hblocks, Decode.index_nat hentry,
    hvalues]

end Function

namespace Global

theorem toJson_ne_null (g : Global) : g.toJson ≠ .null := object_ne_null _

/-- A global is read back, with its initializer if it has one. -/
theorem decode_toJson {g : Global} (hids : AreWords g.ids) (h : g.toJson.nesting ≤ levels) :
    decode levels g.toJson = some g := by
  rw [ids, areWords_flatMap] at hids
  rw [toJson] at h ⊢
  obtain ⟨inner, rfl, hmembers⟩ := nesting_object_le.mp h
  simp only [List.forall_mem_append, List.forall_mem_cons, forall_mem_member?] at hmembers
  obtain ⟨⟨⟨⟨_, hvalueType, _⟩, hvalue⟩, _⟩, _⟩ := hmembers
  have hvalueType := g.valueType.decode_toJson inner hvalueType
  have hinitializer : (g.initializer.map Constant.toJson).elim (some none)
      (Decode.nullable Constant.decode inner) = some g.initializer :=
    Decode.elim_nullable Constant.toJson_ne_null fun value hmem =>
      Constant.decode_toJson (hids value (Option.mem_toList.mpr hmem))
        (hvalue _ (Option.mem_map_of_mem _ hmem))
  have halign : (g.align.map fun align => Json.nat align.toNat).elim (some none)
      (Decode.nullable Decode.word64 inner) = some g.align :=
    Decode.elim_nullable (fun align => nat_ne_null align.toNat)
      fun align _ => Decode.word64_nat align
  rw [decode, Record.ofJson?_object _ (by
    cases g.initializer <;> cases g.align <;> simp [member?])]
  simp [List.lookup_cons, List.lookup_append, hvalueType, hinitializer, halign]

end Global

end Monolith
