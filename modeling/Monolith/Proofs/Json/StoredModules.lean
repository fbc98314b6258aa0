import Monolith.Proofs.Json.DecodedForms
import Monolith.Proofs.Json.Text

/-! # Stored modules

The text of a module is read back as the same module, whichever way it is laid
out. The name tables are not part of the text, so they come back as those that
the arenas give.
-/

namespace Monolith.Module

open Json

theorem decode_toJson {levels : Nat} {m : Module} (hids : AreWords m.ids)
    (h : m.toJson.nesting ≤ levels) : decode levels m.toJson = some m.rebuildNames := by
  simp only [ids, areWords_append, areWords_flatMap] at hids
  obtain ⟨⟨hentry, hfunctions⟩, hglobals⟩ := hids
  rw [toJson] at h ⊢
  obtain ⟨inner, rfl, hmembers⟩ := nesting_object_le.mp h
  simp only [List.forall_mem_append, List.forall_mem_cons] at hmembers
  obtain ⟨⟨_, hfunctionSlots, hglobalSlots, _⟩, _⟩ := hmembers
  -- An erased slot is written as null, and no function or global is.
  have hfunctions := Decode.list_arr (Decode.nullable Function.decode) hfunctionSlots
    fun slot hslot _ hlevels => Decode.nullable_optional Function.toJson_ne_null (by
      rintro f rfl
      exact Function.decode_toJson (hfunctions _ hslot f (by simp)) hlevels)
  have hglobals := Decode.list_arr (Decode.nullable Global.decode) hglobalSlots
    fun slot hslot _ hlevels => Decode.nullable_optional Global.toJson_ne_null (by
      rintro g rfl
      exact Global.decode_toJson (hglobals _ hslot g (by simp)) hlevels)
  have hentry : (m.entry.map Json.nat).elim (some none) (Decode.nullable Decode.index inner) =
      some m.entry :=
    Decode.elim_nullable nat_ne_null fun id hid =>
      Decode.index_nat (hentry id (Option.mem_toList.mpr hid))
  rw [decode, Record.ofJson?_object _ (by cases m.entry <;> simp [member?])]
  simp [List.lookup_cons, hfunctions, hglobals, hentry, rebuildNames]

theorem read?_write {style : Style} (hstyle : style.Plain) {m : Module} (hids : AreWords m.ids)
    (hnesting : m.toJson.nesting ≤ nestingLimit) :
    read? (m.toJson.write style 0) = some m.rebuildNames := by
  rw [read?, Json.read?_write hstyle, Option.bind_some, decode_toJson hids hnesting]

/-- A module whose ids are 64-bit words and whose name tables belong to its arenas is read back
from its compact text and from its indented text, if its nesting is within the limit. -/
theorem stored_read_back (m : Module) (hids : AreWords m.ids)
    (hnesting : m.toJson.nesting ≤ nestingLimit) (hnames : m.rebuildNames = m) :
    read? m.toJson.compact = some m ∧ read? m.toJson.pretty = some m := by
  constructor
  · exact (read?_write Style.plain_compact hids hnesting).trans (congrArg some hnames)
  · exact (read?_write Style.plain_pretty hids hnesting).trans (congrArg some hnames)

/-- A function with a phi, a call of an erased function and the extreme words. -/
def sampleMain : Function where
  name := "naïve \"main\"\n"
  linkage := .internal
  attributes := { alwaysInline := true }
  returnType := .struct [.int 32, .array .ptr 3] true
  parameters := [0]
  isVarArg := true
  blocks := [
    { name := some "entry"
      instructions := [
        { op := .phi 1 .ptr [(.var 0, 0), (.const .null, 1)], comment := some "🙂\t\\" },
        { op := .alloca 2 (.int 8) (UInt64.ofNat (UInt64.size - 1)) 7 },
        { op := .call none .void (.const (.function 0)) [.const (.int (.int 64) Int64.minValue)] }]
      terminator := .branch (.var 1) 0 1 },
    { terminator := .ret (some (.const (.undef .ptr))) }]
  values := [{ ty := .ptr }, { ty := .ptr, name := some "p" }, { ty := .ptr }]

def sample : Module := rebuildNames
  { name := ""
    functions := [none, some sampleMain]
    globals := [
      some { name := "g", valueType := .ptr, initializer := some (.cast .bitcast (.global 0) .ptr),
             align := some 16, isConstant := true },
      none]
    entry := some 1 }

theorem sample_read_back :
    read? sample.toJson.compact = some sample ∧ read? sample.toJson.pretty = some sample :=
  stored_read_back sample (by decide) (by decide) rfl

end Monolith.Module
