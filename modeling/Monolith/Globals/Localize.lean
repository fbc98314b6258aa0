import Monolith.Globals.Materialize
import Monolith.Globals.Ownership
import Monolith.Globals.Split

/-! # Localizing globals

A global moves into its owner: a slot is allocated at the head of the entry,
the initializer is stored to it, and every mention of the global becomes a read
of the slot.
-/

namespace Monolith

namespace Localized

/-- The slots of the globals, as the variables that are recorded from `first` on. -/
def slots (scope : Localized) (first : ValueId) : List (GlobalId × ValueId) :=
  scope.globals.zipIdx.map fun ((id, _), offset) => (id, first + offset)

def allocas (scope : Localized) (first : ValueId) : List Instruction :=
  scope.globals.zipIdx.map fun ((_, g), offset) =>
    { op := .alloca (first + offset) g.valueType g.alignment g.addrSpace }

/-- Stores the initializer of a global to its slot: first the whole, then the
elements that were taken out of it. -/
def storeInitializer (scope : Localized) (slot : ValueId) (g : Global)
    (values : List ValueInfo) : List Instruction × List ValueInfo :=
  match g.initializer with
  | none => ([], values)
  | some c =>
      let target : StoreTarget :=
        { tracked := scope.tracks, source := g.valueType, base := .var slot }
      let (rest, draft) := (target.split c).run { values }
      ({ op := .store (.const rest) (.var slot) g.alignment
         comment := some ("initializer of @" ++ g.name) } :: draft.code, draft.values)

/-- The stores of all initializers, in order. -/
def storeInitializers (scope : Localized) (first : ValueId) (values : List ValueInfo) :
    List Instruction × List ValueInfo :=
  scope.globals.zipIdx.foldl (fun (code, values) ((_, g), offset) =>
    let (more, values) := scope.storeInitializer (first + offset) g values
    (code ++ more, values)) ([], values)

/-- A bare reference to a global becomes a read of its slot. -/
def useSlot (slots : List (GlobalId × ValueId)) : Operand → Operand
  | .const (.global id) =>
      match slots.lookup id with
      | some slot => .var slot
      | none => .const (.global id)
  | operand => operand

/-- Gives the globals storage in the function. If this fails, the function has the
storage and part of its code is expanded, but no mention has become a read. -/
def localizeInto (scope : Localized) (f : Function) : Except (Aborted Function) Function := do
  let first := f.values.length
  let recorded := f.values ++
    scope.globals.map fun (_, g) => { ty := .ptr, name := some g.name : ValueInfo }
  let (stores, values) := scope.storeInitializers first recorded
  let prepared ← leaving f (faulting ({ f with values }.updateBlock f.entry
    (·.mapInstructions (scope.allocas first ++ stores ++ ·))))
  let expanded ← scope.expandFunction prepared
  return expanded.mapOperands (useSlot (scope.slots first))

end Localized

namespace Module

/-- The owners in the order in which they own a first global, each with its globals. -/
def ownerGroups (owners : List (GlobalId × FunctionId)) : List (FunctionId × List GlobalId) :=
  (owners.map Prod.snd).eraseDups.map fun f =>
    (f, (owners.filter fun (_, owner) => owner = f).map Prod.fst)

/-- The globals with the given ids that are live. -/
def globalsAt (m : Module) (ids : List GlobalId) : List (GlobalId × Global) :=
  ids.filterMap fun id => (m.global? id).map (id, ·)

/-- Moves globals into their owner and erases them. Their names are given too. -/
def localizeGroup (m : Module) (owner : FunctionId) (ids : List GlobalId) :
    Except (Aborted Module) (Module × List String) :=
  match m.function? owner with
  | none => .ok (m, [])
  | some f => do
      let globals := m.globalsAt ids
      let localized ← (Localized.localizeInto { globals, function := f.name } f).mapError
        (.map (m.setFunction owner))
      return (ids.foldl eraseGlobal (m.setFunction owner localized),
        globals.map fun (_, g) => g.name)

/-- Moves the globals of one more group. -/
def localizeNext (state : Module × List String) (group : FunctionId × List GlobalId) :
    Except (Aborted (Module × List String)) (Module × List String) := do
  let (next, more) ← (state.1.localizeGroup group.1 group.2).mapError (.map (·, state.2))
  return (next, state.2 ++ more)

/-- Moves all globals into their owners. The names are those of the globals, in
the order in which they are moved; a failure leaves those that were moved before. -/
def localize (m : Module) (owners : List (GlobalId × FunctionId)) :
    Except (Aborted (Module × List String)) (Module × List String) :=
  (ownerGroups owners).foldlM localizeNext (m, [])

end Module

end Monolith
