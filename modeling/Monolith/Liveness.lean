import Monolith.Module.Basic

/-! # Pruning what is not used

A function with a body is always used. A global is used if it is external, or
mentioned in an operand of a body, or in the initializer of a used global; a
declaration is used if it is mentioned in one of these places. The search for
them keeps a worklist of the used globals whose initializers it has not looked
at; a global is put on it when it is found first.
-/

namespace Monolith

/-- What is known to be used. The pending globals are those whose initializers
are still to be looked at, the one that was found last first. -/
structure Usage where
  functions : List FunctionId := []
  globals : List GlobalId := []
  pending : List GlobalId := []

namespace Usage

def addFunction (usage : Usage) (id : FunctionId) : Usage :=
  { usage with functions := usage.functions.insert id }

/-- A global that is found first becomes pending. -/
def addGlobal (usage : Usage) (id : GlobalId) : Usage :=
  if usage.globals.contains id then usage
  else { usage with globals := id :: usage.globals, pending := id :: usage.pending }

/-- Adds the function or the global that the constant is. -/
def addReference (usage : Usage) : Constant → Usage
  | .function id => usage.addFunction id
  | .global id => usage.addGlobal id
  | _ => usage

/-- Adds all that the constant mentions. -/
def addConstant (usage : Usage) (c : Constant) : Usage := c.nodes.foldl addReference usage

def addOperand (usage : Usage) : Operand → Usage
  | .var _ => usage
  | .const c => usage.addConstant c

/-- Adds a function with a body and all that the body mentions. -/
def addBody (usage : Usage) (id : FunctionId) (f : Function) : Usage :=
  f.operands.foldl addOperand (usage.addFunction id)

end Usage

namespace Module

def initializer? (m : Module) (id : GlobalId) : Option Constant :=
  (m.global? id).bind Global.initializer

def externalGlobals (m : Module) : List GlobalId :=
  (m.globals.entries.filter fun (_, g) => g.linkage = .external).map Prod.fst

/-- The globals that the initializer of a global mentions. -/
def initializerGlobals (m : Module) (id : GlobalId) : List GlobalId :=
  ((m.initializer? id).map Constant.globals).getD []

/-- What is used whatever the initializers mention. -/
def directUsage (m : Module) : Usage :=
  m.externalGlobals.foldl .addGlobal
    (m.definitions.foldl (fun usage (id, f) => usage.addBody id f) {})

/-- Adds all that the initializer of the global mentions. -/
def useInitializer (m : Module) (usage : Usage) (id : GlobalId) : Usage :=
  (m.initializer? id).elim usage usage.addConstant

/-- Looks at the initializers of pending globals until none is pending. -/
def usageFrom (m : Module) : Nat → Usage → Usage
  | 0, usage => usage
  | steps + 1, usage =>
      match usage.pending with
      | [] => usage
      | id :: pending => m.usageFrom steps (m.useInitializer { usage with pending } id)

/-- A global becomes pending once, if it is used directly or where an initializer
mentions it. -/
def usage (m : Module) : Usage :=
  let direct := m.directUsage
  let steps := direct.pending.length + (m.globals.ids.flatMap m.initializerGlobals).length
  m.usageFrom steps direct

def usedGlobals (m : Module) : List GlobalId := m.usage.globals

def usedFunctions (m : Module) : List FunctionId := m.usage.functions

def unusedGlobals (m : Module) : List GlobalId :=
  m.globals.ids.filter fun id => !m.usedGlobals.contains id

def unusedFunctions (m : Module) : List FunctionId :=
  m.functions.ids.filter fun id => !m.usedFunctions.contains id

/-- Erases the globals and the functions that are not used. -/
def prune (m : Module) : Module :=
  m.unusedFunctions.foldl eraseFunction (m.unusedGlobals.foldl eraseGlobal m)

end Module

end Monolith
