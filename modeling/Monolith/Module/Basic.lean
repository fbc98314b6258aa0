import Monolith.Arena
import Monolith.Global

/-! # Modules

A module holds functions and global variables, and may designate one of its
functions as the entry.
-/

namespace Monolith

structure Module where
  name : String
  functions : Arena Function := []
  globals : Arena Global := []
  entry : Option FunctionId := none
  functionNames : NameTable := {}
  globalNames : NameTable := {}
  deriving DecidableEq, Inhabited

namespace Module

def function? (m : Module) (id : FunctionId) : Option Function := m.functions.get? id

def global? (m : Module) (id : GlobalId) : Option Global := m.globals.get? id

/-- The name that stands for a function in messages and comments. -/
def functionName (m : Module) (id : FunctionId) : String :=
  ((m.function? id).map Function.name).getD "<erased>"

def lookupFunction (m : Module) (name : String) : Option FunctionId :=
  m.functionNames.lookup name

def lookupGlobal (m : Module) (name : String) : Option GlobalId := m.globalNames.lookup name

/-- The functions with a body. -/
def definitions (m : Module) : List (FunctionId × Function) :=
  m.functions.entries.filter fun (_, f) => !f.isDeclaration

/-- Makes the name tables anew from the arenas. -/
def rebuildNames (m : Module) : Module :=
  { m with
    functionNames := .ofNames (m.functions.entries.map fun (id, f) => (f.name, id))
    globalNames := .ofNames (m.globals.entries.map fun (id, g) => (g.name, id)) }

def addFunction (m : Module) (f : Function) : Module × FunctionId :=
  let id := m.functions.length
  ({ m with
      functions := m.functions ++ [some f]
      functionNames := m.functionNames.insertNew f.name id }, id)

def addGlobal (m : Module) (g : Global) : Module × GlobalId :=
  let id := m.globals.length
  ({ m with
      globals := m.globals ++ [some g]
      globalNames := m.globalNames.insertNew g.name id }, id)

def updateFunction (m : Module) (id : FunctionId) (f : Function → Function) : Module :=
  { m with functions := m.functions.update id f }

def updateGlobal (m : Module) (id : GlobalId) (f : Global → Global) : Module :=
  { m with globals := m.globals.update id f }

def setFunction (m : Module) (id : FunctionId) (f : Function) : Module :=
  m.updateFunction id fun _ => f

/-- Erases a function, if there is one with that id. -/
def eraseFunction (m : Module) (id : FunctionId) : Module :=
  match m.function? id with
  | none => m
  | some f =>
      { m with
        functions := m.functions.erase id
        functionNames := m.functionNames.remove f.name id
        entry := if m.entry = some id then none else m.entry }

/-- Erases a global, if there is one with that id. -/
def eraseGlobal (m : Module) (id : GlobalId) : Module :=
  match m.global? id with
  | none => m
  | some g =>
      { m with
        globals := m.globals.erase id
        globalNames := m.globalNames.remove g.name id }

/-- The constants that the module mentions in operands and initializers. -/
def constants (m : Module) : List Constant :=
  m.functions.entries.flatMap (fun (_, f) => f.operands.filterMap Operand.const?) ++
    m.globals.entries.filterMap fun (_, g) => g.initializer

/-- The number of references to the function, at any depth. -/
def functionUses (m : Module) (id : FunctionId) : Nat :=
  (m.constants.flatMap Constant.functions).count id

/-- Puts `replacement` in place of every reference to the function. -/
def replaceFunction (m : Module) (id : FunctionId) (replacement : Constant) : Module :=
  { m with
    functions := m.functions.mapLive (·.mapOperands (Operand.replaceFunction id replacement))
    globals := m.globals.mapLive fun g =>
      { g with initializer := g.initializer.map (Constant.replaceFunction id replacement) } }

/-- Whether the modules are equal, with name tables compared as maps. -/
def same (a b : Module) : Bool :=
  a.name = b.name && a.functions = b.functions && a.globals = b.globals &&
    a.entry = b.entry && a.functionNames.agrees b.functionNames &&
    a.globalNames.agrees b.globalNames

end Module

end Monolith
