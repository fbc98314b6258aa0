import Monolith.Module.Basic

/-! # Defects

What can be wrong with a module, and how each defect is reported.
-/

namespace Monolith

/-- The two kinds of entities that have names. -/
inductive EntityKind where
  | function
  | global
  deriving DecidableEq, Repr

/-- The place of a constant. -/
inductive Site where
  | initializer (global : String)
  | block (function : String) (block : BlockId)
  deriving DecidableEq, Repr

inductive Defect where
  | staleName (kind : EntityKind) (name : String)
  | duplicateName (kind : EntityKind) (name : String)
  | danglingEntry (function : FunctionId)
  | missingEntryBlock (function : String) (entry : BlockId)
  | entryHasPredecessors (function : String)
  | invalidTarget (function : String) (block target : BlockId)
  | misplacedPhi (function : String) (block : BlockId)
  | phiPredecessorMismatch (function : String) (block : BlockId) (value : ValueId)
  | undefinedValue (function : String) (value : ValueId)
  | multipleDefinitions (function : String) (value : ValueId)
  | useNotDominated (function : String) (block : BlockId) (value : ValueId)
  | erasedFunction (site : Site) (function : FunctionId)
  | erasedGlobal (site : Site) (global : GlobalId)
  | poisonCallee (function : String) (block : BlockId)
  | arityMismatch (function callee : String) (expected found : Nat)
  | nonPointerAddress (function : String) (block : BlockId) (ty : Ty)
  | initializerTypeMismatch (global : String) (expected found : Ty)
  deriving DecidableEq

def EntityKind.text : EntityKind → String
  | .function => "function"
  | .global => "global"

/-- A name in a message. -/
def quoted (name : String) : String := "`" ++ name ++ "`"

def Site.text : Site → String
  | .initializer name => "initializer of global " ++ quoted name
  | .block name id => blockText id ++ " of " ++ quoted name

namespace Defect

def message : Defect → String
  | .staleName kind name =>
      kind.text ++ " name table entry " ++ quoted name ++ " does not match a live " ++
        kind.text ++ " of that name"
  | .duplicateName kind name =>
      kind.text ++ " name " ++ quoted name ++ " is defined more than once"
  | .danglingEntry function =>
      "designated entry function f" ++ toString function ++ " has been erased"
  | .missingEntryBlock function entry =>
      "function " ++ quoted function ++ " has blocks but its entry block " ++
        blockText entry ++ " does not exist"
  | .entryHasPredecessors function =>
      "entry block of " ++ quoted function ++ " has predecessors"
  | .invalidTarget function block target =>
      (Site.block function block).text ++ " branches to missing block " ++ blockText target
  | .misplacedPhi function block =>
      "phi in " ++ (Site.block function block).text ++ " follows a non-phi instruction"
  | .phiPredecessorMismatch function block value =>
      "phi %" ++ toString value ++ " in " ++ (Site.block function block).text ++
        " does not list exactly the block's predecessors"
  | .undefinedValue function value =>
      quoted function ++ " uses %" ++ toString value ++ " which is never defined"
  | .multipleDefinitions function value =>
      quoted function ++ " defines %" ++ toString value ++ " more than once"
  | .useNotDominated function block value =>
      "use of %" ++ toString value ++ " in " ++ (Site.block function block).text ++
        " is not dominated by its definition"
  | .erasedFunction site function =>
      site.text ++ " references erased function f" ++ toString function
  | .erasedGlobal site global =>
      site.text ++ " references erased global g" ++ toString global
  | .poisonCallee function block =>
      (Site.block function block).text ++ " calls a poison placeholder"
  | .arityMismatch function callee expected found =>
      quoted function ++ " calls " ++ quoted callee ++ " with " ++ toString found ++
        " arguments, expected " ++ toString expected
  | .nonPointerAddress function block ty =>
      (Site.block function block).text ++
        " accesses memory through a non-pointer of type " ++ ty.text
  | .initializerTypeMismatch global expected found =>
      (Site.initializer global).text ++ " has type " ++ found.text ++ ", expected " ++
        expected.text

end Defect

end Monolith
