import Monolith.Module.Basic

/-! # Text of modules -/

namespace Monolith.Module

def lines (m : Module) (level : Nat) : Except Fault (List String) := do
  let functions ← m.functions.entries.mapM fun (id, f) => do
    return ["", indentation level ++ "; f" ++ toString id] ++ (← f.lines level)
  return [indentation level ++ "; module " ++ m.name] ++
    (m.entry.map fun id => indentation level ++ "; entry @" ++ m.functionName id).toList ++
    (m.globals.entries.map fun (id, g) => g.line level ++ " ; g" ++ toString id) ++
    functions.flatten

def text (m : Module) (level : Nat := 0) : Except Fault String := do
  checkLevel level
  return linesText (← m.lines level)

end Monolith.Module
