/-! # Arenas and name tables

An arena keeps the slots of erased entities, so that the ids of the others stay
valid. A name table maps names to ids; it is kept beside the arena and changes
only when it is told to.
-/

namespace Monolith

abbrev Arena (α : Type) := List (Option α)

namespace Arena

variable {α : Type}

/-- The entity with the given id, if it has not been erased. -/
def get? (arena : Arena α) (id : Nat) : Option α := arena[id]?.join

def isLive (arena : Arena α) (id : Nat) : Bool := (arena.get? id).isSome

/-- The entities that have not been erased, by increasing id. -/
def entries (arena : Arena α) : List (Nat × α) :=
  arena.zipIdx.filterMap fun (slot, id) => slot.map (id, ·)

def ids (arena : Arena α) : List Nat := arena.entries.map Prod.fst

def liveCount (arena : Arena α) : Nat := arena.entries.length

def erase (arena : Arena α) (id : Nat) : Arena α := arena.set id none

/-- Changes an entity, if it has not been erased. -/
def update (arena : Arena α) (id : Nat) (f : α → α) : Arena α := arena.modify id (·.map f)

/-- Changes all entities that have not been erased. -/
def mapLive {β : Type} (arena : Arena α) (f : α → β) : Arena β := arena.map (·.map f)

end Arena

/-- Names and ids, each name at most once. -/
structure NameTable where
  entries : List (String × Nat) := []
  deriving DecidableEq, Inhabited

namespace NameTable

def lookup (table : NameTable) (name : String) : Option Nat := table.entries.lookup name

/-- Adds a name that is not in the table yet; the first entity of a name keeps it. -/
def insertNew (table : NameTable) (name : String) (id : Nat) : NameTable :=
  if (table.lookup name).isSome then table else { entries := table.entries ++ [(name, id)] }

/-- Removes the name if it stands for the given entity. -/
def remove (table : NameTable) (name : String) (id : Nat) : NameTable :=
  if table.lookup name = some id then
    { entries := table.entries.filter fun entry => entry.1 ≠ name }
  else table

/-- The table of the given names, in order. -/
def ofNames (names : List (String × Nat)) : NameTable :=
  names.foldl (fun table (name, id) => table.insertNew name id) {}

/-- Whether both tables give every name the same id. -/
def agrees (a b : NameTable) : Bool :=
  a.entries.all (fun (name, _) => a.lookup name = b.lookup name) &&
    b.entries.all (fun (name, _) => a.lookup name = b.lookup name)

end NameTable

end Monolith
