import Monolith.Function.Basic

/-! # Library routines

Routines that are known by name. A standard routine is also known by the number
of its parameters and by whether more arguments may follow; a routine that was
added has only its name.
-/

namespace Monolith

structure Routine where
  name : String
  parameters : Nat
  isVarArg : Bool := false
  deriving DecidableEq, Repr

namespace Routine

def fixed (name : String) (parameters : Nat) : Routine := { name, parameters }

def variadic (name : String) (parameters : Nat) : Routine :=
  { name, parameters, isVarArg := true }

def standard : List Routine := [
  fixed "memcpy" 3, fixed "memmove" 3, fixed "memset" 3, fixed "memcmp" 3, fixed "memchr" 3,
  fixed "strcpy" 2, fixed "strncpy" 3, fixed "strcat" 2, fixed "strncat" 3,
  fixed "strcmp" 2, fixed "strncmp" 3, fixed "strlen" 1, fixed "strnlen" 2,
  fixed "strchr" 2, fixed "strrchr" 2, fixed "strstr" 2, fixed "strdup" 1,
  variadic "printf" 1, variadic "fprintf" 2, variadic "sprintf" 2, variadic "snprintf" 3,
  variadic "scanf" 1, variadic "sscanf" 2,
  fixed "puts" 1, fixed "putchar" 1, fixed "getchar" 0, fixed "fputs" 2, fixed "fputc" 2,
  fixed "fopen" 2, fixed "fclose" 1, fixed "fread" 4, fixed "fwrite" 4,
  fixed "malloc" 1, fixed "calloc" 2, fixed "realloc" 2, fixed "free" 1,
  fixed "exit" 1, fixed "abort" 0, fixed "atoi" 1, fixed "atol" 1, fixed "strtol" 3,
  fixed "strtoul" 3, fixed "abs" 1, fixed "qsort" 4, fixed "rand" 0, fixed "srand" 1]

end Routine

structure Library where
  routines : List Routine := []
  names : List String := []
  deriving DecidableEq

namespace Library

def covers (library : Library) (name : String) (parameters : Nat) (isVarArg : Bool) : Bool :=
  library.names.contains name || library.routines.contains { name, parameters, isVarArg }

def coversFunction (library : Library) (f : Function) : Bool :=
  library.covers f.name f.parameters.length f.isVarArg

/-- The number of names that the library knows. -/
def size (library : Library) : Nat :=
  (library.routines.map Routine.name ++ library.names).eraseDups.length

end Library

end Monolith
