/-! # The directory of a run

The command runs in a directory of files, and sees other directories only by
going out of it. A path is followed part by part, and the first part that leads
nowhere decides how it fails. The directories around are taken to be empty.
-/

namespace Monolith.CommandLine

/-- Why a file cannot be read or written. -/
inductive FileError where
  | notFound
  | permissionDenied
  | notDirectory
  | isDirectory
  | nameTooLong
  | zeroByte
  | notText
  | other (text : String)
  deriving DecidableEq, Repr

namespace FileError

def message : FileError → String
  | .notFound => "No such file or directory (os error 2)"
  | .permissionDenied => "Permission denied (os error 13)"
  | .notDirectory => "Not a directory (os error 20)"
  | .isDirectory => "Is a directory (os error 21)"
  | .nameTooLong => "File name too long (os error 36)"
  | .zeroByte => "file name contained an unexpected NUL byte"
  | .notText => "stream did not contain valid UTF-8"
  | .other text => text

end FileError

/-- The files by their names, each name at most once. -/
structure Directory where
  files : List (String × String) := []
  deriving DecidableEq, Repr

/-- A directory that a path passes. -/
inductive Place where
  | inside
  | outside
  deriving DecidableEq, Repr

/-- What the last part of a path names. -/
inductive Target where
  | directory
  | file (place : Place) (name : String)
  deriving DecidableEq, Repr

namespace Directory

/-- A name has at most this many bytes. -/
def nameLimit : Nat := 255

/-- A path has at most this many bytes. -/
def pathLimit : Nat := 4095

def names (dir : Directory) : List String := dir.files.map Prod.fst

def isTooLong (name : String) : Bool := nameLimit < name.utf8ByteSize

def contents? (dir : Directory) (name : String) : Place → Option String
  | .inside => dir.files.lookup name
  | .outside => none

/-- The directory that a part of a path leads to. Two dots lead out, one stays, and
no name is that of a directory. -/
def enter (dir : Directory) (place : Place) (part : String) : Except FileError Place :=
  if part = "." then .ok place
  else if part = ".." then .ok .outside
  else if isTooLong part then .error .nameTooLong
  else if (dir.contents? part place).isSome then .error .notDirectory
  else .error .notFound

/-- Follows a path up to its last part. Slashes separate parts; one at the start
leads out of the directory. -/
def locate (dir : Directory) (path : String) : Except FileError Target :=
  if path.contains '\x00' then .error .zeroByte
  else if pathLimit < path.utf8ByteSize then .error .nameTooLong
  else do
    let parts := (path.splitOn "/").filter (· ≠ "")
    let start := if path.startsWith "/" then Place.outside else .inside
    let place ← parts.dropLast.foldlM dir.enter start
    match parts.getLast? with
    | none => return .directory
    | some part =>
        return if part = "." ∨ part = ".." then .directory else .file place part

/-- The contents of a file. With a slash at the end the path asks for a directory. -/
def read (dir : Directory) (path : String) : Except FileError String := do
  match ← dir.locate path with
  | .directory => throw .isDirectory
  | .file place name =>
      if isTooLong name then throw .nameTooLong
      else
        match dir.contents? name place with
        | none => throw .notFound
        | some text => if path.endsWith "/" then throw .notDirectory else return text

/-- Gives a file its contents, and makes it if there is none of that name. -/
def put (dir : Directory) (name text : String) : Directory where
  files := (name, text) :: dir.files.filter fun file => file.1 ≠ name

/-- Writes a file. No file can be made under a path with a slash at the end. -/
def write (dir : Directory) (path text : String) : Except FileError Directory := do
  match ← dir.locate path with
  | .directory => throw .isDirectory
  | .file place name =>
      if path.endsWith "/" then throw .isDirectory
      else if isTooLong name then throw .nameTooLong
      else
        match place with
        | .inside => return dir.put name text
        | .outside => return dir

end Directory

end Monolith.CommandLine
