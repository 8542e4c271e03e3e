/-
Reading files by their paths from a tree of directories that is given as data. A path is walked
part by part: `.` and an empty part stay in a directory, `..` leads to the directory around it, and
a name leads to what bears it. Nothing is inside a file, not even itself.
-/
import Acceptor.CommandLine.ReadError

namespace Acceptor.CommandLine

/-- A place in a tree: the names that lead to it from the root, the last one first. -/
abbrev Location := List String

/-- Where a walk has come to. -/
inductive Place
  | directory (location : Location)
  | file (text : String)
deriving DecidableEq

/-- The directories and files of a system. The directories around a listed one, or around a file,
need not be listed. -/
structure FileTree where
  files : List (Location × String)
  directories : List Location
  /-- The directory in which a path starts that does not start at the root. -/
  working : Location
deriving DecidableEq

/-- The largest number of bytes in a name. -/
def maxNameSize : Nat := 255

/-- The largest number of bytes in a path. -/
def maxPathSize : Nat := 4095

namespace FileTree

/-- The tree around a working directory that holds just the given files. Of what lies outside, it
has what every system has. No name is empty, so no path leads into the working directory by
its name, which may be any. -/
def ofFiles (files : List (String × String)) : FileTree :=
  let working := ["", "tmp"]
  { files := (["null", "dev"], "") ::
      files.map fun f => ((f.1.splitOn "/").reverse ++ working, f.2)
    directories := [working]
    working := working }

/-- Whether a location is a directory. -/
def isDirectory (t : FileTree) (location : Location) : Bool :=
  (t.directories ++ t.files.map fun f => f.1.tail).any (location.isSuffixOf ·)

/-- Walks one part of a path. The directory around the root is the root. -/
def enter (t : FileTree) (place : Place) (part : String) : Except ReadError Place :=
  match place with
  | .file _ => .error .notDirectory
  | .directory location =>
    if part = "" ∨ part = "." then .ok place
    else if part = ".." then .ok (.directory location.tail)
    else if maxNameSize < part.utf8ByteSize then .error .nameTooLong
    else match t.files.lookup (part :: location) with
      | some text => .ok (.file text)
      | none =>
        if t.isDirectory (part :: location) then .ok (.directory (part :: location))
        else .error .missing

/-- Walks the parts of a path. -/
def walk (t : FileTree) (place : Place) (parts : List String) : Except ReadError Place :=
  parts.foldlM t.enter place

/-- What reading a path yields: the text, or the reason why there is none. -/
def read (t : FileTree) (path : String) : Except ReadError String :=
  if maxPathSize < path.utf8ByteSize then .error .nameTooLong
  else if path.isEmpty then .error .missing
  else do
    let start := if path.startsWith "/" then [] else t.working
    match ← t.walk (.directory start) (path.splitOn "/") with
    | .file text => .ok text
    | .directory _ => .error .isDirectory

end FileTree

end Acceptor.CommandLine
