import ProcScript.Path

/-!
# ProcScript — FileTree

Reading and writing files.  `Files` is what a program may do with files, in whatever way it is
done; `FileTree` is a tree of files held as a value, with the directory in which the program
runs, and `FileTree.files` does those things to it.  A place in the tree is the list of names
that lead to it from the root, and looking a path up says why there is nothing.
-/

namespace ProcScript

/-- Why a file could not be read or written. -/
inductive FileError where
  | notFound
  | notDirectory
  | isDirectory
  | nameTooLong
  | notText
  | other (code : Nat) (text : String)
  deriving DecidableEq, Inhabited

/-- The wording, with the number that the system has for the cause. -/
def FileError.message : FileError → String
  | .notFound        => "No such file or directory (os error 2)"
  | .notDirectory    => "Not a directory (os error 20)"
  | .isDirectory     => "Is a directory (os error 21)"
  | .nameTooLong     => "File name too long (os error 36)"
  | .notText         => "stream did not contain valid UTF-8"
  | .other code text => text ++ " (os error " ++ toString code ++ ")"

/-- What a program may do with files. -/
structure Files (m : Type → Type) where
  /-- The text of a file. -/
  read : String → m (Except FileError String)
  /-- The path leads to a file. -/
  isFile : String → m Bool
  /-- The path from the root to the same place, without `.` and `..`. -/
  resolve : String → m (Except FileError String)
  /-- A file made or replaced. -/
  write : String → String → m (Except FileError Unit)

/-- The names that lead to a place from the root. -/
abbrev Place := List String

/-- A tree of files. -/
structure FileTree where
  /-- The files; the first one at a place counts. -/
  contents : List (Place × ByteArray)
  /-- The directories, the root apart. -/
  dirs : List Place
  /-- The directory in which the program runs. -/
  workDir : Place

namespace FileTree

/-- The file at a place. -/
def file? (t : FileTree) (place : Place) : Option ByteArray := t.contents.lookup place

/-- There is a directory at a place. -/
def isDir (t : FileTree) (place : Place) : Bool := place.isEmpty || t.dirs.contains place

/-- With a directory, and all directories on the way to it. -/
def addDir (t : FileTree) (place : Place) : FileTree :=
  let ways := (List.range (place.length + 1)).map place.take
  { t with dirs := (ways.filter fun d => !t.dirs.contains d) ++ t.dirs }

/-- With a file, in place of what was there. -/
def put (t : FileTree) (place : Place) (content : ByteArray) : FileTree :=
  { t with contents := (place, content) :: t.contents.filter fun e => e.1 ≠ place }

/-- The longest name that a part of a path can have, in bytes. -/
def longestName : Nat := 255

/-- The longest path, in bytes. -/
def longestPath : Nat := 4095

/-- The place to which parts lead from another.  Every part is looked for in a directory. -/
def walk (t : FileTree) (place : Place) : List String → Except FileError Place
  | []            => .ok place
  | part :: parts =>
      if (t.file? place).isSome then .error .notDirectory
      else if !t.isDir place then .error .notFound
      else if Path.isVoid part then t.walk place parts
      else if part = ".." then t.walk place.dropLast parts
      else if longestName < part.utf8ByteSize then .error .nameTooLong
      else t.walk (place ++ [part]) parts

/-- Where a path starts. -/
def start (t : FileTree) (p : Path) : Place :=
  match p.anchor with
  | .root         => []
  | .work | .here => t.workDir

/-- The place to which parts lead from where a path starts; a path is neither empty nor longer
than a path can be, whatever its parts. -/
def follow (t : FileTree) (path : String) (parts : List String) : Except FileError Place :=
  if path = "" then .error .notFound
  else if longestPath < path.utf8ByteSize then .error .nameTooLong
  else t.walk (t.start (Path.ofString path)) parts

/-- The place to which a path leads, whether or not anything is there. -/
def locate (t : FileTree) (path : String) : Except FileError Place :=
  t.follow path (Path.ofString path).parts.reverse

/-- The place at which a path makes a file.  A slash behind the last name asks for a directory,
which cannot be made so. -/
def locateNew (t : FileTree) (path : String) : Except FileError Place :=
  let p := Path.ofString path
  match p.parts with
  | "" :: _ =>
      match p.parts.dropWhile (· == "") with
      | name :: parts =>
          if name = "." ∨ name = ".." then t.locate path
          else do
            let _ ← t.follow path (parts.reverse ++ [""])
            throw .isDirectory
      | [] => t.locate path
  | _ => t.locate path

/-- The text of a file. -/
def read (t : FileTree) (path : String) : Except FileError String := do
  let place ← t.locate path
  match t.file? place with
  | some content =>
      match String.fromUTF8? content with
      | some text => return text
      | none      => throw .notText
  | none => throw (if t.isDir place then .isDirectory else .notFound)

/-- The path leads to a file. -/
def isFile (t : FileTree) (path : String) : Bool :=
  match t.locate path with
  | .ok place  => (t.file? place).isSome
  | .error _ => false

/-- The path from the root to a place. -/
def pathTo (place : Place) : String := "/" ++ String.intercalate "/" place

/-- The path from the root to what a path leads to. -/
def resolve (t : FileTree) (path : String) : Except FileError String := do
  let place ← t.locate path
  if (t.file? place).isSome || t.isDir place then return pathTo place else throw .notFound

/-- The tree with a file made or replaced. -/
def write (t : FileTree) (path text : String) : Except FileError FileTree := do
  let place ← t.locateNew path
  if t.isDir place then throw .isDirectory else return t.put place text.toUTF8

/-- What a program does with files, done to a tree. -/
def files : Files (StateM FileTree) where
  read path := do return (← get).read path
  isFile path := do return (← get).isFile path
  resolve path := do return (← get).resolve path
  write path text := do
    match (← get).write path text with
    | .ok t    => set t; return .ok ()
    | .error e => return .error e

end FileTree

end ProcScript
