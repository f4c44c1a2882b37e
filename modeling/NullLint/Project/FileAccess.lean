import NullLint.Project.FilePath

/-!
# Access to files

What a run needs from a file system, as a record of operations in any monad, and a file system
that is a value.
-/

namespace NullLint

/-- The operations of a run on files. Paths are absolute. -/
structure FileAccess (m : Type → Type) where
  isPresent : String → m Bool
  isFile : String → m Bool
  isFolder : String → m Bool
  /-- The files in a folder and below it, relative to the folder. -/
  filesBelow : String → m (List String)
  /-- The text of a file; none if it cannot be read, or is no text. -/
  read? : String → m (Option String)
  /-- Writes the text of a file and tells whether that went well. -/
  write : String → String → m Bool

/-- Files and folders, each named by the names on the way to it. -/
structure Disk where
  files : List (List String × ByteArray) := []
  folders : List (List String) := [[]]

namespace Disk

def file? (d : Disk) (place : List String) : Option ByteArray := d.files.lookup place

def holdsFolder (d : Disk) (place : List String) : Bool := d.folders.contains place

def holds (d : Disk) (place : List String) : Bool :=
  (d.file? place).isSome || d.holdsFolder place

/-- Follows the segments of a path from a place. Every segment, also an empty one, needs a folder
to start from. -/
def follow (d : Disk) (place : List String) : List String → Option (List String)
  | [] => some place
  | s :: ss =>
    if d.holdsFolder place then
      if FilePath.isIdle s then follow d place ss
      else if s = ".." then follow d place.dropLast ss
      else if d.holds (place ++ [s]) then follow d (place ++ [s]) ss
      else none
    else none

/-- The place that an absolute path leads to. -/
def locate? (d : Disk) (path : String) : Option (List String) :=
  d.follow [] (FilePath.segments path)

def isFile (d : Disk) (path : String) : Bool :=
  (d.locate? path).any fun place => (d.file? place).isSome

def isFolder (d : Disk) (path : String) : Bool := (d.locate? path).any d.holdsFolder

/-- The files below a folder, relative to it. -/
def filesBelow (d : Disk) (path : String) : List String :=
  match d.locate? path with
  | some place =>
    d.files.filterMap fun f =>
      if place.isPrefixOf f.1 && place.length < f.1.length then
        some ("/".intercalate (f.1.drop place.length))
      else none
  | none => []

def read? (d : Disk) (path : String) : Option String :=
  ((d.locate? path).bind d.file?).bind String.fromUTF8?

/-- The disk with a file written; none if there is no such file. -/
def write? (d : Disk) (path text : String) : Option Disk := do
  let place ← d.locate? path
  let _ ← d.file? place
  return { d with
    files := d.files.map fun f => if f.1 = place then (f.1, text.toUTF8) else f }

/-- The operations on a disk that is carried along. -/
def access : FileAccess (StateM Disk) where
  isPresent path := return ((← get).locate? path).isSome
  isFile path := return (← get).isFile path
  isFolder path := return (← get).isFolder path
  filesBelow path := return (← get).filesBelow path
  read? path := return (← get).read? path
  write path text := do
    match (← get).write? path text with
    | some d => set d; return true
    | none => return false

end Disk

end NullLint
