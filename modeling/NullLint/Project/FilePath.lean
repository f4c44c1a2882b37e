/-!
# File paths

Paths are texts with `/` between their segments. Empty segments and `.` say nothing; what is
left, names and `..`, are the parts by which paths are compared. The text of a path is kept as
it was given, because reports show it.
-/

namespace NullLint.FilePath

/-- A step of a path. -/
inductive Part where
  /-- `..` -/
  | up
  | name (s : String)
  deriving DecidableEq, Repr

/-- The texts between the slashes. -/
def segments (path : String) : List String := path.splitOn "/"

/-- Segments that say nothing. -/
def isIdle (segment : String) : Bool := segment == "" || segment == "."

/-- What a segment says. -/
def part (segment : String) : Part := if segment = ".." then .up else .name segment

/-- The steps of a path. -/
def parts (path : String) : List Part :=
  ((segments path).filter fun s => !isIdle s).map part

/-- Whether the text of a path ends in a step up. -/
def endsInUp (path : String) : Bool := (segments path).getLast? == some ".."

def isAbsolute (path : String) : Bool := path.toList.head? == some '/'

/-- Order of steps: `..` comes before every name. -/
def Part.le : Part → Part → Bool
  | .up, _ => true
  | .name _, .up => false
  | .name a, .name b => decide (a ≤ b)

/-- Order of paths by their steps; a path comes before those below it. -/
def partsLe : List Part → List Part → Bool
  | [], _ => true
  | _ :: _, [] => false
  | a :: as, b :: bs => if a = b then partsLe as bs else a.le b

/-- Order of paths. -/
def le (a b : String) : Bool := partsLe (parts a) (parts b)

/-- A path seen from a folder. -/
def join (folder path : String) : String :=
  if isAbsolute path then path
  else if folder.toList.getLast? == some '/' then folder ++ path
  else folder ++ "/" ++ path

/-- A path from its segments, idle ones dropped at both ends. -/
def ofSegments (ss : List String) : String :=
  "/".intercalate ((ss.dropWhile isIdle).reverse.dropWhile isIdle).reverse

/-- The segments behind those that make up the given steps. -/
def dropParts : List Part → List String → Option (List String)
  | [], ss => some ss
  | _ :: _, [] => none
  | p :: ps, s :: ss =>
    if isIdle s then dropParts (p :: ps) ss
    else if part s = p then dropParts ps ss
    else none

/-- A path relative to a folder that it lies in. -/
def relativeTo? (folder path : String) : Option String :=
  (dropParts (parts folder) (segments path)).map ofSegments

/-- The folder of an absolute path. -/
def parent? (path : String) : Option String :=
  match (segments path).reverse.dropWhile isIdle with
  | [] => none
  | _ :: above => some ("/" ++ ofSegments above.reverse)

/-- A folder and those around it, innermost first. -/
def ancestorsOf (bound : Nat) (path : String) : List String :=
  match bound, parent? path with
  | bound + 1, some above => path :: ancestorsOf bound above
  | _, _ => [path]

/-- A folder and those around it, innermost first. -/
def ancestors (path : String) : List String := ancestorsOf (segments path).length path

end NullLint.FilePath
