import NullLint.Project.Command

/-!
# Entry point
-/

namespace NullLint

/-- Whether a path leads to something that satisfies a test. -/
def leadsTo (path : String) (test : IO.FS.Metadata → Bool) : IO Bool := do
  try
    let metadata ← ((← IO.currentDir) / path).metadata
    return test metadata
  catch _ => return false

/-- The files in a folder and below it, relative to `path`; `around` are the folders on the way
down, which are not entered again through a link. -/
partial def walk (around : List String) (path inner : String) : IO (List String) := do
  let folder := if inner = "" then path else FilePath.join path inner
  try
    let place ← IO.FS.realPath folder
    if around.contains place.toString then return []
    else
      let mut found := []
      for entry in ← ((← IO.currentDir) / folder).readDir do
        let below := if inner = "" then entry.fileName else inner ++ "/" ++ entry.fileName
        let full := FilePath.join path below
        if ← leadsTo full fun d => d.type == .file then
          found := below :: found
        else if ← leadsTo full fun d => d.type == .dir then
          found := (← walk (place.toString :: around) path below) ++ found
      return found
  catch _ => return []

/-- The operations on the files of the machine. -/
def machineAccess : FileAccess IO where
  isPresent path := leadsTo path fun _ => true
  isFile path := leadsTo path fun d => d.type == .file
  isFolder path := leadsTo path fun d => d.type == .dir
  filesBelow path := walk [] path ""
  read? path := do
    try return some (← IO.FS.readFile path)
    catch _ => return none
  write path text := do
    try
      IO.FS.writeFile path text
      return true
    catch _ => return false

end NullLint

def main (words : List String) : IO UInt32 := do
  let cwd := (← IO.currentDir).toString
  let isTerminal ← (← IO.getStdout).isTty
  let outcome ← NullLint.Command.execute NullLint.machineAccess words cwd isTerminal
  IO.print outcome.output
  IO.eprint outcome.errors
  return outcome.exitCode
