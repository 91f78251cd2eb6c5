import SchemaFragments.Run
/-!
# The program

Reads the files that a run looks at, runs on them, and writes what has changed.
-/

open SchemaFragments

namespace SchemaFragments.Disk

def textOf (location : Location) : String := "/" ++ "/".intercalate location

/-- The place that a location stands for once links are followed, if there is something. -/
def realLocation (location : Location) : IO (Option Location) := do
  try
    let real ← IO.FS.realPath (textOf location)
    return some (Path.names (toString real))
  catch _ => return none

/-- What is at a place where no link is. What cannot be read as a file counts as a directory. -/
def entryAt (location : Location) : IO Entry := do
  try
    let bytes ← IO.FS.readBinFile (textOf location)
    return .file (String.fromUTF8? bytes)
  catch _ => return .directory

/-- Adds what is at a location, unless the tree holds it already, and gives the place it stands for. -/
def look (tree : FileTree) (location : Location) : IO (FileTree × Option Location) := do
  match ← realLocation location with
  | none => return (tree, none)
  | some real =>
    let linked := if real = location then tree else tree.put location (.link (textOf real))
    if (linked.entryAt real).isSome then return (linked, some real)
    return ((linked.withParents real).put real (← entryAt real), some real)

/-- Adds what is along a path. -/
def lookAlong (tree : FileTree) (path : Path) : IO FileTree := do
  let mut tree := tree
  let mut here := tree.start path
  for name in Path.names path.text do
    if name = ".." then here := here.dropLast
    else if name ≠ "." then
      let (seen, next) ← look tree (here ++ [name])
      tree := seen
      match next with
      | some location => here := location
      | none => return tree
  return tree

/-- Adds everything that a run looks at. -/
partial def explore (options : Options) (tree : FileTree) : IO FileTree := do
  let seen ← (Run.lookups tree options).foldlM lookAlong tree
  if seen.entries.length = tree.entries.length then return tree else explore options seen

/-- Writes what a run has changed, in the order in which it was changed. -/
def writeChanges (before after : FileTree) : IO Unit := do
  for (location, entry) in after.entries.reverse do
    if before.entryAt location ≠ some entry then
      match entry with
      | .directory => IO.FS.createDirAll (textOf location)
      | .file text => IO.FS.writeFile (textOf location) (text.getD "")
      | .link _ => pure ()

/-- How many processor cores the system lists. -/
def coreCount : IO Nat := do
  try
    let lines := Text.lines (← IO.FS.readFile "/proc/cpuinfo").toList
    return max 1 (lines.countP fun line => "processor".toList.isPrefixOf line)
  catch _ => return 1

end SchemaFragments.Disk

def main (arguments : List String) : IO UInt32 := do
  let output ← IO.getStdout
  let color := CommandLine.usesColor (← output.isTty) (← IO.getEnv "CLICOLOR_FORCE") (← IO.getEnv "NO_COLOR")
    (← IO.getEnv "CLICOLOR")
  let here := Path.names (toString (← IO.currentDir))
  let bare : FileTree := ⟨here, []⟩
  let tree ← match CommandLine.read arguments with
    | some (.run options) => Disk.explore options ((bare.withParents here).put here .directory)
    | _ => pure bare
  let answer := answer arguments color (← Disk.coreCount) tree
  Disk.writeChanges tree answer.tree
  if answer.exitStatus = 2 then IO.eprintln "error: wrong arguments\n\nFor more information, try '--help'."
  output.putStr answer.output
  return answer.exitStatus.toUInt32
