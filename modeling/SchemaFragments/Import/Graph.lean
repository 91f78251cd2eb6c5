import SchemaFragments.Import.Loader
/-!
# Import graph

Which of the loaded files count as whole, and which can be reached from a file.
-/

namespace SchemaFragments.Import

/-- The files a file imports. -/
def targets (files : List SchemaFile) (index : Nat) : List Nat :=
  ((files[index]?).map fun file => file.imports.map (·.target)).getD []

/-- The files a file imports as a whole. -/
def wholeTargets (files : List SchemaFile) (index : Nat) : List Nat :=
  ((files[index]?).map fun file =>
    (file.imports.filter (·.selection == .wholeFile)).map (·.target)).getD []

/-- The root, and every file that a whole file imports as a whole. -/
def wholeFiles (files : List SchemaFile) : List Nat :=
  depthFirst (List.range files.length) (wholeTargets files) [0] []

def isWhole (files : List SchemaFile) (index : Nat) : Bool := (wholeFiles files).contains index

/-- A file and then, in load order, every other one that it imports directly or through others. -/
def reachableFiles (files : List SchemaFile) (start : Nat) : List Nat :=
  let met := depthFirst (List.range files.length) (targets files) [start] []
  start :: (List.range files.length).filter fun index => index != start && met.contains index

end SchemaFragments.Import
