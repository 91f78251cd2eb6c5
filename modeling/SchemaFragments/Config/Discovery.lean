import SchemaFragments.Config.Problem
/-!
# Finding the configuration file

Without a path from the command line the nearest configuration file counts.
-/

namespace SchemaFragments.Config

/-- The paths a configuration file is looked for at, from a directory upwards. -/
def candidates (start : Path) : List Path :=
  start.ancestors.flatMap fun directory => fileNames.map fun name => directory.join ⟨name⟩

def discover (tree : FileTree) (start : Path) : Except Problem Path :=
  match (candidates start).find? tree.isFile with
  | some path => .ok path
  | none => .error (.notFound start)

end SchemaFragments.Config
