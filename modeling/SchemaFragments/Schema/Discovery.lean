import SchemaFragments.Document.Basic
import SchemaFragments.Search
/-!
# Order of discovery

The order of the types of a schema: by depth first search over their references from the roots, then from
the declared types in the order of the document.
-/

namespace SchemaFragments

open Document

/-- The references of the type definition with a name, none where there is no such definition. -/
def referencesOf (declared : List TypeDefinition) (name : String) : List String :=
  ((declared.find? (·.name == name)).map (·.references)).getD []

/-- The declared types and the built-in scalars: first what is reachable from the roots, then the other
declared types in the order of the document, then the other scalars. -/
def discoveryOrder (roots : List String) (declared : List TypeDefinition) : List String :=
  let names := declared.map (·.name)
  depthFirst (names ++ builtInScalars) (referencesOf declared) (roots ++ names ++ builtInScalars) []

end SchemaFragments
