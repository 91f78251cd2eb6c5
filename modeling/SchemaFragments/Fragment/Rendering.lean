import SchemaFragments.Fragment.Basic
import SchemaFragments.Schema.Link
/-!
# Rendered fragments

The document that holds all fragments of a schema, in one of two dialects, and `compile`, which goes from
the text of a schema to it.
-/

namespace SchemaFragments

/-- Syntax of a rendered document. -/
inductive Dialect where
  | graphql
  /-- Every fragment is an exported constant. -/
  | module
deriving DecidableEq, Repr

namespace Dialect

/-- A generator whose name ends in `js` writes modules. -/
def ofGenerator (generator : String) : Dialect :=
  if "js".toList.isSuffixOf generator.toList then .module else .graphql

def extension : Dialect → String
  | .graphql => "graphql"
  | .module => "js"

def commentMark : Dialect → String
  | .graphql => "#"
  | .module => "//"

end Dialect

namespace FragmentSet

def header : List String :=
  ["THIS FILE HAS BEEN AUTO-GENERATED BY \"gqlfrag\"", "DO NOT EDIT THIS FILE DIRECTLY"]

def sectionComment : Variant → List String
  | .standard => ["Standard Fragments", "Nested fragments will spread one layer deep"]
  | .noRelations => ["No Relational objects", "No nested fragments"]
  | .deep => ["Deeply nested Fragments", "Will include n nested fragments",
      "If there is a recursive relation you will receive a",
      "\"Cannot spread fragment within itself\" error when using"]

def comment (dialect : Dialect) (lines : List String) : String :=
  String.join (lines.map fun line => dialect.commentMark ++ " " ++ line ++ "\n")

def renderFragment : Dialect → Fragment → String
  | .graphql, fragment => fragment.body
  | .module, fragment => "export const " ++ fragment.bindingName ++ " = `" ++ fragment.body ++ "`\n"

/-- A comment and the fragments of one variant, an empty line before each. -/
def renderSection (dialect : Dialect) (fragments : FragmentSet) (variant : Variant) : String :=
  "\n" ++ comment dialect (sectionComment variant) ++
    String.join ((fragments.get variant).map fun fragment => "\n" ++ renderFragment dialect fragment)

def render (dialect : Dialect) (fragments : FragmentSet) : String :=
  comment dialect header ++ String.join (Variant.all.map (renderSection dialect fragments))

end FragmentSet

/-- The fragments of a schema and their rendering. -/
structure Compiled where
  fragments : FragmentSet
  contents : String
deriving DecidableEq, Repr

def compile (text : String) (dialect : Dialect) : Except LinkError Compiled := do
  let fragments := FragmentSet.ofSchema (← Schema.parse text)
  return ⟨fragments, fragments.render dialect⟩

end SchemaFragments
