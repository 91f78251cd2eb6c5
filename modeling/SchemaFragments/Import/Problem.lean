import SchemaFragments.Document.ParseError
import SchemaFragments.Message
/-!
# Problems of loading

What can go wrong when a schema and its imports are read, and the messages that report it.
-/

namespace SchemaFragments.Import

/-- A directive in the file it stands in. -/
structure Site where
  path : Path
  contents : String
  position : Position
deriving DecidableEq, Repr

inductive Problem where
  /-- The file everything starts from cannot be read. -/
  | unreadableRoot (path : Path) (error : FileError)
  /-- The file that a directive names cannot be read. -/
  | unreadable (site : Site) (path : Path) (error : FileError)
  /-- A file is no schema document. -/
  | malformed (path : Path) (contents : String) (position : Position) (complaints : List Document.Complaint)
  /-- A type that a directive names is in none of the files it is looked for in. -/
  | missingType (site : Site) (type : String) (imported : Path)
deriving DecidableEq, Repr

def Problem.message : Problem → Message
  | .unreadableRoot path error => .unreadable path error
  | .unreadable site path error =>
    { Message.unreadable path error with
      source := some ⟨site.path, some (.ofText site.contents site.position none)⟩ }
  | .malformed path contents position complaints =>
    .inFile ("malformed schema: " ++ Document.summary complaints) path contents (some position) none
  | .missingType site type imported =>
    .inFile ("could not find type `" ++ type ++ "` in `" ++ imported.text ++ "`") site.path site.contents
      (some site.position) none

/-- Why a schema is not loaded. -/
inductive LoadError where
  | problems (problems : List Problem)
  /-- A document could not be read and there is nothing to report, see `ParseError.tornBlockString`. -/
  | tornBlockString
deriving DecidableEq, Repr

end SchemaFragments.Import
