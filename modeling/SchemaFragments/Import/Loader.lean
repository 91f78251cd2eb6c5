import SchemaFragments.Document.Grammar
import SchemaFragments.Import.Directive
import SchemaFragments.Import.Problem
import SchemaFragments.Search
/-!
# Loaded files

The files that can be reached from a schema through import directives, each read once: depth first, in the
order of the directives, whatever the names a file goes by.
-/

namespace SchemaFragments

namespace Import

/-- A directive with the index of the file it asks for. -/
structure ResolvedImport where
  target : Nat
  selection : Selection
  position : Position
deriving DecidableEq, Repr

structure SchemaFile where
  /-- The path the file was first read under. -/
  path : Path
  identity : Location
  contents : String
  definitions : List Document.Definition
  imports : List ResolvedImport
deriving Repr

/-- A directive that is still to be followed, and the file it stands in. -/
structure Pending where
  importer : Nat
  site : Site
  path : Path
  selection : Selection
deriving Repr

/-- The files read so far, in the order they were read, and what went wrong. -/
structure Loader where
  files : List SchemaFile
  problems : List Problem
deriving Repr

namespace Loader

def empty : Loader := ⟨[], []⟩

def identities (loader : Loader) : List Location := loader.files.map (·.identity)

/-- Adds a file that has been read and gives its directives. A file without definitions is not parsed.
None when its text is torn. -/
def addFile (loader : Loader) (path : Path) (identity : Location) (contents : String) :
    Option (Loader × List Pending) :=
  let parsed := if holdsDefinitions contents then Document.parse contents else .ok []
  let pending := (directives contents).map fun (line, directive) =>
    { importer := loader.files.length
      site := ⟨path, contents, ⟨line, directive.column⟩⟩
      path := path.directory.join ⟨directive.path⟩
      selection := directive.selection }
  let withFile (definitions : List Document.Definition) (problems : List Problem) : Loader × List Pending :=
    (⟨loader.files ++ [⟨path, identity, contents, definitions, []⟩], loader.problems ++ problems⟩, pending)
  match parsed with
  | .ok definitions => some (withFile definitions [])
  | .error (.malformed position complaints) =>
    some (withFile [] [.malformed path contents position complaints])
  | .error .tornBlockString => none

theorem identities_addFile {loader loader' : Loader} {path : Path} {identity : Location} {contents : String}
    {pending : List Pending} (h : loader.addFile path identity contents = some (loader', pending)) :
    loader'.identities = loader.identities ++ [identity] := by
  simp only [addFile] at h
  split at h <;> simp at h <;> simp [← h.1, identities]

/-- Records that a directive asks for a file. -/
def link (loader : Loader) (pending : Pending) (target : Nat) : Loader :=
  { loader with files := loader.files.modify pending.importer fun file =>
      { file with imports := file.imports ++ [⟨target, pending.selection, pending.site.position⟩] } }

theorem identities_link (loader : Loader) (pending : Pending) (target : Nat) :
    (loader.link pending target).identities = loader.identities := by
  simp only [identities, link]
  apply List.ext_getElem?
  intro i
  simp only [List.getElem?_map, List.getElem?_modify]
  cases loader.files[i]? <;> simp
  split <;> rfl

/-- Follows directives. Those of a file that is read for the first time come before the others. None when
the text of some file is torn. -/
def follow (tree : FileTree) (pending : List Pending) (loader : Loader) : Option Loader :=
  match pending with
  | [] => some loader
  | next :: rest =>
    match _ : tree.readAt next.path with
    | .error error =>
      follow tree rest { loader with problems := loader.problems ++ [.unreadable next.site next.path error] }
    | .ok (identity, contents) =>
      if identity ∈ loader.identities then
        follow tree rest (loader.link next (loader.identities.idxOf identity))
      else
        match _ : loader.addFile next.path identity contents with
        | none => none
        | some (loader', more) => follow tree (more ++ rest) (loader'.link next loader.files.length)
termination_by ((unmet (tree.entries.map (·.1)) loader.identities).length, pending.length)
decreasing_by
  · exact Prod.Lex.right _ (Nat.lt_succ_self _)
  · rw [identities_link]
    exact Prod.Lex.right _ (Nat.lt_succ_self _)
  · rename_i hread hknown hadd
    rw [identities_link, identities_addFile hadd]
    exact Prod.Lex.left _ _ (unmet_length_lt (FileTree.readAt_mem hread) hknown)

end Loader

/-- Reads the schema at a path and everything it imports. -/
def loadFiles (tree : FileTree) (path : Path) : Except LoadError Loader :=
  match tree.readAt path with
  | .error error => .error (.problems [.unreadableRoot path error])
  | .ok (identity, contents) =>
    match (Loader.empty.addFile path identity contents).bind fun (loader, pending) =>
        loader.follow tree pending with
    | some loader => .ok loader
    | none => .error .tornBlockString

end Import

end SchemaFragments
