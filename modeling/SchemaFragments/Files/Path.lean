import SchemaFragments.Text.Lines
/-!
# Paths

Paths as they are written. `/` parts the names, empty names and `.` inside a path stand for nothing, and
a path keeps its spelling: only `normalize` rewrites it.
-/

namespace SchemaFragments

structure Path where
  text : String
deriving DecidableEq, Repr

namespace Path

/-- What a path is made of. A `.` counts at the front of a relative path only. -/
inductive Component where
  | root
  | current
  | parent
  | normal (name : String)
deriving DecidableEq, Repr

/-- What the pieces of a path are to the path. -/
inductive Lead where
  | absolute
  | current
  | plain
deriving DecidableEq, Repr

/-- Takes the leading `/` or `.` off a path. -/
def cutLead (text : List Char) : Lead × List Char :=
  match text with
  | '/' :: rest => (.absolute, rest)
  | ['.'] => (.current, [])
  | '.' :: '/' :: rest => (.current, '/' :: rest)
  | text => (.plain, text)

def Lead.text : Lead → List Char
  | .absolute => ['/']
  | .current => ['.']
  | .plain => []

def Lead.components : Lead → List Component
  | .absolute => [.root]
  | .current => [.current]
  | .plain => []

/-- A piece between two `/` that names nothing. -/
def isIdle (piece : List Char) : Bool := piece.isEmpty || piece == ['.']

def pieceComponent (piece : List Char) : Component :=
  if piece = ['.', '.'] then .parent else .normal (String.ofList piece)

def components (path : Path) : List Component :=
  let (lead, body) := cutLead path.text.toList
  lead.components ++ ((Text.splitAt '/' body).filter (!isIdle ·)).map pieceComponent

def isAbsolute (path : Path) : Bool := path.text.toList.head? == some '/'

/-- A path seen from a base; an absolute path stands for itself. -/
def join (base path : Path) : Path :=
  if path.isAbsolute || base.text.isEmpty then path
  else if base.text.toList.getLast? = some '/' then ⟨base.text ++ path.text⟩
  else ⟨base.text ++ "/" ++ path.text⟩

/-- The paths above the one whose pieces are given back to front, nearest first. -/
def parentsOf (lead : Lead) (back : List (List Char)) : List Path :=
  match _ : back.dropWhile isIdle with
  | [] => if lead = .current then [⟨""⟩] else []
  | _ :: before =>
    ⟨String.ofList (lead.text ++ ['/'].intercalate (before.dropWhile isIdle).reverse)⟩ ::
      parentsOf lead before
termination_by back.length
decreasing_by
  rename_i hdrop
  have := (List.dropWhile_sublist isIdle (l := back)).length_le
  simp only [hdrop, List.length_cons] at this
  omega

/-- The paths above a path in its own spelling, nearest first: each lacks the last component of the one
before it. -/
def parents (path : Path) : List Path :=
  let (lead, body) := cutLead path.text.toList
  parentsOf lead (Text.splitAt '/' body).reverse

def parent? (path : Path) : Option Path := path.parents.head?

/-- A path and those above it. -/
def ancestors (path : Path) : List Path := path :: path.parents

/-- The directory a file is in. -/
def directory (path : Path) : Path := path.parent?.getD path

/-- The last component, if it is a name. -/
def fileName? (path : Path) : Option String :=
  match path.components.getLast? with
  | some (.normal name) => some name
  | _ => none

/-- What stands after the last dot of the file name; a dot at its front does not count. -/
def extension? (path : Path) : Option String := do
  let back := (← path.fileName?).toList.reverse
  match back.dropWhile (· ≠ '.') with
  | _ :: _ :: _ => return String.ofList (back.takeWhile (· ≠ '.')).reverse
  | _ => none

/-- The names of a path for walking through directories. A `/` at the end asks for a directory, as does
a last `.`. -/
def names (text : String) : List String :=
  let names := ((Text.splitAt '/' text.toList).filter (!·.isEmpty)).map String.ofList
  if text.toList.getLast? = some '/' then names ++ ["."] else names

/-! ## Normal form -/

/-- A path without `.` and `..`. -/
structure Normal where
  absolute : Bool
  names : List String
deriving DecidableEq, Repr

/-- One more component after those of a normal path; above the root there is the root. -/
def Normal.push (path : Normal) : Component → Normal
  | .root => ⟨true, []⟩
  | .current => path
  | .parent => { path with names := path.names.dropLast }
  | .normal name => { path with names := path.names ++ [name] }

def normal (path : Path) : Normal := path.components.foldl Normal.push ⟨false, []⟩

def Normal.toPath (path : Normal) : Path := ⟨(if path.absolute then "/" else "") ++ "/".intercalate path.names⟩

/-- Drops `.`, and every `..` with the name before it; the file system is not asked. -/
def normalize (path : Path) : Path := path.normal.toPath

/-- The names after those of a base. -/
def stripNames : (base names : List String) → Option (List String)
  | [], names => some names
  | _ :: _, [] => none
  | first :: base, name :: names => if first = name then stripNames base names else none

/-- A path seen from a base when it lies at or beneath it, both seen from a working directory. -/
def relativeTo (workingDirectory base path : Path) : Option Path := do
  let base := (workingDirectory.join base).normal
  let path := (workingDirectory.join path).normal
  if base.absolute ≠ path.absolute then none
  else return ⟨"/".intercalate (← stripNames base.names path.names)⟩

end Path

end SchemaFragments
