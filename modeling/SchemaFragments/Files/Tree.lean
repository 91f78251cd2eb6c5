import SchemaFragments.Files.Path
/-!
# File trees

Directories, files and symbolic links as a value, with the operations a program has on them.
-/

namespace SchemaFragments

/-- Why an operation on a path fails. -/
inductive FileError where
  | missing
  | alreadyThere
  | notDirectory
  | isDirectory
  | tooManyLinks
  | notText
  | nulInName
deriving DecidableEq, Repr

def FileError.message : FileError → String
  | .missing => "No such file or directory (os error 2)"
  | .alreadyThere => "File exists (os error 17)"
  | .notDirectory => "Not a directory (os error 20)"
  | .isDirectory => "Is a directory (os error 21)"
  | .tooManyLinks => "Too many levels of symbolic links (os error 40)"
  | .notText => "stream did not contain valid UTF-8"
  | .nulInName => "file name contained an unexpected NUL byte"

/-- The names from the root of the tree to a place in it; links play no part. -/
abbrev Location := List String

inductive Entry where
  | directory
  /-- A file with its text, none where its bytes are no text. -/
  | file (text : Option String)
  /-- A symbolic link with its target as it is written. -/
  | link (target : String)
deriving DecidableEq, Repr

/-- The entries of a tree, and the place relative paths start from. The root is always there. -/
structure FileTree where
  workingDirectory : Location
  entries : List (Location × Entry)
deriving DecidableEq, Repr

namespace FileTree

def entryAt (tree : FileTree) (location : Location) : Option Entry :=
  if location = [] then some .directory else tree.entries.lookup location

/-- Puts an entry at a location, in the place of the one that was there. -/
def put (tree : FileTree) (location : Location) (entry : Entry) : FileTree :=
  { tree with entries := (location, entry) :: tree.entries.filter (·.1 ≠ location) }

theorem entryAt_put_self {tree : FileTree} {location : Location} {entry : Entry} (h : location ≠ []) :
    (tree.put location entry).entryAt location = some entry := by
  simp [entryAt, put, h]

theorem put_put {tree : FileTree} {location : Location} {old new : Entry} :
    (tree.put location old).put location new = tree.put location new := by
  simp [put]

theorem mem_of_entryAt {tree : FileTree} {location : Location} {entry : Entry} (h : location ≠ [])
    (he : tree.entryAt location = some entry) : (location, entry) ∈ tree.entries := by
  simp only [entryAt, h, if_false] at he
  obtain ⟨before, after, hs, _⟩ := List.lookup_eq_some_iff.1 he
  simp [hs]

/-- Adds the directories above a location where there is nothing yet. -/
def withParents (tree : FileTree) (location : Location) : FileTree :=
  (List.range location.length).foldl (fun tree n =>
    if (tree.entryAt (location.take n)).isNone then tree.put (location.take n) .directory else tree) tree

/-! ## Walking -/

/-- Links that may be followed on one walk. -/
def linkLimit : Nat := 40

/-- Where a walk ends, with the entry that is there if there is one. Only the last name may be missing. -/
abbrev Found := Location × Option Entry

/-- Walks from a directory along names. Links are followed, the last one too. -/
def walk (tree : FileTree) (links : Nat) (here : Location) (names : List String) : Except FileError Found :=
  match names with
  | [] => .ok (here, tree.entryAt here)
  | name :: rest =>
    if name = "." then walk tree links here rest
    else if name = ".." then walk tree links here.dropLast rest
    else
      let next := here ++ [name]
      match tree.entryAt next with
      | none => if rest.isEmpty then .ok (next, none) else .error .missing
      | some .directory => walk tree links next rest
      | some (.file text) => if rest.isEmpty then .ok (next, some (.file text)) else .error .notDirectory
      | some (.link target) =>
        match links with
        | 0 => .error .tooManyLinks
        | links + 1 =>
          walk tree links (if (Path.mk target).isAbsolute then [] else here) (Path.names target ++ rest)
termination_by (links, names.length)

/-- The working directory as a path. -/
def workingPath (tree : FileTree) : Path := ⟨"/" ++ "/".intercalate tree.workingDirectory⟩

/-- Where a path starts. -/
def start (tree : FileTree) (path : Path) : Location :=
  if path.isAbsolute then [] else tree.workingDirectory

def find (tree : FileTree) (path : Path) : Except FileError Found :=
  if path.text.isEmpty then .error .missing
  else if path.text.contains '\x00' then .error .nulInName
  else tree.walk linkLimit (tree.start path) (Path.names path.text)

/-- The one place that all spellings of a path stand for, if there is something. -/
def identity? (tree : FileTree) (path : Path) : Option Location :=
  match tree.find path with
  | .ok (location, some _) => some location
  | _ => none

/-! ## Files -/

/-- The text of a file, with the place it is at. -/
def readAt (tree : FileTree) (path : Path) : Except FileError (Location × String) := do
  match ← tree.find path with
  | (location, some (.file (some text))) => return (location, text)
  | (_, some (.file none)) => throw .notText
  | (_, some _) => throw .isDirectory
  | (_, none) => throw .missing

def read (tree : FileTree) (path : Path) : Except FileError String := return (← tree.readAt path).2

def isFile (tree : FileTree) (path : Path) : Bool :=
  match tree.find path with
  | .ok (_, some (.file _)) => true
  | _ => false

def isDirectory (tree : FileTree) (path : Path) : Bool :=
  match tree.find path with
  | .ok (_, some .directory) => true
  | _ => false

def endsInSlash (text : String) : Bool := text.toList.getLast? == some '/'

/-- A path without the `/` at its end. -/
def withoutSlash (path : Path) : Path :=
  ⟨String.ofList (path.text.toList.reverse.dropWhile (· = '/')).reverse⟩

/-- Writes a file, new or in the place of the old one. The directory must be there. -/
def write (tree : FileTree) (path : Path) (text : String) : Except FileError FileTree := do
  if endsInSlash path.text then
    discard (tree.find (withoutSlash path))
    throw .isDirectory
  match ← tree.find path with
  | (_, some .directory) => throw .isDirectory
  | (location, _) => return tree.put location (.file (some text))

theorem write_of_find {tree : FileTree} {path : Path} {location : Location} {entry : Option Entry} {text : String}
    (hslash : endsInSlash path.text = false) (hfind : tree.find path = .ok (location, entry))
    (hentry : entry ≠ some .directory) : tree.write path text = .ok (tree.put location (.file (some text))) := by
  rcases entry with _ | (_ | old | target)
  case some.directory => exact absurd rfl hentry
  all_goals
    simp [write, hslash, hfind, bind, Except.bind, pure, Except.pure]

/-! ## What is found -/

section

variable {tree : FileTree} {path : Path} {location : Location} {text : String}

theorem walk_entry {links : Nat} {here : Location} {names : List String} {found : Found}
    (h : tree.walk links here names = .ok found) : tree.entryAt found.1 = found.2 := by
  fun_induction walk tree links here names with
  | case1 => simp at h; subst h; rfl
  | case2 _ _ _ ih => exact ih h
  | case3 _ _ _ _ ih => exact ih h
  | case4 => simp at h; subst h; simp_all
  | case5 => simp at h
  | case6 _ _ _ _ _ _ _ _ ih => exact ih h
  | case7 => simp at h; subst h; simp_all
  | case8 => simp at h
  | case9 => simp at h
  | case10 _ _ _ _ _ _ _ _ _ ih => exact ih h

theorem entryAt_of_find {found : Found} (h : tree.find path = .ok found) : tree.entryAt found.1 = found.2 := by
  unfold find at h
  split at h
  · cases h
  · split at h
    · cases h
    · exact walk_entry h

theorem readAt_eq_ok_iff :
    tree.readAt path = .ok (location, text) ↔ tree.find path = .ok (location, some (.file (some text))) := by
  unfold readAt
  cases tree.find path with
  | error error => simp [bind, Except.bind]
  | ok found =>
    rcases found with ⟨place, (_ | (_ | (_ | text) | _))⟩ <;>
      simp [bind, Except.bind, pure, Except.pure, throw, throwThe, MonadExceptOf.throw]

/-- A text is read at the one place that its path stands for. -/
theorem identity?_of_readAt (h : tree.readAt path = .ok (location, text)) : tree.identity? path = some location := by
  rw [identity?, readAt_eq_ok_iff.1 h]

theorem readAt_entry (h : tree.readAt path = .ok (location, text)) :
    (location, .file (some text)) ∈ tree.entries := by
  have hentry := entryAt_of_find (readAt_eq_ok_iff.1 h)
  have hne : location ≠ [] := by
    rintro rfl
    simp [entryAt] at hentry
  exact mem_of_entryAt hne hentry

theorem readAt_mem (h : tree.readAt path = .ok (location, text)) : location ∈ tree.entries.map (·.1) :=
  List.mem_map_of_mem (readAt_entry h)

end

/-! ## Directories -/

/-- Makes one directory; what is above it must be there. A link counts as something that is there. -/
def makeDirectory (tree : FileTree) (path : Path) : Except FileError FileTree := do
  let names := Path.names (withoutSlash path).text
  if path.text.isEmpty then throw .missing
  if path.text.contains '\x00' then throw .nulInName
  match names.getLast? with
  | none => throw .alreadyThere
  | some name =>
    let (above, entry) ← tree.walk linkLimit (tree.start path) (names.dropLast ++ ["."])
    if entry ≠ some .directory then throw .missing
    if name = "." || name = ".." then throw .alreadyThere
    match tree.entryAt (above ++ [name]) with
    | some _ => throw .alreadyThere
    | none => return tree.put (above ++ [name]) .directory

/-- Makes a directory, where it is not there yet. -/
def ensureDirectory (tree : FileTree) (path : Path) : Except FileError FileTree :=
  match tree.makeDirectory path with
  | .ok tree => .ok tree
  | .error error => if tree.isDirectory path then .ok tree else .error error

/-- Makes the first of a list of paths a directory, where the others are the paths above it, nearest
first: what is missing above it is made before. -/
def ensureDirectories (tree : FileTree) : List Path → Except FileError FileTree
  | [] => .error .missing
  | path :: above =>
    if path.text.isEmpty then .ok tree
    else match tree.makeDirectory path with
      | .error .missing => do ensureDirectory (← ensureDirectories tree above) path
      | _ => tree.ensureDirectory path

end FileTree

end SchemaFragments
