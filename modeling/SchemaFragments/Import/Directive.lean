import SchemaFragments.Text.Blank
import SchemaFragments.Text.Lines
/-!
# Import directives

A comment of the form `# import NAMES from "PATH"` asks for definitions of another file. Without names,
or with `*` among them, it asks for the whole file.
-/

namespace SchemaFragments.Import

/-- The fields kept of an imported type. -/
inductive FieldFilter where
  | all
  | only (names : List String)
deriving DecidableEq, Repr

namespace FieldFilter

/-- Appends the names that are not there yet. -/
def addNames (names more : List String) : List String :=
  more.foldl (fun names name => if names.contains name then names else names ++ [name]) names

/-- What is kept when a type is asked for twice. -/
def merge : FieldFilter → FieldFilter → FieldFilter
  | .all, _ => .all
  | _, .all => .all
  | .only names, .only more => .only (addNames names more)

end FieldFilter

/-- What a directive asks for: a whole file, or types in the order of their first mention. -/
inductive Selection where
  | wholeFile
  | types (types : List (String × FieldFilter))
deriving DecidableEq, Repr

structure Directive where
  path : String
  /-- Bytes of the line before the path, and one. -/
  column : Nat
  selection : Selection
deriving DecidableEq, Repr

/-! ## Names -/

/-- The type an item is about, and what it asks for: `T`, `T.*` or `T.field`. -/
def readItem (item : List Char) : String × FieldFilter :=
  let type := String.ofList (item.takeWhile (· ≠ '.'))
  match item.dropWhile (· ≠ '.') with
  | [] | ['.', '*'] => (type, .all)
  | _ :: field => (type, .only [String.ofList field])

/-- Adds what an item asks for to what those before it ask for. -/
def addType (type : String) (filter : FieldFilter) :
    List (String × FieldFilter) → List (String × FieldFilter)
  | [] => [(type, filter)]
  | (other, kept) :: rest =>
    if other = type then (other, kept.merge filter) :: rest else (other, kept) :: addType type filter rest

/-- The items of a list of names: what stands between its commas, without white space around it. -/
def items (names : List Char) : List (List Char) :=
  ((Text.splitAt ',' names).map Text.trim).filter (!·.isEmpty)

def readSelection (names : List Char) : Selection :=
  let items := items names
  if items.contains ['*'] then .wholeFile
  else .types (items.foldl (fun types item => addType (readItem item).1 (readItem item).2 types) [])

/-! ## Lines -/

/-- Takes a word off the front of a text. -/
def cutWord : (word text : List Char) → Option (List Char)
  | [], text => some text
  | _ :: _, [] => none
  | c :: word, d :: text => if c = d then cutWord word text else none

def isQuote (c : Char) : Bool := c == '"' || c == '\''

/-- What a directive asks for, by what stands between `import` and the quote. -/
def readHead (head : List Char) : Option Selection :=
  let head := Text.trim head
  if head.isEmpty then some .wholeFile
  else (cutWord "from".toList.reverse head.reverse).map fun names => readSelection names.reverse

/-- What stands after the word `import` of a comment line. -/
def afterKeyword (line : List Char) : Option (List Char) := do
  let comment ← cutWord ['#'] (Text.trimStart line)
  cutWord "import".toList (Text.trimStart comment)

/-- Reads a line as a directive. The path goes from the first quote to the last one of the same kind. -/
def readDirective (line : List Char) : Option Directive := do
  let rest ← afterKeyword line
  if !rest.head?.any fun c => Text.isBlank c || isQuote c then none
  else
    match rest.dropWhile (!isQuote ·) with
    | [] => none
    | quote :: quoted =>
      let (path, _) ← Text.cutAtLast (· == quote) quoted
      if path.isEmpty then none
      else
        let selection ← readHead (rest.takeWhile (!isQuote ·))
        let before := line.take (line.length - quoted.length)
        return ⟨String.ofList path, Text.byteLength before + 1, selection⟩

/-- The directives of a text with the numbers of their lines. -/
def directives (text : String) : List (Nat × Directive) :=
  (Text.lines text.toList).zipIdx.filterMap fun (line, index) =>
    (readDirective line).map fun directive => (index + 1, directive)

/-- Whether a text holds more than empty lines and comments. -/
def holdsDefinitions (text : String) : Bool :=
  ((Text.lines text.toList).map Text.trim).any fun line => !line.isEmpty && line.head? != some '#'

end SchemaFragments.Import
