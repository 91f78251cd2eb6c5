import SchemaFragments.Number.Hexadecimal
import SchemaFragments.Text.Blank
import SchemaFragments.Text.Lines
/-!
# String literals

The texts that strings and block strings stand for.
-/

namespace SchemaFragments.Document

/-! ## Strings -/

/-- What is wrong with the escapes of a string. -/
inductive EscapeFault where
  | unknown (c : Char)
  | short (found : String)
  | noCharacter (code : String)
deriving DecidableEq, Repr

/-- The character of a single letter escape. -/
def simpleEscape : Char → Option Char
  | '"' => some '"'
  | '\\' => some '\\'
  | '/' => some '/'
  | 'b' => some '\x10'
  | 'f' => some '\x0c'
  | 'n' => some '\n'
  | 'r' => some '\r'
  | 't' => some '\t'
  | _ => none

/-- The character with a code that is written in four places; a plus sign may come first. -/
def characterOfCode (code : List Char) : Option Char := do
  let n ← Number.hexNumber (match code with
    | '+' :: digits => digits
    | _ => code)
  if h : n.isValidChar then some (Char.ofNatAux n h) else none

/-- Decodes what stands between the quotes of a string. -/
def decodeString : List Char → Except EscapeFault (List Char)
  | [] => .ok []
  | '\\' :: 'u' :: a :: b :: c :: d :: rest =>
    match characterOfCode [a, b, c, d] with
    | some decoded => (decodeString rest).map (decoded :: ·)
    | none => .error (.noCharacter (String.ofList [a, b, c, d]))
  | '\\' :: 'u' :: found => .error (.short (String.ofList found))
  | '\\' :: c :: rest =>
    match simpleEscape c with
    | some decoded => (decodeString rest).map (decoded :: ·)
    | none => .error (.unknown c)
  | c :: rest => (decodeString rest).map (c :: ·)

/-! ## Block strings -/

/-- Bytes of the white space a line starts with. -/
def indentBytes (line : List Char) : Nat := Text.byteLength (line.takeWhile Text.isBlank)

def isWhite (line : List Char) : Bool := line.all Text.isBlank

/-- The least indent of the lines that are not all white space; the first line does not count. -/
def commonIndent (lines : List (List Char)) : Option Nat :=
  (((lines.drop 1).filter (!isWhite ·)).map indentBytes).min?

/-- Drops a number of bytes; none when that ends inside a character. -/
def dropBytes : Nat → List Char → Option (List Char)
  | 0, text => some text
  | _ + 1, [] => none
  | bytes + 1, c :: rest => if c.utf8Size ≤ bytes + 1 then dropBytes (bytes + 1 - c.utf8Size) rest else none
termination_by _ text => text.length

/-- Takes the indent off a line that has that many bytes; the first line keeps its own. -/
def dropIndent (indent : Option Nat) (line : List Char × Nat) : Option (List Char) :=
  match indent with
  | some bytes =>
    if line.2 ≠ 0 ∧ bytes ≤ Text.byteLength line.1 then dropBytes bytes line.1 else some line.1
  | none => some line.1

/-- Writes quotes for escaped quotes. -/
def unescapeQuotes : List Char → List Char
  | '\\' :: '"' :: '"' :: '"' :: rest => '"' :: '"' :: '"' :: unescapeQuotes rest
  | c :: rest => c :: unescapeQuotes rest
  | [] => []

/-- Drops white lines at both ends of a list of numbered lines. -/
def trimWhiteLines (lines : List (List Char × Nat)) : List (List Char × Nat) :=
  ((lines.dropWhile (isWhite ·.1)).reverse.dropWhile (isWhite ·.1)).reverse

/-- Decodes what stands between the quotes of a block string: the white lines at both ends and the common
indent are left out. None when the indent of a line ends inside a character. -/
def decodeBlockString (text : List Char) : Option (List Char) := do
  let lines := Text.lines text
  let kept ← (trimWhiteLines lines.zipIdx).mapM (dropIndent (commonIndent lines))
  return ['\n'].intercalate (kept.map unescapeQuotes)

end SchemaFragments.Document
