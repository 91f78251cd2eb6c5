import SchemaFragments.Number.Hexadecimal
import SchemaFragments.Yaml.Token
/-!
# Anchors, tags and directives of YAML

What may stand before a node, and the lines that start with `%`.
-/

namespace SchemaFragments.Yaml

/-! ## Anchors -/

/-- What may follow the name of an anchor. -/
def endsName (text : List Char) : Bool :=
  atSpace text || text.head?.any fun c => "?:,]\x7d%@`".toList.contains c

/-- Reads the name after `*` or `&`. -/
def readName (cursor : Cursor) : Option (String × Cursor) :=
  let name := cursor.taken isWordChar
  let after := cursor.skipWhile isWordChar
  if name.isEmpty || !endsName after.rest then none else some (String.ofList name, after)

/-! ## Tags -/

def isUriChar (c : Char) : Bool := isWordChar c || ";/?:@&=+$,.!~*'()[]%".toList.contains c

/-- The octet of an escape such as `%2f` at the front of a text. -/
def octetAt : List Char → Option Nat
  | '%' :: a :: b :: _ => Number.hexNumber [a, b]
  | _ => none

/-- How many octets a character has whose first one is given. -/
def octetCount (first : Nat) : Option Nat :=
  if first < 0x80 then some 1
  else if 0xc0 ≤ first && first < 0xe0 then some 2
  else if 0xe0 ≤ first && first < 0xf0 then some 3
  else if 0xf0 ≤ first && first < 0xf8 then some 4
  else none

/-- Puts the octets that follow the first one behind it. -/
def joinOctets : (count : Nat) → (code : Nat) → List Char → Option Nat
  | 0, code, _ => some code
  | count + 1, code, text => do
    let octet ← octetAt text
    if 0x80 ≤ octet && octet < 0xc0 then joinOctets count (code * 256 + octet) (text.drop 3) else none

/-- The character that escapes at the front of a text stand for, whose code is made of all the bits of its
octets, and how many characters they take. -/
def readUriEscape (text : List Char) : Option (Char × Nat) := do
  let first ← octetAt text
  let count ← octetCount first
  let code ← joinOctets (count - 1) first (text.drop 3)
  if h : code.isValidChar then some (Char.ofNatAux code h, 3 * count) else none

/-- Reads what follows the handle of a tag. -/
def readUri (cursor : Cursor) : Option (List Char × Cursor) :=
  match cursor.rest with
  | [] => some ([], cursor)
  | c :: rest =>
    if !isUriChar c then some ([], cursor)
    else
      let read := if c = '%' then readUriEscape (c :: rest) else some (c, 1)
      match read with
      | none => none
      | some (decoded, count) =>
        let after := cursor.skip count
        if after.rest.length < cursor.rest.length then
          (readUri after).map fun (text, cursor) => (decoded :: text, cursor)
        else none
termination_by cursor.rest.length

/-- Reads a handle: `!`, word characters and maybe another `!`. -/
def readHandle (cursor : Cursor) : Option (List Char × Cursor) :=
  if cursor.rest.head? ≠ some '!' then none
  else
    let word := cursor.next.taken isWordChar
    let after := cursor.next.skipWhile isWordChar
    if after.rest.head? = some '!' then some ('!' :: word ++ ['!'], after.next)
    else some ('!' :: word, after)

/-- Reads what follows `!<`, up to the `>`. -/
def readVerbatimTag (cursor : Cursor) : Option (Tag × Cursor) := do
  let (uri, after) ← readUri cursor
  if uri.isEmpty || after.rest.head? ≠ some '>' then none
  else some (⟨"", String.ofList uri⟩, after.next)

/-- Reads a tag with a handle. Without a second `!` what looked like the handle belongs to the rest. -/
def readShortTag (cursor : Cursor) : Option (Tag × Cursor) := do
  let (handle, after) ← readHandle cursor
  let (uri, after) ← readUri after
  if 2 ≤ handle.length && handle.getLast? = some '!' then
    if uri.isEmpty then none else some (⟨String.ofList handle, String.ofList uri⟩, after)
  else
    let suffix := handle.drop 1 ++ uri
    if suffix.isEmpty then some (⟨"", "!"⟩, after) else some (⟨"!", String.ofList suffix⟩, after)

/-- Reads a tag, which a space or the end of the text has to follow. -/
def readTag (cursor : Cursor) : Option (Tag × Cursor) := do
  let (tag, after) ← if cursor.rest.take 2 = ['!', '<'] then readVerbatimTag cursor.next.next
    else readShortTag cursor
  if atSpace after.rest then some (tag, after) else none

/-! ## Directives -/

/-- Moves over a number of at most nine digits. -/
def skipNumber (cursor : Cursor) : Option Cursor :=
  let digits := cursor.taken Char.isDigit
  if digits.isEmpty || 9 < digits.length then none else some (cursor.skipWhile Char.isDigit)

def skipVersion (cursor : Cursor) : Option Cursor := do
  let major ← skipNumber (cursor.skipWhile isBlank)
  if major.rest.head? = some '.' then skipNumber major.next else none

def skipTagDirective (cursor : Cursor) : Option Cursor := do
  let (handle, after) ← readHandle (cursor.skipWhile isBlank)
  if handle.getLast? ≠ some '!' then none
  else
    let (uri, after) ← readUri (after.skipWhile isBlank)
    if uri.isEmpty || !atSpace after.rest then none else some after

/-- Reads a directive after its `%`, to the end of the line. An unknown one counts as one about tags. -/
def readDirective (cursor : Cursor) : Option (Token × Cursor) := do
  let name := String.ofList (cursor.taken isWordChar)
  let after := cursor.skipWhile isWordChar
  if name.isEmpty || !atSpace after.rest then none
  else
    let (token, after) ← if name = "YAML" then (skipVersion after).map fun after => (Token.versionDirective, after)
      else if name = "TAG" then (skipTagDirective after).map fun after => (Token.tagDirective, after)
      else some (Token.tagDirective, after.skipWhile (!isBreak ·))
    let after := (after.skipWhile isBlank).skipComment
    if atBreak after.rest then some (token, after.skipBreak) else none

end SchemaFragments.Yaml
