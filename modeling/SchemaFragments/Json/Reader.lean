import SchemaFragments.Number.Hexadecimal
import SchemaFragments.Json.Number
/-!
# Reading JSON

A strict reader: no comments, no trailing commas, no control characters in strings.
-/

namespace SchemaFragments.Json

/-- How many lists and maps may be open at once. -/
def nestingLimit : Nat := 127

def isSpace (c : Char) : Bool := c == ' ' || c == '\n' || c == '\t' || c == '\r'

def skipSpace (text : List Char) : List Char := text.dropWhile isSpace

/-! ## Strings -/

/-- The character of a single letter escape. -/
def simpleEscape : Char → Option Char
  | '"' => some '"'
  | '\\' => some '\\'
  | '/' => some '/'
  | 'b' => some '\x08'
  | 'f' => some '\x0c'
  | 'n' => some '\n'
  | 'r' => some '\r'
  | 't' => some '\t'
  | _ => none

/-- The character of two UTF-16 units that stand for one. -/
def pairedCharacter (high low : Nat) : Option Char :=
  if 0xd800 ≤ high && high < 0xdc00 && 0xdc00 ≤ low && low < 0xe000 then
    some (Char.ofNat (0x10000 + (high - 0xd800) * 0x400 + (low - 0xdc00)))
  else none

/-- The character of one UTF-16 unit. -/
def singleCharacter (unit : Nat) : Option Char :=
  if 0xd800 ≤ unit && unit < 0xe000 then none else some (Char.ofNat unit)

/-- Reads the rest of a string after its opening quote. -/
def readString : List Char → Option (List Char × List Char)
  | [] => none
  | '"' :: rest => some ([], rest)
  | '\\' :: 'u' :: a :: b :: c :: d :: rest => do
    let unit ← Number.hexNumber [a, b, c, d]
    match singleCharacter unit with
    | some decoded =>
      let (text, rest) ← readString rest
      return (decoded :: text, rest)
    | none =>
      match rest with
      | '\\' :: 'u' :: a :: b :: c :: d :: rest => do
        let decoded ← pairedCharacter unit (← Number.hexNumber [a, b, c, d])
        let (text, rest) ← readString rest
        return (decoded :: text, rest)
      | _ => none
  | '\\' :: c :: rest => do
    let decoded ← simpleEscape c
    let (text, rest) ← readString rest
    return (decoded :: text, rest)
  | c :: rest =>
    if c.toNat < 0x20 || c = '\\' then none
    else do
      let (text, rest) ← readString rest
      return (c :: text, rest)

/-! ## Values -/

/-- A reader that takes something off the front of a text. -/
abbrev Reader (α : Type) := List Char → Option (α × List Char)

/-- Reads items parted by commas up to the closing character, at least one and at most `limit`. -/
def readItems {α : Type} (item : Reader α) (close : Char) : (limit : Nat) → Reader (List α)
  | 0, _ => none
  | limit + 1, text => do
    let (first, rest) ← item text
    match skipSpace rest with
    | [] => none
    | c :: rest =>
      if c = close then some ([first], rest)
      else if c = ',' then
        let (others, rest) ← readItems item close limit rest
        return (first :: others, rest)
      else none

/-- Reads the rest of a list or map after its opening character. -/
def readAll {α : Type} (item : Reader α) (close : Char) (limit : Nat) : Reader (List α) := fun text =>
  match skipSpace text with
  | [] => none
  | c :: rest => if c = close then some ([], rest) else readItems item close limit (c :: rest)

/-- Reads a key, a colon and a value. -/
def readEntry (value : Reader Data) : Reader (String × Data) := fun text =>
  match skipSpace text with
  | '"' :: rest => do
    let (key, rest) ← readString rest
    match skipSpace rest with
    | ':' :: rest =>
      let (value, rest) ← value rest
      return ((String.ofList key, value), rest)
    | _ => none
  | _ => none

/-- Reads `null`, a boolean, a number or a string. -/
def readLeaf : Reader Data := fun text =>
  match text with
  | 'n' :: 'u' :: 'l' :: 'l' :: rest => some (.null, rest)
  | 't' :: 'r' :: 'u' :: 'e' :: rest => some (.boolean true, rest)
  | 'f' :: 'a' :: 'l' :: 's' :: 'e' :: rest => some (.boolean false, rest)
  | '"' :: rest => (readString rest).map fun (text, rest) => (.text (String.ofList text), rest)
  | text => readNumber text

/-- Reads a value in which at most `depth` lists and maps are open at once, none with more than `limit`
items. -/
def readValue (limit : Nat) : (depth : Nat) → Reader Data
  | 0 => fun text => readLeaf (skipSpace text)
  | depth + 1 => fun text =>
    match skipSpace text with
    | '[' :: rest =>
      (readAll (readValue limit depth) ']' limit rest).map fun (items, rest) => (.list items, rest)
    | '{' :: rest =>
      (readAll (readEntry (readValue limit depth)) '}' limit rest).map fun (entries, rest) =>
        (.map (Data.Entries.ofList entries), rest)
    | text => readLeaf text

/-- Reads a text that holds one map and nothing else. No list in it has more items than it has characters. -/
def readMap (text : String) : Option Data.Entries :=
  match readValue text.length nestingLimit text.toList with
  | some (.map entries, rest) => if (skipSpace rest).isEmpty then some entries else none
  | _ => none

end SchemaFragments.Json
