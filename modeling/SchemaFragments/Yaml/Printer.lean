import SchemaFragments.Number.Hexadecimal
import SchemaFragments.Number.Layout
import SchemaFragments.Yaml.Reader
/-!
# Printing YAML

Block style with two spaces of indent. Text that would be read as something else is quoted.
-/

namespace SchemaFragments.Yaml

/-- Floats have the fewest digits that read back; whole ones end in `.0`, and from `1e16` up and below
`1e-5` they have an exponent. -/
def floatLayout : Number.Layout :=
  { tie := .even, positional := some (-5, 16), pointZero := true, plusSign := false, infinity := ".inf" }

example : floatLayout.write (.finite false 5000000000000000 1) = "1e16" := by decide +kernel
example : floatLayout.write (.finite false 7 0) = "7.0" := by decide +kernel

/-! ## Text -/

/-- Characters that are no good start of a plain text. -/
def isIndicator (c : Char) : Bool := "&*?|-<>=!%@.".toList.contains c

/-- Characters that are quoted wherever they stand. -/
def isQuoted (c : Char) : Bool :=
  ":\x7b\x7d[],#`\"'\\\t\n\r".toList.contains c || c.toNat ≤ 0x06 ||
    (0x0e ≤ c.toNat && c.toNat ≤ 0x1f && c.toNat ≠ 0x1b)

/-- Words that are read as booleans or null by one reader or another. -/
def reservedWords : List String :=
  ["yes", "Yes", "YES", "no", "No", "NO", "true", "True", "TRUE", "false", "False", "FALSE", "on", "On", "ON",
    "off", "Off", "OFF", "null", "Null", "NULL", "~"]

def needsQuotes (text : String) : Bool :=
  let chars := text.toList
  chars.isEmpty || chars.head? = some ' ' || chars.getLast? = some ' ' ||
    chars.head?.any isIndicator || chars.any isQuoted || text.startsWith "0x" ||
    reservedWords.contains text || isNumberWord chars || (Number.readDecimal chars).isSome

/-- Escapes a character of a quoted text. -/
def escapeChar (c : Char) : List Char :=
  if c = '"' then ['\\', '"']
  else if c = '\\' then ['\\', '\\']
  else if c = '\x08' then ['\\', 'b']
  else if c = '\t' then ['\\', 't']
  else if c = '\n' then ['\\', 'n']
  else if c = '\x0c' then ['\\', 'f']
  else if c = '\r' then ['\\', 'r']
  else if c.toNat < 0x20 || c = '\x7f' then ['\\', 'u', '0', '0'] ++ Number.lastHexDigits c.toNat
  else [c]

def printText (text : String) : List Char :=
  if needsQuotes text then '"' :: (text.toList.flatMap escapeChar ++ ['"']) else text.toList

/-! ## Data -/

/-- A line end and the indent of what follows it. -/
def newLine (depth : Nat) : List Char := '\n' :: List.replicate (2 * depth) ' '

/-- What stands between a key and its value: collections with items start on the next line. -/
def afterKey (depth : Nat) : Data → List Char
  | .list (_ :: _) | .map (_ :: _) => newLine depth
  | _ => [' ']

mutual

/-- Prints a value whose items, if it has any, are indented by `2 * depth`. -/
def printValue (depth : Nat) : Data → List Char
  | .null => ['~']
  | .boolean value => (if value then "true" else "false").toList
  | .integer value => (toString value).toList
  | .float value => (floatLayout.write value).toList
  | .text value => printText value
  | .list [] => ['[', ']']
  | .list (item :: items) => '-' :: ' ' :: (printValue (depth + 1) item ++ printItems depth items)
  | .map [] => ['{', '}']
  | .map ((key, value) :: entries) =>
    printText key ++ ':' :: (afterKey (depth + 1) value ++ printValue (depth + 1) value ++
      printEntries depth entries)

/-- The items after the first of a list. -/
def printItems (depth : Nat) : List Data → List Char
  | [] => []
  | item :: items => newLine depth ++ '-' :: ' ' :: (printValue (depth + 1) item ++ printItems depth items)

/-- The entries after the first of a map. -/
def printEntries (depth : Nat) : List (String × Data) → List Char
  | [] => []
  | (key, value) :: entries =>
    newLine depth ++ printText key ++ ':' :: (afterKey (depth + 1) value ++ printValue (depth + 1) value ++
      printEntries depth entries)

end

def printMap (entries : Data.Entries) : String :=
  "---\n" ++ String.ofList (printValue 0 (.map entries)) ++ "\n"

end SchemaFragments.Yaml
