import SchemaFragments.Data
import SchemaFragments.Number.Hexadecimal
import SchemaFragments.Number.Layout
/-!
# Printing JSON

Every item on a line of its own, with two spaces of indent.
-/

namespace SchemaFragments.Json

/-- Floats have the fewest digits that read back; whole ones end in `.0`, and from `1e16` up and below
`1e-5` they have an exponent. -/
def floatLayout : Number.Layout :=
  { tie := .even, positional := some (-5, 16), pointZero := true, plusSign := true, infinity := "null" }

example : floatLayout.write (.finite false 5000000000000000 1) = "1e+16" := by decide +kernel
example : floatLayout.write (.finite true 3 (-1)) = "-1.5" := by decide +kernel

/-- Escapes a character of a string. -/
def escapeChar (c : Char) : List Char :=
  if c = '"' then ['\\', '"']
  else if c = '\\' then ['\\', '\\']
  else if c = '\x08' then ['\\', 'b']
  else if c = '\x0c' then ['\\', 'f']
  else if c = '\n' then ['\\', 'n']
  else if c = '\r' then ['\\', 'r']
  else if c = '\t' then ['\\', 't']
  else if c.toNat < 0x20 then
    ['\\', 'u', '0', '0'] ++ Number.lastHexDigits c.toNat
  else [c]

def printString (text : String) : List Char := '"' :: (text.toList.flatMap escapeChar ++ ['"'])

/-- A line end and the indent of what follows it. -/
def newLine (depth : Nat) : List Char := '\n' :: List.replicate (2 * depth) ' '

mutual

def printValue (depth : Nat) : Data → List Char
  | .null => "null".toList
  | .boolean value => (if value then "true" else "false").toList
  | .integer value => (toString value).toList
  | .float value => (floatLayout.write value).toList
  | .text value => printString value
  | .list [] => ['[', ']']
  | .list (item :: items) =>
    '[' :: (newLine (depth + 1) ++ printValue (depth + 1) item ++ printItems (depth + 1) items ++
      newLine depth ++ [']'])
  | .map [] => ['{', '}']
  | .map ((key, value) :: entries) =>
    '{' :: (newLine (depth + 1) ++ printString key ++ [':', ' '] ++ printValue (depth + 1) value ++
      printEntries (depth + 1) entries ++ newLine depth ++ ['}'])

/-- The items after the first of a list. -/
def printItems (depth : Nat) : List Data → List Char
  | [] => []
  | item :: items => ',' :: (newLine depth ++ printValue depth item ++ printItems depth items)

/-- The entries after the first of a map. -/
def printEntries (depth : Nat) : List (String × Data) → List Char
  | [] => []
  | (key, value) :: entries =>
    ',' :: (newLine depth ++ printString key ++ [':', ' '] ++ printValue depth value ++
      printEntries depth entries)

end

def printMap (entries : Data.Entries) : String := String.ofList (printValue 0 (.map entries))

end SchemaFragments.Json
