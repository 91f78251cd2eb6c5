import SchemaFragments.Data
import SchemaFragments.Json.Printer
import SchemaFragments.Text.Quoted
/-!
# Records in configuration files

A record is a map from the names of its fields, or a list of its fields in order. Keys that name no field
are ignored.
-/

namespace SchemaFragments.Config

/-- Why data is no record of some kind. -/
inductive RecordError where
  /-- Something else stands where there should be data of a kind. -/
  | wrongKind (found : Data) (expected : String)
  /-- A list lacks fields. -/
  | tooShort (length : Nat) (record : String) (size : Nat)
  | tooLong (length : Nat)
deriving Repr

/-- The kind of data, with its value where that is short. -/
def describe : Data → String
  | .null => "null"
  | .boolean value => "boolean `" ++ (if value then "true" else "false") ++ "`"
  | .integer value => "integer `" ++ toString value ++ "`"
  | .float value => "floating point `" ++ Json.floatLayout.write value ++ "`"
  | .text value => "string " ++ Text.quoted value
  | .list _ => "sequence"
  | .map _ => "map"

def RecordError.message : RecordError → String
  | .wrongKind found expected => "invalid type: " ++ describe found ++ ", expected " ++ expected
  | .tooShort length record size =>
    "invalid length " ++ toString length ++ ", expected struct " ++ record ++ " with " ++ toString size ++
      (if size = 1 then " element" else " elements")
  | .tooLong length => "invalid length " ++ toString length ++ ", expected fewer elements in array"

/-- How the records of a type are read: their name, their fields, a record without any, and how a field of
it is set. -/
structure RecordKind (ρ : Type) where
  name : String
  fields : List String
  empty : ρ
  setField : ρ → String → Data → Except RecordError ρ

namespace RecordKind

variable {ρ : Type}

/-- Sets fields one after the other. -/
def setAll (kind : RecordKind ρ) (entries : List (String × Data)) : Except RecordError ρ :=
  entries.foldlM (fun record (field, value) => kind.setField record field value) kind.empty

/-- Reads a record. The fields are read in the order they are written in, before a list is measured. -/
def read (kind : RecordKind ρ) : Data → Except RecordError ρ
  | .map entries => kind.setAll entries
  | .list items => do
    let record ← kind.setAll (kind.fields.zip items)
    if items.length < kind.fields.length then
      throw (.tooShort items.length kind.name kind.fields.length)
    if kind.fields.length < items.length then throw (.tooLong items.length)
    return record
  | other => .error (.wrongKind other ("struct " ++ kind.name))

end RecordKind

/-- Reads something that may be null. -/
def readOptional {α : Type} (read : Data → Except RecordError α) : Data → Except RecordError (Option α)
  | .null => .ok none
  | data => some <$> read data

def readText : Data → Except RecordError String
  | .text value => .ok value
  | other => .error (.wrongKind other "a string")

end SchemaFragments.Config
