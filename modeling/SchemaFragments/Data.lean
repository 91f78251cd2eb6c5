import SchemaFragments.Number.Binary64
/-!
# Data of configuration files

Values as a JSON or YAML file writes them down. A map keeps its keys in order.
-/

namespace SchemaFragments

inductive Data where
  | null
  | boolean (value : Bool)
  | integer (value : Int)
  | float (value : Number.Binary64)
  | text (value : String)
  | list (items : List Data)
  | map (entries : List (String × Data))
deriving Repr

namespace Data

/-- The entries of a map, each key once. -/
abbrev Entries := List (String × Data)

namespace Entries

/-- Sets the value of a key. One that is there keeps its place, a new one comes last. -/
def set (key : String) (value : Data) : Entries → Entries
  | [] => [(key, value)]
  | (other, old) :: rest => if other = key then (other, value) :: rest else (other, old) :: set key value rest

/-- Removes a key. The last entry takes its place. -/
def remove (key : String) (entries : Entries) : Entries :=
  match entries.findIdx? (·.1 == key), entries.getLast? with
  | some index, some last => (List.set entries index last).dropLast
  | _, _ => entries

/-- Entries as they are written: of a repeated key the first place and the last value count. -/
def ofList (entries : List (String × Data)) : Entries :=
  entries.foldl (fun entries entry => set entry.1 entry.2 entries) []

end Entries

/-- The entries of a value that is a map. -/
def entries? : Data → Option Entries
  | .map entries => some entries
  | _ => none

def isNull : Data → Bool
  | .null => true
  | _ => false

/-- Integers have 64 bits, signed or not. -/
def leastInteger : Int := -9223372036854775808

def greatestInteger : Int := 18446744073709551615

end Data

end SchemaFragments
