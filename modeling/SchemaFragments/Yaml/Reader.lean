import SchemaFragments.Data
import SchemaFragments.Number.Decimal
import SchemaFragments.Number.Hexadecimal
import SchemaFragments.Yaml.Node
/-!
# Reading YAML

What the scalars of a document stand for, and the document as data.
-/

namespace SchemaFragments.Yaml

open Number

/-! ## Scalars -/

/-- The number of digits in a base of at most sixteen. -/
def numberInBase (base : Nat) (digits : List Char) : Option Nat :=
  if digits.isEmpty then none
  else digits.foldl (fun total c => do
    let digit ← hexDigit c
    if digit < base then return (← total) * base + digit else none) (some 0)

/-- Reads an integer without a sign, in one of the bases. -/
def readNatural : List Char → Option Nat
  | '0' :: 'x' :: digits => numberInBase 16 digits
  | '0' :: 'o' :: digits => numberInBase 8 digits
  | '0' :: 'b' :: digits => numberInBase 2 digits
  | digits => numberInBase 10 digits

/-- Whether a text is a run of digits that starts with a zero and is no number therefore. -/
def isPaddedDigits (text : List Char) : Bool :=
  text.head? = some '0' && 1 < text.length && text.all Char.isDigit

/-- Reads an integer of any size. -/
def readInteger (text : List Char) : Option Int :=
  if isPaddedDigits text then none
  else
    let (negative, unsigned) := cutSign text
    (readNatural unsigned).map fun size => if negative then -(size : Int) else size

/-- The number of a plain float: no number is null. A decimal out of range is no float. -/
def readFloat (text : List Char) : Option Data :=
  if [".inf", ".Inf", ".INF"].contains (String.ofList (cutSign text).2) then some .null
  else if [".nan", ".NaN", ".NAN"].contains (String.ofList text) then some .null
  else (readBinary64 text).bind fun value => if value.isFinite then some (.float value) else none

/-- Integers of up to 128 bits, signed or not, are told apart from floats. -/
def leastWide : Int := -170141183460469231731687303715884105728

def greatestWide : Int := 340282366920938463463374607431768211455

/-- What a plain scalar without a tag stands for. Integers between 64 and 128 bits are refused, larger ones
are floats. -/
def readPlainScalar (text : String) : Option Data :=
  if text = "~" || text = "null" then some .null
  else if text = "true" then some (.boolean true)
  else if text = "false" then some (.boolean false)
  else
    let chars := text.toList
    let other := if isPaddedDigits chars then Data.text text else (readFloat chars).getD (.text text)
    match readInteger chars with
    | none => some other
    | some value =>
      if Data.leastInteger ≤ value && value ≤ Data.greatestInteger then some (.integer value)
      else if leastWide ≤ value && value ≤ greatestWide then none
      else some other

/-- Words for infinity and for what is no number, which a sign may precede. -/
def isNumberWord (text : List Char) : Bool :=
  ["inf", "infinity", "nan"].contains (String.ofList ((cutSign text).2.map Char.toLower))

/-- Integers with a tag have 64 bits and a sign. -/
def greatestTagged : Int := 9223372036854775807

/-- What a scalar with a tag that is known stands for. -/
def readTagged (suffix text : String) : Option Data :=
  let chars := text.toList
  match suffix with
  | "bool" =>
    if text = "true" then some (.boolean true) else if text = "false" then some (.boolean false) else none
  | "int" => do
    let (negative, digits) := cutSign chars
    let size ← numberInBase 10 digits
    let value : Int := if negative then -(size : Int) else size
    if Data.leastInteger ≤ value && value ≤ greatestTagged then some (.integer value) else none
  | "float" =>
    if isNumberWord chars then some .null
    else (readBinary64 chars).map fun value => if value.isFinite then .float value else .null
  | "null" => if text = "~" || text = "null" then some .null else none
  | _ => some (.text text)

def readScalar (style : Style) (tag : Option Tag) (text : String) : Option Data :=
  match tag with
  | some tag => if tag.handle = "!!" then readTagged tag.suffix text else some (.text text)
  | none => if style = .plain then readPlainScalar text else some (.text text)

/-! ## Nodes -/

/-- Why a text is not read as a map. -/
inductive ReadError where
  | malformed
  | noDocument
  | severalDocuments
  | tooManyAliases
deriving DecidableEq, Repr

/-- How many collections may be open at once. -/
def nestingLimit : Nat := 128

/-- A reader of nodes that counts the aliases it follows. -/
abbrev NodeReader := StateT Nat (Except ReadError)

namespace Document

/-- How many aliases may be followed in a document. -/
def aliasLimit (document : Document) : Nat := 100 * document.size

/-- Follows an alias. -/
def follow (document : Document) : Node → NodeReader Node
  | .reference anchor => do
    modify (· + 1)
    if document.aliasLimit < (← get) then throw .tooManyAliases
    match document.anchored.lookup anchor with
    | some node => return node
    | none => throw .malformed
  | node => return node

def readLeaf (style : Style) (tag : Option Tag) (text : String) : NodeReader Data :=
  match readScalar style tag text with
  | some data => return data
  | none => throw .malformed

/-- The text of a key. -/
def readKey (document : Document) (node : Node) : NodeReader String := do
  match ← document.follow node with
  | .scalar _ _ text => return text
  | _ => throw .malformed

/-- The data of a node in which at most `depth` collections are open at once, aliases replaced. -/
def readNode (document : Document) : (depth : Nat) → Node → NodeReader Data
  | 0, node => do
    match ← document.follow node with
    | .scalar style tag text => readLeaf style tag text
    | _ => throw .malformed
  | depth + 1, node => do
    match ← document.follow node with
    | .scalar style tag text => readLeaf style tag text
    | .list items => return .list (← items.mapM (document.readNode depth))
    | .map entries =>
      let read ← entries.mapM fun (key, value) =>
        return (← document.readKey key, ← document.readNode depth value)
      return .map (Data.Entries.ofList read)
    | .reference _ => throw .malformed

def readEntries (document : Document) : Except ReadError Data.Entries := do
  let (data, _) ← (document.readNode nestingLimit document.root).run 0
  match data with
  | .map entries => return entries
  | _ => throw .malformed

end Document

/-- Reads a text that holds one document, a map. -/
def readMap (text : String) : Except ReadError Data.Entries := do
  match (tokens text).bind Document.readAll with
  | none => throw .malformed
  | some [] => throw .noDocument
  | some (document :: others) =>
    let entries ← document.readEntries
    if others.isEmpty then return entries else throw .severalDocuments

end SchemaFragments.Yaml
