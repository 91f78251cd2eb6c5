import SchemaFragments.Yaml.Property
import SchemaFragments.Yaml.Scalar
/-!
# The tokens of a YAML text

Outside of flow collections the indent of a line opens and closes collections. That something is a key is
known only at the colon after it, so the token that announces a key is put before what was read already.
-/

namespace SchemaFragments.Yaml

/-- Something that is a key if a colon follows: the number of its first token and its place. -/
structure KeyPlace where
  token : Nat
  index : Nat
  line : Nat
  column : Nat
  /-- Whether there has to be a colon. -/
  required : Bool
deriving DecidableEq, Repr

/-- How far a text has been read. -/
structure Reading where
  cursor : Cursor
  tokens : Array Token
  /-- What may be a key in the innermost collection. -/
  key : Option KeyPlace
  /-- What may be a key around each open flow collection, from the inside. -/
  outerKeys : List (Option KeyPlace)
  /-- Whether a key may start here. -/
  keyAllowed : Bool
  /-- The columns of the open block collections, from the inside. -/
  columns : List Nat
  /-- Where a colon needs no space after it: behind a quoted scalar. -/
  adjacent : Nat
deriving Repr

namespace Reading

def start (text : List Char) : Reading := ⟨.start text, #[], none, [], true, [], 0⟩

def inFlow (r : Reading) : Bool := !r.outerKeys.isEmpty

/-- The column of the innermost block collection, `-1` outside of all. -/
def indent (r : Reading) : Int :=
  match r.columns with
  | [] => -1
  | column :: _ => column

def push (r : Reading) (token : Token) : Reading := { r with tokens := r.tokens.push token }

/-! ## Keys -/

/-- A key has to be on one line and within 1024 characters. -/
def isStale (r : Reading) (key : KeyPlace) : Bool :=
  key.line < r.cursor.line || key.index + 1024 < r.cursor.index

/-- Forgets what can be no key any more. -/
def dropStaleKeys (r : Reading) : Option Reading :=
  let stale (key : Option KeyPlace) := key.any r.isStale
  if (r.key :: r.outerKeys).any fun key => stale key && key.any (·.required) then none
  else
    let fresh (key : Option KeyPlace) := if stale key then none else key
    some { r with key := fresh r.key, outerKeys := r.outerKeys.map fresh }

/-- Forgets what may be a key in the innermost collection. -/
def dropKey (r : Reading) : Option Reading :=
  if r.key.any (·.required) then none else some { r with key := none }

/-- Remembers that a key may start here. -/
def saveKey (r : Reading) : Option Reading :=
  if r.keyAllowed then do
    let r ← r.dropKey
    let required := r.inFlow && r.indent = r.cursor.column
    return { r with
      key := some ⟨r.tokens.size, r.cursor.index, r.cursor.line, r.cursor.column, required⟩ }
  else some r

/-! ## Indents -/

/-- Opens a block collection at a column further right than the last one. Its token comes before that of
the given number, or last. -/
def openBlock (r : Reading) (column : Nat) (token : Token) (number : Option Nat) : Reading :=
  if r.inFlow || column ≤ r.indent then r
  else
    let tokens := match number with
      | some number => r.tokens.insertIdxIfInBounds number token
      | none => r.tokens.push token
    { r with tokens, columns := column :: r.columns }

/-- Closes the block collections right of a column. -/
def closeBlocks (r : Reading) (column : Int) : Reading :=
  if r.inFlow then r
  else
    let closed := r.columns.takeWhile fun (other : Nat) => column < (other : Int)
    { r with
      tokens := r.tokens ++ Array.replicate closed.length Token.blockEnd
      columns := r.columns.drop closed.length }

/-! ## Between tokens -/

/-- Moves over white space and comments. A tab counts only where no key can start, which is said by
`keyAllowed` and changed by a line end outside of flow collections. -/
def skipToToken (inFlow keyAllowed : Bool) (cursor : Cursor) : Bool × Cursor :=
  match _ : cursor.rest with
  | [] => (keyAllowed, cursor)
  | c :: _ =>
    if c = ' ' || (c = '\t' && (inFlow || !keyAllowed)) then skipToToken inFlow keyAllowed cursor.next
    else if _ : isBreak c then skipToToken inFlow (keyAllowed || !inFlow) cursor.skipBreak
    else if c = '#' then
      let after := cursor.skipComment
      if after.rest.length < cursor.rest.length then skipToToken inFlow keyAllowed after
      else (keyAllowed, after)
    else (keyAllowed, cursor)
termination_by cursor.rest.length
decreasing_by
  · exact Cursor.next_length_lt ‹_›
  · exact Cursor.skipBreak_length_lt ‹_› ‹_›
  · assumption

/-- Moves to the next token and closes what ends before it. -/
def toToken (r : Reading) : Option Reading := do
  let (keyAllowed, cursor) := skipToToken r.inFlow r.keyAllowed r.cursor
  let r ← { r with keyAllowed, cursor }.dropStaleKeys
  return r.closeBlocks r.cursor.column

/-! ## Tokens -/

def readDirectiveLine (r : Reading) : Option Reading := do
  let r ← (r.closeBlocks (-1)).dropKey
  let (token, cursor) ← readDirective r.cursor.next
  return { r.push token with keyAllowed := false, cursor }

def readDocumentMark (r : Reading) (token : Token) : Option Reading := do
  let r ← (r.closeBlocks (-1)).dropKey
  return { r.push token with keyAllowed := false, cursor := r.cursor.skip 3 }

def openFlow (r : Reading) (token : Token) : Option Reading := do
  let r ← r.saveKey
  return { r.push token with
    key := none
    outerKeys := r.key :: r.outerKeys
    keyAllowed := true
    cursor := r.cursor.next }

def closeFlow (r : Reading) (token : Token) : Option Reading := do
  let r ← r.dropKey
  return { r.push token with
    key := r.outerKeys.head?.join
    outerKeys := r.outerKeys.drop 1
    keyAllowed := false
    cursor := r.cursor.next }

def readComma (r : Reading) : Option Reading := do
  let r ← r.dropKey
  return { r.push .flowEntry with keyAllowed := true, cursor := r.cursor.next }

def readDash (r : Reading) : Option Reading := do
  if r.inFlow || !r.keyAllowed then none
  else
    let r ← (r.openBlock r.cursor.column .blockSequenceStart none).dropKey
    return { r.push .blockEntry with keyAllowed := true, cursor := r.cursor.next }

def readQuestion (r : Reading) : Option Reading := do
  if !r.inFlow && !r.keyAllowed then none
  else
    let r ← (r.openBlock r.cursor.column .blockMappingStart none).dropKey
    return { r.push .key with keyAllowed := !r.inFlow, cursor := r.cursor.next }

def readColon (r : Reading) : Option Reading :=
  match r.key with
  | some key =>
    let announced := { r with tokens := r.tokens.insertIdxIfInBounds key.token .key }
    let opened := announced.openBlock key.column .blockMappingStart (some key.token)
    some { opened.push .value with key := none, keyAllowed := false, cursor := r.cursor.next }
  | none =>
    if !r.inFlow && !r.keyAllowed then none
    else
      let opened := r.openBlock r.cursor.column .blockMappingStart none
      some { opened.push .value with keyAllowed := !r.inFlow, cursor := r.cursor.next }

/-- Reads a token that may start a key. -/
def readNode (r : Reading) (read : Cursor → Option (Token × Cursor)) : Option Reading := do
  let r ← r.saveKey
  let (token, cursor) ← read r.cursor
  return { r.push token with keyAllowed := false, cursor }

def readQuotedScalar (r : Reading) (single : Bool) : Option Reading := do
  let r ← r.readNode fun cursor =>
    (readQuoted single .none cursor.next).map fun (text, cursor) =>
      (.scalar .quoted (String.ofList text), cursor)
  return { r with adjacent := r.cursor.index }

def readBlockScalar (r : Reading) (literal : Bool) : Option Reading := do
  let r ← r.readNode fun cursor =>
    (readBlock literal r.indent cursor.next).map fun (text, cursor) =>
      (.scalar .block (String.ofList text), cursor)
  return { r with keyAllowed := true }

def readPlainScalar (r : Reading) : Option Reading := do
  let r ← r.saveKey
  let (text, left, cursor) ← readPlain r.inFlow (r.indent + 1) true .none r.cursor
  return { r.push (.scalar .plain (String.ofList text)) with keyAllowed := left.hasBreak, cursor }

/-- Whether a colon here parts a key from its value, by what follows it. -/
def isValueColon (r : Reading) (rest : List Char) : Bool :=
  atSpace rest ||
    (r.inFlow && (rest.head?.any isFlowIndicator || r.cursor.index = r.adjacent))

/-- Reads the token that starts with a character. -/
def readToken (r : Reading) (c : Char) (rest : List Char) : Option Reading :=
  if r.cursor.column = 0 && c = '%' then r.readDirectiveLine
  else if r.cursor.atMark '-' then r.readDocumentMark .documentStart
  else if r.cursor.atMark '.' then r.readDocumentMark .documentEnd
  else if c = '[' then r.openFlow .flowSequenceStart
  else if c = '{' then r.openFlow .flowMappingStart
  else if c = ']' then r.closeFlow .flowSequenceEnd
  else if c = '}' then r.closeFlow .flowMappingEnd
  else if c = ',' then r.readComma
  else if c = '-' && atSpace rest then r.readDash
  else if c = '?' && (r.inFlow || atSpace rest) then r.readQuestion
  else if c = ':' && r.isValueColon rest then r.readColon
  else if c = '*' then r.readNode fun cursor =>
    (readName cursor.next).map fun (name, cursor) => (.reference name, cursor)
  else if c = '&' then r.readNode fun cursor =>
    (readName cursor.next).map fun (name, cursor) => (.anchor name, cursor)
  else if c = '!' then r.readNode fun cursor =>
    (readTag cursor).map fun (tag, cursor) => (.tag tag, cursor)
  else if c = '|' && !r.inFlow then r.readBlockScalar true
  else if c = '>' && !r.inFlow then r.readBlockScalar false
  else if c = '\'' then r.readQuotedScalar true
  else if c = '"' then r.readQuotedScalar false
  else if c = '%' || c = '@' || c = '`' then none
  else r.readPlainScalar

/-- Closes everything at the end of the text. -/
def finish (r : Reading) : Option (List Token) :=
  (r.closeBlocks (-1)).dropKey.map (·.tokens.toList)

/-- Reads at most `limit` tokens to the end of the text. -/
def readAll : (limit : Nat) → Reading → Option (List Token)
  | 0, _ => none
  | limit + 1, r => do
    let there ← r.toToken
    match there.cursor.rest with
    | [] => there.finish
    | c :: rest => readAll limit (← there.readToken c rest)

end Reading

/-- The tokens of a text, each of which is read off at least one character. A character NUL ends the text. -/
def tokens (text : String) : Option (List Token) :=
  let characters := text.toList.takeWhile (· ≠ '\x00')
  (Reading.start characters).readAll (characters.length + 1)

end SchemaFragments.Yaml
