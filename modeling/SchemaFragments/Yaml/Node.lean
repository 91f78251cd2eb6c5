import SchemaFragments.Yaml.TokenList
/-!
# The nodes of a YAML document

A text holds one document, a tree of nodes. An alias names a node that was read before it.
-/

namespace SchemaFragments.Yaml

inductive Node where
  | scalar (style : Style) (tag : Option Tag) (text : String)
  | list (items : List Node)
  | map (entries : List (Node × Node))
  /-- The node with the anchor of that number. -/
  | reference (anchor : Nat)
deriving Repr

/-- What is left of the tokens, and what was read so far. -/
structure Progress where
  tokens : List Token
  /-- The numbers of the anchors by their names, the latest first. -/
  names : List (String × Nat)
  /-- The nodes with anchors by the numbers of those. -/
  anchored : List (Nat × Node)
  /-- How many scalars, aliases and ends of collections there are. -/
  size : Nat

/-- A reader of tokens. -/
abbrev Builder := StateT Progress Option

namespace Builder

def front : Builder (Option Token) := return (← get).tokens.head?

def drop : Builder Unit := modify fun p => { p with tokens := p.tokens.tail }

/-- Whether one of some tokens is next. -/
def sees (expected : List Token) : Builder Bool := return (← front).any expected.contains

def count (size : Nat) : Builder Unit := modify fun p => { p with size := p.size + size }

def scalar (style : Style) (tag : Option Tag) (text : String) : Builder Node := do
  count 1
  return .scalar style tag text

/-- A node that was left out is null. -/
def missing : Builder Node := scalar .plain none "~"

def anchor : Builder (Option Nat) := do
  match ← front with
  | some (.anchor name) =>
    drop
    modifyGet fun p => (some p.names.length, { p with names := (name, p.names.length) :: p.names })
  | _ => return none

def tag : Builder (Option Tag) := do
  match ← front with
  | some (.tag tag) => do
    drop
    return some tag
  | _ => return none

/-- An anchor and a tag, in either order. -/
def properties : Builder (Option Nat × Option Tag) := do
  match ← anchor with
  | some number => return (some number, ← tag)
  | none =>
    match ← tag with
    | some tag => return (← anchor, some tag)
    | none => return (none, none)

/-- Remembers a node that has an anchor. -/
def keep (anchor : Option Nat) (node : Node) : Builder Node := do
  match anchor with
  | some number => modify fun p => { p with anchored := (number, node) :: p.anchored }
  | none => pure ()
  return node

def reference (name : String) : Builder Node := do
  drop
  count 1
  match (← get).names.lookup name with
  | some number => return .reference number
  | none => failure

/-- Reads a collection from its first token on. -/
def collection {α : Type} (wrap : List α → Node) (items : Builder (List α)) : Builder Node := do
  drop
  count 2
  return wrap (← items)

mutual

/-- Reads a node. Block collections are allowed or not, and so are block sequences without an indent. -/
def node (fuel : Nat) (block unindented : Bool) : Builder Node :=
  match fuel with
  | 0 => failure
  | fuel + 1 => do
    match ← front with
    | some (.reference name) => reference name
    | _ =>
      let (anchor, tag) ← properties
      keep anchor (← content fuel block unindented tag (anchor.isSome || tag.isSome))

/-- Reads what follows the anchor and the tag of a node, after which it may be empty. -/
def content (fuel : Nat) (block unindented : Bool) (tag : Option Tag) (mayBeEmpty : Bool) : Builder Node :=
  match fuel with
  | 0 => failure
  | fuel + 1 => do
    match ← front with
    | some (.scalar style text) =>
      drop
      scalar style tag text
    | some .flowSequenceStart => collection .list (flowItems fuel true)
    | some .flowMappingStart => collection .map (flowEntries fuel true)
    | other =>
      if unindented && other == some .blockEntry then
        count 2
        return .list (← unindentedItems fuel)
      else if block && other == some .blockSequenceStart then collection .list (blockItems fuel)
      else if block && other == some .blockMappingStart then collection .map (blockEntries fuel)
      else if mayBeEmpty then scalar .plain tag ""
      else failure

def unindentedItems (fuel : Nat) : Builder (List Node) :=
  match fuel with
  | 0 => failure
  | fuel + 1 => do
    if ← sees [.blockEntry] then
      drop
      let item ← if ← sees [.blockEntry, .key, .value, .blockEnd] then missing else node fuel true false
      return item :: (← unindentedItems fuel)
    else return []

def blockItems (fuel : Nat) : Builder (List Node) :=
  match fuel with
  | 0 => failure
  | fuel + 1 => do
    match ← front with
    | some .blockEnd =>
      drop
      return []
    | some .blockEntry =>
      drop
      let item ← if ← sees [.blockEntry, .blockEnd] then missing else node fuel true false
      return item :: (← blockItems fuel)
    | _ => failure

/-- Reads a key or a value in a block mapping after its token. -/
def blockPart (fuel : Nat) : Builder Node :=
  match fuel with
  | 0 => failure
  | fuel + 1 => do
    if ← sees [.key, .value, .blockEnd] then missing else node fuel true true

def blockEntries (fuel : Nat) : Builder (List (Node × Node)) :=
  match fuel with
  | 0 => failure
  | fuel + 1 => do
    if ← sees [.blockEnd] then
      drop
      return []
    else
      let key ← if ← sees [.key] then do
          drop
          blockPart fuel
        else if ← sees [.value] then missing
        else failure
      let value ← if ← sees [.value] then do
          drop
          blockPart fuel
        else missing
      return (key, value) :: (← blockEntries fuel)

/-- Reads a value in a flow collection that ends with `close`. -/
def flowValue (fuel : Nat) (close : Token) : Builder Node :=
  match fuel with
  | 0 => failure
  | fuel + 1 => do
    if ← sees [.value] then
      drop
      if ← sees [.flowEntry, close] then missing else node fuel false false
    else missing

/-- Reads a mapping of one pair in a flow sequence after the token of its key. -/
def flowPair (fuel : Nat) : Builder Node :=
  match fuel with
  | 0 => failure
  | fuel + 1 => do
    count 2
    let key ← if ← sees [.value, .flowEntry, .flowSequenceEnd] then do
        drop
        missing
      else node fuel false false
    return .map [(key, ← flowValue fuel .flowSequenceEnd)]

def flowItems (fuel : Nat) (first : Bool) : Builder (List Node) :=
  match fuel with
  | 0 => failure
  | fuel + 1 => do
    if !first && (← sees [.flowEntry]) then drop
    else if !first && !(← sees [.flowSequenceEnd]) then failure
    if ← sees [.flowSequenceEnd] then
      drop
      return []
    else
      let item ← if ← sees [.key] then do
          drop
          flowPair fuel
        else node fuel false false
      return item :: (← flowItems fuel false)

def flowEntries (fuel : Nat) (first : Bool) : Builder (List (Node × Node)) :=
  match fuel with
  | 0 => failure
  | fuel + 1 => do
    if !first && (← sees [.flowEntry]) then drop
    else if !first && !(← sees [.flowMappingEnd]) then failure
    if ← sees [.flowMappingEnd] then
      drop
      return []
    else if ← sees [.key] then
      drop
      let key ← if ← sees [.value, .flowEntry, .flowMappingEnd] then missing else node fuel false false
      let value ← flowValue fuel .flowMappingEnd
      return (key, value) :: (← flowEntries fuel false)
    else if ← sees [.value] then
      let key ← missing
      let value ← flowValue fuel .flowMappingEnd
      return (key, value) :: (← flowEntries fuel false)
    else
      let key ← node fuel false false
      let value ← missing
      return (key, value) :: (← flowEntries fuel false)

end

end Builder

/-- Whether a token can stand only between documents. -/
def Token.isBetweenDocuments (token : Token) : Bool :=
  [.versionDirective, .tagDirective, .documentStart, .documentEnd].contains token

/-- Whether a token starts a directive. -/
def Token.isDirective (token : Token) : Bool := [.versionDirective, .tagDirective].contains token

/-- A document: its root and the nodes that have an anchor. -/
structure Document where
  root : Node
  anchored : List (Nat × Node)
  size : Nat

namespace Document

/-- Reads a document, and gives the tokens after it. The first one may start without a mark. -/
def read (first : Bool) (tokens : List Token) : Option (Document × List Token) := do
  let body := tokens.dropWhile Token.isDirective
  let explicit := body.head? = some .documentStart
  if !explicit && (!first || body.length < tokens.length) then none
  else
    let content := if explicit then body.tail else body
    let start : Progress := ⟨content, [], [], 0⟩
    let (root, progress) ←
      if explicit && content.head?.all Token.isBetweenDocuments then Builder.missing.run start
      else (Builder.node (4 * tokens.length + 4) true false).run start
    return (⟨root, progress.anchored, progress.size⟩, progress.tokens)

/-- Reads the documents that follow another one, after any number of ends. -/
def readMore (tokens : List Token) : Option (List Document) :=
  match tokens.dropWhile (· == .documentEnd) with
  | [] => some []
  | token :: rest =>
    match read false (token :: rest) with
    | none => none
    | some (document, left) =>
      if left.length < tokens.length then (readMore left).map (document :: ·) else none
termination_by tokens.length

/-- Reads all documents of a text. -/
def readAll (tokens : List Token) : Option (List Document) :=
  if tokens.isEmpty then some []
  else do
    let (document, left) ← read true tokens
    return document :: (← readMore left)

end Document

end SchemaFragments.Yaml
