import SchemaFragments.Number.Hexadecimal
import SchemaFragments.Yaml.Token
/-!
# Scalars of YAML

Plain and quoted scalars, whose line ends are folded into spaces, and block scalars with their indents.
-/

namespace SchemaFragments.Yaml

/-! ## Folding -/

/-- White space within a scalar that is not written down yet. -/
inductive Gap where
  | none
  | spaces (text : List Char)
  /-- Line ends: whether the first of them is to be folded, and how many more there are. -/
  | breaks (folded : Bool) (more : Nat)
deriving DecidableEq, Repr

namespace Gap

def addSpace (c : Char) : Gap → Gap
  | .none => .spaces [c]
  | .spaces text => .spaces (text ++ [c])
  | .breaks folded more => .breaks folded more

def addBreak : Gap → Gap
  | .none | .spaces _ => .breaks true 0
  | .breaks folded more => .breaks folded (more + 1)

/-- A single line end becomes a space, of several the first is dropped. -/
def text : Gap → List Char
  | .none => []
  | .spaces text => text
  | .breaks true 0 => [' ']
  | .breaks _ more => List.replicate more '\n'

def hasBreak : Gap → Bool
  | .breaks .. => true
  | _ => false

end Gap

/-! ## Quoted scalars -/

/-- The character of a single letter escape. -/
def simpleEscape : Char → Option Char
  | '0' => some '\x00'
  | 'a' => some '\x07'
  | 'b' => some '\x08'
  | 't' | '\t' => some '\t'
  | 'n' => some '\n'
  | 'v' => some '\x0b'
  | 'f' => some '\x0c'
  | 'r' => some '\r'
  | 'e' => some '\x1b'
  | ' ' => some ' '
  | '"' => some '"'
  | '\'' => some '\''
  | '\\' => some '\\'
  | 'N' => some '\u0085'
  | '_' => some '\u00a0'
  | 'L' => some '\u2028'
  | 'P' => some '\u2029'
  | _ => none

/-- How many digits the code of an escape has. -/
def codeLength : Char → Option Nat
  | 'x' => some 2
  | 'u' => some 4
  | 'U' => some 8
  | _ => none

/-- What an escape stands for, by what follows the backslash, and how many characters that is. -/
def readEscape (text : List Char) : Option (Char × Nat) := do
  let c ← text.head?
  match codeLength c with
  | none => return (← simpleEscape c, 1)
  | some length =>
    let digits := (text.drop 1).take length
    if digits.length < length then none
    else
      let n ← Number.hexNumber digits
      if h : n.isValidChar then some (Char.ofNatAux n h, length + 1) else none

/-- Reads the rest of a quoted scalar after its opening quote. In single quotes a quote is written twice,
in double quotes there are escapes, and a line end after a backslash stands for nothing. -/
def readQuoted (single : Bool) (gap : Gap) (cursor : Cursor) : Option (List Char × Cursor) :=
  match _ : cursor.rest with
  | [] => none
  | c :: rest =>
    if isBlank c then readQuoted single (gap.addSpace c) cursor.next
    else if _ : isBreak c then readQuoted single gap.addBreak cursor.skipBreak
    else if cursor.atDocumentMark then none
    else if single && c = '\'' then
      if rest.head? = some '\'' then
        (readQuoted single .none cursor.next.next).map fun (text, cursor) =>
          (gap.text ++ '\'' :: text, cursor)
      else some (gap.text, cursor.next)
    else if !single && c = '"' then some (gap.text, cursor.next)
    else if !single && c = '\\' then
      if rest.head?.any isBreak then
        if cursor.next.skipBreak.rest.length < cursor.rest.length then
          (readQuoted single (.breaks false 0) cursor.next.skipBreak).map fun (text, cursor) =>
            (gap.text ++ text, cursor)
        else none
      else match readEscape rest with
        | none => none
        | some (decoded, length) =>
          let after := cursor.next.skip length
          if after.rest.length < cursor.rest.length then
            (readQuoted single .none after).map fun (text, cursor) => (gap.text ++ decoded :: text, cursor)
          else none
    else (readQuoted single .none cursor.next).map fun (text, cursor) => (gap.text ++ c :: text, cursor)
termination_by cursor.rest.length
decreasing_by
  · exact Cursor.next_length_lt ‹_›
  · exact Cursor.skipBreak_length_lt ‹_› ‹_›
  · exact Nat.lt_of_le_of_lt (Cursor.next_length_le _) (Cursor.next_length_lt ‹_›)
  · assumption
  · assumption
  · exact Cursor.next_length_lt ‹_›

/-! ## Plain scalars -/

/-- Whether a plain scalar ends before what is left of a text. -/
def endsPlain (inFlow : Bool) : List Char → Bool
  | [] => true
  | c :: rest =>
    (c == ':' && (atSpace rest || (inFlow && rest.head?.any isFlowIndicator))) ||
      (inFlow && isFlowIndicator c)

/-- Reads a plain scalar, which outside of flow collections has to be indented. Gives the white space after
it too. `fresh` tells that the last character was white space. -/
def readPlain (inFlow : Bool) (indent : Int) (fresh : Bool) (gap : Gap) (cursor : Cursor) :
    Option (List Char × Gap × Cursor) :=
  match _ : cursor.rest with
  | [] => some ([], gap, cursor)
  | c :: rest =>
    if isBlank c then
      if gap.hasBreak && (cursor.column : Int) < indent && c = '\t' then none
      else readPlain inFlow indent true (gap.addSpace c) cursor.next
    else if _ : isBreak c then readPlain inFlow indent true gap.addBreak cursor.skipBreak
    else if (fresh && !inFlow && gap != .none && (cursor.column : Int) < indent) ||
        (fresh && (cursor.atDocumentMark || c = '#')) || endsPlain inFlow (c :: rest) then
      some ([], gap, cursor)
    else
      (readPlain inFlow indent false .none cursor.next).map fun (text, left, cursor) =>
        (gap.text ++ c :: text, left, cursor)
termination_by cursor.rest.length
decreasing_by
  · exact Cursor.next_length_lt ‹_›
  · exact Cursor.skipBreak_length_lt ‹_› ‹_›
  · exact Cursor.next_length_lt ‹_›

/-! ## Block scalars -/

/-- What becomes of the line ends at the end of a block scalar. -/
inductive Chomping where
  | strip
  | clip
  | keep
deriving DecidableEq, Repr

/-- Reads an indicator of chomping. -/
def chompingOf (c : Char) : Option Chomping :=
  if c = '+' then some .keep else if c = '-' then some .strip else none

/-- Reads the indicators after `|` or `>`: chomping and indent in either order. -/
def readIndicators (cursor : Cursor) : Option (Chomping × Nat × Cursor) :=
  let digit (cursor : Cursor) : Option (Nat × Cursor) :=
    match cursor.rest with
    | c :: _ =>
      if c.isDigit then if c = '0' then none else some (c.toNat - '0'.toNat, cursor.next)
      else some (0, cursor)
    | [] => some (0, cursor)
  match cursor.rest.head?.bind chompingOf with
  | some chomping => (digit cursor.next).map fun (increment, cursor) => (chomping, increment, cursor)
  | none => do
    let (increment, cursor) ← digit cursor
    match if increment = 0 then none else cursor.rest.head?.bind chompingOf with
    | some chomping => return (chomping, increment, cursor.next)
    | none => return (.clip, increment, cursor)

/-- Skips empty lines and the indent of the next line, at most `indent` wide unless that is 0. Counts the
lines and the widest indent. A tab in the indent is refused. -/
def skipIndents (indent widest lines : Nat) (cursor : Cursor) : Option (Nat × Nat × Cursor) :=
  match _ : cursor.rest with
  | [] => some (max widest cursor.column, lines, cursor)
  | c :: _ =>
    let inside := indent == 0 || cursor.column < indent
    if inside && c = ' ' then skipIndents indent widest lines cursor.next
    else if inside && c = '\t' then none
    else if _ : isBreak c then skipIndents indent (max widest cursor.column) (lines + 1) cursor.skipBreak
    else some (max widest cursor.column, lines, cursor)
termination_by cursor.rest.length
decreasing_by
  · exact Cursor.next_length_lt ‹_›
  · exact Cursor.skipBreak_length_lt ‹_› ‹_›

/-- What stands between two lines of a block scalar. Lines of a folded one are joined unless one of them
starts with a blank. -/
def lineJoin (literal afterBlank atBlank : Bool) (hasBreak : Bool) (more : Nat) : List Char :=
  let folds := !literal && hasBreak && !afterBlank && !atBlank
  (if folds then if more = 0 then [' '] else [] else if hasBreak then ['\n'] else []) ++
    List.replicate more '\n'

/-- Reads the lines of a block scalar, with what was left open before them: whether the last line started
with a blank, whether it ended, and the empty lines after it. -/
def readBlockLines (literal : Bool) (chomping : Chomping) (indent : Nat)
    (afterBlank hasBreak : Bool) (more : Nat) (cursor : Cursor) : Option (List Char × Cursor) :=
  let tail := (if chomping = .strip || !hasBreak then [] else ['\n']) ++
    if chomping = .keep then List.replicate more '\n' else []
  if cursor.column ≠ indent || cursor.rest.isEmpty then some (tail, cursor)
  else
    let atBlank := cursor.rest.head?.any isBlank
    let join := lineJoin literal afterBlank atBlank hasBreak more
    let line := cursor.taken (!isBreak ·)
    let ended := cursor.skipWhile (!isBreak ·)
    if ended.rest.isEmpty then some (join ++ line, ended)
    else do
      let (_, lines, following) ← skipIndents indent 0 0 ended.skipBreak
      if following.rest.length < cursor.rest.length then
        let (text, cursor) ← readBlockLines literal chomping indent atBlank true lines following
        return (join ++ line ++ text, cursor)
      else none
termination_by cursor.rest.length

/-- Reads a block scalar after its `|` or `>`, inside a collection with an indent. -/
def readBlock (literal : Bool) (parentIndent : Int) (cursor : Cursor) : Option (List Char × Cursor) := do
  let (chomping, increment, cursor) ← readIndicators cursor
  let cursor := (cursor.skipWhile isBlank).skipComment
  if !atBreak cursor.rest then none
  else
    let indent := if increment = 0 then 0 else (max parentIndent 0).toNat + increment
    let (widest, lines, cursor) ← skipIndents indent 0 0 cursor.skipBreak
    let indent := if indent = 0 then max (max widest (parentIndent + 1).toNat) 1 else indent
    readBlockLines literal chomping indent false false lines cursor

end SchemaFragments.Yaml
