/-!
# Tokens of YAML

What the text of a YAML document is made of, and the place a reader of it has come to.
-/

namespace SchemaFragments.Yaml

inductive Style where
  | plain
  | quoted
  | block
deriving DecidableEq, Repr

/-- A tag as it is written: its handle and what follows. -/
structure Tag where
  handle : String
  suffix : String
deriving DecidableEq, Repr

inductive Token where
  | versionDirective
  | tagDirective
  | documentStart
  | documentEnd
  | blockSequenceStart
  | blockMappingStart
  | blockEnd
  | flowSequenceStart
  | flowSequenceEnd
  | flowMappingStart
  | flowMappingEnd
  | blockEntry
  | flowEntry
  | key
  | value
  | reference (name : String)
  | anchor (name : String)
  | tag (tag : Tag)
  | scalar (style : Style) (text : String)
deriving DecidableEq, Repr

/-! ## Classes of characters -/

def isBreak (c : Char) : Bool := c == '\n' || c == '\r'

def isBlank (c : Char) : Bool := c == ' ' || c == '\t'

def isSpace (c : Char) : Bool := isBlank c || isBreak c

/-- Letters of anchors and of the handles of tags. -/
def isWordChar (c : Char) : Bool := c.isAlphanum || c == '_' || c == '-'

def isFlowIndicator (c : Char) : Bool := c == ',' || c == '[' || c == ']' || c == '{' || c == '}'

/-- Whether a text is at its end or starts with a space or line end. -/
def atSpace (text : List Char) : Bool := text.head?.all isSpace

/-- Whether a text is at its end or starts with a line end. -/
def atBreak (text : List Char) : Bool := text.head?.all isBreak

/-! ## Places -/

/-- A place in a text: characters, lines and columns before it, and what is left. A carriage return by
itself ends a line without starting a new one. -/
structure Cursor where
  index : Nat
  line : Nat
  column : Nat
  rest : List Char
deriving DecidableEq, Repr

namespace Cursor

def start (text : List Char) : Cursor := ⟨0, 0, 0, text⟩

/-- Moves over one character. -/
def next (cursor : Cursor) : Cursor :=
  match cursor.rest with
  | [] => cursor
  | c :: rest =>
    if c = '\n' then ⟨cursor.index + 1, cursor.line + 1, 0, rest⟩
    else ⟨cursor.index + 1, cursor.line, cursor.column + 1, rest⟩

def skip : (count : Nat) → Cursor → Cursor
  | 0, cursor => cursor
  | count + 1, cursor => skip count cursor.next

/-- Moves over the characters of a class at the front. -/
def skipWhile (p : Char → Bool) (cursor : Cursor) : Cursor :=
  skip (cursor.rest.takeWhile p).length cursor

/-- The characters of a class at the front. -/
def taken (p : Char → Bool) (cursor : Cursor) : List Char := cursor.rest.takeWhile p

/-- Moves over a line end, if there is one. -/
def skipBreak (cursor : Cursor) : Cursor :=
  match cursor.rest with
  | '\r' :: '\n' :: _ => cursor.next.next
  | c :: _ => if isBreak c then cursor.next else cursor
  | [] => cursor

/-- Moves over a comment, if there is one. -/
def skipComment (cursor : Cursor) : Cursor :=
  if cursor.rest.head? = some '#' then cursor.skipWhile (!isBreak ·) else cursor

theorem next_length_le (cursor : Cursor) : cursor.next.rest.length ≤ cursor.rest.length := by
  unfold next
  repeat' split
  all_goals simp_all

theorem next_length_lt {cursor : Cursor} {c : Char} {rest : List Char} (h : cursor.rest = c :: rest) :
    cursor.next.rest.length < cursor.rest.length := by
  unfold next
  rw [h]
  simp only
  split <;> simp

theorem skipBreak_length_lt {cursor : Cursor} {c : Char} {rest : List Char} (h : cursor.rest = c :: rest)
    (hc : isBreak c) : cursor.skipBreak.rest.length < cursor.rest.length := by
  have hlt := next_length_lt h
  unfold skipBreak
  split
  · exact Nat.lt_of_le_of_lt (next_length_le _) hlt
  · rename_i other _ _ heq
    obtain rfl : c = other := by rw [h] at heq; exact (List.cons.inj heq).1
    simp [hc, hlt]
  · simp_all

/-- Whether a line of its own starts here with one of the marks `---` and `...`. -/
def atMark (mark : Char) (cursor : Cursor) : Bool :=
  cursor.column == 0 && cursor.rest.take 3 == [mark, mark, mark] && atSpace (cursor.rest.drop 3)

def atDocumentMark (cursor : Cursor) : Bool := cursor.atMark '-' || cursor.atMark '.'

end Cursor

end SchemaFragments.Yaml
