import SchemaFragments.Document.Basic
import SchemaFragments.Text.Lines
/-!
# Tokens of a schema document

A text is cut into names, numbers, strings and punctuators; blanks, commas and comments between them are
skipped. Where no token can be read the tokens end with a fault.
-/

namespace SchemaFragments.Document

inductive TokenKind where
  | punctuator
  | name
  | int
  | float
  | string
  | blockString
deriving DecidableEq, Repr

structure Token where
  kind : TokenKind
  text : String
  position : Position
deriving DecidableEq, Repr

/-- Why no token can be read at a place. -/
inductive Fault where
  | character (c : Char)
  | bareDot
  | integer (text : String)
  | float (text : String)
  | openString
  | openBlockString
  | tooDeep
deriving DecidableEq, Repr

/-- How many brackets may be open at once. -/
def nestingLimit : Nat := 50

/-! ## Classes of characters -/

def isNameStart (c : Char) : Bool := c.isAlpha || c == '_'

def isNameChar (c : Char) : Bool := c.isAlphanum || c == '_'

def isNumberStart (c : Char) : Bool := c.isDigit || c == '-'

def isOpening (c : Char) : Bool := c == '(' || c == '[' || c == '{'

def isClosing (c : Char) : Bool := c == ')' || c == ']' || c == '}'

def isPunctuator (c : Char) : Bool :=
  isOpening c || isClosing c || ['!', '$', ':', '=', '@', '|', '&'].contains c

def endsNumber (c : Char) : Bool :=
  isPunctuator c || [' ', '\n', '\r', '\t', ',', '#'].contains c

/-! ## Numbers -/

/-- Either `0`, `-0`, or digits without a leading zero after an optional minus. -/
def isInteger (text : List Char) : Bool :=
  let digits := match text with
    | '-' :: rest => rest
    | _ => text
  !digits.isEmpty && digits.all Char.isDigit && (digits == ['0'] || digits.head? != some '0')

/-- What may follow the letter of an exponent: a sign or a digit from 1 to 8, then digits. -/
def isExponent : List Char → Bool
  | [] => false
  | c :: rest => (c == '-' || c == '+' || ('1' ≤ c && c ≤ '8')) && rest.all Char.isDigit

def isFraction (text : List Char) : Bool := !text.isEmpty && text.all Char.isDigit

def isDot (c : Char) : Bool := c == '.'

def isExponentLetter (c : Char) : Bool := c == 'e' || c == 'E'

/-- A number with a point or an exponent: the last of each counts, and the point comes first. -/
def isFloat (text : List Char) : Bool :=
  match Text.cutAtLast isDot text with
  | some (whole, afterDot) =>
    match Text.cutAtLast isExponentLetter text with
    | none => isInteger whole && isFraction afterDot
    | some _ =>
      match Text.cutAtLast isExponentLetter afterDot with
      | none => false
      | some (fraction, exponent) => isInteger whole && isFraction fraction && isExponent exponent
  | none =>
    match Text.cutAtLast isExponentLetter text with
    | none => false
    | some (whole, exponent) => isInteger whole && isExponent exponent

/-! ## Lexemes -/

/-- Characters of a string up to and with its closing quote, the opening one not counted. -/
def stringLength (escaped : Bool) : List Char → Option Nat
  | [] => none
  | c :: rest =>
    if c = '"' ∧ !escaped then some 1
    else if c = '\n' then none
    else (stringLength (!escaped && c == '\\') rest).map (· + 1)

/-- Characters of a block string up to and with its closing quotes, the opening ones not counted. Quotes
after a backslash do not close. -/
def blockStringLength (afterBackslash : Bool) : List Char → Option Nat
  | '"' :: '"' :: '"' :: rest =>
    if afterBackslash then (blockStringLength false rest).map (· + 3) else some 3
  | c :: rest => (blockStringLength (c == '\\') rest).map (· + 1)
  | [] => none

/-- The kind of the token that starts with `first`, and how many characters of `rest` belong to it. -/
def lexeme (first : Char) (rest : List Char) : Except Fault (TokenKind × Nat) :=
  if isPunctuator first then .ok (.punctuator, 0)
  else if first = '.' then
    if rest.take 2 = ['.', '.'] then .ok (.punctuator, 2) else .error .bareDot
  else if isNameStart first then .ok (.name, (rest.takeWhile isNameChar).length)
  else if isNumberStart first then
    let tail := rest.takeWhile (!endsNumber ·)
    let text := first :: tail
    if text.any fun c => isDot c || isExponentLetter c then
      if isFloat text then .ok (.float, tail.length) else .error (.float (String.ofList text))
    else if isInteger text then .ok (.int, tail.length) else .error (.integer (String.ofList text))
  else if first = '"' then
    if rest.take 2 = ['"', '"'] then
      match blockStringLength false (rest.drop 2) with
      | some length => .ok (.blockString, length + 2)
      | none => .error .openBlockString
    else match stringLength false rest with
      | some length => .ok (.string, length)
      | none => .error .openString
  else .error (.character first)

/-! ## Positions -/

namespace Position

def nextLine (position : Position) : Position := ⟨position.line + 1, 1⟩

def advance (position : Position) (columns : Nat) : Position := ⟨position.line, position.column + columns⟩

end Position

/-- The position after a token: only a block string can hold line ends. -/
def positionAfter (position : Position) (kind : TokenKind) (text : List Char) : Position :=
  if kind = .blockString ∧ '\n' ∈ text then
    ⟨position.line + text.count '\n', (text.reverse.takeWhile (· ≠ '\n')).length + 1⟩
  else Position.advance position text.length

/-- Skips blanks, commas, byte order marks and comments. A tab is eight columns wide, a carriage return
and a byte order mark have no width, and a comment ends its line at a carriage return as well. -/
def skipIgnored (inComment : Bool) (position : Position) : List Char → Position × List Char
  | [] => (position, [])
  | c :: rest =>
    if inComment then
      if c = '\n' ∨ c = '\r' then skipIgnored false (Position.nextLine position) rest
      else skipIgnored true position rest
    else if c = '\n' then skipIgnored false (Position.nextLine position) rest
    else if c = '\t' then skipIgnored false (Position.advance position 8) rest
    else if c = ' ' ∨ c = ',' then skipIgnored false (Position.advance position 1) rest
    else if c = '\r' ∨ c = '\ufeff' then skipIgnored false position rest
    else if c = '#' then skipIgnored true position rest
    else (position, c :: rest)

theorem skipIgnored_length (inComment : Bool) (position : Position) (text : List Char) :
    (skipIgnored inComment position text).2.length ≤ text.length := by
  induction text generalizing inComment position with
  | nil => simp [skipIgnored]
  | cons c rest ih =>
    unfold skipIgnored
    repeat' split
    all_goals first
      | exact Nat.le_succ_of_le (ih ..)
      | simp

/-! ## Texts -/

/-- The tokens of a text, where they stop, and why if that is not the end of the text. -/
structure Tokens where
  list : List Token
  stop : Position
  fault : Option Fault
deriving Repr

/-- Brackets open after a punctuator, none where one more would be too many. -/
def openAfter (depth : Nat) (c : Char) : Option Nat :=
  if isOpening c then if depth < nestingLimit then some (depth + 1) else none
  else if isClosing c then some (depth - 1)
  else some depth

/-- The tokens of a text that starts at a position, with `depth` brackets open. -/
def tokensFrom (depth : Nat) (position : Position) (text : List Char) : Tokens :=
  match _ : skipIgnored false position text with
  | (start, []) => ⟨[], start, none⟩
  | (start, c :: rest) =>
    match lexeme c rest with
    | .error fault => ⟨[], start, some fault⟩
    | .ok (kind, length) =>
      match if kind = .punctuator then openAfter depth c else some depth with
      | none => ⟨[], start, some .tooDeep⟩
      | some depth =>
        let lexeme := c :: rest.take length
        let following := tokensFrom depth (positionAfter start kind lexeme) (rest.drop length)
        { following with list := ⟨kind, String.ofList lexeme, start⟩ :: following.list }
termination_by text.length
decreasing_by
  have hskip : skipIgnored false position text = (start, c :: rest) := ‹_›
  have := skipIgnored_length false position text
  simp only [hskip, List.length_cons] at this
  simp only [List.length_drop]
  omega

def tokens (text : String) : Tokens := tokensFrom 0 ⟨1, 1⟩ text.toList

end SchemaFragments.Document
