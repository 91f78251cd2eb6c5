import SchemaFragments.Document.ParseError
/-!
# Parser of tokens

Readers that take tokens off the front of a list, each choice made on the first of them.
-/

namespace SchemaFragments.Document

/-- Why a reader stops. -/
inductive Failure where
  | endOfTokens
  | unexpected (token : Token)
  | complaint (position : Position) (complaints : List Complaint)
  | tornBlockString
deriving DecidableEq, Repr

abbrev Parser := StateT (List Token) (Except Failure)

namespace Parser

variable {α : Type}

def fail (failure : Failure) : Parser α := fun _ => .error failure

def complain (position : Position) (complaint : Complaint) : Parser α :=
  fail (.complaint position [complaint])

/-- Takes the first token if it is of a class. -/
def token (accepts : Token → Bool) : Parser Token := fun tokens =>
  match tokens with
  | [] => .error .endOfTokens
  | first :: rest => if accepts first then .ok (first, rest) else .error (.unexpected first)

/-- Refuses the first token. -/
def unexpected : Parser α := fun tokens =>
  match tokens with
  | [] => .error .endOfTokens
  | first :: _ => .error (.unexpected first)

/-- Whether the first token is of a class; takes nothing. -/
def atToken (accepts : Token → Bool) : Parser Bool := fun tokens => .ok (tokens.head?.any accepts, tokens)

/-- Reads an item if the first token can start one. -/
def perhaps (starts : Token → Bool) (item : Parser α) : Parser (Option α) := do
  if ← atToken starts then return some (← item) else return none

/-- Reads items as long as the first token can start one. -/
def many (starts : Token → Bool) (item : Parser α) (tokens : List Token) :
    Except Failure (List α × List Token) :=
  if tokens.head?.any starts then
    match item tokens with
    | .error failure => .error failure
    | .ok (first, rest) =>
      if rest.length < tokens.length then
        match many starts item rest with
        | .error failure => .error failure
        | .ok (others, rest) => .ok (first :: others, rest)
      else .ok ([first], rest)
  else .ok ([], tokens)
termination_by tokens.length

/-- Reads one item and then as many more as there are. -/
def many1 (starts : Token → Bool) (item : Parser α) : Parser (List α) := do
  let first ← item
  return first :: (← many starts item)

/-! ## Single tokens -/

def isPunct (text : String) (token : Token) : Bool := token.kind == .punctuator && token.text == text

def isName (token : Token) : Bool := token.kind == .name

def isKeyword (text : String) (token : Token) : Bool := token.kind == .name && token.text == text

def isString (token : Token) : Bool := token.kind == .string || token.kind == .blockString

def punct (text : String) : Parser Unit := discard (token (isPunct text))

def name : Parser String := return (← token isName).text

/-- Takes a given name. -/
def keyword (text : String) : Parser Token := token (isKeyword text)

/-- Items parted by a punctuator, with one more of it allowed in front. -/
def separated (text : String) (item : Parser α) : Parser (List α) := do
  discard (perhaps (isPunct text) (punct text))
  let first ← item
  return first :: (← many (isPunct text) (do punct text; item))

end Parser

end SchemaFragments.Document
