import SchemaFragments.Document.Basic
import SchemaFragments.Files.Tree
import SchemaFragments.Text.Lines
/-!
# Messages

What the user reads: errors, warnings and status lines, some with the place in a file that they are about.
-/

namespace SchemaFragments

namespace Message

inductive Level where
  | error
  | programError
  | warning
  | info
  | success
deriving DecidableEq, Repr

def Level.isFailure : Level → Bool
  | .error | .programError => true
  | .warning | .info | .success => false

def Level.label : Level → String
  | .error => "error"
  | .programError => "program error"
  | .warning => "warning"
  | .info => "info"
  | .success => "success"

/-- A line of a file that a message points at. -/
structure Place where
  position : Position
  line : String
  help : Option String := none
deriving DecidableEq, Repr

/-- The place of a position in a text. -/
def Place.ofText (text : String) (position : Position) (help : Option String) : Place :=
  ⟨position, String.ofList (Text.lineAt text.toList position.line), help⟩

/-- A file, and the place in it if one is known. -/
structure Source where
  path : Path
  place : Option Place
deriving DecidableEq, Repr

end Message

structure Message where
  level : Message.Level
  title : String
  source : Option Message.Source := none
  help : Option String := none
deriving DecidableEq, Repr

namespace Message

def isFailure (message : Message) : Bool := message.level.isFailure

/-! ## Messages about files -/

/-- The message about a file that cannot be read. -/
def unreadable (path : Path) (error : FileError) : Message :=
  ⟨.error, "could not read `" ++ path.text ++ "`: " ++ error.message, none, none⟩

/-- The message about a file or directory that cannot be written. -/
def unwritable (path : Path) (error : FileError) : Message :=
  ⟨.error, "could not write `" ++ path.text ++ "`: " ++ error.message, none, none⟩

/-- An error in a file: help goes with the place where there is one. -/
def inFile (title : String) (path : Path) (contents : String) (position : Option Position)
    (help : Option String) : Message :=
  match position with
  | some position => ⟨.error, title, some ⟨path, some (.ofText contents position help)⟩, none⟩
  | none => ⟨.error, title, some ⟨path, none⟩, help⟩

/-! ## Colours -/

/-- Styles of a terminal, by their codes. -/
inductive Style where
  | bold
  | boldRed
  | boldGreen
  | boldYellow
  | boldBlue
  | boldCyan
deriving DecidableEq, Repr

def Style.codes : Style → String
  | .bold => "1"
  | .boldRed => "1;31"
  | .boldGreen => "1;32"
  | .boldYellow => "1;33"
  | .boldBlue => "1;34"
  | .boldCyan => "1;36"

def Level.style : Level → Style
  | .error | .programError => .boldRed
  | .warning => .boldYellow
  | .info => .boldCyan
  | .success => .boldGreen

def Style.start (style : Style) : String := "\x1b[" ++ style.codes ++ "m"

def reset : String := "\x1b[0m"

/-- Starts a style again after every reset within a text. -/
def resume (style : List Char) : List Char → List Char
  | '\x1b' :: '[' :: '0' :: 'm' :: rest => reset.toList ++ style ++ resume style rest
  | c :: rest => c :: resume style rest
  | [] => []

def paint (color : Bool) (style : Style) (text : String) : String :=
  if color then style.start ++ String.ofList (resume style.start.toList text.toList) ++ reset else text

/-! ## Layout -/

def spaces (count : Nat) : String := String.ofList (List.replicate count ' ')

def helpLine (color : Bool) (margin : String) : Option String → String
  | some help => "\n" ++ margin ++ paint color .bold "= help:" ++ " " ++ help
  | none => ""

/-- The source line between two bars, with a mark under the column. The help of the place comes before
that of the message. -/
def renderPlace (color : Bool) (path : Path) (place : Place) (help : Option String) : String :=
  let number := toString place.position.line
  let bar := paint color .boldBlue "|"
  let gutter := spaces (number.length + 1)
  "\n" ++ spaces number.length ++ paint color .boldBlue "-->" ++ " " ++ path.text ++ ":" ++ number ++ ":" ++
    toString place.position.column ++
  "\n" ++ gutter ++ bar ++
  "\n" ++ paint color .boldBlue number ++ " " ++ bar ++ " " ++ place.line ++
  "\n" ++ gutter ++ bar ++ " " ++ spaces (place.position.column - 1) ++ paint color .boldRed "^" ++
  helpLine color gutter (place.help <|> help)

def render (color : Bool) (message : Message) : String :=
  paint color message.level.style message.level.label ++ ": " ++ paint color .bold message.title ++
  match message.source with
  | none => helpLine color "  " message.help
  | some ⟨path, none⟩ =>
    "\n " ++ paint color .boldBlue "-->" ++ " " ++ path.text ++ helpLine color "  " message.help
  | some ⟨path, some place⟩ => renderPlace color path place message.help

/-- The lines a list of messages is printed as. -/
def renderAll (color : Bool) (messages : List Message) : String :=
  String.join (messages.map fun message => message.render color ++ "\n")

end Message

end SchemaFragments
