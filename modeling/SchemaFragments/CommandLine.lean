import SchemaFragments.Config.Plan
/-!
# The command line

Long options take their value after `=` or as the next argument, short ones may be run together. Arguments
are read from left to right, and the first that asks for help, asks for the version or is wrong decides.
-/

namespace SchemaFragments

/-- What a run is asked to do. -/
structure Options where
  config : Option Path := none
  project : Config.Options := {}
  save : Bool := false
  verbose : Bool := false
  /-- How many workers to use; without a number that is left to the caller. -/
  threads : Option Nat := none
deriving DecidableEq, Repr

inductive Command where
  | run (options : Options)
  | help
  | version
deriving DecidableEq, Repr

namespace CommandLine

/-! ## Options -/

/-- Options without a value. -/
inductive Flag where
  | save
  | verbose
  | help
  | version
deriving DecidableEq, Repr

/-- Options with a value. -/
inductive Setting where
  | config
  | project
  | output
  | generator
  | threads
deriving DecidableEq, Repr

inductive Switch where
  | flag (flag : Flag)
  | setting (setting : Setting)
deriving DecidableEq, Repr

def Switch.ofLong : String → Option Switch
  | "config" => some (.setting .config)
  | "project" => some (.setting .project)
  | "output" => some (.setting .output)
  | "generator" => some (.setting .generator)
  | "num-threads" => some (.setting .threads)
  | "save" => some (.flag .save)
  | "verbose" => some (.flag .verbose)
  | "help" => some (.flag .help)
  | "version" => some (.flag .version)
  | _ => none

def Switch.ofShort : Char → Option Switch
  | 'c' => some (.setting .config)
  | 'p' => some (.setting .project)
  | 'o' => some (.setting .output)
  | 'g' => some (.setting .generator)
  | 's' => some (.flag .save)
  | 'h' => some (.flag .help)
  | 'V' => some (.flag .version)
  | _ => none

/-- Reads a number from 0 to 255, with an optional sign. -/
def readThreads (value : String) : Option Nat :=
  let (negative, digits) := Number.cutSign value.toList
  if digits.isEmpty || !digits.all Char.isDigit then none
  else
    let size := Number.natOfDigits digits
    if (negative && size ≠ 0) || 255 < size then none else some size

/-! ## Reading -/

/-- Why reading ends before the last argument. -/
inductive Stop where
  | help
  | version
  | invalid
deriving DecidableEq, Repr

/-- Sets something that was not set before. -/
def setOnce {α : Type} (old : Option α) (new : α) : Except Stop (Option α) :=
  if old.isSome then throw .invalid else return some new

/-- Sets a flag that was not set before. -/
def raise (flag : Bool) : Except Stop Bool := if flag then throw .invalid else return true

def readPath (value : String) : Except Stop Path := if value.isEmpty then throw .invalid else return ⟨value⟩

def applyFlag (options : Options) : Flag → Except Stop Options
  | .save => return { options with save := ← raise options.save }
  | .verbose => return { options with verbose := ← raise options.verbose }
  | .help => throw .help
  | .version => throw .version

/-- Sets an option to its value. Projects may be named again and again, all else once. -/
def applySetting (options : Options) (setting : Setting) (value : String) : Except Stop Options := do
  let project := options.project
  match setting with
  | .config => return { options with config := ← setOnce options.config (← readPath value) }
  | .project => return { options with project := { project with projects := project.projects ++ [value] } }
  | .output =>
    let directory ← setOnce project.outputDirectory (← readPath value)
    return { options with project := { project with outputDirectory := directory } }
  | .generator =>
    return { options with project := { project with generator := ← setOnce project.generator value } }
  | .threads =>
    match readThreads value with
    | some count => return { options with threads := ← setOnce options.threads count }
    | none => throw .invalid

/-- Reads a cluster of short options. A setting takes what follows it as its value, with an optional `=`;
without anything after it its value is the next argument. -/
def readShort (options : Options) : List Char → Except Stop (Options × Option Setting)
  | [] => return (options, none)
  | c :: rest =>
    match Switch.ofShort c with
    | none => throw .invalid
    | some (.flag flag) => do readShort (← applyFlag options flag) rest
    | some (.setting setting) =>
      match rest with
      | [] => return (options, some setting)
      | '=' :: value => return (← applySetting options setting (String.ofList value), none)
      | value => return (← applySetting options setting (String.ofList value), none)

/-- Reads a long option after its dashes. A flag takes no value. -/
def readLong (options : Options) (text : List Char) : Except Stop (Options × Option Setting) :=
  let name := String.ofList (text.takeWhile (· ≠ '='))
  match Switch.ofLong name, text.dropWhile (· ≠ '=') with
  | none, _ => throw .invalid
  | some (.flag flag), [] => return (← applyFlag options flag, none)
  | some (.flag _), _ :: _ => throw .invalid
  | some (.setting setting), [] => return (options, some setting)
  | some (.setting setting), _ :: value =>
    return (← applySetting options setting (String.ofList value), none)

/-- Reads an argument that is no value of the one before it. -/
def readArgument (options : Options) (argument : String) : Except Stop (Options × Option Setting) :=
  match argument.toList with
  | '-' :: '-' :: text => readLong options text
  | '-' :: c :: text => readShort options (c :: text)
  | _ => throw .invalid

/-- Whether an argument can be the value of the option before it. -/
def isValue (argument : String) : Bool := argument == "-" || argument.toList.head? ≠ some '-'

def readArguments (options : Options) : List String → Except Stop Options
  | [] => return options
  | argument :: rest =>
    if argument = "--" then if rest.isEmpty then return options else throw .invalid
    else do
      let (options, waiting) ← readArgument options argument
      match waiting, rest with
      | none, rest => readArguments options rest
      | some _, [] => throw .invalid
      | some setting, value :: rest =>
        if isValue value then readArguments (← applySetting options setting value) rest
        else throw .invalid

/-- The command that arguments stand for, none when they are wrong. -/
def read (arguments : List String) : Option Command :=
  match readArguments {} arguments with
  | .ok options => some (.run options)
  | .error .help => some .help
  | .error .version => some .version
  | .error .invalid => none

/-! ## Texts -/

def versionText : String := "gqlfrag 1.0.0\n"

def helpText : String :=
  "GraphQL Fragment generator (gqlfrag) derives reusable fragments for every object type of a schema.\n\n" ++
  "Usage: gqlfrag [OPTIONS]\n\n" ++
  "Options:\n" ++
  "  -c, --config <FILE>          Path of the project configuration file. Without it, `.graphqlconfig`, " ++
    "`.graphqlconfig.yaml` or `.graphqlconfig.yml` is searched for in the working directory and its parents\n" ++
  "  -p, --project <NAME>         Only generate fragments for the named project (may be repeated)\n" ++
  "  -o, --output <DIR>           Output folder, fragments are written to DIR/<project>.fragments.<ext>\n" ++
  "  -g, --generator <GENERATOR>  Generate to `js` or `graphql`\n" ++
  "  -s, --save                   Save settings to config file\n" ++
  "      --verbose                Show verbose output messages\n" ++
  "      --num-threads <NUMBER>   Sets the number of threads (defaults to number of CPU cores)\n" ++
  "  -h, --help                   Print help\n" ++
  "  -V, --version                Print version\n"

/-- Whether to colour messages, by whether they go to a terminal and the environment variables that force
colours, forbid them and turn them off. -/
def usesColor (terminal : Bool) (force forbid wanted : Option String) : Bool :=
  force.any (· != "0") || (forbid.isNone && terminal && wanted.all (· != "0"))

end CommandLine

end SchemaFragments
