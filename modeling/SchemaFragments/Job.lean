import SchemaFragments.Fragment.Rendering
import SchemaFragments.Import.Combined
/-!
# Jobs

A job goes from the schema of a project to the file with its fragments, without looking at the
configuration again.
-/

namespace SchemaFragments

/-- What is set for a project once its fragments are written. -/
structure Settings where
  output : String
  generator : String
deriving DecidableEq, Repr

structure Job where
  project : String
  schema : Path
  output : Path
  dialect : Dialect
  settings : Settings
deriving DecidableEq, Repr

namespace Job

/-- Why a job fails. -/
inductive Failure where
  | unloadable (problems : List Import.Problem)
  | unlinkable (source : Import.Source) (error : LinkError)
  | unwritable (path : Path) (error : FileError)
deriving Repr

def Failure.messages : Failure → List Message
  | .unloadable problems => problems.map (·.message)
  | .unlinkable source error => [source.linkError error]
  | .unwritable path error => [.unwritable path error]

inductive Outcome where
  /-- Fragments were written, for so many types. -/
  | written (typeCount : Nat)
  | failed (failure : Failure)
  /-- The job broke off and has nothing to report. -/
  | stopped
deriving Repr

def Outcome.isWritten : Outcome → Bool
  | .written _ => true
  | _ => false

/-- Compiles the schema of a job; none when a document cannot be read and there is nothing to report. -/
def compile (job : Job) (tree : FileTree) : Option (Except Failure Compiled) :=
  match Import.load tree job.schema with
  | .error .tornBlockString => none
  | .error (.problems problems) => some (.error (.unloadable problems))
  | .ok source =>
    match SchemaFragments.compile source.contents job.dialect with
    | .error (.parse .tornBlockString) => none
    | .error error => some (.error (.unlinkable source error))
    | .ok compiled => some (.ok compiled)

/-- Makes the directory that the output goes to. -/
def prepareOutput (job : Job) (tree : FileTree) : Except Failure FileTree :=
  match job.output.parents with
  | [] => .ok tree
  | parent :: above =>
    if parent.text.isEmpty then .ok tree
    else (tree.ensureDirectories (parent :: above)).mapError (.unwritable parent)

/-- Writes the fragments of a job. -/
def write (job : Job) (compiled : Compiled) (tree : FileTree) : Outcome × FileTree :=
  match job.prepareOutput tree with
  | .error failure => (.failed failure, tree)
  | .ok prepared =>
    match prepared.write job.output compiled.contents with
    | .error error => (.failed (.unwritable job.output error), prepared)
    | .ok written => (.written compiled.fragments.standard.length, written)

def run (job : Job) (tree : FileTree) : Outcome × FileTree :=
  match job.compile tree with
  | none => (.stopped, tree)
  | some (.error failure) => (.failed failure, tree)
  | some (.ok compiled) => job.write compiled tree

end Job

/-- What became of a job. -/
structure Report where
  job : Job
  outcome : Job.Outcome
deriving Repr

/-- The messages about a job that wrote nothing. -/
def Report.failures (report : Report) : List Message :=
  match report.outcome with
  | .written _ => []
  | .failed failure => failure.messages
  | .stopped =>
    [{ level := .programError
       title := "compiling project `" ++ report.job.project ++ "` stopped unexpectedly" }]

end SchemaFragments
