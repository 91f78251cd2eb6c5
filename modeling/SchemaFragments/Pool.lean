import SchemaFragments.Job
/-!
# Worker pools

A pool of workers runs jobs, which are taken in order. A job that breaks off takes its worker along; once
no worker is left, the remaining jobs are not run.
-/

namespace SchemaFragments.Pool

/-- Reports on jobs that are not run. -/
def stopped (jobs : List Job) : List Report := jobs.map fun job => ⟨job, .stopped⟩

/-- Runs jobs one after the other, as long as one of the workers is left. -/
def runWith (workers : Nat) (jobs : List Job) (tree : FileTree) : List Report × FileTree :=
  match workers, jobs with
  | _, [] => ([], tree)
  | 0, jobs => (stopped jobs, tree)
  | workers + 1, job :: rest =>
    let (outcome, tree) := job.run tree
    let left := match outcome with
      | .stopped => workers
      | _ => workers + 1
    let (reports, tree) := runWith left rest tree
    (⟨job, outcome⟩ :: reports, tree)

/-- Runs jobs with a number of workers, at least one. The reports are in the order of the jobs. -/
def run (workers : Nat) (jobs : List Job) (tree : FileTree) : List Report × FileTree :=
  runWith (max workers 1) jobs tree

end SchemaFragments.Pool
