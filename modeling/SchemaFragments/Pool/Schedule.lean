import SchemaFragments.Pool
/-!
# Schedules of a pool

The ways in which workers can share the jobs of a pool: each idle worker may take the next job, a busy one
sends its report or goes down with its job, and one that finds no job leaves. Jobs are told apart by their
numbers, and what becomes of a job does not depend on the others.
-/

namespace SchemaFragments.Pool

inductive Worker where
  | idle
  | busy (job : Nat)
  | gone
deriving DecidableEq, Repr

structure State where
  /-- The jobs that no worker has taken. -/
  waiting : List Nat
  workers : List Worker
  /-- The reports that were sent, with the numbers of their jobs. -/
  sent : List (Nat × Job.Outcome)

/-- Before anything happens every worker is idle. -/
def State.start (workers jobs : Nat) : State :=
  ⟨List.range jobs, List.replicate (min (max workers 1) jobs) .idle, []⟩

/-- What one worker does, where `outcome` tells what becomes of each job. -/
inductive Step (outcome : Nat → Job.Outcome) : State → State → Prop
  | take {waiting workers sent} (worker job : Nat) (h : workers[worker]? = some .idle) :
    Step outcome ⟨job :: waiting, workers, sent⟩ ⟨waiting, workers.set worker (.busy job), sent⟩
  | send {waiting workers sent} (worker job : Nat) (h : workers[worker]? = some (.busy job))
      (hf : outcome job ≠ .stopped) :
    Step outcome ⟨waiting, workers, sent⟩ ⟨waiting, workers.set worker .idle, sent ++ [(job, outcome job)]⟩
  | die {waiting workers sent} (worker job : Nat) (h : workers[worker]? = some (.busy job))
      (hs : outcome job = .stopped) :
    Step outcome ⟨waiting, workers, sent⟩ ⟨waiting, workers.set worker .gone, sent⟩
  | leave {workers sent} (worker : Nat) (h : workers[worker]? = some .idle) :
    Step outcome ⟨[], workers, sent⟩ ⟨[], workers.set worker .gone, sent⟩

/-- The states that steps lead to. -/
inductive Reaches (outcome : Nat → Job.Outcome) (first : State) : State → Prop
  | refl : Reaches outcome first first
  | step {middle last : State} (h : Reaches outcome first middle) (hs : Step outcome middle last) :
    Reaches outcome first last

/-- Whether all workers are gone. -/
def State.isComplete (state : State) : Bool := state.workers.all (· == .gone)

/-- The reports in the order of the jobs; a job without one counts as stopped. -/
def collect (jobs : List Job) (sent : List (Nat × Job.Outcome)) : List Report :=
  jobs.zipIdx.map fun (job, number) => ⟨job, (sent.lookup number).getD .stopped⟩

end SchemaFragments.Pool
