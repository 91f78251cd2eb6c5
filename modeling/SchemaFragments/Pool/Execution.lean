import SchemaFragments.Pool
/-!
# Executions of a pool

A pool at work, event by event. Workers take numbered jobs from a queue; a job reads its files at one moment
and writes its output at a later one, and other workers may act in between. Reports are sent into a channel.
Once all workers are gone each report is put into the slot with its number.
-/

namespace SchemaFragments.Pool

/-- A job with its number. -/
abbrev Task := Job × Nat

/-- What a worker is doing. -/
inductive Hand where
  | idle
  | reading (task : Task)
  | writing (task : Task) (compiled : Compiled)
  /-- A job is finished, but its report is not sent yet. -/
  | finished (report : Report) (number : Nat)
  | gone

/-- The job that a worker has not finished. -/
def Hand.pending? : Hand → Option Task
  | .reading task | .writing task _ => some task
  | _ => none

/-- A pool at work. -/
structure Floor where
  queue : List Task
  hands : List Hand
  channel : List (Report × Nat)
  tree : FileTree

/-- All jobs are queued, and no worker has taken one. There are no more workers than jobs. -/
def Floor.opening (workers : Nat) (jobs : List Job) (tree : FileTree) : Floor :=
  ⟨jobs.zipIdx, List.replicate (min (max workers 1) jobs.length) .idle, [], tree⟩

inductive Event where
  | take (worker : Nat) (task : Task)
  | compile (worker : Nat) (task : Task)
  | finish (worker : Nat) (task : Task) (outcome : Job.Outcome)
  | send (worker number : Nat)
  /-- A worker goes down with its job. -/
  | die (worker : Nat) (task : Task)
  /-- A worker goes because there are no more jobs. -/
  | leave (worker : Nat)

/-- What events come to. A worker may go down at any moment before its job is finished. -/
inductive Happens : Floor → Event → Floor → Prop
  | take {worker task queue hands channel tree} (h : hands[worker]? = some .idle) :
    Happens ⟨task :: queue, hands, channel, tree⟩ (.take worker task)
      ⟨queue, hands.set worker (.reading task), channel, tree⟩
  | compile {worker task compiled queue hands channel tree} (h : hands[worker]? = some (.reading task))
      (hc : task.1.compile tree = some (.ok compiled)) :
    Happens ⟨queue, hands, channel, tree⟩ (.compile worker task)
      ⟨queue, hands.set worker (.writing task compiled), channel, tree⟩
  | reject {worker task failure queue hands channel tree} (h : hands[worker]? = some (.reading task))
      (hc : task.1.compile tree = some (.error failure)) :
    Happens ⟨queue, hands, channel, tree⟩ (.finish worker task (.failed failure))
      ⟨queue, hands.set worker (.finished ⟨task.1, .failed failure⟩ task.2), channel, tree⟩
  | write {worker task compiled queue hands channel tree}
      (h : hands[worker]? = some (.writing task compiled)) :
    Happens ⟨queue, hands, channel, tree⟩ (.finish worker task (task.1.write compiled tree).1)
      ⟨queue, hands.set worker (.finished ⟨task.1, (task.1.write compiled tree).1⟩ task.2), channel,
        (task.1.write compiled tree).2⟩
  | send {worker number report queue hands channel tree}
      (h : hands[worker]? = some (.finished report number)) :
    Happens ⟨queue, hands, channel, tree⟩ (.send worker number)
      ⟨queue, hands.set worker .idle, channel ++ [(report, number)], tree⟩
  | die {worker task hand queue hands channel tree} (h : hands[worker]? = some hand)
      (hp : hand.pending? = some task) :
    Happens ⟨queue, hands, channel, tree⟩ (.die worker task) ⟨queue, hands.set worker .gone, channel, tree⟩
  | leave {worker hands channel tree} (h : hands[worker]? = some .idle) :
    Happens ⟨[], hands, channel, tree⟩ (.leave worker) ⟨[], hands.set worker .gone, channel, tree⟩

/-- Events that lead from one state of a pool to another, in any order. -/
inductive Runs (first : Floor) : List Event → Floor → Prop
  | refl : Runs first [] first
  | step {events event middle last} (h : Runs first events middle) (hs : Happens middle event last) :
    Runs first (events ++ [event]) last

/-- All workers are gone. -/
def Floor.IsClosed (floor : Floor) : Prop := ∀ hand ∈ floor.hands, hand = .gone

/-- Puts reports into the slots with their numbers. -/
def fill (slots : List (Option Report)) (channel : List (Report × Nat)) : List (Option Report) :=
  channel.foldl (fun slots entry => slots.set entry.2 (some entry.1)) slots

/-- The reports that are handed out. A job whose slot is empty counts as stopped. -/
def Floor.reports (jobs : List Job) (floor : Floor) : List Report :=
  List.zipWith (fun job report => report.getD ⟨job, .stopped⟩) jobs
    (fill (List.replicate jobs.length none) floor.channel)

end SchemaFragments.Pool
