import SchemaFragments.Pool.Execution
import SchemaFragments.Proofs.Schedules
/-!
# The ledger of an execution

Where each job of a pool is: queued, in the hands of a worker, sent or lost. Every event keeps the ledger since
it changes what one worker has in hand. In the end, whatever the order of the events and whichever workers
go down, the slot of a job that was finished holds its report.
-/

namespace SchemaFragments.Pool

variable {first middle floor next last : Floor} {events more : List Event} {event : Event} {workers : Nat}
  {jobs : List Job} {tree files : FileTree}

/-! ## What events and hands are about -/

def Event.taken? : Event → Option Task
  | .take _ task => some task
  | _ => none

def Event.finished? : Event → Option (Task × Job.Outcome)
  | .finish _ task outcome => some (task, outcome)
  | _ => none

def Event.lost? : Event → Option Task
  | .die _ task => some task
  | _ => none

/-- The jobs that workers took. -/
def takes (events : List Event) : List Task := events.filterMap Event.taken?

/-- The jobs that were finished, with what became of them. -/
def finishes (events : List Event) : List (Task × Job.Outcome) := events.filterMap Event.finished?

/-- The jobs that workers went down with. -/
def losses (events : List Event) : List Task := events.filterMap Event.lost?

def Hand.task? : Hand → Option Task
  | .reading task | .writing task _ => some task
  | .finished report number => some (report.job, number)
  | .idle | .gone => none

def Hand.result? : Hand → Option (Task × Job.Outcome)
  | .finished report number => some ((report.job, number), report.outcome)
  | _ => none

def taskOf (entry : Report × Nat) : Task := (entry.1.job, entry.2)

def resultOf (entry : Report × Nat) : Task × Job.Outcome := (taskOf entry, entry.1.outcome)

theorem filterMap_cons_eq {α β : Type} (f : α → Option β) (item : α) (items : List α) :
    (item :: items).filterMap f = (f item).toList ++ items.filterMap f := by
  cases h : f item <;> simp [h]

theorem filterMap_concat {α β : Type} (f : α → Option β) (items : List α) (item : α) :
    (items ++ [item]).filterMap f = items.filterMap f ++ (f item).toList := by
  rw [List.filterMap_append, filterMap_cons_eq, List.filterMap_nil, List.append_nil]

/-! ## What one event changes -/

theorem isStopped_write (job : Job) (compiled : Compiled) (tree : FileTree) :
    (job.write compiled tree).1.isStopped = false := by
  rw [Job.write]
  split
  · rfl
  · split <;> rfl

/-- An event changes what one worker has in hand. Of the queue it takes what it has in hand in addition, and
what it has in hand no longer was sent or is lost. A worker that goes leaves no queue or a job that is lost. -/
theorem Happens.changes (h : Happens floor event next) : ∃ worker old new sent,
    floor.hands[worker]? = some old ∧ next.hands = floor.hands.set worker new ∧
      next.channel = floor.channel ++ sent ∧ event.taken?.toList ++ next.queue = floor.queue ∧
      (event.taken?.toList ++ old.task?.toList).Perm
        (new.task?.toList ++ (sent.map taskOf ++ event.lost?.toList)) ∧
      (event.finished?.toList ++ old.result?.toList).Perm (new.result?.toList ++ sent.map resultOf) ∧
      (new = .gone → next.queue = [] ∨ event.lost? ≠ none) := by
  cases h with
  | take h => exact ⟨_, _, _, [], h, rfl, by simp, rfl, .refl _, .refl _, nofun⟩
  | compile h => exact ⟨_, _, _, [], h, rfl, by simp, rfl, .refl _, .refl _, nofun⟩
  | reject h => exact ⟨_, _, _, [], h, rfl, by simp, rfl, .refl _, .refl _, nofun⟩
  | write h => exact ⟨_, _, _, [], h, rfl, by simp, rfl, .refl _, .refl _, nofun⟩
  | send h => exact ⟨_, _, _, [_], h, rfl, rfl, rfl, .refl _, .refl _, nofun⟩
  | @die worker task hand queue hands channel tree h hp =>
    refine ⟨worker, hand, .gone, [], h, rfl, by simp, rfl, ?_, ?_, fun _ => .inr nofun⟩
    all_goals cases hand <;> cases hp <;> exact .refl _
  | leave h => exact ⟨_, _, _, [], h, rfl, by simp, rfl, .refl _, .refl _, fun _ => .inl rfl⟩

/-- What a change at one place does to what is found in a list. -/
theorem filterMap_set_perm {α β : Type} (f : α → Option β) {items : List α} {place : Nat} {old : α} (new : α)
    (h : items[place]? = some old) :
    ((f old).toList ++ (items.set place new).filterMap f).Perm ((f new).toList ++ items.filterMap f) := by
  obtain ⟨hlt, rfl⟩ := List.getElem?_eq_some_iff.1 h
  have hold : items.filterMap f =
      (items.take place).filterMap f ++ ((f items[place]).toList ++ (items.drop (place + 1)).filterMap f) := by
    rw [← filterMap_cons_eq, ← List.drop_eq_getElem_cons hlt, ← List.filterMap_append, List.take_append_drop]
  have hnew : (items.set place new).filterMap f =
      (items.take place).filterMap f ++ ((f new).toList ++ (items.drop (place + 1)).filterMap f) := by
    rw [List.set_eq_take_append_cons_drop, if_pos hlt, List.filterMap_append, filterMap_cons_eq]
  rw [hold, hnew]
  refine (List.perm_append_comm_assoc ..).trans (.trans (.append_left _ ?_) (List.perm_append_comm_assoc ..).symm)
  exact List.perm_append_comm_assoc ..

/-- What comes in is held or has gone out, also after something came in, went out and changed hands. -/
theorem conserved {α : Type} {total held held' out out' lost lost' gained old new : List α}
    (hall : total.Perm (held ++ (out ++ lost))) (hheld : (old ++ held').Perm (new ++ held))
    (hchange : (gained ++ old).Perm (new ++ (out' ++ lost'))) :
    (total ++ gained).Perm (held' ++ ((out ++ out') ++ (lost ++ lost'))) := by
  classical
  rw [List.perm_iff_count] at *
  intro item
  have h1 := hall item
  have h2 := hheld item
  have h3 := hchange item
  simp only [List.count_append] at h1 h2 h3 ⊢
  omega

/-! ## The ledger -/

/-- The jobs are taken in their order. Each that was taken is in the hands of a worker, was sent or is lost;
each that was finished is in the hands of a worker or was sent, as what it is and what became of it. -/
structure Ledger (workers : Nat) (jobs : List Job) (events : List Event) (floor : Floor) : Prop where
  length : floor.hands.length = crew workers jobs.length
  order : takes events ++ floor.queue = jobs.zipIdx
  tasks : (takes events).Perm
    (floor.hands.filterMap Hand.task? ++ (floor.channel.map taskOf ++ losses events))
  results : (finishes events).Perm (floor.hands.filterMap Hand.result? ++ floor.channel.map resultOf)
  gone : .gone ∈ floor.hands → floor.queue = [] ∨ losses events ≠ []

theorem ledger_opening (workers : Nat) (jobs : List Job) (tree : FileTree) :
    Ledger workers jobs [] (Floor.opening workers jobs tree) where
  length := List.length_replicate
  order := rfl
  tasks := by simp [Floor.opening, takes, losses, List.filterMap_replicate, Hand.task?]
  results := by simp [Floor.opening, finishes, List.filterMap_replicate, Hand.result?]
  gone := by simp [Floor.opening]

theorem ledger_happens (h : Ledger workers jobs events floor) (hs : Happens floor event next) :
    Ledger workers jobs (events ++ [event]) next := by
  obtain ⟨worker, old, new, sent, hold, hhands, hchannel, hqueue, htasks, hresults, hgone⟩ := hs.changes
  constructor
  case length => rw [hhands, List.length_set, h.length]
  case order => rw [takes, filterMap_concat, List.append_assoc, hqueue, ← h.order, takes]
  case tasks =>
    rw [takes, losses, filterMap_concat, filterMap_concat, hhands, hchannel, List.map_append]
    exact conserved h.tasks (filterMap_set_perm _ new hold) htasks
  case results =>
    have hall : (finishes events).Perm
        (floor.hands.filterMap Hand.result? ++ (floor.channel.map resultOf ++ [])) := by
      simpa using h.results
    have hchange : (event.finished?.toList ++ old.result?.toList).Perm
        (new.result?.toList ++ (sent.map resultOf ++ [])) := by
      simpa using hresults
    have hnext := conserved hall (filterMap_set_perm _ new hold) hchange
    simp only [List.append_nil] at hnext
    rw [finishes, filterMap_concat, hhands, hchannel, List.map_append]
    exact hnext
  case gone =>
    intro hm
    rw [losses, filterMap_concat]
    rcases List.mem_or_eq_of_mem_set (hhands ▸ hm) with hm | hm
    · rcases h.gone hm with he | he
      · exact .inl (List.append_eq_nil_iff.1 (hqueue.trans he)).2
      · exact .inr fun hnil => he (List.append_eq_nil_iff.1 hnil).1
    · refine (hgone hm.symm).imp_right fun hne hnil => hne ?_
      simpa using (List.append_eq_nil_iff.1 hnil).2

theorem ledger_runs (h : Runs (Floor.opening workers jobs tree) events last) :
    Ledger workers jobs events last := by
  induction h with
  | refl => exact ledger_opening workers jobs tree
  | step _ hs ih => exact ledger_happens ih hs

/-! ## Every execution ends -/

theorem Runs.trans (h : Runs first events middle) (h' : Runs middle more last) :
    Runs first (events ++ more) last := by
  induction h' with
  | refl => rwa [List.append_nil]
  | step _ hs ih =>
    rw [← List.append_assoc]
    exact .step ih hs

/-- The events that a worker still has before it, unless it takes another job. -/
def Hand.duty : Hand → Nat
  | .idle => 1
  | .reading _ => 4
  | .writing .. => 3
  | .finished .. => 2
  | .gone => 0

/-- A bound of the events to come. -/
def Floor.work (floor : Floor) : Nat := 4 * floor.queue.length + (floor.hands.map Hand.duty).sum

theorem work_happens (hs : Happens floor event next) : next.work < floor.work := by
  obtain ⟨worker, old, new, hold, hhands, hlt⟩ : ∃ worker old new, floor.hands[worker]? = some old ∧
      next.hands = floor.hands.set worker new ∧
      4 * next.queue.length + new.duty < 4 * floor.queue.length + old.duty := by
    cases hs with
    | take h => exact ⟨_, _, _, h, rfl, by simp only [List.length_cons, Hand.duty]; omega⟩
    | compile h | reject h | write h | send h | leave h => exact ⟨_, _, _, h, rfl, by simp [Hand.duty]⟩
    | @die worker task hand queue hands channel tree h hp =>
      refine ⟨_, _, _, h, rfl, ?_⟩
      cases hand <;> first | cases hp; done | simp [Hand.duty]
  have hduty := sum_map_set_add Hand.duty new hold
  rw [Floor.work, Floor.work, hhands]
  omega

theorem length_add_work_le (h : Runs first events last) : events.length + last.work ≤ first.work := by
  induction h with
  | refl => simp
  | step _ hs ih =>
    have := work_happens hs
    simp only [List.length_append, List.length_singleton]
    omega

theorem work_opening (workers : Nat) (jobs : List Job) (tree : FileTree) :
    (Floor.opening workers jobs tree).work = 4 * jobs.length + crew workers jobs.length := by
  simp [Floor.work, Floor.opening, Hand.duty, crew]

/-- A worker that is still there can go on. -/
theorem exists_happens (floor : Floor) (h : ¬ floor.IsClosed) : ∃ event next, Happens floor event next := by
  obtain ⟨hand, hm, hne⟩ : ∃ hand ∈ floor.hands, hand ≠ .gone := by simpa [Floor.IsClosed] using h
  obtain ⟨worker, hw⟩ := List.getElem?_of_mem hm
  obtain ⟨queue, hands, channel, tree⟩ := floor
  cases hand with
  | idle =>
    cases queue with
    | nil => exact ⟨_, _, .leave hw⟩
    | cons task queue => exact ⟨_, _, .take hw⟩
  | reading task =>
    cases hc : task.1.compile tree with
    | none => exact ⟨_, _, .die hw rfl⟩
    | some result =>
      cases result with
      | error failure => exact ⟨_, _, .reject hw hc⟩
      | ok compiled => exact ⟨_, _, .compile hw hc⟩
  | writing task compiled => exact ⟨_, _, .write hw⟩
  | finished report number => exact ⟨_, _, .send hw⟩
  | gone => exact absurd rfl hne

theorem exists_closed (floor : Floor) : ∃ events last, Runs floor events last ∧ last.IsClosed := by
  by_cases hclosed : floor.IsClosed
  · exact ⟨[], floor, .refl, hclosed⟩
  · obtain ⟨event, next, hs⟩ := exists_happens floor hclosed
    obtain ⟨events, last, hruns, hlast⟩ := exists_closed next
    exact ⟨_, last, (Runs.step .refl hs).trans hruns, hlast⟩
termination_by floor.work
decreasing_by exact work_happens hs

/-! ## Slots -/

theorem fill_cons (slots : List (Option Report)) (entry : Report × Nat) (channel : List (Report × Nat)) :
    fill slots (entry :: channel) = fill (slots.set entry.2 (some entry.1)) channel := rfl

@[simp] theorem length_fill (slots : List (Option Report)) (channel : List (Report × Nat)) :
    (fill slots channel).length = slots.length := by
  induction channel generalizing slots with
  | nil => rfl
  | cons entry channel ih => rw [fill_cons, ih, List.length_set]

theorem getElem?_fill_of_not_mem {slots : List (Option Report)} {channel : List (Report × Nat)} {number : Nat}
    (h : number ∉ channel.map Prod.snd) : (fill slots channel)[number]? = slots[number]? := by
  induction channel generalizing slots with
  | nil => rfl
  | cons entry channel ih =>
    rw [List.map_cons, List.mem_cons, not_or] at h
    rw [fill_cons, ih h.2, List.getElem?_set_ne (Ne.symm h.1)]

/-- A report that is sent once is found in its slot. -/
theorem getElem?_fill_of_mem {slots : List (Option Report)} {channel : List (Report × Nat)} {report : Report}
    {number : Nat} (hnodup : (channel.map Prod.snd).Nodup) (hm : (report, number) ∈ channel)
    (hlt : number < slots.length) : (fill slots channel)[number]? = some (some report) := by
  induction channel generalizing slots with
  | nil => cases hm
  | cons entry channel ih =>
    rw [List.map_cons, List.nodup_cons] at hnodup
    rw [fill_cons]
    rcases List.mem_cons.1 hm with rfl | hm
    · rw [getElem?_fill_of_not_mem hnodup.1, List.getElem?_set_self hlt]
    · exact ih hnodup.2 hm (by rwa [List.length_set])

theorem getElem?_reports {job : Job} {number : Nat} (floor : Floor) (h : jobs[number]? = some job) :
    (floor.reports jobs)[number]? =
      ((fill (List.replicate jobs.length none) floor.channel)[number]?).map (·.getD ⟨job, .stopped⟩) := by
  have hlt : number < (fill (List.replicate jobs.length none) floor.channel).length := by
    rw [length_fill, List.length_replicate]
    exact (List.getElem?_eq_some_iff.1 h).1
  rw [Floor.reports, List.getElem?_zipWith, h, List.getElem?_eq_getElem hlt]
  rfl

/-! ## The end of an execution -/

theorem takes_sublist (h : Ledger workers jobs events last) : (takes events).Sublist jobs.zipIdx :=
  h.order ▸ List.sublist_append_left ..

/-- No number is taken twice. -/
theorem numbers_taken_nodup (h : Ledger workers jobs events last) : ((takes events).map Prod.snd).Nodup := by
  refine ((takes_sublist h).map Prod.snd).nodup ?_
  rw [List.zipIdx_map_snd]
  exact List.nodup_range'

theorem getElem?_of_taken (h : Ledger workers jobs events last) {task : Task} (hm : task ∈ takes events) :
    jobs[task.2]? = some task.1 :=
  List.mem_zipIdx_iff_getElem?.1 ((takes_sublist h).mem hm)

theorem filterMap_closed {α : Type} {f : Hand → Option α} (h : last.IsClosed) (hf : f .gone = none) :
    last.hands.filterMap f = [] :=
  List.filterMap_eq_nil_iff.2 fun hand hm => by rw [h hand hm, hf]

/-- In the end each job that was taken was sent or is lost. -/
theorem takes_perm_of_closed (h : Ledger workers jobs events last) (hc : last.IsClosed) :
    (takes events).Perm (last.channel.map taskOf ++ losses events) := by
  simpa only [filterMap_closed (f := Hand.task?) hc rfl, List.nil_append] using h.tasks

/-- In the end each job that was finished was sent. -/
theorem finishes_perm_of_closed (h : Ledger workers jobs events last) (hc : last.IsClosed) :
    (finishes events).Perm (last.channel.map resultOf) := by
  simpa only [filterMap_closed (f := Hand.result?) hc rfl, List.nil_append] using h.results

theorem sent_mem (h : Ledger workers jobs events last) (hc : last.IsClosed) {entry : Report × Nat}
    (hm : entry ∈ last.channel) : jobs[entry.2]? = some entry.1.job :=
  getElem?_of_taken h
    ((takes_perm_of_closed h hc).mem_iff.2 (List.mem_append_left _ (List.mem_map_of_mem (f := taskOf) hm)))

/-- No number is sent twice. -/
theorem numbers_sent_nodup (h : Ledger workers jobs events last) (hc : last.IsClosed) :
    (last.channel.map Prod.snd).Nodup := by
  have hperm := (takes_perm_of_closed h hc).map Prod.snd
  rw [List.map_append, List.map_map] at hperm
  exact (hperm.nodup_iff.1 (numbers_taken_nodup h)).of_append_left

/-- The slot of a finished job holds what became of it. -/
theorem reports_of_finished (h : Ledger workers jobs events last) (hc : last.IsClosed) {task : Task}
    {outcome : Job.Outcome} (hm : (task, outcome) ∈ finishes events) :
    (last.reports jobs)[task.2]? = some ⟨task.1, outcome⟩ := by
  obtain ⟨⟨report, number⟩, he, heq⟩ := List.mem_map.1 ((finishes_perm_of_closed h hc).mem_iff.1 hm)
  obtain ⟨rfl, rfl⟩ := Prod.mk.injEq .. ▸ heq
  have hjob : jobs[number]? = some report.job := sent_mem h hc he
  have hlt : number < (List.replicate jobs.length (none : Option Report)).length := by
    rw [List.length_replicate]
    exact (List.getElem?_eq_some_iff.1 hjob).1
  rw [taskOf, getElem?_reports last hjob, getElem?_fill_of_mem (numbers_sent_nodup h hc) he hlt]
  rfl

theorem reports_of_unfinished (h : Ledger workers jobs events last) (hc : last.IsClosed) {job : Job}
    {number : Nat} (hjob : jobs[number]? = some job) (hnone : ∀ outcome, ((job, number), outcome) ∉ finishes events) :
    (last.reports jobs)[number]? = some ⟨job, .stopped⟩ := by
  have hunsent : number ∉ last.channel.map Prod.snd := by
    intro hm
    obtain ⟨⟨report, _⟩, he, rfl⟩ := List.mem_map.1 hm
    refine hnone report.outcome ((finishes_perm_of_closed h hc).mem_iff.2 (List.mem_map.2 ⟨_, he, ?_⟩))
    rw [resultOf, taskOf, Option.some.inj (hjob.symm.trans (sent_mem h hc he))]
  rw [getElem?_reports last hjob, getElem?_fill_of_not_mem hunsent,
    List.getElem?_replicate_of_lt (List.getElem?_eq_some_iff.1 hjob).1]
  rfl

theorem reports_jobs (h : Ledger workers jobs events last) (hc : last.IsClosed) :
    (last.reports jobs).map (·.job) = jobs := by
  refine List.ext_getElem? fun number => ?_
  rw [List.getElem?_map]
  cases hjob : jobs[number]? with
  | none =>
    have hle := List.getElem?_eq_none_iff.1 hjob
    rw [Option.map_eq_none_iff, List.getElem?_eq_none_iff, Floor.reports, List.length_zipWith]
    omega
  | some job =>
    by_cases hf : ∃ outcome, ((job, number), outcome) ∈ finishes events
    · obtain ⟨outcome, hm⟩ := hf
      rw [reports_of_finished h hc hm]
      rfl
    · rw [reports_of_unfinished h hc hjob fun outcome hm => hf ⟨outcome, hm⟩]
      rfl

theorem ne_stopped_of_finished (h : Runs first events last) {task : Task} {outcome : Job.Outcome}
    (hm : (task, outcome) ∈ finishes events) : outcome ≠ .stopped := by
  induction h with
  | refl => cases hm
  | step _ hs ih =>
    rw [finishes, filterMap_concat] at hm
    rcases List.mem_append.1 hm with hm | hm
    · exact ih hm
    · cases hs with
      | reject hw hc =>
        obtain ⟨-, rfl⟩ := Prod.mk.inj (List.mem_singleton.1 hm)
        exact nofun
      | @write worker task compiled queue hands channel files hw =>
        obtain ⟨-, rfl⟩ := Prod.mk.inj (List.mem_singleton.1 hm)
        rw [ne_eq, ← Job.Outcome.isStopped_iff, isStopped_write]
        exact Bool.false_ne_true
      | take | compile | send | die | leave => cases hm

/-- If no worker goes down every job is finished. -/
theorem finished_of_no_losses (h : Ledger workers jobs events last) (hc : last.IsClosed)
    (hnone : losses events = []) {job : Job} {number : Nat} (hjob : jobs[number]? = some job) :
    ∃ outcome, ((job, number), outcome) ∈ finishes events := by
  have hqueue : last.queue = [] := by
    have hlt := (List.getElem?_eq_some_iff.1 hjob).1
    have hpos : 0 < last.hands.length := by
      rw [h.length, crew]
      omega
    have hgone : .gone ∈ last.hands := by
      have hm := List.getElem_mem hpos
      rwa [hc _ hm] at hm
    exact (h.gone hgone).resolve_right fun hne => hne hnone
  have horder := h.order
  rw [hqueue, List.append_nil] at horder
  have htaken : (job, number) ∈ takes events := horder ▸ List.mem_zipIdx_iff_getElem?.2 hjob
  rw [(takes_perm_of_closed h hc).mem_iff, hnone, List.append_nil] at htaken
  obtain ⟨entry, he, heq⟩ := List.mem_map.1 htaken
  exact ⟨entry.1.outcome, (finishes_perm_of_closed h hc).mem_iff.2 (List.mem_map.2 ⟨entry, he, by rw [resultOf, heq]⟩)⟩

end SchemaFragments.Pool
