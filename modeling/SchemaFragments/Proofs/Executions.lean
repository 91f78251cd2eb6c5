import SchemaFragments.Proofs.Ledger
/-!
# Executions of jobs that are apart

Jobs that do not touch the files of each other come to the same in every execution of a pool.
`closed_reports`: what the reports are in the end of an execution, whatever the order of its events.
-/

namespace SchemaFragments.Pool

variable {first floor next last : Floor} {events more : List Event} {event : Event} {workers : Nat}
  {jobs : List Job} {tree files : FileTree}

/-! ## Jobs that are apart -/

/-- The files as the jobs other than one may leave them, each writing what it compiles from the files as they
are at first. -/
inductive LeftByOthers (jobs : List Job) (tree : FileTree) (number : Nat) : FileTree → Prop
  | refl : LeftByOthers jobs tree number tree
  | write {files other job compiled} (h : LeftByOthers jobs tree number files) (hj : jobs[other]? = some job)
      (hne : other ≠ number) (hc : job.compile tree = some (.ok compiled)) :
    LeftByOthers jobs tree number (job.write compiled files).2

/-- No job reads or writes the files of another: what the others leave makes no difference to what it compiles
and to what becomes of its output. -/
def Apart (jobs : List Job) (tree : FileTree) : Prop :=
  ∀ number job, jobs[number]? = some job → ∀ files, LeftByOthers jobs tree number files →
    job.compile files = job.compile tree ∧
      ∀ compiled, job.compile tree = some (.ok compiled) → (job.write compiled files).1 = (job.write compiled tree).1

/-- A job that compiles nothing is apart from one that writes one file, where that file makes no difference to it. -/
theorem apart_pair {quiet writer : Job} (location : Location)
    (hquiet : ∀ compiled, quiet.compile tree ≠ some (.ok compiled))
    (hsame : ∀ text, quiet.compile (tree.put location (.file (some text))) = quiet.compile tree)
    (hwrite : ∀ compiled, (writer.write compiled tree).2 = tree.put location (.file (some compiled.contents)))
    (hagain : ∀ compiled text, (writer.write compiled (tree.put location (.file (some text)))).2 =
      tree.put location (.file (some compiled.contents))) : Apart [quiet, writer] tree := by
  have hzero {files : FileTree} (h : LeftByOthers [quiet, writer] tree 0 files) :
      files = tree ∨ ∃ text, files = tree.put location (.file (some text)) := by
    induction h with
    | refl => exact .inl rfl
    | @write files other job compiled _ hj hne hc ih =>
      obtain rfl : job = writer := by
        match other, hj with
        | 0, _ => exact absurd rfl hne
        | 1, hj => exact (Option.some.inj hj).symm
      obtain rfl | ⟨text, rfl⟩ := ih
      · exact .inr ⟨_, hwrite compiled⟩
      · exact .inr ⟨_, hagain compiled text⟩
  have hone {files : FileTree} (h : LeftByOthers [quiet, writer] tree 1 files) : files = tree := by
    cases h with
    | refl => rfl
    | @write files other job compiled _ hj hne hc =>
      obtain rfl : job = quiet := by
        match other, hj with
        | 0, hj => exact (Option.some.inj hj).symm
        | 1, _ => exact absurd rfl hne
      exact absurd hc (hquiet compiled)
  intro number job hjob files hfiles
  match number, hjob with
  | 0, hjob =>
    obtain rfl : quiet = job := Option.some.inj hjob
    refine ⟨?_, fun compiled hc => absurd hc (hquiet compiled)⟩
    obtain rfl | ⟨text, rfl⟩ := hzero hfiles
    · rfl
    · exact hsame text
  | 1, hjob =>
    rw [hone hfiles]
    exact ⟨rfl, fun _ _ => rfl⟩

theorem Apart.run_eq (ha : Apart jobs tree) {job : Job} {number : Nat} (hjob : jobs[number]? = some job)
    (hfiles : LeftByOthers jobs tree number files) : (job.run files).1 = (job.run tree).1 := by
  obtain ⟨hcompile, hwrite⟩ := ha number job hjob files hfiles
  rw [Job.run, Job.run, hcompile]
  cases hc : job.compile tree with
  | none => rfl
  | some result =>
    cases result with
    | error failure => rfl
    | ok compiled => exact hwrite compiled hc

/-- Of a job that has not finished only the others have written. A job that is being written was compiled from
the files as they were at first, and what became of a finished one is what becomes of it on them. -/
structure Undisturbed (jobs : List Job) (tree : FileTree) (events : List Event) (floor : Floor) : Prop where
  files : ∀ number, (∀ job outcome, ((job, number), outcome) ∉ finishes events) →
    LeftByOthers jobs tree number floor.tree
  writing : ∀ task compiled, .writing task compiled ∈ floor.hands → task.1.compile tree = some (.ok compiled)
  outcomes : ∀ task outcome, (task, outcome) ∈ finishes events → outcome = (task.1.run tree).1

/-- Of a job that is at work nothing else is at work, sent or lost. -/
theorem unfinished_of_pending (h : Ledger workers jobs events floor) {worker : Nat} {hand : Hand} {task : Task}
    (hw : floor.hands[worker]? = some hand) (hp : hand.pending? = some task) :
    jobs[task.2]? = some task.1 ∧ ∀ job outcome, ((job, task.2), outcome) ∉ finishes events := by
  have htask : hand.task? = some task := by cases hand <;> first | exact hp | cases hp
  have hmoved := filterMap_set_perm Hand.task? .gone hw
  rw [htask] at hmoved
  have htasks : (takes events).Perm (task :: ((floor.hands.set worker .gone).filterMap Hand.task? ++
      (floor.channel.map taskOf ++ losses events))) :=
    h.tasks.trans (hmoved.symm.append_right _)
  have hnodup := (htasks.map Prod.snd).nodup_iff.1 (numbers_taken_nodup h)
  rw [List.map_cons, List.nodup_cons] at hnodup
  refine ⟨getElem?_of_taken h (htasks.mem_iff.2 List.mem_cons_self), fun job outcome hm => hnodup.1 ?_⟩
  refine List.mem_map.2 ⟨(job, task.2), ?_, rfl⟩
  rcases List.mem_append.1 (h.results.mem_iff.1 hm) with hm | hm
  · obtain ⟨other, ho, hresult⟩ := List.mem_filterMap.1 hm
    obtain ⟨report, number, rfl⟩ : ∃ report number, other = .finished report number := by
      cases other <;> first | exact ⟨_, _, rfl⟩ | cases hresult
    have hne : Hand.finished report number ≠ hand := by
      rintro rfl
      cases hp
    cases hresult
    exact List.mem_append_left _ (List.mem_filterMap.2 ⟨_, mem_set_of_mem _ hw ho hne, rfl⟩)
  · obtain ⟨entry, he, heq⟩ := List.mem_map.1 hm
    have htask : taskOf entry = (job, task.2) := congrArg Prod.fst heq
    rw [← htask]
    exact List.mem_append_right _ (List.mem_append_left _ (List.mem_map_of_mem he))

theorem undisturbed_opening (workers : Nat) (jobs : List Job) (tree : FileTree) :
    Undisturbed jobs tree [] (Floor.opening workers jobs tree) where
  files _ _ := .refl
  writing := by simp [Floor.opening]
  outcomes := by simp [finishes]

/-- An event that neither finishes a job nor lets one be written. -/
theorem Undisturbed.step (h : Undisturbed jobs tree events floor) (hfinish : event.finished? = none)
    (htree : next.tree = floor.tree)
    (hwriting : ∀ task compiled, .writing task compiled ∈ next.hands → .writing task compiled ∈ floor.hands ∨
      task.1.compile tree = some (.ok compiled)) : Undisturbed jobs tree (events ++ [event]) next := by
  have hsame : finishes (events ++ [event]) = finishes events := by
    rw [finishes, filterMap_concat, hfinish]
    exact List.append_nil _
  constructor
  case files =>
    rw [hsame, htree]
    exact h.files
  case writing => exact fun task compiled hm => (hwriting task compiled hm).elim (h.writing task compiled) id
  case outcomes =>
    rw [hsame]
    exact h.outcomes

/-- A job that is finished as it would be on the files as they were at first. -/
theorem Undisturbed.finish (h : Undisturbed jobs tree events floor) {worker : Nat} {task : Task}
    {outcome : Job.Outcome} (houtcome : outcome = (task.1.run tree).1)
    (hfiles : ∀ number, number ≠ task.2 → LeftByOthers jobs tree number floor.tree →
      LeftByOthers jobs tree number next.tree)
    (hwriting : ∀ task compiled, .writing task compiled ∈ next.hands → .writing task compiled ∈ floor.hands) :
    Undisturbed jobs tree (events ++ [.finish worker task outcome]) next := by
  have hmore : finishes (events ++ [.finish worker task outcome]) = finishes events ++ [(task, outcome)] :=
    filterMap_concat ..
  constructor
  case files =>
    intro number hnone
    rw [hmore] at hnone
    refine hfiles number ?_ (h.files number fun job outcome hm => hnone job outcome (List.mem_append_left _ hm))
    rintro rfl
    exact hnone task.1 outcome (List.mem_append_right _ (List.mem_singleton_self _))
  case writing => exact fun task compiled hm => h.writing task compiled (hwriting task compiled hm)
  case outcomes =>
    intro other outcome' hm
    rw [hmore] at hm
    rcases List.mem_append.1 hm with hm | hm
    · exact h.outcomes other outcome' hm
    · obtain ⟨rfl, rfl⟩ := Prod.mk.inj (List.mem_singleton.1 hm)
      exact houtcome

theorem undisturbed_happens (ha : Apart jobs tree) (hl : Ledger workers jobs events floor)
    (h : Undisturbed jobs tree events floor) (hs : Happens floor event next) :
    Undisturbed jobs tree (events ++ [event]) next := by
  cases hs with
  | take hw | send hw | die hw hp | leave hw =>
    exact h.step rfl rfl fun task compiled hm => .inl (mem_of_mem_set hm (by simp))
  | @compile worker task compiled queue hands channel files hw hc =>
    obtain ⟨hjob, hnone⟩ := unfinished_of_pending hl hw rfl
    have hcompile := (ha _ _ hjob _ (h.files _ hnone)).1
    refine h.step rfl rfl fun other compiled' hm => ?_
    rcases List.mem_or_eq_of_mem_set hm with hm | hm
    · exact .inl hm
    · cases hm
      exact .inr (hcompile.symm.trans hc)
  | @reject worker task failure queue hands channel files hw hc =>
    obtain ⟨hjob, hnone⟩ := unfinished_of_pending hl hw rfl
    have hcompile := (ha _ _ hjob _ (h.files _ hnone)).1.symm.trans hc
    exact h.finish (by rw [Job.run, hcompile]) (fun _ _ hfiles => hfiles)
      fun task compiled hm => mem_of_mem_set hm (by simp)
  | @write worker task compiled queue hands channel files hw =>
    obtain ⟨hjob, hnone⟩ := unfinished_of_pending hl hw rfl
    have hcompile := h.writing task compiled (List.mem_of_getElem? hw)
    have hwrite := (ha _ _ hjob _ (h.files _ hnone)).2 compiled hcompile
    exact h.finish (by rw [hwrite, Job.run, hcompile])
      (fun number hne hfiles => .write hfiles hjob (Ne.symm hne) hcompile)
      fun task compiled hm => mem_of_mem_set hm (by simp)

theorem undisturbed_runs (ha : Apart jobs tree) (h : Runs (Floor.opening workers jobs tree) events last) :
    Undisturbed jobs tree events last := by
  induction h with
  | refl => exact undisturbed_opening workers jobs tree
  | step hr hs ih => exact undisturbed_happens ha (ledger_runs hr) ih hs

/-! ## One job after the other -/

/-- The jobs before a job are among the others. -/
theorem leftByOthers_filesAfter (ha : Apart jobs tree) {number : Nat} (count : Nat) (h : count ≤ number) :
    LeftByOthers jobs tree number (filesAfter (jobs.take count) tree) := by
  induction count generalizing number with
  | zero => exact .refl
  | succ count ih =>
    rw [List.take_add_one, filesAfter, List.foldl_append]
    cases hjob : jobs[count]? with
    | none => exact ih (Nat.le_of_succ_le h)
    | some job =>
      have hcompile := (ha count job hjob _ (ih le_rfl)).1
      change LeftByOthers jobs tree number (job.run (filesAfter (jobs.take count) tree)).2
      rw [Job.run, hcompile]
      cases hc : job.compile tree with
      | none => exact ih (Nat.le_of_succ_le h)
      | some result =>
        cases result with
        | error failure => exact ih (Nat.le_of_succ_le h)
        | ok compiled => exact .write (ih (Nat.le_of_succ_le h)) hjob (Nat.ne_of_lt h) hc

theorem inOrder_of_apart (ha : Apart jobs tree) {job : Job} {number : Nat} (hjob : jobs[number]? = some job) :
    inOrder jobs tree number = (job.run tree).1 := by
  rw [inOrder, hjob]
  exact ha.run_eq hjob (leftByOthers_filesAfter ha number le_rfl)

/-- If no job stops, as many workers as there may be make no difference. -/
theorem run_eq_ownReports (workers : Nat) (h : ∀ number < jobs.length, inOrder jobs tree number ≠ .stopped) :
    (run workers jobs tree).1 = ownReports jobs (inOrder jobs tree) := by
  rw [run, runWith_eq_map, ownReports]
  refine List.map_congr_left fun entry hm => ?_
  obtain ⟨job, number⟩ := entry
  have hlt : number < jobs.length := (List.getElem?_eq_some_iff.1 (List.mem_zipIdx_iff_getElem?.1 hm)).1
  have hzero : stopsBefore (inOrder jobs tree) number = 0 := by
    refine List.countP_eq_zero.2 fun other ho => ?_
    rw [Job.Outcome.isStopped_iff]
    exact h other ((List.mem_range.1 ho).trans hlt)
  simp only [hzero, if_pos (show 0 < max workers 1 by omega)]

/-! ## The pool as it runs -/

theorem runWith_min (workers : Nat) (jobs : List Job) (tree : FileTree) :
    runWith (min workers jobs.length) jobs tree = runWith workers jobs tree := by
  induction jobs generalizing workers tree with
  | nil => cases workers <;> rfl
  | cons job jobs ih =>
    cases workers with
    | zero => rw [Nat.zero_min]
    | succ workers =>
      rw [List.length_cons, Nat.succ_min_succ, runWith_cons, runWith_cons]
      cases (job.run tree).1.isStopped with
      | true => simp only [if_true, ih]
      | false =>
        have hmin : min (min workers jobs.length + 1) jobs.length = min (workers + 1) jobs.length := by omega
        simp only [Bool.false_eq_true, if_false]
        rw [← ih (min workers jobs.length + 1), hmin, ih]

/-- The hands of a pool in which some workers are gone, one works and the others are idle. -/
def handsAround (gone : Nat) (hand : Hand) (idle : Nat) : List Hand :=
  List.replicate gone .gone ++ hand :: List.replicate idle .idle

theorem getElem?_handsAround (gone : Nat) (hand : Hand) (idle : Nat) :
    (handsAround gone hand idle)[gone]? = some hand := by
  simp [handsAround]

theorem set_handsAround (gone : Nat) (hand new : Hand) (idle : Nat) :
    (handsAround gone hand idle).set gone new = handsAround gone new idle := by
  simp [handsAround]

/-- What happens to the worker that is not idle. -/
theorem happens_around {gone idle : Nat} {old new : Hand} {queue queue' : List Task}
    {channel channel' : List (Report × Nat)} (h : Happens ⟨queue, handsAround gone old idle, channel, tree⟩ event
      ⟨queue', (handsAround gone old idle).set gone new, channel', files⟩) :
    Happens ⟨queue, handsAround gone old idle, channel, tree⟩ event
      ⟨queue', handsAround gone new idle, channel', files⟩ := by
  rwa [set_handsAround] at h

/-- A pool between two jobs. -/
def between (gone idle : Nat) (queue : List Task) (channel : List (Report × Nat)) (tree : FileTree) : Floor :=
  ⟨queue, List.replicate gone .gone ++ List.replicate idle .idle, channel, tree⟩

theorem handsAround_gone (gone idle : Nat) :
    handsAround gone .gone idle = List.replicate (gone + 1) .gone ++ List.replicate idle .idle := by
  rw [handsAround, List.replicate_succ', List.append_assoc, List.singleton_append]

/-- The reports that are sent, with their numbers. -/
def sentOf (reports : List Report) (number : Nat) : List (Report × Nat) :=
  (reports.zipIdx number).filter fun entry => !entry.1.outcome.isStopped

theorem sentOf_cons (report : Report) (reports : List Report) (number : Nat) :
    sentOf (report :: reports) number = sentOf [report] number ++ sentOf reports (number + 1) := by
  rw [sentOf, sentOf, sentOf, ← List.filter_append]
  rfl

theorem sentOf_stopped (jobs : List Job) (number : Nat) : sentOf (stopped jobs) number = [] := by
  induction jobs generalizing number with
  | nil => rfl
  | cons job jobs ih => exact (sentOf_cons ..).trans (ih (number + 1))

/-- The first idle worker does the next job. -/
theorem between_job (gone idle : Nat) (job : Job) (number : Nat) (queue : List Task)
    (channel : List (Report × Nat)) (tree : FileTree) :
    ∃ events, Runs (between gone (idle + 1) ((job, number) :: queue) channel tree) events
      (between (if (job.run tree).1.isStopped then gone + 1 else gone)
        (if (job.run tree).1.isStopped then idle else idle + 1) queue
        (channel ++ sentOf [⟨job, (job.run tree).1⟩] number) (job.run tree).2) := by
  have htake : Runs (between gone (idle + 1) ((job, number) :: queue) channel tree) [.take gone (job, number)]
      ⟨queue, handsAround gone (.reading (job, number)) idle, channel, tree⟩ :=
    .step .refl (happens_around (.take (getElem?_handsAround gone .idle idle)))
  have hsend {events report files} (hstop : report.outcome.isStopped = false)
      (h : Runs (between gone (idle + 1) ((job, number) :: queue) channel tree) events
        ⟨queue, handsAround gone (.finished report number) idle, channel, files⟩) :
      ∃ events, Runs (between gone (idle + 1) ((job, number) :: queue) channel tree) events
        (between gone (idle + 1) queue (channel ++ sentOf [report] number) files) := by
    have hsent : sentOf [report] number = [(report, number)] := by simp [sentOf, hstop]
    rw [hsent]
    exact ⟨_, h.step (happens_around (.send (getElem?_handsAround ..)))⟩
  cases hc : job.compile tree with
  | none =>
    have hrun : job.run tree = (.stopped, tree) := by rw [Job.run, hc]
    have hdie : Happens ⟨queue, handsAround gone (.reading (job, number)) idle, channel, tree⟩
        (.die gone (job, number)) ⟨queue, handsAround gone .gone idle, channel, tree⟩ :=
      happens_around (.die (getElem?_handsAround ..) rfl)
    have hsent : sentOf [⟨job, .stopped⟩] number = [] := rfl
    rw [handsAround_gone] at hdie
    rw [hrun, hsent, List.append_nil]
    exact ⟨_, htake.step hdie⟩
  | some result =>
    cases result with
    | error failure =>
      have hrun : job.run tree = (.failed failure, tree) := by rw [Job.run, hc]
      rw [hrun]
      exact hsend rfl (htake.step (happens_around (.reject (getElem?_handsAround ..) hc)))
    | ok compiled =>
      have hrun : job.run tree = job.write compiled tree := by rw [Job.run, hc]
      have hcompiled := htake.step (happens_around (.compile (getElem?_handsAround ..) hc))
      rw [hrun, isStopped_write]
      exact hsend (isStopped_write job compiled tree)
        (hcompiled.step (happens_around (.write (getElem?_handsAround ..))))

/-- The workers that are left go when there are no more jobs. -/
theorem between_leave (gone idle : Nat) (channel : List (Report × Nat)) (tree : FileTree) :
    ∃ events, Runs (between gone idle [] channel tree) events (between (gone + idle) 0 [] channel tree) := by
  induction idle generalizing gone with
  | zero => exact ⟨[], .refl⟩
  | succ idle ih =>
    have hleave : Happens ⟨[], handsAround gone .idle idle, channel, tree⟩ (.leave gone)
        ⟨[], handsAround gone .gone idle, channel, tree⟩ :=
      happens_around (.leave (getElem?_handsAround ..))
    obtain ⟨events, hruns⟩ := ih (gone + 1)
    rw [handsAround_gone] at hleave
    rw [Nat.add_right_comm] at hruns
    exact ⟨_, (Runs.step .refl hleave).trans hruns⟩

/-- Workers that do one job after the other. -/
theorem between_runs (gone idle : Nat) (jobs : List Job) (number : Nat) (channel : List (Report × Nat))
    (tree : FileTree) : ∃ events last, Runs (between gone idle (jobs.zipIdx number) channel tree) events last ∧
      last.IsClosed ∧ last.channel = channel ++ sentOf (runWith idle jobs tree).1 number ∧
      last.tree = (runWith idle jobs tree).2 := by
  have hclosed (gone : Nat) (queue channel tree) : (between gone 0 queue channel tree).IsClosed := by
    simp [between, Floor.IsClosed]
  induction jobs generalizing gone idle number channel tree with
  | nil =>
    obtain ⟨events, hruns⟩ := between_leave gone idle channel tree
    refine ⟨events, _, hruns, hclosed _ _ _ _, ?_, ?_⟩ <;> cases idle <;> simp [between, runWith, sentOf]
  | cons job jobs ih =>
    cases idle with
    | zero =>
      have hrun : runWith 0 (job :: jobs) tree = (stopped (job :: jobs), tree) := rfl
      refine ⟨[], _, .refl, hclosed _ _ _ _, ?_, rfl⟩
      rw [hrun, sentOf_stopped, List.append_nil]
      rfl
    | succ idle =>
      obtain ⟨events, hruns⟩ := between_job gone idle job number (jobs.zipIdx (number + 1)) channel tree
      obtain ⟨more, last, hmore, hlast, hchannel, htree⟩ := ih (if (job.run tree).1.isStopped then gone + 1 else gone)
        (if (job.run tree).1.isStopped then idle else idle + 1) (number + 1)
        (channel ++ sentOf [⟨job, (job.run tree).1⟩] number) (job.run tree).2
      refine ⟨_, last, hruns.trans hmore, hlast, ?_, ?_⟩
      · rw [hchannel, runWith_cons, List.append_assoc, ← sentOf_cons]
      · rw [htree, runWith_cons]

theorem runWith_jobs (workers : Nat) (jobs : List Job) (tree : FileTree) :
    (runWith workers jobs tree).1.map (·.job) = jobs := by
  rw [runWith_eq_map, List.map_map]
  exact List.zipIdx_map_fst 0 jobs

theorem run_jobs (workers : Nat) (jobs : List Job) (tree : FileTree) :
    (run workers jobs tree).1.map (·.job) = jobs := runWith_jobs ..

/-- What is sent of some reports is enough to hand them all out. -/
theorem reports_sentOf {reports : List Report} (h : floor.channel = sentOf reports 0) :
    floor.reports (reports.map (·.job)) = reports := by
  have hnodup : (floor.channel.map Prod.snd).Nodup := by
    rw [h]
    refine (List.filter_sublist.map Prod.snd).nodup ?_
    rw [List.zipIdx_map_snd]
    exact List.nodup_range'
  refine List.ext_getElem? fun number => ?_
  cases hreport : reports[number]? with
  | none =>
    have hle := List.getElem?_eq_none_iff.1 hreport
    rw [List.getElem?_eq_none_iff, Floor.reports, List.length_zipWith, List.length_map]
    omega
  | some report =>
    have hjob : (reports.map (·.job))[number]? = some report.job := by rw [List.getElem?_map, hreport]; rfl
    have hlt : number < (reports.map (·.job)).length := (List.getElem?_eq_some_iff.1 hjob).1
    rw [getElem?_reports floor hjob]
    by_cases hstopped : report.outcome.isStopped = true
    · have hunsent : number ∉ floor.channel.map Prod.snd := by
        intro hm
        obtain ⟨⟨other, _⟩, he, rfl⟩ := List.mem_map.1 hm
        obtain ⟨hz, hsent⟩ := List.mem_filter.1 (h ▸ he)
        obtain rfl : report = other := Option.some.inj (hreport.symm.trans (List.mem_zipIdx_iff_getElem?.1 hz))
        simp [hstopped] at hsent
      rw [getElem?_fill_of_not_mem hunsent, List.getElem?_replicate_of_lt hlt, Option.map_some, Option.getD_none,
        ← Job.Outcome.isStopped_iff.1 hstopped]
    · have hsent : (report, number) ∈ floor.channel := by
        rw [h]
        refine List.mem_filter.2 ⟨List.mem_zipIdx_iff_getElem?.2 hreport, ?_⟩
        simpa using hstopped
      rw [getElem?_fill_of_mem hnodup hsent (by rwa [List.length_replicate])]
      rfl

/-- The pool that runs the jobs one after the other is one of the executions. -/
theorem run_executes (workers : Nat) (jobs : List Job) (tree : FileTree) :
    ∃ events last, Runs (Floor.opening workers jobs tree) events last ∧ last.IsClosed ∧
      last.reports jobs = (run workers jobs tree).1 ∧ last.tree = (run workers jobs tree).2 := by
  obtain ⟨events, last, hruns, hclosed, hchannel, htree⟩ :=
    between_runs 0 (crew workers jobs.length) jobs 0 [] tree
  have hrun : runWith (crew workers jobs.length) jobs tree = run workers jobs tree := runWith_min ..
  rw [hrun] at hchannel htree
  have hreports := reports_sentOf hchannel
  rw [run_jobs] at hreports
  exact ⟨events, last, hruns, hclosed, hreports, htree⟩

/-- Jobs that are apart and of which none is lost come to what they come to one after the other. -/
theorem reports_of_apart (hruns : Runs (Floor.opening workers jobs tree) events last) (hc : last.IsClosed)
    (hnone : losses events = []) (ha : Apart jobs tree) :
    last.reports jobs = ownReports jobs (inOrder jobs tree) ∧
      ∀ number < jobs.length, inOrder jobs tree number ≠ .stopped := by
  have hledger := ledger_runs hruns
  have hown {job number} (hjob : jobs[number]? = some job) :
      ((job, number), inOrder jobs tree number) ∈ finishes events := by
    obtain ⟨outcome, hm⟩ := finished_of_no_losses hledger hc hnone hjob
    rwa [inOrder_of_apart ha hjob, ← (undisturbed_runs ha hruns).outcomes _ _ hm]
  constructor
  · refine List.ext_getElem? fun number => ?_
    rw [ownReports, List.getElem?_map, List.getElem?_zipIdx]
    cases hjob : jobs[number]? with
    | none =>
      have hlength := congrArg List.length (reports_jobs hledger hc)
      rw [List.length_map] at hlength
      rwa [Option.map_none, Option.map_none, List.getElem?_eq_none_iff, hlength, ← List.getElem?_eq_none_iff]
    | some job =>
      rw [reports_of_finished hledger hc (hown hjob)]
      simp
  · intro number hlt
    exact ne_stopped_of_finished hruns (hown (List.getElem?_eq_getElem hlt))

/-! ## What an execution ends with -/

/-- Every execution of a pool ends, and the pool that runs the jobs in their order is one of them. In the end
there is a report for each job; no job is taken twice, and no report is sent twice or to another job. The
report of a finished job tells what became of it, and that of any other job that it stopped. If the jobs are
apart, what becomes of a finished job is what becomes of it alone; and if no worker goes down either, the
reports are those of the jobs run one after the other, however many workers there are. -/
theorem closed_reports (workers : Nat) (jobs : List Job) (tree : FileTree) :
    (∀ events floor, Runs (Floor.opening workers jobs tree) events floor →
      events.length ≤ 4 * jobs.length + crew workers jobs.length ∧
        ∃ more last, Runs floor more last ∧ last.IsClosed) ∧
    (∃ events last, Runs (Floor.opening workers jobs tree) events last ∧ last.IsClosed ∧
      last.reports jobs = (run workers jobs tree).1 ∧ last.tree = (run workers jobs tree).2) ∧
    ∀ events last, Runs (Floor.opening workers jobs tree) events last → last.IsClosed →
      (last.reports jobs).map (·.job) = jobs ∧
      ((takes events).map Prod.snd).Nodup ∧ (last.channel.map Prod.snd).Nodup ∧
      (∀ entry ∈ last.channel, jobs[entry.2]? = some entry.1.job) ∧
      (∀ number job, jobs[number]? = some job →
        (∀ outcome, ((job, number), outcome) ∈ finishes events →
          (last.reports jobs)[number]? = some ⟨job, outcome⟩) ∧
        ((∀ outcome, ((job, number), outcome) ∉ finishes events) →
          (last.reports jobs)[number]? = some ⟨job, .stopped⟩)) ∧
      (Apart jobs tree →
        (∀ task outcome, (task, outcome) ∈ finishes events → outcome = (task.1.run tree).1) ∧
        (losses events = [] → last.reports jobs = ownReports jobs (inOrder jobs tree) ∧
          ∀ others, (run others jobs tree).1 = last.reports jobs)) := by
  refine ⟨fun events floor hruns => ⟨?_, exists_closed floor⟩, run_executes workers jobs tree, ?_⟩
  · have hle := length_add_work_le hruns
    rw [work_opening] at hle
    omega
  intro events last hruns hclosed
  have hledger := ledger_runs hruns
  refine ⟨reports_jobs hledger hclosed, numbers_taken_nodup hledger, numbers_sent_nodup hledger hclosed,
    fun entry hm => sent_mem hledger hclosed hm,
    fun number job hjob => ⟨fun outcome hm => reports_of_finished hledger hclosed hm,
      reports_of_unfinished hledger hclosed hjob⟩,
    fun hapart => ⟨(undisturbed_runs hapart hruns).outcomes, fun hnone => ?_⟩⟩
  obtain ⟨hreports, hstops⟩ := reports_of_apart hruns hclosed hnone hapart
  exact ⟨hreports, fun others => (run_eq_ownReports others hstops).trans hreports.symm⟩

/-! ## Two jobs whose reports are sent in the other order -/

/-- A job without a schema. -/
def lostJob : Job := ⟨"lost", ⟨"lost"⟩, ⟨"out1"⟩, .graphql, ⟨"out1", "graphql"⟩⟩

theorem compile_lostJob (h : files.find ⟨"lost"⟩ = .ok (["w", "lost"], none)) :
    lostJob.compile files = some (.error (.unloadable [.unreadableRoot ⟨"lost"⟩ .missing])) := by
  have hread : files.readAt lostJob.schema = .error .missing := by
    rw [FileTree.readAt, lostJob, h]
    rfl
  simp only [Job.compile, Import.load, Import.loadFiles, hread, bind, Except.bind]
  rfl

theorem compile_lostJob_tornTree :
    lostJob.compile tornTree = some (.error (.unloadable [.unreadableRoot ⟨"lost"⟩ .missing])) := by
  have hfind : tornTree.find ⟨"lost"⟩ = .ok (["w", "lost"], none) := by cbv
  exact compile_lostJob hfind

theorem apart_lostJob_fineJob : Apart [lostJob, fineJob] tornTree := by
  refine apart_pair ["w", "out2"] (by simp [compile_lostJob_tornTree]) ?_ ?_ ?_
  · intro text
    have hfind : (tornTree.put ["w", "out2"] (.file (some text))).find ⟨"lost"⟩ = .ok (["w", "lost"], none) := by cbv
    rw [compile_lostJob hfind, compile_lostJob_tornTree]
  · intro compiled
    have hfind : tornTree.find fineJob.output = .ok (["w", "out2"], none) := by cbv
    rw [Job.write_of_find (by cbv) (by cbv) hfind (by simp)]
  · intro compiled text
    have hfind : (tornTree.put ["w", "out2"] (.file (some text))).find fineJob.output =
      .ok (["w", "out2"], some (.file (some text))) := by cbv
    rw [Job.write_of_find (by cbv) (by cbv) hfind (by simp), FileTree.put_put]

/-- Two workers take a job each, and the second report is sent first. -/
theorem lostJob_fineJob_reports : ∃ events last,
    Runs (Floor.opening 2 [lostJob, fineJob] tornTree) events last ∧ last.IsClosed ∧ losses events = [] ∧
      last.channel.map Prod.snd = [1, 0] ∧
      last.reports [lostJob, fineJob] = ownReports [lostJob, fineJob] (inOrder [lostJob, fineJob] tornTree) ∧
      (run 1 [lostJob, fineJob] tornTree).1 = last.reports [lostJob, fineJob] := by
  have hread : tornTree.readAt fineJob.schema = .ok (["w", "fine"], "type Fine\n") := by cbv
  obtain ⟨compiled, hc, -⟩ := exists_compile_fine hread rfl
  have htakes := ((@Runs.refl (Floor.opening 2 [lostJob, fineJob] tornTree)).step
    (@Happens.take 0 _ _ _ _ _ rfl)).step (@Happens.take 1 _ _ _ _ _ rfl)
  have hfinishes := ((htakes.step (@Happens.compile 1 _ _ _ _ _ _ rfl hc)).step
    (@Happens.reject 0 _ _ _ _ _ _ rfl compile_lostJob_tornTree)).step (@Happens.write 1 _ _ _ _ _ _ rfl)
  have hsends := (hfinishes.step (@Happens.send 1 _ _ _ _ _ _ rfl)).step (@Happens.send 0 _ _ _ _ _ _ rfl)
  have hruns := (hsends.step (@Happens.leave 0 _ _ _ rfl)).step (@Happens.leave 1 _ _ _ rfl)
  refine ⟨_, _, hruns, by simp [Floor.IsClosed], rfl, rfl, ?_⟩
  obtain ⟨-, -, -, -, -, hapart⟩ := (closed_reports 2 [lostJob, fineJob] tornTree).2.2 _ _ hruns
    (by simp [Floor.IsClosed])
  obtain ⟨hreports, hothers⟩ := (hapart apart_lostJob_fineJob).2 rfl
  exact ⟨hreports, hothers 1⟩

end SchemaFragments.Pool
