import SchemaFragments.Pool.Schedule
import SchemaFragments.Proofs.Reprinting
/-!
# What schedules come to

Every schedule of a pool ends, and all of them in the same reports: a job is run exactly if fewer of the jobs
before it stop than there are workers. `reports_own_iff`: the reports are those that the jobs have of
themselves exactly if this holds of every job that does not stop.
-/

namespace SchemaFragments

def Job.Outcome.isStopped : Job.Outcome → Bool
  | .stopped => true
  | _ => false

theorem Job.Outcome.isStopped_iff {result : Job.Outcome} : result.isStopped = true ↔ result = .stopped := by
  cases result <;> simp [isStopped]

section

variable {job : Job} {tree : FileTree} {location : Location} {text : String}

/-- A schema whose text cannot be cut has nothing to report. -/
theorem Job.compile_of_torn (hread : tree.readAt job.schema = .ok (location, text))
    (hholds : Import.holdsDefinitions text = true) (hparse : Document.parse text = .error .tornBlockString) :
    job.compile tree = none := by
  have hload : Import.load tree job.schema = .error .tornBlockString := by
    simp only [Import.load, Import.loadFiles, hread, Import.Loader.addFile, hparse, hholds, if_true]
    rfl
  rw [compile, hload]

theorem Job.write_of_find {compiled : Compiled} {entry : Option Entry} (hprepare : job.prepareOutput tree = .ok tree)
    (hslash : FileTree.endsInSlash job.output.text = false) (hfind : tree.find job.output = .ok (location, entry))
    (hentry : entry ≠ some .directory) : job.write compiled tree =
      (.written compiled.fragments.standard.length, tree.put location (.file (some compiled.contents))) := by
  simp only [write, hprepare, FileTree.write_of_find hslash hfind hentry]

end

namespace Pool

variable {outcome : Nat → Job.Outcome} {workers jobs taken number : Nat} {state next first last : State}

/-! ## Workers that are lost -/

/-- How many of the jobs before a job stop. -/
def stopsBefore (outcome : Nat → Job.Outcome) (number : Nat) : Nat :=
  (List.range number).countP fun job => (outcome job).isStopped

/-- How many workers share some jobs. -/
def crew (workers jobs : Nat) : Nat := min (max workers 1) jobs

/-- A worker that is gone, or will be once its job stops. -/
def Worker.isLost (outcome : Nat → Job.Outcome) : Worker → Bool
  | .idle => false
  | .busy job => (outcome job).isStopped
  | .gone => true

@[simp] theorem isLost_idle : Worker.idle.isLost outcome = false := rfl

@[simp] theorem isLost_busy : (Worker.busy number).isLost outcome = (outcome number).isStopped := rfl

@[simp] theorem isLost_gone : Worker.gone.isLost outcome = true := rfl

def State.lost (outcome : Nat → Job.Outcome) (state : State) : Nat :=
  state.workers.countP (Worker.isLost outcome)

theorem stopsBefore_succ (outcome : Nat → Job.Outcome) (number : Nat) :
    stopsBefore outcome (number + 1) = stopsBefore outcome number + if (outcome number).isStopped then 1 else 0 := by
  rw [stopsBefore, stopsBefore, List.range_succ, List.countP_append, List.countP_singleton]

theorem stopsBefore_mono {other : Nat} (h : number ≤ other) : stopsBefore outcome number ≤ stopsBefore outcome other :=
  (List.range_sublist.2 h).countP_le

theorem stopsBefore_le (outcome : Nat → Job.Outcome) (number : Nat) : stopsBefore outcome number ≤ number := by
  simpa [stopsBefore] using List.countP_le_length (l := List.range number) (p := fun job => (outcome job).isStopped)

/-- What counting gains by a change at one place, and what it loses. -/
theorem countP_set_add {α : Type} (p : α → Bool) {items : List α} {place : Nat} {old : α} (new : α)
    (h : items[place]? = some old) :
    (items.set place new).countP p + (if p old then 1 else 0) = items.countP p + if p new then 1 else 0 := by
  obtain ⟨hlt, rfl⟩ := List.getElem?_eq_some_iff.1 h
  rw [List.countP_set hlt]
  by_cases hp : p items[place] = true
  · have hpos : 0 < items.countP p := List.countP_pos_iff.2 ⟨_, List.getElem_mem hlt, hp⟩
    simp only [hp, if_true]
    omega
  · simp only [hp, Bool.false_eq_true, if_false]
    omega

theorem mem_set_of_mem {α : Type} {items : List α} {place : Nat} {old item : α} (new : α)
    (h : items[place]? = some old) (hi : item ∈ items) (hne : item ≠ old) : item ∈ items.set place new := by
  obtain ⟨other, ho⟩ := List.getElem?_of_mem hi
  refine List.mem_of_getElem? (i := other) ?_
  rw [List.getElem?_set, if_neg ?_]
  · exact ho
  · rintro rfl
    exact hne (Option.some.inj (ho.symm.trans h))

theorem mem_of_mem_set {α : Type} {items : List α} {place : Nat} {new item : α} (h : item ∈ items.set place new)
    (hne : item ≠ new) : item ∈ items :=
  (List.mem_or_eq_of_mem_set h).resolve_right hne

theorem mem_set_self {α : Type} {items : List α} {place : Nat} {old : α} (new : α) (h : items[place]? = some old) :
    new ∈ items.set place new :=
  List.mem_set (List.getElem?_eq_some_iff.1 h).1 new

/-! ## What holds in every state -/

/-- The jobs before `taken` were taken in their order. Each that does not stop is at work or has sent its own
outcome. As long as jobs wait, a worker is lost for each of the others, and there was one left whenever a job
was taken. -/
structure Invariant (outcome : Nat → Job.Outcome) (workers jobs taken : Nat) (state : State) : Prop where
  length : state.workers.length = crew workers jobs
  waiting : taken ≤ jobs ∧ state.waiting = List.range' taken (jobs - taken)
  sent : ∀ entry ∈ state.sent, entry.1 < taken ∧ entry.2 = outcome entry.1
  busy : ∀ job, .busy job ∈ state.workers → job < taken
  settled : ∀ job < taken, outcome job ≠ .stopped →
    .busy job ∈ state.workers ∨ (job, outcome job) ∈ state.sent
  lost : state.waiting ≠ [] → state.lost outcome = stopsBefore outcome taken
  early : ∀ job < taken, stopsBefore outcome job < crew workers jobs

theorem invariant_start (outcome : Nat → Job.Outcome) (workers jobs : Nat) :
    Invariant outcome workers jobs 0 (State.start workers jobs) where
  length := List.length_replicate
  waiting := ⟨Nat.zero_le _, List.range_eq_range'⟩
  sent := by simp [State.start]
  busy := by simp [State.start]
  settled := by simp
  lost _ := by simp [State.start, State.lost, stopsBefore, List.countP_replicate, Worker.isLost]
  early := by simp

/-- A worker that idles is not lost. -/
theorem lost_lt_length {worker : Nat} (h : state.workers[worker]? = some .idle) :
    state.lost outcome < state.workers.length := by
  refine Nat.lt_of_le_of_ne List.countP_le_length fun hall => ?_
  have := List.countP_eq_length.1 hall .idle (List.mem_of_getElem? h)
  cases this

/-- A worker that has finished with what it held. The job it held, if it does not stop, is sent, and the worker
is as lost as it was, unless no jobs wait. -/
theorem Invariant.release {waiting : List Nat} {crew : List Worker} {sent : List (Nat × Job.Outcome)} {worker : Nat}
    {old : Worker} (h : Invariant outcome workers jobs taken ⟨waiting, crew, sent⟩) (new : Worker)
    (more : List (Nat × Job.Outcome)) (hw : crew[worker]? = some old) (hnew : ∀ job, new ≠ .busy job)
    (hmore : ∀ entry ∈ more, entry.1 < taken ∧ entry.2 = outcome entry.1)
    (hheld : ∀ job, old = .busy job → outcome job ≠ .stopped → (job, outcome job) ∈ more)
    (hlost : waiting ≠ [] → new.isLost outcome = old.isLost outcome) :
    Invariant outcome workers jobs taken ⟨waiting, crew.set worker new, sent ++ more⟩ := by
  constructor
  case length => exact List.length_set.trans h.length
  case waiting => exact h.waiting
  case sent => exact fun entry he => (List.mem_append.1 he).elim (h.sent entry) (hmore entry)
  case busy => exact fun job hj => h.busy job (mem_of_mem_set hj (hnew job).symm)
  case settled =>
    intro job hj hne
    rcases h.settled job hj hne with hm | hm
    · by_cases hold : old = .busy job
      · exact .inr (List.mem_append_right _ (hheld job hold hne))
      · exact .inl (mem_set_of_mem _ hw hm (Ne.symm hold))
    · exact .inr (List.mem_append_left _ hm)
  case lost =>
    intro hne
    have hcount := countP_set_add (Worker.isLost outcome) new hw
    rw [hlost hne] at hcount
    exact (Nat.add_right_cancel hcount).trans (h.lost hne)
  case early => exact h.early

theorem invariant_step (h : Invariant outcome workers jobs taken state) (hs : Step outcome state next) :
    ∃ taken', Invariant outcome workers jobs taken' next := by
  cases hs with
  | @take waiting crew sent worker job hw =>
    obtain ⟨hle, hwaiting⟩ := h.waiting
    obtain ⟨rfl, hlt, hrest⟩ := List.range'_eq_cons_iff.1 hwaiting.symm
    have hlost := h.lost (by simp)
    have hset : ∀ other, other ∈ crew.set worker (.busy taken) → other ∈ crew ∨ other = .busy taken :=
      fun _ => List.mem_or_eq_of_mem_set
    refine ⟨taken + 1, ?_⟩
    constructor
    case length => exact List.length_set.trans h.length
    case waiting => exact ⟨by omega, by rw [hrest, Nat.sub_sub]⟩
    case sent => exact fun entry he => ⟨Nat.lt_succ_of_lt (h.sent entry he).1, (h.sent entry he).2⟩
    case busy =>
      intro job hj
      rcases hset _ hj with hj | hj
      · exact Nat.lt_succ_of_lt (h.busy job hj)
      · cases hj
        exact Nat.lt_succ_self _
    case settled =>
      intro job hj hne
      rcases Nat.lt_succ_iff_lt_or_eq.1 hj with hj | rfl
      · exact (h.settled job hj hne).imp_left fun hm => mem_set_of_mem _ hw hm (by simp)
      · exact .inl (mem_set_self _ hw)
    case lost =>
      intro _
      have hcount := countP_set_add (Worker.isLost outcome) (.busy taken) hw
      rw [isLost_idle, isLost_busy] at hcount
      rw [stopsBefore_succ, ← hlost]
      exact hcount
    case early =>
      intro job hj
      rcases Nat.lt_succ_iff_lt_or_eq.1 hj with hj | rfl
      · exact h.early job hj
      · rw [← hlost, ← h.length]
        exact lost_lt_length hw
  | @send waiting crew sent worker job hw hf =>
    have hjob : (outcome job).isStopped = false := by
      rwa [← Bool.not_eq_true, Job.Outcome.isStopped_iff]
    refine ⟨taken, h.release _ _ hw (by simp) (fun entry he => ?_) (fun other ho _ => ?_) (fun _ => hjob.symm)⟩
    · obtain rfl := List.mem_singleton.1 he
      exact ⟨h.busy job (List.mem_of_getElem? hw), rfl⟩
    · cases ho
      exact List.mem_singleton_self _
  | @die waiting crew sent worker job hw hstopped =>
    have hlost := (Job.Outcome.isStopped_iff.2 hstopped).symm
    have hput := h.release .gone [] hw (by simp) (by simp) ?held (fun _ => hlost)
    case held =>
      rintro other ⟨⟩ hne
      exact absurd hstopped hne
    rw [List.append_nil] at hput
    exact ⟨taken, hput⟩
  | @leave crew sent worker hw =>
    have hput := h.release .gone [] hw (by simp) (by simp) (by simp) (absurd rfl)
    rw [List.append_nil] at hput
    exact ⟨taken, hput⟩

theorem invariant_reaches (h : Reaches outcome (State.start workers jobs) last) :
    ∃ taken, Invariant outcome workers jobs taken last := by
  induction h with
  | refl => exact ⟨0, invariant_start outcome workers jobs⟩
  | step _ hs ih =>
    obtain ⟨taken, ih⟩ := ih
    exact invariant_step ih hs

/-! ## Every schedule ends -/

/-- What a worker has left to do: a busy one has to come to the end of its job before it goes. -/
def Worker.duty : Worker → Nat
  | .idle => 1
  | .busy _ => 2
  | .gone => 0

/-- What is left to do: each job has to be taken as well. -/
def State.work (state : State) : Nat := 2 * state.waiting.length + (state.workers.map Worker.duty).sum

theorem sum_map_set_add {α : Type} (f : α → Nat) {items : List α} {place : Nat} {old : α} (new : α)
    (h : items[place]? = some old) :
    ((items.set place new).map f).sum + f old = (items.map f).sum + f new := by
  induction items generalizing place with
  | nil => cases h
  | cons item items ih =>
    cases place with
    | zero =>
      cases h
      simp only [List.set_cons_zero, List.map_cons, List.sum_cons]
      omega
    | succ place =>
      have hrest := ih h
      simp only [List.set_cons_succ, List.map_cons, List.sum_cons]
      omega

theorem work_step (hs : Step outcome state next) : next.work < state.work := by
  cases hs with
  | take worker job hw =>
    have hduty := sum_map_set_add Worker.duty (.busy job) hw
    simp only [State.work, List.length_cons, Worker.duty] at hduty ⊢
    omega
  | send worker job hw hf =>
    have hduty := sum_map_set_add Worker.duty .idle hw
    simp only [State.work, Worker.duty] at hduty ⊢
    omega
  | die worker job hw hstopped =>
    have hduty := sum_map_set_add Worker.duty .gone hw
    simp only [State.work, Worker.duty] at hduty ⊢
    omega
  | leave worker hw =>
    have hduty := sum_map_set_add Worker.duty .gone hw
    simp only [State.work, Worker.duty] at hduty ⊢
    omega

theorem Reaches.trans (h : Reaches outcome first state) (h' : Reaches outcome state last) :
    Reaches outcome first last := by
  induction h' with
  | refl => exact h
  | step _ hs ih => exact .step ih hs

/-- As long as some worker is there, one of them can go on. -/
theorem exists_step (h : state.isComplete = false) : ∃ next, Step outcome state next := by
  obtain ⟨worker, hm, hne⟩ : ∃ worker ∈ state.workers, worker ≠ .gone := by simpa [State.isComplete] using h
  obtain ⟨place, hplace⟩ := List.getElem?_of_mem hm
  obtain ⟨waiting, workers, sent⟩ := state
  cases worker with
  | idle =>
    cases waiting with
    | nil => exact ⟨_, .leave place hplace⟩
    | cons job waiting => exact ⟨_, .take place job hplace⟩
  | busy job =>
    by_cases hstopped : outcome job = .stopped
    · exact ⟨_, .die place job hplace hstopped⟩
    · exact ⟨_, .send place job hplace hstopped⟩
  | gone => exact absurd rfl hne

/-- Every schedule can be brought to its end, and it cannot go on forever since each step leaves less work. -/
theorem exists_complete (outcome : Nat → Job.Outcome) (state : State) :
    ∃ last, Reaches outcome state last ∧ last.isComplete = true := by
  cases hc : state.isComplete with
  | true => exact ⟨state, .refl, hc⟩
  | false =>
    obtain ⟨next, hs⟩ : ∃ next, Step outcome state next := exists_step hc
    obtain ⟨last, hr, hlast⟩ := exists_complete outcome next
    exact ⟨last, (Reaches.step .refl hs).trans hr, hlast⟩
termination_by state.work
decreasing_by exact work_step hs

/-! ## What is reported in the end -/

/-- Once all workers are gone, exactly those jobs were taken before which too few stop to lose all workers. -/
theorem lt_taken_iff (h : Invariant outcome workers jobs taken last) (hc : last.isComplete = true)
    (hn : number < jobs) : number < taken ↔ stopsBefore outcome number < crew workers jobs := by
  refine ⟨h.early number, fun hstops => Nat.lt_of_not_le fun hle => ?_⟩
  have hwaiting : last.waiting ≠ [] := by
    rw [h.waiting.2]
    simp only [ne_eq, List.range'_eq_nil_iff]
    omega
  have hgone : last.lost outcome = last.workers.length := by
    refine List.countP_eq_length.2 fun worker hw => ?_
    obtain rfl : worker = .gone := by simpa using List.all_eq_true.1 hc worker hw
    rfl
  rw [h.lost hwaiting, h.length] at hgone
  have hmono : stopsBefore outcome taken ≤ stopsBefore outcome number := stopsBefore_mono hle
  omega

theorem lookup_sent (h : Invariant outcome workers jobs taken last) (hc : last.isComplete = true)
    (hn : number < jobs) : (last.sent.lookup number).getD .stopped =
      if stopsBefore outcome number < crew workers jobs then outcome number else .stopped := by
  rw [if_congr (lt_taken_iff h hc hn).symm rfl rfl]
  cases hl : last.sent.lookup number with
  | some result =>
    obtain ⟨before, after, he, -⟩ := List.lookup_eq_some_iff.1 hl
    obtain ⟨hlt, hresult⟩ := h.sent (number, result) (by simp [he])
    rw [if_pos hlt]
    exact hresult
  | none =>
    have hnone := List.lookup_eq_none_iff.1 hl
    split
    · rename_i hlt
      by_cases hstopped : outcome number = .stopped
      · rw [hstopped, Option.getD_none]
      · rcases h.settled number hlt hstopped with hm | hm
        · cases List.all_eq_true.1 hc _ hm
        · simpa using hnone _ hm
    · rfl

/-- The reports are the same in the end of every schedule. -/
theorem collect_complete {jobs : List Job} (h : Reaches outcome (State.start workers jobs.length) last)
    (hc : last.isComplete = true) : collect jobs last.sent = jobs.zipIdx.map fun (job, number) =>
      ⟨job, if stopsBefore outcome number < crew workers jobs.length then outcome number else .stopped⟩ := by
  obtain ⟨taken, hi⟩ := invariant_reaches h
  refine List.map_congr_left fun ⟨job, number⟩ hm => ?_
  have hlt : number < jobs.length := (List.getElem?_eq_some_iff.1 (List.mem_zipIdx_iff_getElem?.1 hm)).1
  exact congrArg (Report.mk job) (lookup_sent hi hc hlt)

/-- The reports that jobs have of themselves. -/
def ownReports (jobs : List Job) (outcome : Nat → Job.Outcome) : List Report :=
  jobs.zipIdx.map fun (job, number) => ⟨job, outcome number⟩

theorem stopsBefore_lt_crew_iff (hn : number < jobs) :
    stopsBefore outcome number < crew workers jobs ↔ stopsBefore outcome number < max workers 1 := by
  have := stopsBefore_le outcome number
  rw [crew]
  omega

/-! ## Running the jobs in order -/

/-- The files once some jobs have run one after the other. -/
def filesAfter (jobs : List Job) (tree : FileTree) : FileTree :=
  jobs.foldl (fun tree job => (job.run tree).2) tree

/-- What becomes of each job when it runs after all those before it. -/
def inOrder (jobs : List Job) (tree : FileTree) (number : Nat) : Job.Outcome :=
  match jobs[number]? with
  | some job => (job.run (filesAfter (jobs.take number) tree)).1
  | none => .stopped

theorem stopsBefore_inOrder_succ (job : Job) (jobs : List Job) (tree : FileTree) (number : Nat) :
    stopsBefore (inOrder (job :: jobs) tree) (number + 1) =
      stopsBefore (inOrder jobs (job.run tree).2) number + if (job.run tree).1.isStopped then 1 else 0 := by
  rw [stopsBefore, List.range_succ_eq_map, List.countP_cons, List.countP_map]
  rfl

theorem runWith_cons (workers : Nat) (job : Job) (jobs : List Job) (tree : FileTree) :
    runWith (workers + 1) (job :: jobs) tree =
      (⟨job, (job.run tree).1⟩ ::
          (runWith (if (job.run tree).1.isStopped then workers else workers + 1) jobs (job.run tree).2).1,
        (runWith (if (job.run tree).1.isStopped then workers else workers + 1) jobs (job.run tree).2).2) := by
  rw [runWith]
  generalize job.run tree = ran
  obtain ⟨outcome, tree⟩ := ran
  cases outcome <;> rfl

theorem runWith_eq_map (workers : Nat) (jobs : List Job) (tree : FileTree) :
    (runWith workers jobs tree).1 = jobs.zipIdx.map fun (job, number) =>
      ⟨job, if stopsBefore (inOrder jobs tree) number < workers then inOrder jobs tree number else .stopped⟩ := by
  induction jobs generalizing workers tree with
  | nil => cases workers <;> rfl
  | cons job jobs ih =>
    cases workers with
    | zero =>
      simp only [runWith, stopped, Nat.not_lt_zero, if_false]
      conv => lhs; rw [← List.zipIdx_map_fst 0 (job :: jobs), List.map_map]
      rfl
    | succ workers =>
      have hleft (number : Nat) : stopsBefore (inOrder (job :: jobs) tree) (number + 1) < workers + 1 ↔
          stopsBefore (inOrder jobs (job.run tree).2) number <
            if (job.run tree).1.isStopped then workers else workers + 1 := by
        rw [stopsBefore_inOrder_succ]
        split <;> omega
      simp only [runWith_cons, List.zipIdx_cons', List.map_cons, List.map_map, ih, List.cons.injEq, Report.mk.injEq,
        true_and]
      refine ⟨?_, List.map_congr_left fun ⟨_, number⟩ _ => ?_⟩
      · simp [stopsBefore, inOrder, filesAfter]
      · simp only [Function.comp, Prod.map, hleft]
        rfl

/-! ## When jobs are reported as they are -/

/-- Every schedule of a pool can be brought to its end. In the end the reports are those of the jobs
themselves exactly if before each job that does not stop fewer jobs stop than there are workers. Running the
jobs in order gives the same reports. -/
theorem reports_own_iff (workers : Nat) (jobs : List Job) (outcome : Nat → Job.Outcome) :
    (∀ state, Reaches outcome (State.start workers jobs.length) state →
      ∃ last, Reaches outcome state last ∧ last.isComplete = true) ∧
    ∀ last, Reaches outcome (State.start workers jobs.length) last → last.isComplete = true →
      (collect jobs last.sent = ownReports jobs outcome ↔
        ∀ number < jobs.length, outcome number ≠ .stopped → stopsBefore outcome number < max workers 1) ∧
      ∀ tree, outcome = inOrder jobs tree → (run workers jobs tree).1 = collect jobs last.sent := by
  refine ⟨fun state _ => exists_complete outcome state, fun last hreaches hc => ?_⟩
  have hmem : ∀ {job number}, (job, number) ∈ jobs.zipIdx → number < jobs.length := fun hm =>
    (List.getElem?_eq_some_iff.1 (List.mem_zipIdx_iff_getElem?.1 hm)).1
  rw [collect_complete hreaches hc]
  constructor
  · rw [ownReports, List.map_inj_left]
    constructor
    · intro hown number hn hne
      have heq := hown (jobs[number], number) (List.mem_zipIdx_iff_getElem?.2 (List.getElem?_eq_getElem hn))
      rw [Report.mk.injEq] at heq
      rw [← stopsBefore_lt_crew_iff hn]
      by_contra hlt
      exact hne (by rw [← heq.2, if_neg hlt])
    · rintro hcond ⟨job, number⟩ hm
      rw [Report.mk.injEq]
      refine ⟨rfl, ite_eq_left_iff.2 fun hlt => ?_⟩
      rw [stopsBefore_lt_crew_iff (hmem hm)] at hlt
      by_contra hne
      exact hlt (hcond number (hmem hm) (Ne.symm hne))
  · rintro tree rfl
    rw [run, runWith_eq_map]
    refine List.map_congr_left fun ⟨job, number⟩ hm => ?_
    simp only [stopsBefore_lt_crew_iff (hmem hm)]

/-- A schema of one type without fields has one fragment. -/
theorem exists_compile_fine {job : Job} {tree : FileTree} {location : Location}
    (hread : tree.readAt job.schema = .ok (location, "type Fine\n"))
    (hdialect : job.dialect = .graphql) :
    ∃ compiled, job.compile tree = some (.ok compiled) ∧ compiled.fragments.standard.length = 1 := by
  obtain ⟨files, selected, hload, -, hp⟩ := Import.load_single (p := fun files selected =>
    (compile (Import.Source.combine files selected).contents .graphql).toOption.any
      (·.fragments.standard.length == 1)) hread (by decide +kernel) (by decide +kernel) (by cbv)
  obtain ⟨compiled, hcompile, hlength⟩ := exists_ok_of_any hp
  refine ⟨compiled, ?_, beq_iff_eq.1 hlength⟩
  rw [← hdialect] at hcompile
  simp only [Job.compile, hload, hcompile]

/-- A block string whose least indent ends inside a character cannot be cut, and reading it stops the job. -/
def tornTree : FileTree where
  workingDirectory := ["w"]
  entries :=
    [(["w"], .directory), (["w", "torn"], .file (some "\"\"\"\n a\n\u3000b\n\"\"\"\ntype Torn\n")),
      (["w", "fine"], .file (some "type Fine\n"))]

def tornJob : Job := ⟨"torn", ⟨"torn"⟩, ⟨"out1"⟩, .graphql, ⟨"out1", "graphql"⟩⟩

def fineJob : Job := ⟨"fine", ⟨"fine"⟩, ⟨"out2"⟩, .graphql, ⟨"out2", "graphql"⟩⟩

/-- A second worker is left when the first one stops. -/
theorem tornJob_fineJob_own : ∃ last,
    Reaches (inOrder [tornJob, fineJob] tornTree) (State.start 2 2) last ∧ last.isComplete = true ∧
      collect [tornJob, fineJob] last.sent = ownReports [tornJob, fineJob] (inOrder [tornJob, fineJob] tornTree) ∧
      (run 2 [tornJob, fineJob] tornTree).1 = collect [tornJob, fineJob] last.sent := by
  obtain ⟨hends, hreports⟩ := reports_own_iff 2 [tornJob, fineJob] (inOrder [tornJob, fineJob] tornTree)
  obtain ⟨last, hreaches, hc⟩ := hends _ .refl
  obtain ⟨hiff, hrun⟩ := hreports last hreaches hc
  refine ⟨last, hreaches, hc, hiff.2 fun number hn _ => ?_, hrun tornTree rfl⟩
  exact Nat.lt_of_le_of_lt (stopsBefore_le _ number) hn

theorem run_tornJob : (tornJob.run tornTree).1 = .stopped := by cbv

theorem run_fineJob : (fineJob.run tornTree).1 = .written 1 := by
  have hread : tornTree.readAt fineJob.schema = .ok (["w", "fine"], "type Fine\n") := by cbv
  have hfind : tornTree.find fineJob.output = .ok (["w", "out2"], none) := by cbv
  obtain ⟨compiled, hcompile, hlength⟩ := exists_compile_fine hread rfl
  rw [Job.run, hcompile]
  simp only [Job.write_of_find (by cbv) (by cbv) hfind (by simp), hlength]

/-- The only worker stops with the first job, and the second one is reported as stopped although it would
write its fragments. -/
theorem tornJob_stops_fineJob : (fineJob.run tornTree).1 = .written 1 ∧
    (run 1 [tornJob, fineJob] tornTree).1 = [⟨tornJob, .stopped⟩, ⟨fineJob, .stopped⟩] := by
  refine ⟨run_fineJob, ?_⟩
  simp [run, runWith, stopped, run_tornJob]

end Pool

end SchemaFragments
