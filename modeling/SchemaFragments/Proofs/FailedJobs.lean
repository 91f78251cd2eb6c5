import SchemaFragments.Proofs.Executions
/-!
# Jobs that fail

A job whose schema cannot be loaded or compiled writes nothing. Where jobs are apart, those that fail can be
left out without a difference to the others, unless so many of them stop that no worker is left:
`runWith_healthy_iff`.
-/

namespace SchemaFragments

variable {job : Job} {jobs rest : List Job} {tree files : FileTree} {number workers others : Nat}

namespace Job

/-- Whether the schema of a job can be loaded and compiled. -/
def compiles (tree : FileTree) (job : Job) : Bool :=
  match job.compile tree with
  | some (.ok _) => true
  | _ => false

theorem compiles_iff : job.compiles tree = true ↔ ∃ compiled, job.compile tree = some (.ok compiled) := by
  unfold compiles
  split
  · exact iff_of_true rfl ⟨_, ‹_›⟩
  · rename_i hne
    refine iff_of_false Bool.false_ne_true ?_
    rintro ⟨compiled, hc⟩
    exact hne compiled hc

theorem run_of_not_compiles (h : job.compiles tree = false) : (job.run tree).2 = tree := by
  unfold run
  split
  · rfl
  · rfl
  · rename_i compiled hc
    rw [compiles_iff.2 ⟨compiled, hc⟩] at h
    cases h

theorem isStopped_of_compiles (h : job.compiles tree = true) : (job.run tree).1.isStopped = false := by
  obtain ⟨compiled, hc⟩ := compiles_iff.1 h
  rw [run, hc]
  exact Pool.isStopped_write job compiled tree

theorem compiles_congr (h : job.compile files = job.compile tree) : job.compiles files = job.compiles tree := by
  rw [compiles, compiles, h]

end Job

namespace Pool

/-! ## The jobs after the first -/

theorem leftByOthers_run {number : Nat} (hne : 0 ≠ number) :
    LeftByOthers (job :: rest) tree number (job.run tree).2 := by
  by_cases hc : job.compiles tree = true
  · obtain ⟨compiled, hc⟩ := Job.compiles_iff.1 hc
    rw [Job.run, hc]
    exact .write .refl rfl hne hc
  · rw [Job.run_of_not_compiles (Bool.eq_false_of_not_eq_true hc)]
    exact .refl

theorem Apart.compile_tail (ha : Apart (job :: rest) tree) {other : Job} (hm : other ∈ rest) :
    other.compile (job.run tree).2 = other.compile tree := by
  obtain ⟨number, hn⟩ := List.getElem?_of_mem hm
  exact (ha (number + 1) other hn _ (leftByOthers_run (Nat.succ_ne_zero number).symm)).1

theorem LeftByOthers.of_tail (ha : Apart (job :: rest) tree) (h : LeftByOthers rest (job.run tree).2 number files) :
    LeftByOthers (job :: rest) tree (number + 1) files := by
  induction h with
  | refl => exact leftByOthers_run (Nat.succ_ne_zero number).symm
  | @write files other writer compiled _ hj hne hc ih =>
    rw [ha.compile_tail (List.mem_of_getElem? hj)] at hc
    have hother : (job :: rest)[other + 1]? = some writer := hj
    exact .write ih hother (by simpa using hne) hc

/-- Once the first job has run the others are apart from each other still. -/
theorem Apart.tail (ha : Apart (job :: rest) tree) : Apart rest (job.run tree).2 := by
  intro number other hother files hfiles
  obtain ⟨hcompile, hwrite⟩ := ha (number + 1) other hother files (.of_tail ha hfiles)
  obtain ⟨hcompile', hwrite'⟩ := ha (number + 1) other hother _ (leftByOthers_run (Nat.succ_ne_zero number).symm)
  refine ⟨hcompile.trans hcompile'.symm, fun compiled hc => ?_⟩
  rw [hcompile'] at hc
  rw [hwrite compiled hc, hwrite' compiled hc]

/-! ## Leaving out the jobs that fail -/

/-- The jobs whose schemas can be loaded and compiled. -/
def healthy (jobs : List Job) (tree : FileTree) : List Job := jobs.filter (·.compiles tree)

theorem healthy_cons_of_pos (h : job.compiles tree = true) : healthy (job :: rest) tree = job :: healthy rest tree :=
  List.filter_cons_of_pos h

theorem healthy_cons_of_neg (h : ¬ job.compiles tree = true) : healthy (job :: rest) tree = healthy rest tree :=
  List.filter_cons_of_neg h

theorem healthy_tail (ha : Apart (job :: rest) tree) : healthy rest (job.run tree).2 = healthy rest tree :=
  List.filter_congr fun _ hm => Job.compiles_congr (ha.compile_tail hm)

/-- Before each job that does not fail there is a worker left. -/
def Served (workers : Nat) (jobs : List Job) (tree : FileTree) : Prop :=
  ∀ number job, jobs[number]? = some job → job.compiles tree = true →
    stopsBefore (inOrder jobs tree) number < workers

theorem Served.tail (ha : Apart (job :: rest) tree) (h : Served (workers + 1) (job :: rest) tree) :
    Served (if (job.run tree).1.isStopped then workers else workers + 1) rest (job.run tree).2 := by
  intro number other hother hc
  rw [Job.compiles_congr (ha.compile_tail (List.mem_of_getElem? hother))] at hc
  have hstops := h (number + 1) other hother hc
  rw [stopsBefore_inOrder_succ] at hstops
  split
  · rename_i hstopped
    rw [if_pos hstopped] at hstops
    omega
  · omega

theorem runWith_nil (workers : Nat) (tree : FileTree) : runWith workers [] tree = ([], tree) := by
  cases workers <;> rfl

/-- The first job makes no difference to which of the other reports are about jobs that do not fail. -/
theorem filter_reports_tail (ha : Apart (job :: rest) tree) (workers : Nat) (files : FileTree) :
    (runWith workers rest files).1.filter (·.job.compiles (job.run tree).2) =
      (runWith workers rest files).1.filter (·.job.compiles tree) := by
  refine List.filter_congr fun report hm => Job.compiles_congr (ha.compile_tail ?_)
  rw [← runWith_jobs workers rest files]
  exact List.mem_map_of_mem hm

theorem runWith_zero (jobs : List Job) (tree : FileTree) : runWith 0 jobs tree = (stopped jobs, tree) := by
  cases jobs <;> rfl

theorem healthy_of_served_zero (h : Served 0 jobs tree) : healthy jobs tree = [] := by
  refine List.filter_eq_nil_iff.2 fun job hm hc => ?_
  obtain ⟨number, hn⟩ := List.getElem?_of_mem hm
  exact Nat.not_lt_zero _ (h number job hn hc)

/-- Where there is always a worker left the reports on the jobs that do not fail, and the files, are the same
without the jobs that do. -/
theorem runWith_healthy (ha : Apart jobs tree) (h : Served workers jobs tree) (hothers : 0 < others) :
    (runWith workers jobs tree).1.filter (·.job.compiles tree) = (runWith others (healthy jobs tree) tree).1 ∧
      (runWith workers jobs tree).2 = (runWith others (healthy jobs tree) tree).2 := by
  obtain ⟨others, rfl⟩ := Nat.exists_eq_add_one.2 hothers
  induction jobs generalizing workers tree with
  | nil => simp [healthy, runWith_nil]
  | cons job rest ih =>
    cases workers with
    | zero =>
      have hnone := healthy_of_served_zero h
      have hstopped : (stopped (job :: rest)).filter (·.job.compiles tree) = stopped (healthy (job :: rest) tree) :=
        List.filter_map
      rw [runWith_zero, hstopped, hnone, runWith_nil]
      exact ⟨rfl, rfl⟩
    | succ workers =>
      obtain ⟨hreports, hfiles⟩ := ih ha.tail (h.tail ha)
      rw [filter_reports_tail ha, healthy_tail ha] at hreports
      rw [healthy_tail ha] at hfiles
      by_cases hc : job.compiles tree = true
      · have hstopped := Job.isStopped_of_compiles hc
        have hhead (outcome : Job.Outcome) (reports : List Report) :
            (⟨job, outcome⟩ :: reports).filter (·.job.compiles tree) =
              ⟨job, outcome⟩ :: reports.filter (·.job.compiles tree) := List.filter_cons_of_pos hc
        rw [hstopped] at hreports hfiles
        rw [healthy_cons_of_pos hc, runWith_cons, runWith_cons, hstopped, hhead]
        exact ⟨congrArg _ hreports, hfiles⟩
      · have hsame := Job.run_of_not_compiles (Bool.eq_false_of_not_eq_true hc)
        have hhead (outcome : Job.Outcome) (reports : List Report) :
            (⟨job, outcome⟩ :: reports).filter (·.job.compiles tree) = reports.filter (·.job.compiles tree) :=
          List.filter_cons_of_neg hc
        rw [hsame] at hreports hfiles
        rw [healthy_cons_of_neg hc, runWith_cons, hhead, hsame]
        exact ⟨hreports, hfiles⟩

/-- A job that does not fail is reported as written or as not writable, in a pool that comes to it. -/
theorem ne_stopped_of_mem_healthy (ha : Apart jobs tree) (hothers : 0 < others) {report : Report}
    (hm : report ∈ (runWith others (healthy jobs tree) tree).1) : report.outcome ≠ .stopped := by
  have hserved : Served (jobs.length + 1) jobs tree := fun number job hjob _ =>
    Nat.lt_succ_of_le ((stopsBefore_le _ number).trans (List.getElem?_eq_some_iff.1 hjob).1.le)
  rw [← (runWith_healthy ha hserved hothers).1, List.mem_filter, runWith_eq_map] at hm
  obtain ⟨hm, hc⟩ := hm
  obtain ⟨⟨job, number⟩, hz, rfl⟩ := List.mem_map.1 hm
  have hjob : jobs[number]? = some job := List.mem_zipIdx_iff_getElem?.1 hz
  simp only [hserved number job hjob hc, if_true]
  rw [inOrder_of_apart ha hjob, ne_eq, ← Job.Outcome.isStopped_iff, Job.isStopped_of_compiles hc]
  exact Bool.false_ne_true

/-- Exactly if before each job that does not fail there is a worker left, the reports on these jobs are those of
a pool that is not given the others. The files are the same then. -/
theorem runWith_healthy_iff (ha : Apart jobs tree) (hothers : 0 < others) :
    ((runWith workers jobs tree).1.filter (·.job.compiles tree) = (runWith others (healthy jobs tree) tree).1 ↔
        Served workers jobs tree) ∧
      (Served workers jobs tree → (runWith workers jobs tree).2 = (runWith others (healthy jobs tree) tree).2) := by
  refine ⟨⟨fun heq number job hjob hc => ?_, fun h => (runWith_healthy ha h hothers).1⟩,
    fun h => (runWith_healthy ha h hothers).2⟩
  by_contra hlt
  have hreport : ⟨job, .stopped⟩ ∈ (runWith workers jobs tree).1 := by
    rw [runWith_eq_map]
    exact List.mem_map.2 ⟨(job, number), List.mem_zipIdx_iff_getElem?.2 hjob, by simp [hlt]⟩
  have hm : ⟨job, .stopped⟩ ∈ (runWith others (healthy jobs tree) tree).1 :=
    heq ▸ List.mem_filter.2 ⟨hreport, hc⟩
  exact ne_stopped_of_mem_healthy ha hothers hm rfl

/-- Whatever is written, it is written by jobs that do not fail, in their order. -/
theorem exists_filesAfter_healthy (ha : Apart jobs tree) (workers : Nat) :
    ∃ count, (runWith workers jobs tree).2 = filesAfter ((healthy jobs tree).take count) tree := by
  induction jobs generalizing workers tree with
  | nil => exact ⟨0, by simp [runWith_nil, filesAfter]⟩
  | cons job rest ih =>
    cases workers with
    | zero => exact ⟨0, by simp [runWith_zero, filesAfter]⟩
    | succ workers =>
      obtain ⟨count, hfiles⟩ := ih ha.tail (if (job.run tree).1.isStopped then workers else workers + 1)
      rw [healthy_tail ha] at hfiles
      rw [runWith_cons, hfiles]
      by_cases hc : job.compiles tree = true
      · refine ⟨count + 1, ?_⟩
        rw [healthy_cons_of_pos hc, List.take_succ_cons]
        rfl
      · refine ⟨count, ?_⟩
        rw [healthy_cons_of_neg hc, Job.run_of_not_compiles (Bool.eq_false_of_not_eq_true hc)]

end Pool

end SchemaFragments
