import SchemaFragments.Proofs.Schedules
import SchemaFragments.Run
/-!
# Failures are told

Every problem has a message that counts as a failure, and nothing else has: what a run says shows whether
something went wrong. The exit status is read off the messages alone.
-/

namespace SchemaFragments

variable {tree : FileTree} {job : Job} {workers : Nat} {jobs : List Job} {report : Report}

/-! ## Problems -/

theorem Message.isFailure_inFile (title : String) (path : Path) (contents : String) (position : Option Position)
    (help : Option String) : (Message.inFile title path contents position help).isFailure = true := by
  cases position <;> rfl

theorem Config.Problem.isFailure_message (problem : Config.Problem) : problem.message.isFailure = true := by
  cases problem <;> rfl

theorem Import.Problem.isFailure_message (problem : Import.Problem) : problem.message.isFailure = true := by
  cases problem <;> rfl

theorem Import.Source.isFailure_linkError (source : Import.Source) (error : LinkError) :
    (source.linkError error).isFailure = true := by
  unfold linkError errorAt
  simp only
  split
  · exact Message.isFailure_inFile ..
  · exact Message.isFailure_inFile ..
  · rfl

theorem Import.loadFiles_problems_ne_nil {path : Path} {problems : List Import.Problem}
    (h : Import.loadFiles tree path = .error (.problems problems)) : problems ≠ [] := by
  unfold Import.loadFiles at h
  split at h
  · cases h
    exact List.cons_ne_nil _ _
  · split at h <;> cases h

theorem Import.select_problems_ne_nil {files : List Import.SchemaFile} {problems : List Import.Problem}
    (h : Import.select files = .error problems) : problems ≠ [] := by
  unfold Import.select at h
  simp only at h
  split at h
  · cases h
  · rename_i hempty
    cases h
    rintro hnil
    simp [hnil] at hempty

/-- A schema that is not loaded for some problems has at least one. -/
theorem Import.load_problems_ne_nil {path : Path} {problems : List Import.Problem}
    (h : Import.load tree path = .error (.problems problems)) : problems ≠ [] := by
  unfold Import.load at h
  cases hl : Import.loadFiles tree path with
  | error error =>
    rw [hl] at h
    cases h
    exact Import.loadFiles_problems_ne_nil hl
  | ok loader =>
    rw [hl] at h
    simp only [bind, Except.bind] at h
    split at h
    · rename_i hempty
      cases h
      rintro hnil
      simp [hnil] at hempty
    · split at h
      · rename_i problems' hselect
        cases h
        exact Import.select_problems_ne_nil hselect
      · cases h

/-! ## Jobs -/

namespace Job

/-- The messages of a failure: at least one, and none that is no failure. -/
def Failure.Told (failure : Failure) : Prop :=
  failure.messages ≠ [] ∧ ∀ message ∈ failure.messages, message.isFailure = true

theorem told_unloadable {problems : List Import.Problem} (h : problems ≠ []) : (Failure.unloadable problems).Told := by
  refine ⟨by simpa [Failure.messages] using h, fun message hm => ?_⟩
  obtain ⟨problem, -, rfl⟩ := List.mem_map.1 hm
  exact problem.isFailure_message

theorem told_unlinkable (source : Import.Source) (error : LinkError) : (Failure.unlinkable source error).Told :=
  ⟨List.cons_ne_nil _ _, List.forall_mem_singleton.2 (source.isFailure_linkError error)⟩

theorem told_unwritable (path : Path) (error : FileError) : (Failure.unwritable path error).Told :=
  ⟨List.cons_ne_nil _ _, List.forall_mem_singleton.2 rfl⟩

theorem told_of_compile {failure : Failure} (h : job.compile tree = some (.error failure)) : failure.Told := by
  unfold compile at h
  split at h
  · cases h
  · rename_i problems hload
    cases h
    exact told_unloadable (Import.load_problems_ne_nil hload)
  · split at h
    · cases h
    · cases h
      exact told_unlinkable _ _
    · cases h

theorem told_of_prepareOutput {failure : Failure} (h : job.prepareOutput tree = .error failure) : failure.Told := by
  unfold prepareOutput at h
  split at h
  · cases h
  · rename_i parent above _
    split at h
    · cases h
    · cases hd : tree.ensureDirectories (parent :: above) with
      | ok files =>
        rw [hd] at h
        cases h
      | error error =>
        rw [hd] at h
        cases h
        exact told_unwritable _ _

/-- A job that fails has something to tell. -/
theorem told_of_run {failure : Failure} (h : (job.run tree).1 = .failed failure) : failure.Told := by
  unfold run at h
  split at h
  · cases h
  · rename_i failure' hc
    cases h
    exact told_of_compile hc
  · unfold write at h
    split at h
    · rename_i failure' hp
      cases h
      exact told_of_prepareOutput hp
    · split at h
      · cases h
        exact told_unwritable _ _
      · cases h

end Job

/-- What a pool reports of a job is that it stopped, or what becomes of it on some files. -/
theorem Pool.outcome_of_mem_run (h : report ∈ (Pool.run workers jobs tree).1) :
    report.outcome = .stopped ∨ ∃ files, report.outcome = (report.job.run files).1 := by
  rw [Pool.run, Pool.runWith_eq_map] at h
  obtain ⟨⟨job, number⟩, hm, rfl⟩ := List.mem_map.1 h
  have hjob : jobs[number]? = some job := List.mem_zipIdx_iff_getElem?.1 hm
  simp only
  split
  · rw [Pool.inOrder, hjob]
    exact .inr ⟨_, rfl⟩
  · exact .inl rfl

namespace Run

/-! ## Messages of a run -/

theorem any_isFailure_of_told {failure : Job.Failure} (h : failure.Told) :
    failure.messages.any (·.isFailure) = true := by
  obtain ⟨message, hm⟩ := List.exists_mem_of_ne_nil _ h.1
  exact List.any_eq_true.2 ⟨message, hm, h.2 message hm⟩

/-- A report has a message that is a failure exactly if nothing was written. -/
theorem any_reportMessages (h : report ∈ (Pool.run workers jobs tree).1) :
    (reportMessages report).any (·.isFailure) = !report.outcome.isWritten := by
  rcases Pool.outcome_of_mem_run h with hs | ⟨files, hr⟩
  · simp [reportMessages, Report.failures, hs, Job.Outcome.isWritten, Message.isFailure, Message.Level.isFailure]
  · unfold reportMessages
    split
    · rename_i typeCount ho
      rw [ho]
      split <;> rfl
    · rename_i hne
      unfold Report.failures
      split
      · rename_i typeCount ho
        exact absurd ho (hne typeCount)
      · rename_i failure ho
        rw [ho]
        exact any_isFailure_of_told (Job.told_of_run (hr ▸ ho))
      · rename_i ho
        rw [ho]
        rfl

def Preparation.isFailed : Preparation → Bool
  | .failed .. => true
  | _ => false

theorem any_preparationMessages (verbose : Bool) (preparation : Preparation) :
    (preparation.messages verbose).any (·.isFailure) = preparation.isFailed := by
  cases preparation with
  | planned job => rfl
  | skipped project => cases verbose <;> rfl
  | failed project problem =>
    have hfailure := problem.isFailure_message
    simpa [Preparation.messages, Preparation.isFailed, Config.Problem.messageWhilePreparing, Message.isFailure]
      using hfailure

end Run

end SchemaFragments
