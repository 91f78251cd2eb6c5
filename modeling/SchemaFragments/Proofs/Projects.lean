import SchemaFragments.Config.Plan
import SchemaFragments.Proofs.DistinctKeys
/-!
# Projects to process

Which projects are selected of those in a configuration, and in which order.
-/

namespace SchemaFragments

variable {known requested projects : List String} {config : Config}

/-- The projects to process: all that are known, or those that are asked for in the order in which each is first
named. None comes twice. -/
structure IsSelection (known requested projects : List String) : Prop where
  nodup : projects.Nodup
  found : ∀ name ∈ requested ++ projects, name ∈ known
  all : requested = [] → projects = known
  asked : requested ≠ [] → ∀ name, name ∈ projects ↔ name ∈ requested
  order : requested ≠ [] → projects.Pairwise fun a b => requested.idxOf a < requested.idxOf b

theorem eraseDups_concat (names : List String) (name : String) :
    (names ++ [name]).eraseDups = names.eraseDups ++ if name ∈ names then [] else [name] := by
  rw [List.eraseDups_append]
  by_cases h : name ∈ names <;> simp [List.removeAll, List.eraseDups_cons, h]

/-- Once repeated names are dropped the others are in the order in which each comes first. -/
theorem pairwise_idxOf_eraseDups (names : List String) :
    names.eraseDups.Pairwise fun a b => names.idxOf a < names.idxOf b := by
  induction names using List.reverseRecOn with
  | nil => exact .nil
  | append_singleton names name ih =>
    rw [eraseDups_concat, List.pairwise_append]
    refine ⟨ih.imp_of_mem fun {a b} ha hb hlt => ?_, by split <;> simp, fun a ha b hb => ?_⟩
    · rw [List.idxOf_append_of_mem (List.mem_eraseDups.1 ha), List.idxOf_append_of_mem (List.mem_eraseDups.1 hb)]
      exact hlt
    · split at hb
      · cases hb
      · rename_i hnew
        obtain rfl := List.mem_singleton.1 hb
        have hlt := List.idxOf_lt_length_of_mem (List.mem_eraseDups.1 ha)
        rw [List.idxOf_append_of_mem (List.mem_eraseDups.1 ha), List.idxOf_append_of_notMem hnew]
        omega

namespace Config

theorem projectNames_ok (hd : (Data.map config.entries).Distinct) (h : config.projectNames = .ok known) :
    known.Nodup ∧ known ≠ [] := by
  unfold projectNames at h
  split at h
  · cases h
    exact ⟨List.nodup_singleton _, List.cons_ne_nil _ _⟩
  · split at h
    · rename_i project projects hl
      cases h
      exact ⟨(hd.of_lookup hl).unique, by simp⟩
    all_goals cases h

theorem exists_select_iff {options : Config.Options} : (∃ projects, config.select options = .ok projects) ↔
    ∃ known, config.projectNames = .ok known ∧ ∀ name ∈ options.projects, name ∈ known := by
  unfold select
  cases config.projectNames with
  | error problem => simp [bind, Except.bind]
  | ok known =>
    simp only [bind, Except.bind, Except.ok.injEq, exists_eq_left']
    constructor
    · rintro ⟨projects, h⟩
      split at h
      · rename_i hempty
        simp [List.isEmpty_iff.1 hempty]
      · split at h
        · cases h
        · rename_i hunknown
          simpa using hunknown
    · intro hknown
      have hfound : options.projects.find? (!known.contains ·) = none := by simpa using hknown
      simp only [hfound]
      split <;> exact ⟨_, rfl⟩

/-- Why no projects can be selected. -/
inductive Unselectable (config : Config) (options : Config.Options) : Fault → Prop
  | names {fault : Fault} (h : config.projectNames = .error (config.fault fault)) : Unselectable config options fault
  | unknown {known : List String} {name : String} (h : config.projectNames = .ok known)
      (hasked : name ∈ options.projects) (hunknown : name ∉ known) :
      Unselectable config options (.unknownProject name known)

theorem unselectable_of_select {options : Config.Options} {problem : Problem}
    (h : config.select options = .error problem) :
    ∃ fault, problem = config.fault fault ∧ config.Unselectable options fault := by
  unfold select at h
  rcases error_of_bind h with hnames | ⟨known, hnames, h⟩
  · obtain ⟨fault, rfl⟩ : ∃ fault, problem = config.fault fault := by
      unfold projectNames at hnames
      split at hnames
      · cases hnames
      · split at hnames <;> cases hnames <;> exact ⟨_, rfl⟩
    exact ⟨fault, rfl, .names hnames⟩
  · split at h
    · cases h
    · split at h
      · rename_i name hfind
        cases h
        have hunknown : name ∉ known := by simpa using List.find?_some hfind
        exact ⟨_, rfl, .unknown hnames (List.mem_of_find?_eq_some hfind) hunknown⟩
      · cases h

theorem isSelection_of_select (hd : (Data.map config.entries).Distinct) {options : Config.Options}
    (h : config.select options = .ok projects) :
    ∃ known, config.projectNames = .ok known ∧ known ≠ [] ∧ IsSelection known options.projects projects := by
  unfold select at h
  cases hn : config.projectNames with
  | error problem =>
    rw [hn] at h
    cases h
  | ok known =>
    obtain ⟨hnodup, hne⟩ := projectNames_ok hd hn
    refine ⟨known, rfl, hne, ?_⟩
    rw [hn] at h
    simp only [bind, Except.bind] at h
    split at h
    · rename_i hempty
      have hnone : options.projects = [] := List.isEmpty_iff.1 hempty
      cases h
      exact ⟨hnodup, by simp [hnone], fun _ => rfl, fun hne => absurd hnone hne, fun hne => absurd hnone hne⟩
    · rename_i hnonempty
      split at h
      · cases h
      · rename_i hunknown
        have hknown : ∀ name ∈ options.projects, name ∈ known := by simpa using hunknown
        have horder := pairwise_idxOf_eraseDups options.projects
        cases h
        constructor
        case nodup => exact horder.imp fun hlt heq => absurd (heq ▸ hlt) (Nat.lt_irrefl _)
        case found => simpa using hknown
        case all => exact fun hnil => absurd (List.isEmpty_iff.2 hnil) hnonempty
        case asked => exact fun _ name => List.mem_eraseDups
        case order => exact fun _ => horder

end Config

end SchemaFragments
