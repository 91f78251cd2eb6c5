import SchemaFragments.Import.Loader
import SchemaFragments.Proofs.SavedSettings
/-!
# Saving a configuration

A file that is written is found where it was before, with its new text, and all else stays. The settings of one
project leave the entries of the others as they are.
-/

namespace SchemaFragments

namespace FileTree

variable {tree files : FileTree} {location other : Location} {entry : Entry} {path : Path} {old new text : String}

theorem lookup_filter_ne (h : other ≠ location) (entries : List (Location × Entry)) :
    (entries.filter (·.1 ≠ location)).lookup other = entries.lookup other := by
  induction entries with
  | nil => rfl
  | cons first rest ih =>
    obtain ⟨place, entry⟩ := first
    by_cases hp : place = location
    · have hne : (other == place) = false := by simpa [hp] using h
      rw [List.filter_cons_of_neg (by simpa using hp), ih, List.lookup_cons, hne]
    · rw [List.filter_cons_of_pos (by simpa using hp), List.lookup_cons, List.lookup_cons, ih]

theorem entryAt_put_of_ne (h : other ≠ location) : (tree.put location entry).entryAt other = tree.entryAt other := by
  have hne : (other == location) = false := by simpa using h
  rw [entryAt, entryAt, put, List.lookup_cons, hne, lookup_filter_ne h]

/-- Another text in a file leaves every walk as it is, apart from that text. -/
theorem walk_put {links : Nat} {here : Location} {names : List String} {old new : Option String}
    (hfile : tree.entryAt location = some (.file old)) :
    (tree.put location (.file new)).walk links here names = (tree.walk links here names).map fun found =>
      (found.1, if found.1 = location then some (.file new) else found.2) := by
  have hroot : location ≠ [] := by
    rintro rfl
    simp [entryAt] at hfile
  have hself : (tree.put location (.file new)).entryAt location = some (.file new) := entryAt_put_self hroot
  -- what is no file is at another place
  have hother {next : Location} {found : Option Entry} (he : tree.entryAt next = found) (hne : found ≠ some (.file old)) :
      next ≠ location ∧ (tree.put location (.file new)).entryAt next = found := by
    have hnext : next ≠ location := by
      rintro rfl
      exact hne (he.symm.trans hfile)
    exact ⟨hnext, (entryAt_put_of_ne hnext).trans he⟩
  fun_induction FileTree.walk tree links here names with
  | case1 links here =>
    rw [walk]
    by_cases hhere : here = location
    · subst hhere
      rw [hself]
      simp [Except.map]
    · rw [entryAt_put_of_ne hhere]
      simp [Except.map, hhere]
  | case2 links here rest ih =>
    rw [walk, if_pos rfl]
    exact ih
  | case3 links here rest hname ih =>
    rw [walk, if_neg hname, if_pos rfl]
    exact ih
  | case4 links here name rest hcurrent hparent next he hlast =>
    obtain ⟨hnext, hsame⟩ : here ++ [name] ≠ location ∧ _ = none := hother he (by simp)
    rw [walk, if_neg hcurrent, if_neg hparent]
    simp [hsame, hlast, Except.map, next, hnext]
  | case5 links here name rest hcurrent hparent next he hlast =>
    obtain ⟨-, hsame⟩ : here ++ [name] ≠ location ∧ _ = none := hother he (by simp)
    rw [walk, if_neg hcurrent, if_neg hparent]
    simp [hsame, hlast, Except.map]
  | case6 links here name rest hcurrent hparent next he ih =>
    obtain ⟨-, hsame⟩ : here ++ [name] ≠ location ∧ _ = some .directory := hother he (by simp)
    rw [walk, if_neg hcurrent, if_neg hparent]
    simp only [hsame]
    exact ih
  | case7 links here name rest hcurrent hparent next text he hlast =>
    rw [walk, if_neg hcurrent, if_neg hparent]
    by_cases hnext : here ++ [name] = location
    · simp [hnext, hself, hlast, Except.map, next]
    · have hsame : (tree.put location (.file new)).entryAt (here ++ [name]) = some (.file text) :=
        (entryAt_put_of_ne hnext).trans he
      simp [hsame, hlast, Except.map, next, hnext]
  | case8 links here name rest hcurrent hparent next text he hlast =>
    rw [walk, if_neg hcurrent, if_neg hparent]
    by_cases hnext : here ++ [name] = location
    · simp [hnext, hself, hlast, Except.map]
    · have hsame : (tree.put location (.file new)).entryAt (here ++ [name]) = some (.file text) :=
        (entryAt_put_of_ne hnext).trans he
      simp [hsame, hlast, Except.map]
  | case9 here name rest hcurrent hparent next target he =>
    obtain ⟨-, hsame⟩ : here ++ [name] ≠ location ∧ _ = some (.link target) := hother he (by simp)
    rw [walk, if_neg hcurrent, if_neg hparent]
    simp [hsame, Except.map]
  | case10 here name rest hcurrent hparent next target he links ih =>
    obtain ⟨-, hsame⟩ : here ++ [name] ≠ location ∧ _ = some (.link target) := hother he (by simp)
    rw [walk, if_neg hcurrent, if_neg hparent]
    simp only [hsame]
    exact ih

theorem find_put {old new : Option String} (hfile : tree.entryAt location = some (.file old)) (path : Path) :
    (tree.put location (.file new)).find path = (tree.find path).map fun found =>
      (found.1, if found.1 = location then some (.file new) else found.2) := by
  unfold find
  split
  · rfl
  · split
    · rfl
    · exact walk_put hfile

/-- Paths are read as before after another text has been put in a file, apart from those that lead to it. -/
theorem readAt_put (hfile : tree.entryAt location = some (.file (some old))) (path : Path) :
    (tree.put location (.file (some new))).readAt path = (tree.readAt path).map fun found =>
      (found.1, if found.1 = location then new else found.2) := by
  unfold readAt
  rw [find_put hfile]
  cases hf : tree.find path with
  | error error => rfl
  | ok found =>
    obtain ⟨place, entry⟩ := found
    have hentry : tree.entryAt place = entry := entryAt_of_find hf
    by_cases hplace : place = location
    · subst hplace
      obtain rfl : entry = some (.file (some old)) := hentry.symm.trans hfile
      simp [Except.map, bind, Except.bind, pure, Except.pure]
    · rcases entry with _ | (_ | (_ | text) | _) <;>
        simp [Except.map, bind, Except.bind, pure, Except.pure, throw, throwThe, MonadExceptOf.throw, hplace]

theorem write_eq_ok (h : tree.write path text = .ok files) :
    ∃ location entry, tree.find path = .ok (location, entry) ∧ files = tree.put location (.file (some text)) := by
  unfold write at h
  split at h
  · cases hf : tree.find (withoutSlash path) <;>
      simp [hf, bind, Except.bind, discard, Functor.mapConst, Except.map, throw, throwThe,
        MonadExceptOf.throw] at h
  · cases hf : tree.find path with
    | error error =>
      rw [hf] at h
      cases h
    | ok found =>
      obtain ⟨location, entry⟩ := found
      refine ⟨location, entry, rfl, ?_⟩
      rcases entry with _ | (_ | text | target)
      all_goals
        simp [hf, bind, Except.bind, pure, Except.pure, throw, throwThe, MonadExceptOf.throw] at h
      all_goals exact h.symm

/-- A file that is written over is read with its new text, and all else is as it was. -/
theorem readAt_write (hread : tree.readAt path = .ok (location, old)) (h : tree.write path text = .ok files) :
    files.readAt path = .ok (location, text) ∧ ∀ other ≠ location, files.entryAt other = tree.entryAt other := by
  have hread' := readAt_eq_ok_iff.1 hread
  obtain ⟨place, entry, hfind, rfl⟩ := write_eq_ok h
  obtain ⟨rfl, rfl⟩ := Prod.mk.inj (Except.ok.inj (hfind.symm.trans hread'))
  refine ⟨?_, fun other hother => entryAt_put_of_ne hother⟩
  rw [readAt_put (entryAt_of_find hread'), hread]
  simp [Except.map]

end FileTree

namespace Config

variable {config : Config} {name other : String} {settings : Settings}

/-! ## The other projects -/

theorem lookup_updateAt_of_ne {entries : Data.Entries} (change : Data.Entries → Data.Entries) (h : other ≠ name) :
    (updateAt name change entries).lookup other = entries.lookup other := by
  unfold updateAt
  split
  · rw [Data.Entries.lookup_set, if_neg h]
  · rfl

theorem isNone_lookup_updateAt (key : String) (change : Data.Entries → Data.Entries) (entries : Data.Entries) :
    ((updateAt name change entries).lookup key).isNone = (entries.lookup key).isNone := by
  by_cases hk : key = name
  · subst hk
    unfold updateAt
    split
    · rename_i inner hl
      rw [Data.Entries.lookup_set, if_pos rfl, hl]
      rfl
    · rfl
  · rw [lookup_updateAt_of_ne change hk]

theorem isSingle_applySettings (name : String) (settings : Settings) :
    (config.applySettings name settings).isSingle = config.isSingle := by
  unfold applySettings
  split
  · split
    · exact isSingle_set _ (by decide) (by decide)
    · rfl
  · have hschema : (updateAt "projects" (updateAt name (withSettings settings)) config.entries).lookup "schemaPath" =
        config.entries.lookup "schemaPath" := lookup_updateAt_of_ne _ (by decide)
    simp only [isSingle, isNone_lookup_updateAt, hschema]

/-- The settings of a project leave the entries of the others as they are. -/
theorem projectEntries?_applySettings_of_ne (h : other ≠ name) (settings : Settings) :
    (config.applySettings name settings).projectEntries? other = config.projectEntries? other := by
  unfold projectEntries?
  rw [isSingle_applySettings]
  cases hs : config.isSingle with
  | true =>
    simp only [if_true]
    split
    · rename_i hdefault
      have hname : name ≠ defaultProject := fun hn => h (hdefault.trans hn.symm)
      rw [applySettings, if_pos hs, if_neg hname]
    · rfl
  | false =>
    have hentries : (config.applySettings name settings).entries =
        updateAt "projects" (updateAt name (withSettings settings)) config.entries := by
      rw [applySettings, if_neg (by simp [hs])]
    rw [hentries]
    cases hl : config.entries.lookup "projects" with
    | none => simp [updateAt, hl]
    | some value =>
      cases value with
      | map projects =>
        have hprojects :
            (updateAt "projects" (updateAt name (withSettings settings)) config.entries).lookup "projects" =
              some (.map (updateAt name (withSettings settings) projects)) := by
          rw [updateAt, hl]
          simp only
          rw [Data.Entries.lookup_set, if_pos rfl]
        have hother : (updateAt name (withSettings settings) projects).lookup other = projects.lookup other :=
          lookup_updateAt_of_ne _ h
        simp [hprojects, Data.entries?, hother]
      | _ => simp [updateAt, hl]

/-! ## The settings of several projects -/

/-- The configuration with the settings of some jobs, applied in their order. -/
def applyAll (config : Config) (jobs : List Job) : Config :=
  jobs.foldl (fun config job => config.applySettings job.project job.settings) config

theorem path_applySettings (name : String) (settings : Settings) :
    (config.applySettings name settings).path = config.path := by
  unfold applySettings
  split
  · split <;> rfl
  · rfl

theorem path_applyAll (config : Config) (jobs : List Job) : (config.applyAll jobs).path = config.path := by
  induction jobs generalizing config with
  | nil => rfl
  | cons job jobs ih => exact (ih _).trans (path_applySettings ..)

/-- Only the entries of projects with new settings change. -/
theorem projectEntries?_applyAll (config : Config) {jobs : List Job} (h : name ∉ jobs.map (·.project)) :
    (config.applyAll jobs).projectEntries? name = config.projectEntries? name := by
  induction jobs generalizing config with
  | nil => rfl
  | cons job jobs ih =>
    rw [List.map_cons, List.mem_cons, not_or] at h
    exact (ih _ h.2).trans (projectEntries?_applySettings_of_ne h.1 _)

end Config

end SchemaFragments
