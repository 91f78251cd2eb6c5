import SchemaFragments.Proofs.AppliedSettings
/-!
# The order of keys

Settings keep the order of keys at every level of a configuration but one: where the old extension is removed, the last
of the extensions takes its place. So the order is kept exactly where at most one of them stands behind the old one:
`keepsOrder_applySettings_iff`.
-/

namespace SchemaFragments

open Data (Entries)

/-! ## Keys in the same order -/

section Order

variable {keys common before after : List String} {first second : String}

theorem not_sublist_swap (hn : keys.Nodup) (h : [first, second].Sublist keys) : ¬ [second, first].Sublist keys := by
  intro hswap
  induction keys with
  | nil => cases h
  | cons key keys ih =>
    obtain ⟨hkey, hn⟩ := List.nodup_cons.1 hn
    cases h with
    | cons _ h =>
      cases hswap with
      | cons _ hswap => exact ih hn h hswap
      | cons_cons _ _ => exact hkey (h.subset (by simp))
    | cons_cons _ h =>
      cases hswap with
      | cons _ hswap => exact hkey (hswap.subset (by simp))
      | cons_cons _ _ => exact hkey (List.singleton_sublist.1 h)

theorem sublist_or_swap (hne : first ≠ second) (hfirst : first ∈ keys) (hsecond : second ∈ keys) :
    [first, second].Sublist keys ∨ [second, first].Sublist keys := by
  induction keys with
  | nil => cases hfirst
  | cons key keys ih =>
    rcases List.mem_cons.1 hfirst with rfl | hfirst
    · have hmem : second ∈ keys := (List.mem_cons.1 hsecond).resolve_left hne.symm
      exact .inl ((List.singleton_sublist.2 hmem).cons_cons _)
    · rcases List.mem_cons.1 hsecond with rfl | hsecond
      · exact .inr (List.Sublist.cons_cons second (List.singleton_sublist.2 ‹first ∈ keys›))
      · exact (ih hfirst hsecond).imp (.cons _) (.cons _)

/-- What a part of some keys holds stands in the order of all of them. -/
theorem sublist_common_iff (hs : common.Sublist keys) (hn : keys.Nodup) (hfirst : first ∈ common)
    (hsecond : second ∈ common) : [first, second].Sublist common ↔ [first, second].Sublist keys := by
  refine ⟨fun h => h.trans hs, fun h => ?_⟩
  have hne : first ≠ second := by
    rintro rfl
    exact List.nodup_iff_sublist.1 hn first h
  exact (sublist_or_swap hne hfirst hsecond).resolve_right fun hswap => not_sublist_swap hn h (hswap.trans hs)

/-- The keys that two maps share stand in the same order. -/
def SameOrder (before after : List String) : Prop :=
  ∀ first second, first ∈ before → second ∈ before → first ∈ after → second ∈ after →
    ([first, second].Sublist before ↔ [first, second].Sublist after)

theorem SameOrder.refl (keys : List String) : SameOrder keys keys := fun _ _ _ _ _ _ => Iff.rfl

theorem SameOrder.of_common (hbefore : before.Nodup) (hafter : after.Nodup) (hs : common.Sublist before)
    (hs' : common.Sublist after) (h : ∀ key ∈ before, key ∈ after → key ∈ common) : SameOrder before after := by
  intro first second hfirst hsecond hfirst' hsecond'
  have hfirst'' := h first hfirst hfirst'
  have hsecond'' := h second hsecond hsecond'
  exact (sublist_common_iff hs hbefore hfirst'' hsecond'').symm.trans (sublist_common_iff hs' hafter hfirst'' hsecond'')

/-- Keys that are added at the end leave the others in order. -/
theorem SameOrder.append {added : List String} (hn : (before ++ added).Nodup) : SameOrder before (before ++ added) :=
  .of_common (List.nodup_append.1 hn).1 hn (List.Sublist.refl _) (List.sublist_append_left _ _) fun _ h _ => h

end Order

/-! ## Setting and removing keys -/

namespace Data.Entries

theorem exists_keys_set (key : String) (value : Data) (entries : Entries) :
    ∃ added, (entries.set key value).map (·.1) = entries.map (·.1) ++ added := by
  rw [keys_set]
  split
  · exact ⟨[], (List.append_nil _).symm⟩
  · exact ⟨[key], rfl⟩

theorem sameOrder_set {entries : Entries} (hu : entries.Unique) (key : String) (value : Data) :
    SameOrder (entries.map (·.1)) ((entries.set key value).map (·.1)) := by
  obtain ⟨added, hkeys⟩ := exists_keys_set key value entries
  have hn : ((entries.set key value).map (·.1)).Nodup := hu.set key value
  rw [hkeys] at hn ⊢
  exact .append hn

theorem keys_remove {entries : Entries} {key : String} {front back : List String} (hu : entries.Unique)
    (h : entries.map (·.1) = front ++ key :: back) :
    (entries.remove key).map (·.1) = front ++ (back.getLast?.toList ++ back.dropLast) := by
  have hfront : key ∉ front := by
    have hn : (front ++ key :: back).Nodup := h ▸ hu
    exact fun hmem => (List.nodup_append.1 hn).2.2 key hmem key (.head _) rfl
  obtain ⟨before, rest, rfl, rfl, hrest⟩ := List.map_eq_append_iff.1 h
  obtain ⟨⟨_, value⟩, after, rfl, rfl, rfl⟩ := List.map_eq_cons_iff.1 hrest
  rw [remove_append hfront, List.map_append, List.map_append, List.map_dropLast, List.getLast?_map]
  cases after.getLast? <;> rfl

end Data.Entries

namespace Config

variable {config : Config} {name : String} {entries extensions : Entries} {settings : Settings} {path : List String}

theorem exists_keys_changedExtensions (settings : Settings) (extensions : Entries) :
    ∃ added, (changedExtensions settings extensions).map (·.1) = (extensions.remove legacyKey).map (·.1) ++ added :=
  Entries.exists_keys_set ..

theorem sameOrder_changedGeneration {generation : Entries} (hu : generation.Unique) (settings : Settings) :
    SameOrder (generation.map (·.1)) ((changedGeneration settings generation).map (·.1)) := by
  have hn : ((changedGeneration settings generation).map (·.1)).Nodup := (hu.set _ _).set _ _
  obtain ⟨first, hfirst⟩ := Entries.exists_keys_set "output" (.text settings.output) generation
  obtain ⟨second, hsecond⟩ := Entries.exists_keys_set "generator" (.text settings.generator)
    (generation.set "output" (.text settings.output))
  rw [changedGeneration, hsecond, hfirst, List.append_assoc] at hn ⊢
  exact .append hn

/-- Of several extensions behind the old one, the last takes its place, so that it stands in front of the others. -/
theorem length_le_one_of_sameOrder (hu : extensions.Unique) {front back : List String}
    (hsplit : extensions.map (·.1) = front ++ legacyKey :: back)
    (hsame : SameOrder (extensions.map (·.1)) ((changedExtensions settings extensions).map (·.1))) :
    back.length ≤ 1 := by
  obtain ⟨added, hkeys⟩ := exists_keys_changedExtensions settings extensions
  rw [Entries.keys_remove hu hsplit] at hkeys
  by_contra hlength
  obtain ⟨first, last, middle, rfl⟩ : ∃ first last middle, back = first :: (middle ++ [last]) := by
    obtain _ | ⟨first, rest⟩ := back
    · simp at hlength
    rcases List.eq_nil_or_concat rest with rfl | ⟨middle, last, rfl⟩
    · simp at hlength
    · exact ⟨first, last, middle, List.concat_eq_append ▸ rfl⟩
  have hbefore : [first, last].Sublist (extensions.map (·.1)) := by
    rw [hsplit]
    exact ((((List.sublist_append_right middle [last]).cons_cons first).cons legacyKey).trans
      (List.sublist_append_right _ _))
  have hafter : [last, first].Sublist ((changedExtensions settings extensions).map (·.1)) := by
    rw [hkeys, ← List.cons_append, List.getLast?_concat, List.dropLast_concat]
    have hmoved : [last, first].Sublist (last :: first :: middle) := ((List.nil_sublist _).cons_cons _).cons_cons _
    exact (hmoved.trans (List.sublist_append_right front _)).trans (List.sublist_append_left _ added)
  refine not_sublist_swap hu hbefore ((hsame last first ?_ ?_ ?_ ?_).2 hafter)
  · exact hbefore.subset (by simp)
  · exact hbefore.subset (by simp)
  · exact hafter.subset (by simp)
  · exact hafter.subset (by simp)

theorem sameOrder_of_length_le_one (hu : extensions.Unique)
    (hshort : ∀ front back, extensions.map (·.1) = front ++ legacyKey :: back → back.length ≤ 1) :
    SameOrder (extensions.map (·.1)) ((changedExtensions settings extensions).map (·.1)) := by
  obtain ⟨added, hkeys⟩ := exists_keys_changedExtensions settings extensions
  have hn : ((changedExtensions settings extensions).map (·.1)).Nodup := unique_changeMap (hu.remove _) _ _
  have hlegacy : legacyKey ∉ (changedExtensions settings extensions).map (·.1) :=
    legacyKey_notMem_changedExtensions hu settings
  rw [hkeys] at hn hlegacy ⊢
  by_cases hmem : legacyKey ∈ extensions.map (·.1)
  · obtain ⟨front, back, hsplit⟩ := List.append_of_mem hmem
    have hkept : (extensions.remove legacyKey).map (·.1) = front ++ back := by
      rw [Entries.keys_remove hu hsplit]
      match back, hshort front back hsplit with
      | [], _ | [_], _ => rfl
    rw [hkept] at hn hlegacy ⊢
    have hu' : (front ++ legacyKey :: back).Nodup := hsplit ▸ hu
    rw [hsplit]
    refine .of_common hu' hn ((List.sublist_cons_self _ _).append_left front) (List.sublist_append_left _ _) ?_
    intro key hkey hkey'
    have hne : key ≠ legacyKey := by
      rintro rfl
      exact hlegacy hkey'
    simpa [hne] using hkey
  · rw [Entries.remove_of_notMem hmem] at hn ⊢
    exact .append hn

/-! ## The levels of a configuration -/

/-- The keys of every map that stays a map are in the same order, and lists that stay lists are the same. -/
structure KeepsOrder (config after : Config) : Prop where
  maps : ∀ path before changed, (Data.map config.entries).at? path = some (.map before) →
    (Data.map after.entries).at? path = some (.map changed) → SameOrder (before.map (·.1)) (changed.map (·.1))
  lists : ∀ path before changed, (Data.map config.entries).at? path = some (.list before) →
    (Data.map after.entries).at? path = some (.list changed) → before = changed

theorem KeepsOrder.refl (config : Config) : KeepsOrder config config where
  maps path before changed h h' := by
    cases h.symm.trans h'
    exact .refl _
  lists path before changed h h' := by
    cases h.symm.trans h'
    rfl

/-- Without the project nothing changes. -/
theorem applySettings_of_none (h : config.projectEntries? name = none) (settings : Settings) :
    config.applySettings name settings = config := by
  unfold projectEntries? at h
  cases hs : config.isSingle with
  | true =>
    rw [hs] at h
    have hn : name ≠ defaultProject := by
      rintro rfl
      cases h
    rw [applySettings, if_pos hs, if_neg hn]
  | false =>
    have hsame : updateAt "projects" (updateAt name (withSettings settings)) config.entries = config.entries := by
      by_cases hprojects : ∃ projects, config.entries.lookup "projects" = some (.map projects)
      · obtain ⟨projects, hl⟩ := hprojects
        have hproject : ∀ inner, projects.lookup name ≠ some (.map inner) := by
          intro inner hinner
          simp [hs, hl, hinner, Data.entries?] at h
        rw [updateAt_eq_set hl, updateAt_of_no_map hproject, Entries.set_of_lookup hl]
      · exact updateAt_of_no_map (fun inner hl => hprojects ⟨inner, hl⟩) _
    rw [applySettings, if_neg (ne_true_of_eq_false hs), hsame]

/-- On the paths that settings touch there are the maps that lead to the settings, and texts. -/
theorem way_or_text (hd : (Data.map entries).Distinct) (he : config.projectEntries? name = some entries)
    {value : Data} (h : Touched (config.projectPath name) path)
    (hv : (Data.map (config.applySettings name settings).entries).at? path = some value) :
    path <+: config.projectPath name ++ ["extensions", generationKey] ∨ ∃ text, value = .text text := by
  have hu : (Data.entriesOf (entries.lookup "extensions")).Unique := (hd.getD "extensions").unique
  have htext {text : String} {rest : List String} (h : (Data.text text).at? rest = some value) : value = .text text := by
    cases rest with
    | nil =>
      rw [Data.at?_nil] at h
      exact (Option.some.inj h).symm
    | cons key rest => cases h
  rcases h with hway | ⟨rest, rfl⟩ | ⟨rest, rfl⟩ | ⟨rest, rfl⟩
  · exact .inl hway
  · rw [List.append_assoc, at?_applySettings_append he, List.cons_append, at?_withSettings, if_pos rfl,
      List.cons_append, at?_changedExtensions hu, if_neg (by decide), if_pos rfl] at hv
    cases hv
  · obtain ⟨generation, hat⟩ := at?_setting hd he settings "output" rest
    rw [List.append_assoc] at hv
    exact .inr ⟨_, htext (hat.symm.trans hv)⟩
  · obtain ⟨generation, hat⟩ := at?_setting hd he settings "generator" rest
    rw [List.append_assoc] at hv
    exact .inr ⟨_, htext (hat.symm.trans hv)⟩

/-- Above a project no key moves. -/
theorem keys_above (habove : path <+: config.projectPath name) (hne : ¬ config.projectPath name <+: path)
    {before changed : Entries} (hbefore : (Data.map config.entries).at? path = some (.map before))
    (hafter : (Data.map (config.applySettings name settings).entries).at? path = some (.map changed)) :
    changed.map (·.1) = before.map (·.1) := by
  cases hs : config.isSingle with
  | true => exact absurd (by simp [projectPath, hs]) hne
  | false =>
    rw [applySettings_entries hs] at hafter
    simp only [projectPath, hs, Bool.false_eq_true, if_false] at habove hne
    rcases path with _ | ⟨key, _ | ⟨project, path⟩⟩
    · rw [Data.at?_nil] at hbefore hafter
      cases hbefore
      cases hafter
      exact keys_updateAt ..
    · obtain rfl : key = "projects" := by simpa using habove
      have hl : config.entries.lookup "projects" = some (.map before) := by simpa [Option.bind_eq_some_iff] using hbefore
      rw [Data.at?_cons, updateAt_eq_set hl, Entries.lookup_set, if_pos rfl, Option.bind_some, Data.at?_nil] at hafter
      cases hafter
      exact keys_updateAt ..
    · obtain ⟨rfl, rfl, rfl⟩ : key = "projects" ∧ project = name ∧ path = [] := by simpa using habove
      exact absurd (List.prefix_refl _) hne

/-- Along the way to the settings the order of keys stays, if it does at the extensions. -/
theorem sameOrder_of_way (hd : (Data.map entries).Distinct) (he : config.projectEntries? name = some entries)
    (hextensions : ∀ extensions, entries.lookup "extensions" = some (.map extensions) →
      SameOrder (extensions.map (·.1)) ((changedExtensions settings extensions).map (·.1)))
    (hway : path <+: config.projectPath name ++ ["extensions", generationKey])
    {before changed : Entries} (hbefore : (Data.map config.entries).at? path = some (.map before))
    (hafter : (Data.map (config.applySettings name settings).entries).at? path = some (.map changed)) :
    SameOrder (before.map (·.1)) (changed.map (·.1)) := by
  by_cases hbeneath : config.projectPath name <+: path
  · obtain ⟨rest, rfl⟩ := hbeneath
    rw [List.prefix_append_right_inj] at hway
    rw [at?_projectPath_append he] at hbefore
    rw [at?_applySettings_append he] at hafter
    rcases rest with _ | ⟨key, _ | ⟨key', _ | ⟨_, _⟩⟩⟩
    · rw [Data.at?_nil] at hbefore hafter
      cases hbefore
      cases hafter
      exact Entries.sameOrder_set hd.unique _ _
    · obtain rfl : key = "extensions" := by simpa using hway
      have hl : entries.lookup "extensions" = some (.map before) := by simpa [Option.bind_eq_some_iff] using hbefore
      rw [at?_withSettings, if_pos rfl, Data.at?_nil, hl] at hafter
      cases hafter
      exact hextensions _ hl
    · obtain ⟨rfl, rfl⟩ : key = "extensions" ∧ key' = generationKey := by simpa using hway
      have hu : (Data.entriesOf (entries.lookup "extensions")).Unique := (hd.getD "extensions").unique
      rw [at?_withSettings, if_pos rfl, at?_changedExtensions hu, if_pos rfl, Data.at?_nil] at hafter
      rw [Data.at?_cons, Data.bind_at?_cons] at hbefore
      have hl : (Data.entriesOf (entries.lookup "extensions")).lookup generationKey = some (.map before) := by
        simpa [Option.bind_eq_some_iff] using hbefore
      have hbefore : before.Unique := ((hd.getD "extensions").of_lookup hl).unique
      rw [hl] at hafter
      cases hafter
      exact sameOrder_changedGeneration hbefore settings
    · simp at hway
  · have habove := (List.prefix_or_prefix_of_prefix hway (List.prefix_append _ _)).resolve_right hbeneath
    rw [keys_above habove hbeneath hbefore hafter]
    exact .refl _

/-- Apart from the extensions of the project the order of keys stays anyway. -/
theorem keepsOrder_of_extensions (hd : (Data.map config.entries).Distinct)
    (he : config.projectEntries? name = some entries)
    (hextensions : ∀ extensions, entries.lookup "extensions" = some (.map extensions) →
      SameOrder (extensions.map (·.1)) ((changedExtensions settings extensions).map (·.1))) :
    KeepsOrder config (config.applySettings name settings) := by
  have hentries : (Data.map entries).Distinct := distinct_projectEntries? hd he
  constructor
  case maps =>
    intro path before changed hbefore hafter
    by_cases htouched : Touched (config.projectPath name) path
    · obtain hway | ⟨text, htext⟩ := way_or_text hentries he htouched hafter
      · exact sameOrder_of_way hentries he hextensions hway hbefore hafter
      · cases htext
    · rw [at?_applySettings_of_untouched hd he htouched, hbefore] at hafter
      cases hafter
      exact .refl _
  case lists =>
    intro path before changed hbefore hafter
    by_cases htouched : Touched (config.projectPath name) path
    · obtain hway | ⟨text, htext⟩ := way_or_text hentries he htouched hafter
      · obtain ⟨inner, hinner⟩ := exists_map_of_prefix he settings hway
        cases hafter.symm.trans hinner
      · cases htext
    · rw [at?_applySettings_of_untouched hd he htouched, hbefore] at hafter
      cases hafter
      rfl

theorem KeepsOrder.inExtensions (h : KeepsOrder config (config.applySettings name settings))
    (he : config.projectEntries? name = some entries) (hl : entries.lookup "extensions" = some (.map extensions)) :
    SameOrder (extensions.map (·.1)) ((changedExtensions settings extensions).map (·.1)) := by
  have hafter : (Data.map (config.applySettings name settings).entries).at?
      (config.projectPath name ++ ["extensions"]) = some (.map (changedExtensions settings extensions)) := by
    rw [at?_applySettings_append he, at?_withSettings, if_pos rfl, Data.at?_nil, hl]
    rfl
  exact h.maps _ _ _ ((at?_extensions he).trans hl) hafter

/-- The order of keys is kept exactly where at most one extension stands behind the old one. -/
theorem keepsOrder_applySettings_iff (hd : (Data.map config.entries).Distinct) (name : String) (settings : Settings) :
    KeepsOrder config (config.applySettings name settings) ↔
      ∀ entries extensions front back, config.projectEntries? name = some entries →
        entries.lookup "extensions" = some (.map extensions) →
        extensions.map (·.1) = front ++ legacyKey :: back → back.length ≤ 1 := by
  have hunique {entries extensions : Entries} (he : config.projectEntries? name = some entries)
      (hl : entries.lookup "extensions" = some (.map extensions)) : extensions.Unique :=
    ((distinct_projectEntries? hd he).of_lookup hl).unique
  constructor
  · intro hkeeps entries extensions front back he hl hsplit
    exact length_le_one_of_sameOrder (hunique he hl) hsplit (hkeeps.inExtensions he hl)
  · intro hshort
    cases he : config.projectEntries? name with
    | none =>
      rw [applySettings_of_none he]
      exact .refl config
    | some entries =>
      refine keepsOrder_of_extensions hd he fun extensions hl => ?_
      exact sameOrder_of_length_le_one (hunique he hl) fun front back => hshort entries extensions front back he hl

/-- A project with some extensions, and nothing said about them. -/
def withExtensions (names : List String) : Config := ⟨⟨".f"⟩, .json, [("schemaPath", .text "s"),
  ("extensions", .map (names.map fun name => (name, .map [])))]⟩

theorem distinct_withExtensions {names : List String} (hn : names.Nodup) :
    (Data.map (withExtensions names).entries).Distinct := by
  have hextensions : (Data.map (names.map fun name => (name, Data.map []))).Distinct := by
    refine .map (by simpa [Entries.Unique, Function.comp_def] using hn) fun entry he => ?_
    obtain ⟨name, -, rfl⟩ := List.mem_map.1 he
    exact Data.distinct_nil
  simp [withExtensions, Data.distinct_cons_iff, Data.distinct_nil, Data.Distinct.text, hextensions]

theorem keepsOrder_one_behind : KeepsOrder (withExtensions ["a", "fragments", "b"])
    ((withExtensions ["a", "fragments", "b"]).applySettings "default" ⟨"o", "js"⟩) := by
  refine (keepsOrder_applySettings_iff (distinct_withExtensions (by decide)) "default" ⟨"o", "js"⟩).2 ?_
  intro entries extensions front back he hl hsplit
  cases he
  cases hl
  match front, hsplit with
  | [_], hsplit =>
    cases hsplit
    decide
  | [], hsplit | [_, _], hsplit | _ :: _ :: _ :: _, hsplit => simp [legacyKey] at hsplit

/-- With two extensions behind the old one, they change places. -/
theorem not_keepsOrder_two_behind : ¬ KeepsOrder (withExtensions ["fragments", "a", "b"])
    ((withExtensions ["fragments", "a", "b"]).applySettings "default" ⟨"o", "js"⟩) := by
  intro hkeeps
  have hsame : SameOrder ["fragments", "a", "b"] ["b", "a", "generate-fragments"] :=
    hkeeps.maps ["extensions"] _ _ rfl rfl
  have hkept := (hsame "a" "b" (by decide) (by decide) (by decide) (by decide)).1 (by decide)
  exact absurd hkept (by decide)

end Config

end SchemaFragments
