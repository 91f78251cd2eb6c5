import SchemaFragments.Config.Plan
import SchemaFragments.Proofs.SavedSettings
/-!
# Laws of normal forms

A normal form is written with the components it has and none else, so it is its own normal form, and it can stand for
a path wherever another one follows. One path is seen from another exactly if the components of its normal form start
with those of the other one, and what then is left leads back to it: `normalize_relativeTo`.
-/

namespace SchemaFragments

namespace Path

variable {base path working rest : Path} {normal : Normal}

/-! ## Written normal forms -/

theorem text_ne_of_isAbsolute (h : path.isAbsolute = true) : path.text ≠ "" := by
  intro he
  simp [isAbsolute, he] at h

/-- Names do not start a path that is absolute or starts with `.`. -/
theorem cutLead_names {names : List String} (h : ∀ name ∈ names, IsProper name) :
    cutLead ("/".intercalate names).toList = (.plain, ("/".intercalate names).toList) := by
  cases names with
  | nil => rfl
  | cons name names =>
    obtain ⟨⟨hempty, hdot, -, hslash⟩, -⟩ := List.forall_mem_cons.1 h
    obtain ⟨behind, htext, hbehind⟩ : ∃ behind, ("/".intercalate (name :: names)).toList = name.toList ++ behind ∧
        (behind = [] ∨ behind.head? = some '/') := by
      cases names with
      | nil => exact ⟨[], by simp, .inl rfl⟩
      | cons next others =>
        exact ⟨'/' :: ("/".intercalate (next :: others)).toList, by simp [String.intercalate_cons_cons], .inr rfl⟩
    rw [htext]
    have hdot : name.toList ≠ ['.'] := fun he => hdot (String.toList_inj.1 he)
    rcases hname : name.toList with _ | ⟨c, _ | ⟨d, chars⟩⟩
    · exact absurd (String.toList_eq_nil_iff.1 hname) hempty
    · rw [hname] at hslash hdot
      have hc : c ≠ '/' := Ne.symm (List.ne_of_not_mem_cons hslash)
      have hd : c ≠ '.' := fun he => hdot (by rw [he])
      unfold cutLead
      split <;> simp_all
    · rw [hname] at hslash
      have hc : c ≠ '/' := Ne.symm (List.ne_of_not_mem_cons hslash)
      have hd : d ≠ '/' := Ne.symm (List.ne_of_not_mem_cons (List.not_mem_of_not_mem_cons hslash))
      unfold cutLead
      split <;> simp_all

/-- What a normal form is made of. -/
def Normal.components (normal : Normal) : List Component :=
  (if normal.absolute then [.root] else []) ++ normal.names.map .normal

theorem components_toPath (h : ∀ name ∈ normal.names, IsProper name) : normal.toPath.components = normal.components := by
  obtain ⟨absolute, names⟩ := normal
  cases absolute with
  | true =>
    have hlead : cutLead (Normal.toPath ⟨true, names⟩).text.toList = (.absolute, ("/".intercalate names).toList) := by
      simp [Normal.toPath, cutLead]
    simp only [Path.components, hlead]
    exact congrArg (Component.root :: ·) (pieces_intercalate h)
  | false =>
    have hlead : cutLead (Normal.toPath ⟨false, names⟩).text.toList = (.plain, ("/".intercalate names).toList) := by
      simpa [Normal.toPath] using cutLead_names h
    simp only [Path.components, hlead]
    exact pieces_intercalate h

/-- The normal form of a path has the components that it is written with. -/
theorem components_normalize (path : Path) : path.normalize.components = path.normal.components :=
  components_toPath (isProper_normal path)

theorem normal_normalize (path : Path) : path.normalize.normal = path.normal := by
  rw [Path.normal, components_normalize, Normal.components, List.foldl_append, foldl_push_normal]
  rcases path.normal with ⟨_ | _, names⟩ <;> simp [Normal.push]

theorem normalize_eq_iff : base.normalize = path.normalize ↔ base.normal = path.normal := by
  refine ⟨fun h => ?_, fun h => congrArg Normal.toPath h⟩
  rw [← normal_normalize base, h, normal_normalize]

/-- A normal form has neither `.` nor `..` in it. -/
theorem mem_components_normalize {component : Component} (h : component ∈ path.normalize.components) :
    component = .root ∨ ∃ name, component = .normal name := by
  rw [components_normalize] at h
  rcases List.mem_append.1 h with h | h
  · split at h
    · exact .inl (List.mem_singleton.1 h)
    · cases h
  · obtain ⟨name, -, rfl⟩ := List.mem_map.1 h
    exact .inr ⟨name, rfl⟩

/-! ## One path after another -/

/-- The normal form of a relative path behind another one depends on the normal form of that one only. -/
theorem normal_join_of_relative (hpath : path.isAbsolute = false) (base : Path) :
    (base.join path).normal = (pieces path.text.toList).foldl Normal.push base.normal := by
  by_cases hbase : base.text = ""
  · obtain ⟨text⟩ := base
    obtain rfl : text = "" := hbase
    have hjoin : join ⟨""⟩ path = path := by simp [join]
    have hempty : Path.normal ⟨""⟩ = ⟨false, []⟩ := rfl
    rw [hjoin, hempty, normal_eq, hpath]
  · exact normal_join hpath hbase

theorem normalize_join_normalize (hpath : path.isAbsolute = false) (base : Path) :
    (base.join path).normalize = (base.normalize.join path).normalize := by
  rw [normalize_eq_iff, normal_join_of_relative hpath, normal_join_of_relative hpath, normal_normalize]

/-! ## One path seen from another -/

theorem absolute_normal (h : path.isAbsolute = true) : path.normal.absolute = true := by
  rw [normal_eq, foldl_push_eq (root_notMem_pieces _), h]

theorem isAbsolute_join_of_isAbsolute (h : working.isAbsolute = true) (path : Path) :
    (working.join path).isAbsolute = true := by
  cases hpath : path.isAbsolute with
  | true => rw [join_of_isAbsolute hpath, hpath]
  | false => rw [isAbsolute_join hpath (text_ne_of_isAbsolute h), h]

theorem absolute_normal_join (h : working.isAbsolute = true) (path : Path) :
    (working.join path).normal.absolute = true :=
  absolute_normal (isAbsolute_join_of_isAbsolute h path)

/-- The last names of a normal form. -/
theorem isProper_behind {before names : List String} (h : path.normal.names = before ++ names) :
    ∀ name ∈ names, IsProper name := fun name hm =>
  isProper_normal path name (by rw [h]; exact List.mem_append_right _ hm)

/-- A path is seen from a base as the names that it has behind those of the base. -/
theorem relativeTo_eq_some_iff (h : working.isAbsolute = true) : relativeTo working base path = some rest ↔
    ∃ names, (working.join path).normal.names = (working.join base).normal.names ++ names ∧
      rest = ⟨"/".intercalate names⟩ := by
  simp only [relativeTo, absolute_normal_join h, ne_eq, not_true_eq_false, if_false, bind, pure, Option.bind_eq_some_iff,
    stripNames_eq_some_iff, Option.some.injEq]
  exact exists_congr fun names => and_congr_right fun _ => eq_comm

theorem components_join_of_isAbsolute (h : working.isAbsolute = true) (path : Path) :
    (working.join path).normalize.components = .root :: (working.join path).normal.names.map .normal := by
  rw [components_normalize, Normal.components, absolute_normal_join h]
  rfl

/-- Names that are left are all of the components. -/
theorem components_of_relativeTo (h : working.isAbsolute = true) (hrest : relativeTo working base path = some rest) :
    (∀ component ∈ rest.components, ∃ name, component = .normal name) ∧
      (working.join path).normalize.components = (working.join base).normalize.components ++ rest.components := by
  obtain ⟨names, hnames, rfl⟩ := (relativeTo_eq_some_iff h).1 hrest
  have hproper : ∀ name ∈ names, IsProper name := isProper_behind hnames
  have hcomponents : Path.components ⟨"/".intercalate names⟩ = names.map .normal := by
    have hwritten : (Normal.toPath ⟨false, names⟩).components = Normal.components ⟨false, names⟩ :=
      components_toPath hproper
    simpa [Normal.toPath, Normal.components] using hwritten
  rw [hcomponents, components_join_of_isAbsolute h, components_join_of_isAbsolute h, hnames, List.map_append]
  refine ⟨fun component hm => ?_, rfl⟩
  obtain ⟨name, -, rfl⟩ := List.mem_map.1 hm
  exact ⟨name, rfl⟩

theorem isSome_relativeTo_iff (h : working.isAbsolute = true) : (relativeTo working base path).isSome = true ↔
    (working.join base).normalize.components <+: (working.join path).normalize.components := by
  rw [Option.isSome_iff_exists]
  constructor
  · rintro ⟨rest, hrest⟩
    exact ⟨rest.components, (components_of_relativeTo h hrest).2.symm⟩
  · rw [components_join_of_isAbsolute h, components_join_of_isAbsolute h, List.cons_prefix_cons]
    rintro ⟨-, behind, hbehind⟩
    obtain ⟨before, names, hnames, hbefore, -⟩ := List.map_eq_append_iff.1 hbehind.symm
    have hinjective : Function.Injective Component.normal := fun _ _ he => Component.normal.inj he
    obtain rfl := List.map_injective_iff.2 hinjective hbefore
    exact ⟨_, (relativeTo_eq_some_iff h).2 ⟨names, hnames, rfl⟩⟩

/-- What is left leads from the base to the path. -/
theorem normalize_join_relativeTo (h : working.isAbsolute = true) (hrest : relativeTo working base path = some rest) :
    ((working.join base).join rest).normalize = (working.join path).normalize := by
  obtain ⟨names, hnames, rfl⟩ := (relativeTo_eq_some_iff h).1 hrest
  have hproper : ∀ name ∈ names, IsProper name := isProper_behind hnames
  rw [normalize_eq_iff, normal_join_of_relative (isAbsolute_intercalate hproper), pieces_intercalate hproper,
    foldl_push_normal, ← hnames, absolute_normal_join h, ← absolute_normal_join h path]

end Path

namespace Config

/-- An output that is kept as it is seen from the directory of the configuration is found from there. -/
theorem normalize_keptOutput {config : Config} {working output rest : Path} {name setting : String} {options : Options}
    {project : Project} {dialect : Dialect} (hasked : options.outputDirectory.isSome = true)
    (houtput : config.outputOf working name options project dialect = .ok (output, setting))
    (hworking : working.isAbsolute = true) (hrest : Path.relativeTo working config.directory output = some rest) :
    setting = rest.text ∧
      (working.join (config.directory.join ⟨setting⟩)).normalize = (working.join output).normalize := by
  obtain ⟨directory, hdirectory⟩ := Option.isSome_iff_exists.1 hasked
  rw [outputOf, hdirectory] at houtput
  cases houtput
  rw [hrest, Option.getD_some]
  exact ⟨rfl, Path.normalize_eq_iff.2 (Path.normal_join_relativeTo (directory_text_ne config)
    (Path.text_ne_of_isAbsolute hworking) hrest)⟩

end Config

namespace Path

/-- Normal forms are fixed, have no `.` and no `..`, and can stand for the front of a path. From an absolute working
directory, a path is seen from a base exactly if its normal form has the components of that of the base in front; what is
left has no `..` and leads from the base to the path, also where it is kept as the output of a project. -/
theorem normalize_relativeTo {working : Path} (hworking : working.isAbsolute = true) :
    (∀ path : Path, path.normalize.normalize = path.normalize ∧
      .current ∉ path.normalize.components ∧ .parent ∉ path.normalize.components) ∧
    (∀ base path : Path, path.isAbsolute = false →
      (base.join path).normalize = (base.normalize.join path).normalize) ∧
    (∀ base path : Path, (relativeTo working base path).isSome = true ↔
      (working.join base).normalize.components <+: (working.join path).normalize.components) ∧
    (∀ base path rest : Path, relativeTo working base path = some rest →
      .parent ∉ rest.components ∧ ((working.join base).join rest).normalize = (working.join path).normalize) ∧
    ∀ (config : Config) (name : String) (options : Config.Options) (project : Config.Project) (dialect : Dialect)
      (output : Path) (setting : String) (rest : Path), options.outputDirectory.isSome = true →
      config.outputOf working name options project dialect = .ok (output, setting) →
      relativeTo working config.directory output = some rest →
      setting = rest.text ∧
        (working.join (config.directory.join ⟨setting⟩)).normalize = (working.join output).normalize := by
  refine ⟨fun path => ⟨normalize_eq_iff.2 (normal_normalize path), fun hm => ?_, fun hm => ?_⟩,
    fun base path hpath => normalize_join_normalize hpath base, fun _ _ => isSome_relativeTo_iff hworking,
    fun base path rest hrest => ⟨fun hm => ?_, normalize_join_relativeTo hworking hrest⟩,
    fun config name options project dialect output setting rest hasked houtput hrest =>
      Config.normalize_keptOutput hasked houtput hworking hrest⟩
  · rcases mem_components_normalize hm with h | ⟨name, h⟩ <;> cases h
  · rcases mem_components_normalize hm with h | ⟨name, h⟩ <;> cases h
  · obtain ⟨name, h⟩ := (components_of_relativeTo hworking hrest).1 _ hm
    cases h

/-- Outputs that go up above the root, beneath a directory that does the same, beside another one, and beneath the
directory of a configuration. -/
theorem rootedOutput_relativeTo : (Path.mk "/w").isAbsolute = true ∧
    (join ⟨"a/../../b"⟩ ⟨"../c"⟩).normalize = (join ⟨"b"⟩ ⟨"../c"⟩).normalize ∧
    relativeTo ⟨"/w"⟩ ⟨"../../w/./c"⟩ ⟨"c/d/..//out/x.js"⟩ = some ⟨"out/x.js"⟩ ∧
    Path.normalize ⟨"/w/../../w/./c/out/x.js"⟩ = ⟨"/w/c/out/x.js"⟩ ∧
    relativeTo ⟨"/w"⟩ ⟨"c"⟩ ⟨"cc/x.js"⟩ = none ∧
    Config.nestedConfig.outputOf ⟨"/w"⟩ "default" (Config.nestedOptions "c/d") {} .graphql =
      .ok (⟨"c/d/default.fragments.graphql"⟩, "d/default.fragments.graphql") ∧
    (join ⟨"/w"⟩ (join Config.nestedConfig.directory ⟨"d/default.fragments.graphql"⟩)).normalize =
      (join ⟨"/w"⟩ ⟨"c/d/default.fragments.graphql"⟩).normalize := by
  have hworking : (Path.mk "/w").isAbsolute = true := by decide
  obtain ⟨-, hjoined, hseen, hback, hkept⟩ := normalize_relativeTo hworking
  have hfront : Path.normalize ⟨"a/../../b"⟩ = ⟨"b"⟩ := by decide +kernel
  have hrest : relativeTo ⟨"/w"⟩ ⟨"../../w/./c"⟩ ⟨"c/d/..//out/x.js"⟩ = some ⟨"out/x.js"⟩ := by decide +kernel
  have hjoin : join (join ⟨"/w"⟩ ⟨"../../w/./c"⟩) ⟨"out/x.js"⟩ = ⟨"/w/../../w/./c/out/x.js"⟩ := by decide +kernel
  have hnormal : Path.normalize (join ⟨"/w"⟩ ⟨"c/d/..//out/x.js"⟩) = ⟨"/w/c/out/x.js"⟩ := by decide +kernel
  have hbeside : ¬ (relativeTo ⟨"/w"⟩ ⟨"c"⟩ ⟨"cc/x.js"⟩).isSome = true := by
    rw [hseen]
    decide +kernel
  have hbeneath : relativeTo ⟨"/w"⟩ Config.nestedConfig.directory ⟨"c/d/default.fragments.graphql"⟩ =
      some ⟨"d/default.fragments.graphql"⟩ := by
    rw [Config.directory_nestedConfig]
    decide +kernel
  have houtput : Config.nestedConfig.outputOf ⟨"/w"⟩ "default" (Config.nestedOptions "c/d") {} .graphql =
      .ok (⟨"c/d/default.fragments.graphql"⟩, "d/default.fragments.graphql") := by
    have hname : join ⟨"c/d"⟩ ⟨"default" ++ ".fragments." ++ Dialect.graphql.extension⟩ =
        ⟨"c/d/default.fragments.graphql"⟩ := by decide +kernel
    simp only [Config.outputOf, Config.nestedOptions, hname, hbeneath, Option.getD_some]
  refine ⟨hworking, ?_, hrest, ?_, by simpa using hbeside, houtput, (hkept _ _ _ _ _ _ _ _ rfl houtput hbeneath).2⟩
  · rw [hjoined _ _ (by decide), hfront]
  · rw [← hjoin, (hback _ _ _ hrest).2, hnormal]

end Path

end SchemaFragments
