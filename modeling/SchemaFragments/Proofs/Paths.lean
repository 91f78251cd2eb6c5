import Mathlib.Data.List.Induction
import SchemaFragments.Files.Tree
import SchemaFragments.Proofs.FragmentTexts
/-!
# Normal forms of paths

A path is worth its pieces: those of a joined path are the pieces of both, and the normal form takes them one
after the other. So a relative path, seen from a directory, goes up some directories first and then down some
names, and what `relativeTo` gives leads back to the path it was made from.
-/

namespace SchemaFragments

/-! ## Pieces -/

namespace Text

variable {separator : Char}

theorem splitAt_ne_nil (text : List Char) : splitAt separator text ≠ [] := by
  cases text with
  | nil => simp [splitAt]
  | cons c text =>
    rw [splitAt]
    split
    · simp
    · split <;> simp

/-- A separator parts the pieces before it from those behind. -/
theorem splitAt_separated (before after : List Char) :
    splitAt separator (before ++ separator :: after) = splitAt separator before ++ splitAt separator after := by
  induction before with
  | nil => simp [splitAt]
  | cons c before ih =>
    rw [List.cons_append, splitAt, splitAt, ih]
    split
    · rfl
    · cases h : splitAt separator before with
      | nil => exact absurd h (splitAt_ne_nil before)
      | cons piece pieces => rfl

theorem notMem_splitAt {text piece : List Char} (h : piece ∈ splitAt separator text) : separator ∉ piece := by
  induction text generalizing piece with
  | nil =>
    obtain rfl := List.mem_singleton.1 h
    exact List.not_mem_nil
  | cons c text ih =>
    rw [splitAt] at h
    split at h
    · rcases List.mem_cons.1 h with rfl | h
      · exact List.not_mem_nil
      · exact ih h
    · rename_i hc
      cases hs : splitAt separator text with
      | nil => exact absurd hs (splitAt_ne_nil text)
      | cons first pieces =>
        rw [hs] at h ih
        rcases List.mem_cons.1 h with rfl | h
        · simp only [List.mem_cons, not_or]
          exact ⟨fun he => hc he.symm, ih (by simp)⟩
        · exact ih (.tail _ h)

end Text

namespace Path

variable {base path : Path} {text : List Char}

/-- The components that stand between the `/` of a text. -/
def pieces (text : List Char) : List Component :=
  ((Text.splitAt '/' text).filter (!isIdle ·)).map pieceComponent

theorem pieces_nil : pieces [] = [] := rfl

theorem pieces_separated (before after : List Char) : pieces (before ++ '/' :: after) = pieces before ++ pieces after := by
  rw [pieces, Text.splitAt_separated, List.filter_append, List.map_append]
  rfl

theorem pieces_slash (rest : List Char) : pieces ('/' :: rest) = pieces rest := pieces_separated [] rest

/-- The lead of a path is a piece that says where to start, or none at all. -/
theorem foldl_cutLead (text : List Char) :
    ((cutLead text).1.components ++ pieces (cutLead text).2).foldl Normal.push ⟨false, []⟩ =
      (pieces text).foldl Normal.push ⟨text.head? == some '/', []⟩ := by
  fun_cases cutLead text with
  | case1 rest =>
    rw [pieces_slash]
    rfl
  | case2 => rfl
  | case3 rest =>
    rw [show '.' :: '/' :: rest = ['.'] ++ '/' :: rest from rfl, pieces_separated, pieces_slash]
    rfl
  | case4 text hslash _ _ =>
    have hrelative : (text.head? == some '/') = false := by
      cases text with
      | nil => rfl
      | cons c rest =>
        rw [List.head?_cons, beq_eq_false_iff_ne]
        rintro ⟨⟩
        exact hslash rest rfl
    rw [hrelative]
    rfl

/-- The normal form takes up one piece after the other. -/
theorem normal_eq (path : Path) : path.normal = (pieces path.text.toList).foldl Normal.push ⟨path.isAbsolute, []⟩ :=
  foldl_cutLead path.text.toList

/-! ## Joined paths -/

theorem join_of_isAbsolute (h : path.isAbsolute = true) : base.join path = path := by
  simp [join, h]

theorem text_join (hpath : path.isAbsolute = false) (hbase : base.text ≠ "") :
    (base.join path).text.toList = base.text.toList ++ path.text.toList ∧ (∃ before, base.text.toList = before ++ ['/']) ∨
      (base.join path).text.toList = base.text.toList ++ '/' :: path.text.toList := by
  have hempty : base.text.isEmpty = false := eq_false_of_ne_true fun h => hbase (String.isEmpty_iff.1 h)
  unfold join
  rw [hpath, hempty]
  by_cases hlast : base.text.toList.getLast? = some '/'
  · exact .inl ⟨by simp [hlast], List.getLast?_eq_some_iff.1 hlast⟩
  · exact .inr (by simp [hlast])

/-- The pieces of a joined path are those of both. -/
theorem pieces_join (hpath : path.isAbsolute = false) (hbase : base.text ≠ "") :
    pieces (base.join path).text.toList = pieces base.text.toList ++ pieces path.text.toList := by
  rcases text_join hpath hbase with ⟨htext, before, hbefore⟩ | htext
  · rw [htext, hbefore, List.append_assoc, List.singleton_append, pieces_separated, pieces_separated, pieces_nil,
      List.append_nil]
  · rw [htext, pieces_separated]

theorem isAbsolute_join (hpath : path.isAbsolute = false) (hbase : base.text ≠ "") :
    (base.join path).isAbsolute = base.isAbsolute := by
  unfold isAbsolute
  cases hchars : base.text.toList with
  | nil => exact absurd (String.toList_eq_nil_iff.1 hchars) hbase
  | cons c rest =>
    rcases text_join hpath hbase with ⟨htext, -⟩ | htext <;>
      rw [htext, hchars, List.cons_append, List.head?_cons, List.head?_cons]

theorem normal_join (hpath : path.isAbsolute = false) (hbase : base.text ≠ "") :
    (base.join path).normal = (pieces path.text.toList).foldl Normal.push base.normal := by
  rw [normal_eq, pieces_join hpath hbase, isAbsolute_join hpath hbase, List.foldl_append, ← normal_eq]

/-- A relative path that is seen from a directory, which is itself seen from another one. -/
theorem normal_join_join {working : Path} (hpath : path.isAbsolute = false) (hbase : base.text ≠ "")
    (hworking : working.text ≠ "") :
    (working.join (base.join path)).normal = (pieces path.text.toList).foldl Normal.push (working.join base).normal := by
  cases habsolute : base.isAbsolute with
  | true =>
    rw [join_of_isAbsolute (by rw [isAbsolute_join hpath hbase, habsolute]), join_of_isAbsolute habsolute,
      normal_join hpath hbase]
  | false =>
    rw [normal_join (by rw [isAbsolute_join hpath hbase, habsolute]) hworking, pieces_join hpath hbase,
      List.foldl_append, ← normal_join habsolute hworking]

/-! ## Up and down -/

/-- Where a way leads that goes up some directories and then down some names, after one more piece. -/
def travelOn (way : Nat × List String) : Component → Nat × List String
  | .normal name => (way.1, way.2 ++ [name])
  | .parent => if way.2.isEmpty then (way.1 + 1, []) else (way.1, way.2.dropLast)
  | .root | .current => way

/-- How far up pieces lead, and down which names from there. -/
def travel (pieces : List Component) : Nat × List String := pieces.foldl travelOn (0, [])

theorem travel_concat (pieces : List Component) (piece : Component) :
    travel (pieces ++ [piece]) = travelOn (travel pieces) piece := List.foldl_append

/-- A piece is a name or leads upwards. -/
theorem mem_pieces {piece : Component} (h : piece ∈ pieces text) :
    piece = .parent ∨ ∃ name, piece = .normal name ∧ name ≠ "" ∧ name ≠ "." ∧ name ≠ ".." ∧ '/' ∉ name.toList := by
  obtain ⟨chars, hchars, rfl⟩ := List.mem_map.1 h
  obtain ⟨hmem, hidle⟩ := List.mem_filter.1 hchars
  unfold pieceComponent
  split
  · exact .inl rfl
  · rename_i hparent
    have hname (name : String) (hne : chars ≠ name.toList) : String.ofList chars ≠ name := by
      rintro rfl
      exact hne String.toList_ofList.symm
    simp only [isIdle, Bool.not_or, Bool.and_eq_true, Bool.not_eq_true', List.isEmpty_eq_false_iff,
      beq_eq_false_iff_ne] at hidle
    refine .inr ⟨_, rfl, hname "" hidle.1, hname "." hidle.2, hname ".." hparent, ?_⟩
    rw [String.toList_ofList]
    exact Text.notMem_splitAt hmem

theorem foldl_push_eq {components : List Component} (h : .root ∉ components) (absolute : Bool) (names : List String) :
    components.foldl Normal.push ⟨absolute, names⟩ =
      ⟨absolute, names.take (names.length - (travel components).1) ++ (travel components).2⟩ := by
  induction components using List.reverseRecOn with
  | nil => simp [travel]
  | append_singleton components piece ih =>
    rw [List.foldl_append, ih fun hm => h (List.mem_append_left _ hm), travel_concat]
    cases piece with
    | root => simp at h
    | current => rfl
    | normal name => simp [Normal.push, travelOn]
    | parent =>
      rw [List.foldl_cons, List.foldl_nil, Normal.push, travelOn]
      by_cases hnames : (travel components).2 = []
      · simp only [hnames, List.isEmpty_nil, if_true, List.append_nil, Normal.mk.injEq, true_and]
        rw [List.dropLast_eq_take, List.take_take, List.length_take]
        congr 1
        omega
      · simp [hnames, List.dropLast_append_of_ne_nil]

theorem root_notMem_pieces (text : List Char) : .root ∉ pieces text := fun h => by
  rcases mem_pieces h with hp | ⟨name, hp, -⟩ <;> cases hp

/-- The directory so many levels up. -/
def Normal.above (directory : Normal) (levels : Nat) : Normal :=
  { directory with names := directory.names.take (directory.names.length - levels) }

/-- How many directories a path leads up before it leads down. -/
def climb (path : Path) : Nat := (travel (pieces path.text.toList)).1

/-- A relative path leads to the same place from two directories exactly if it first leads up to the same one. -/
theorem foldl_push_eq_iff {first second : Normal} : (pieces path.text.toList).foldl Normal.push first =
    (pieces path.text.toList).foldl Normal.push second ↔ first.above path.climb = second.above path.climb := by
  obtain ⟨absolute, names⟩ := first
  obtain ⟨absolute', names'⟩ := second
  rw [foldl_push_eq (root_notMem_pieces _), foldl_push_eq (root_notMem_pieces _)]
  simp [Normal.above, climb]

/-! ## Relative paths -/

theorem stripNames_eq_some_iff {base names rest : List String} :
    stripNames base names = some rest ↔ names = base ++ rest := by
  induction base generalizing names with
  | nil => simp [stripNames, eq_comm]
  | cons first base ih =>
    cases names with
    | nil => simp [stripNames]
    | cons name names =>
      rw [stripNames]
      by_cases h : first = name
      · simp [h, ih]
      · simp [h, Ne.symm h]

/-- A name that a normal path can have. -/
def IsProper (name : String) : Prop := name ≠ "" ∧ name ≠ "." ∧ name ≠ ".." ∧ '/' ∉ name.toList

theorem isProper_foldl_push {components : List Component} {normal : Normal} (h : ∀ name ∈ normal.names, IsProper name)
    (hc : ∀ name, .normal name ∈ components → IsProper name) :
    ∀ name ∈ (components.foldl Normal.push normal).names, IsProper name := by
  induction components generalizing normal with
  | nil => exact h
  | cons component components ih =>
    refine ih ?_ fun name hm => hc name (.tail _ hm)
    cases component with
    | root => simp [Normal.push]
    | current => exact h
    | parent => exact fun name hm => h name ((List.dropLast_sublist _).mem hm)
    | normal name =>
      intro other hm
      rcases List.mem_append.1 hm with hm | hm
      · exact h other hm
      · obtain rfl := List.mem_singleton.1 hm
        exact hc other (by simp)

theorem isProper_normal (path : Path) : ∀ name ∈ path.normal.names, IsProper name := by
  rw [normal_eq]
  refine isProper_foldl_push (by simp) fun name hm => ?_
  rcases mem_pieces hm with hp | ⟨other, hp, hproper⟩ <;> cases hp
  exact hproper

theorem pieces_of_isProper {name : String} (h : IsProper name) : pieces name.toList = [.normal name] := by
  obtain ⟨hempty, hdot, hparent, hslash⟩ := h
  have hne (text : String) (hn : name ≠ text) : name.toList ≠ text.toList := fun he => hn (String.toList_inj.1 he)
  have hidle : isIdle name.toList = false := by
    simp only [isIdle, Bool.or_eq_false_iff, List.isEmpty_eq_false_iff, beq_eq_false_iff_ne]
    exact ⟨hne "" hempty, hne "." hdot⟩
  have hname : pieceComponent name.toList = .normal name := by
    have hchars : name.toList ≠ ['.', '.'] := hne ".." hparent
    rw [pieceComponent, if_neg hchars, String.ofList_toList]
  simp [pieces, splitAt_of_notMem hslash, hidle, hname]

theorem pieces_intercalate {names : List String} (h : ∀ name ∈ names, IsProper name) :
    pieces ("/".intercalate names).toList = names.map .normal := by
  induction names with
  | nil => simp [pieces_nil]
  | cons name names ih =>
    obtain ⟨hname, hnames⟩ := List.forall_mem_cons.1 h
    cases names with
    | nil => simpa using pieces_of_isProper hname
    | cons next others =>
      have htext : ("/".intercalate (name :: next :: others)).toList =
          name.toList ++ '/' :: ("/".intercalate (next :: others)).toList := by
        simp [String.intercalate_cons_cons]
      rw [htext, pieces_separated, pieces_of_isProper hname, ih hnames]
      rfl

theorem isAbsolute_intercalate {names : List String} (h : ∀ name ∈ names, IsProper name) :
    (Path.mk ("/".intercalate names)).isAbsolute = false := by
  cases names with
  | nil => rfl
  | cons name names =>
    obtain ⟨⟨hempty, -, -, hslash⟩, -⟩ := List.forall_mem_cons.1 h
    cases hchars : name.toList with
    | nil => exact absurd (String.toList_eq_nil_iff.1 hchars) hempty
    | cons c rest =>
      rw [hchars] at hslash
      cases names with
      | nil => simp [isAbsolute, hchars, Ne.symm (List.ne_of_not_mem_cons hslash)]
      | cons next others =>
        simp [isAbsolute, String.intercalate_cons_cons, hchars, Ne.symm (List.ne_of_not_mem_cons hslash)]

theorem foldl_push_normal (normal : Normal) (names : List String) :
    (names.map Component.normal).foldl Normal.push normal = ⟨normal.absolute, normal.names ++ names⟩ := by
  induction names generalizing normal with
  | nil => simp
  | cons name names ih => simp [ih, Normal.push]

/-- What a path is from a directory leads back to it. -/
theorem normal_join_relativeTo {working setting : Path} (hbase : base.text ≠ "") (hworking : working.text ≠ "")
    (h : relativeTo working base path = some setting) : (working.join (base.join setting)).normal = (working.join path).normal := by
  simp only [relativeTo, bind, pure] at h
  split at h
  · cases h
  · rename_i hsame
    obtain ⟨rest, hrest, hsetting⟩ := Option.bind_eq_some_iff.1 h
    obtain rfl := Option.some.inj hsetting
    have hnames := stripNames_eq_some_iff.1 hrest
    have hproper : ∀ name ∈ rest, IsProper name := fun name hm =>
      isProper_normal (working.join path) name (by rw [hnames]; exact List.mem_append_right _ hm)
    rw [normal_join_join (isAbsolute_intercalate hproper) hbase hworking, pieces_intercalate hproper,
      foldl_push_normal, ← hnames, not_not.1 hsame]

/-- A path that is kept as it is seen from a base, or as it is where the base lies elsewhere, is found again from the
base unless it is relative and leads up to different directories from there. -/
theorem normal_join_getD_iff {working : Path} (hbase : base.text ≠ "") (hworking : working.text ≠ "") :
    (working.join (base.join ((relativeTo working base path).getD path))).normal = (working.join path).normal ↔
      path.isAbsolute = true ∨ (relativeTo working base path).isSome = true ∨
        working.normal.above path.climb = (working.join base).normal.above path.climb := by
  cases hsetting : relativeTo working base path with
  | some setting => simp [normal_join_relativeTo hbase hworking hsetting]
  | none =>
    rw [Option.getD_none]
    cases hpath : path.isAbsolute with
    | true => simp [join_of_isAbsolute hpath]
    | false =>
      rw [normal_join_join hpath hbase hworking, normal_join hpath hworking, foldl_push_eq_iff]
      simp [eq_comm]

end Path

end SchemaFragments
