import SchemaFragments.Proofs.Merging
/-!
# Segments of a combined document

The segments of a combined document tell where its definitions are: each stands for the lines its definition is
printed as, one empty line parts it from the next one, and together they cover the text. So a place in the text is
led back to the definition that was selected: `combine_mapped`.
-/

namespace SchemaFragments

/-! ## Lines of texts that end a line -/

namespace Text

/-- Lines of a text that ends a line stay apart from what follows. There are as many of them as line ends. -/
theorem lines_of_endsLine {text : List Char} (h : EndsLine text) :
    (∀ rest, lines (text ++ rest) = lines text ++ lines rest) ∧ (lines text).length = text.count '\n' := by
  obtain ⟨line, later, rfl, hline⟩ := List.eq_append_cons_of_mem (List.mem_of_getLast? h)
  have hcount : (line ++ '\n' :: later).count '\n' = later.count '\n' + 1 := by
    rw [List.count_append, List.count_cons_self, List.count_eq_zero_of_not_mem hline, Nat.zero_add]
  by_cases hlater : later = []
  · subst hlater
    refine ⟨fun rest => ?_, ?_⟩
    · rw [List.append_assoc, List.cons_append, List.nil_append, lines_append line rest hline,
        lines_append line [] hline]
      rfl
    · rw [lines_append line [] hline, hcount]
      rfl
  · have hends : EndsLine later := by
      rwa [EndsLine, List.getLast?_append_of_ne_nil _ (List.cons_ne_nil _ _), List.getLast?_cons_of_ne_nil hlater] at h
    obtain ⟨happend, hlength⟩ := lines_of_endsLine hends
    refine ⟨fun rest => ?_, ?_⟩
    · rw [List.append_assoc, List.cons_append, lines_append line _ hline, lines_append line _ hline, happend,
        List.cons_append]
    · rw [lines_append line _ hline, List.length_cons, hlength, hcount]
termination_by text.length

end Text

namespace Import

open Document

variable {files : List SchemaFile} {selected : List Selected} {origin next : Origin} {origins : List Origin}
  {source : Source} {segment : Segment} {position : Position}

/-! ## The layout -/

/-- The lines that an origin is printed as. -/
def Origin.lines (origin : Origin) : List (List Char) := Text.lines origin.2.print.toList

/-- Segments for definitions that are printed from a line on. -/
def segmentsFrom (line : Nat) : List Origin → List Segment
  | [] => []
  | origin :: origins =>
    ⟨origin.1, line, origin.lines.length, positionOf origin.2⟩ :: segmentsFrom (line + origin.lines.length + 1) origins

theorem lines_pos (origin : Origin) : 0 < origin.lines.length := by
  rw [Origin.lines, (Text.lines_of_endsLine (endsLine_print _)).2]
  exact List.count_pos_iff.2 (List.mem_of_getLast? (endsLine_print _))

/-- A first definition starts the text. -/
theorem push_of_empty (h : source.contents = "") : source.push origin =
    { source with
      contents := origin.2.print
      segments := source.segments ++ [⟨origin.1, 1, origin.lines.length, positionOf origin.2⟩] } := by
  have hlines : max (Text.lines origin.2.print.toList).length 1 = origin.lines.length :=
    Nat.max_eq_left (lines_pos origin)
  simp [Source.push, h, hlines, Text.withLineEnd_of_endsLine (endsLine_print origin.2)]

/-- Any other one stands after an empty line. -/
theorem push_of_endsLine (h : Text.EndsLine source.contents.toList) : source.push origin =
    { source with
      contents := source.contents ++ "\n" ++ origin.2.print
      segments := source.segments ++
        [⟨origin.1, (Text.lines source.contents.toList).length + 2, origin.lines.length, positionOf origin.2⟩] } := by
  have hlines : max (Text.lines origin.2.print.toList).length 1 = origin.lines.length :=
    Nat.max_eq_left (lines_pos origin)
  have hne : source.contents.isEmpty = false := by
    rw [Bool.eq_false_iff, ne_eq, String.isEmpty_iff]
    intro he
    rw [he] at h
    cases h
  have hcount : (source.contents ++ "\n").toList.count '\n' = (Text.lines source.contents.toList).length + 1 := by
    rw [String.toList_append, List.count_append, ← (Text.lines_of_endsLine h).2]
    rfl
  simp only [Source.push, hne, Bool.false_eq_true, if_false, hcount, hlines,
    Text.withLineEnd_of_endsLine (endsLine_print origin.2)]

theorem lines_append_print (h : Text.EndsLine source.contents.toList) (origin : Origin) :
    Text.lines (source.contents ++ "\n" ++ origin.2.print).toList =
      Text.lines source.contents.toList ++ [] :: origin.lines := by
  rw [String.toList_append, String.toList_append, List.append_assoc, (Text.lines_of_endsLine h).1]
  exact congrArg _ (Text.lines_append [] _ (by simp))

/-- Pushing prints definitions, with an empty line in front of each. -/
theorem foldl_push_of_endsLine (h : Text.EndsLine source.contents.toList) :
    origins.foldl Source.push source =
      { source with
        contents := source.contents ++ String.join (origins.map fun origin => "\n" ++ origin.2.print)
        segments := source.segments ++ segmentsFrom ((Text.lines source.contents.toList).length + 2) origins } := by
  induction origins generalizing source with
  | nil => simp [segmentsFrom]
  | cons origin origins ih =>
    have hends : Text.EndsLine (source.push origin).contents.toList := by
      rw [push_of_endsLine h]
      exact endsLine_append (endsLine_print _) _
    rw [List.foldl_cons, ih hends, push_of_endsLine h]
    dsimp only
    rw [lines_append_print h, List.length_append, List.length_cons]
    have hline : (Text.lines source.contents.toList).length + (origin.lines.length + 1) + 2 =
        (Text.lines source.contents.toList).length + 2 + origin.lines.length + 1 := by omega
    rw [hline]
    simp [segmentsFrom, String.append_assoc]

theorem append_join_eq_intercalate (first : String) (texts : List String) :
    first ++ String.join (texts.map ("\n" ++ ·)) = "\n".intercalate (first :: texts) := by
  induction texts generalizing first with
  | nil => simp
  | cons text texts ih =>
    rw [String.intercalate_cons_cons, ← ih, List.map_cons, String.join_cons]
    simp only [String.append_assoc]

/-- The definitions of a combined document, with their files. -/
def mergedOrigins (files : List SchemaFile) (selected : List Selected) : List Origin :=
  mergeRoots (selected.filterMap fun s => (s.definition? files).map (s.file, ·))

/-- A combined document is printed definition by definition. -/
theorem combine_eq (files : List SchemaFile) (selected : List Selected) : Source.combine files selected =
    ⟨files, "\n".intercalate ((mergedOrigins files selected).map (·.2.print)),
      segmentsFrom 1 (mergedOrigins files selected)⟩ := by
  have hcombine : Source.combine files selected =
      (mergedOrigins files selected).foldl Source.push ⟨files, "", []⟩ := rfl
  rw [hcombine]
  cases mergedOrigins files selected with
  | nil => simp [segmentsFrom]
  | cons origin others =>
    have hends : Text.EndsLine (Source.mk files origin.2.print []).contents.toList := endsLine_print _
    rw [List.foldl_cons, push_of_empty rfl, foldl_push_of_endsLine (endsLine_print _), List.map_cons,
      ← append_join_eq_intercalate, List.map_map]
    have hline : (Text.lines origin.2.print.toList).length + 2 = 1 + origin.lines.length + 1 := by
      rw [Origin.lines]
      omega
    simp only [hline]
    rfl

/-! ## The lines -/

/-- The lines that definitions are printed as, with an empty line between them. -/
def layout (origins : List Origin) : List (List Char) := [[]].intercalate (origins.map Origin.lines)

/-- The lines of a text that a segment stands for. -/
def Segment.linesIn (segment : Segment) (lines : List (List Char)) : List (List Char) :=
  (lines.drop (segment.startLine - 1)).take segment.lineCount

/-- Whether a line is one of a segment. -/
def Segment.Holds (segment : Segment) (line : Nat) : Prop :=
  segment.startLine ≤ line ∧ line < segment.startLine + segment.lineCount

theorem layout_singleton (origin : Origin) : layout [origin] = origin.lines := List.intercalate_singleton

theorem layout_cons_cons (origin next : Origin) (others : List Origin) :
    layout (origin :: next :: others) = origin.lines ++ [[]] ++ layout (next :: others) :=
  List.intercalate_cons_cons

theorem lines_intercalate (origins : List Origin) :
    Text.lines ("\n".intercalate (origins.map (·.2.print))).toList = layout origins := by
  induction origins with
  | nil => rfl
  | cons origin origins ih =>
    cases origins with
    | nil => simp [layout_singleton, Origin.lines]
    | cons next others =>
      have hempty (rest : List Char) : Text.lines ('\n' :: rest) = [] :: Text.lines rest :=
        Text.lines_append [] rest (by simp)
      rw [layout_cons_cons, ← ih]
      simp only [List.map_cons, String.intercalate_cons_cons, String.toList_append, List.append_assoc]
      rw [(Text.lines_of_endsLine (endsLine_print _)).1]
      exact congrArg _ (hempty _)

theorem append_layout (before : List (List Char)) (origin next : Origin) (others : List Origin) :
    before ++ layout (origin :: next :: others) = before ++ origin.lines ++ [[]] ++ layout (next :: others) := by
  simp only [layout_cons_cons, List.append_assoc]

theorem segmentsFrom_cons (before : List (List Char)) (origin : Origin) (others : List Origin) :
    segmentsFrom (before.length + 1) (origin :: others) =
      ⟨origin.1, before.length + 1, origin.lines.length, positionOf origin.2⟩ ::
        segmentsFrom ((before ++ origin.lines ++ [[]]).length + 1) others := by
  have hline : (before ++ origin.lines ++ [[]]).length + 1 = before.length + 1 + origin.lines.length + 1 := by
    simp only [List.length_append, List.length_singleton]
    omega
  rw [segmentsFrom, hline]

/-- The lines of each segment, where something else is printed before. -/
theorem linesIn_segmentsFrom (origins : List Origin) (before : List (List Char)) :
    List.Forall₂ (fun segment origin => segment.file = origin.1 ∧ segment.position = positionOf origin.2 ∧
        segment.lineCount = origin.lines.length ∧ segment.linesIn (before ++ layout origins) = origin.lines)
      (segmentsFrom (before.length + 1) origins) origins := by
  induction origins generalizing before with
  | nil => exact .nil
  | cons origin origins ih =>
    rw [segmentsFrom_cons]
    cases origins with
    | nil => exact .cons ⟨rfl, rfl, rfl, by simp [Segment.linesIn, layout_singleton]⟩ .nil
    | cons next others =>
      have hrest := ih (before ++ origin.lines ++ [[]])
      rw [← append_layout] at hrest
      refine .cons ⟨rfl, rfl, rfl, ?_⟩ hrest
      simp [Segment.linesIn, layout_cons_cons]

/-- One empty line stands between a segment and the next one. -/
theorem gap_segmentsFrom {origins : List Origin} {before : List (List Char)} {number : Nat} {next : Segment}
    (h : (segmentsFrom (before.length + 1) origins)[number]? = some segment)
    (hnext : (segmentsFrom (before.length + 1) origins)[number + 1]? = some next) :
    (before ++ layout origins)[segment.startLine + segment.lineCount - 1]? = some [] ∧
      next.startLine = segment.startLine + segment.lineCount + 1 := by
  induction origins generalizing before number with
  | nil => cases h
  | cons origin origins ih =>
    rw [segmentsFrom_cons] at h hnext
    rw [List.getElem?_cons_succ] at hnext
    cases origins with
    | nil => cases hnext
    | cons other others =>
      rw [append_layout]
      cases number with
      | zero =>
        rw [segmentsFrom_cons] at hnext
        cases h
        cases hnext
        constructor
        · have hline : before.length + 1 + origin.lines.length - 1 = (before ++ origin.lines).length := by
            rw [List.length_append]
            omega
          simp only [hline, List.append_assoc, List.cons_append]
          rw [← List.append_assoc, List.getElem?_append_right (Nat.le_refl _), Nat.sub_self]
          rfl
        · simp only [List.length_append, List.length_singleton]
          omega
      | succ number => exact ih h hnext

/-- The last segment goes up to the last line. -/
theorem last_segmentsFrom {origins : List Origin} {before : List (List Char)}
    (h : (segmentsFrom (before.length + 1) origins).getLast? = some segment) :
    segment.startLine + segment.lineCount = (before ++ layout origins).length + 1 := by
  induction origins generalizing before with
  | nil => cases h
  | cons origin origins ih =>
    rw [segmentsFrom_cons] at h
    cases origins with
    | nil =>
      obtain rfl : _ = segment := Option.some.inj h
      simp only [layout_singleton, List.length_append]
      exact Nat.add_right_comm _ _ _
    | cons other others =>
      rw [append_layout]
      refine ih ?_
      rwa [List.getLast?_cons_of_ne_nil (by simp [segmentsFrom])] at h

theorem exists_of_forall₂ {α β : Type} {R : α → β → Prop} {items : List α} {others : List β} {item : α}
    (h : List.Forall₂ R items others) (hm : item ∈ items) : ∃ other ∈ others, R item other := by
  induction h with
  | nil => cases hm
  | cons hr _ ih =>
    rcases List.mem_cons.1 hm with rfl | hm
    · exact ⟨_, .head _, hr⟩
    · obtain ⟨other, ho, hother⟩ := ih hm
      exact ⟨other, .tail _ ho, hother⟩

theorem get_of_forall₂ {α β : Type} {R : α → β → Prop} {items : List α} {others : List β} {item : α} {other : β}
    {number : Nat} (h : List.Forall₂ R items others) (hi : items[number]? = some item)
    (ho : others[number]? = some other) : R item other := by
  obtain ⟨hlt, rfl⟩ := List.getElem?_eq_some_iff.1 hi
  obtain ⟨hlt', rfl⟩ := List.getElem?_eq_some_iff.1 ho
  exact h.get hlt hlt'

/-- No segment goes beyond the last line. -/
theorem end_segmentsFrom {origins : List Origin} (h : segment ∈ segmentsFrom 1 origins) :
    segment.startLine + segment.lineCount ≤ (layout origins).length + 1 := by
  obtain ⟨origin, -, -, -, hcount, hlines⟩ := exists_of_forall₂ (linesIn_segmentsFrom origins []) h
  have hpos := lines_pos origin
  have hlength := congrArg List.length hlines
  rw [Segment.linesIn, List.nil_append, List.length_take, List.length_drop] at hlength
  omega

theorem startLine_le (origins : List Origin) (line : Nat) :
    ∀ segment ∈ segmentsFrom line origins, line ≤ segment.startLine := by
  induction origins generalizing line with
  | nil => simp [segmentsFrom]
  | cons origin origins ih =>
    refine List.forall_mem_cons.2 ⟨Nat.le_refl _, fun segment hs => ?_⟩
    have := ih _ segment hs
    omega

theorem find?_segmentsFrom {origins : List Origin} {line wanted : Nat} (hs : segment ∈ segmentsFrom line origins)
    (h : segment.Holds wanted) :
    (segmentsFrom line origins).find? (fun segment => wanted < segment.startLine + segment.lineCount) =
      some segment := by
  induction origins generalizing line with
  | nil => cases hs
  | cons origin origins ih =>
    rw [segmentsFrom] at hs ⊢
    rw [List.find?_cons]
    rcases List.mem_cons.1 hs with rfl | hs
    · rw [decide_eq_true h.2]
    · have hline := startLine_le _ _ _ hs
      have hfirst : ¬ wanted < line + origin.lines.length := by
        have := h.1
        omega
      rw [decide_eq_false hfirst]
      exact ih hs

/-! ## Where definitions come from -/

variable {roots : List String} {emitted definitions : List Origin} {name : String}

theorem positionOf_heading (definition : Definition) : positionOf (heading definition) = positionOf definition := by
  unfold heading
  split <;> rfl

theorem isObjectNamed_heading (definition : Definition) :
    isObjectNamed name (heading definition) = isObjectNamed name definition := by
  unfold heading
  split <;> rfl

theorem positionOf_restrict (filter : FieldFilter) (definition : Definition) :
    positionOf (restrict filter definition) = positionOf definition := by
  cases definition <;> rfl

theorem mem_headings {definition : Definition} :
    definition ∈ headings emitted ↔ ∃ origin ∈ emitted, heading origin.2 = definition := List.mem_map

/-- Some object type of a list has a name. -/
def HasObject (origins : List Origin) (name : String) : Prop :=
  ∃ origin ∈ origins, isObjectNamed name origin.2 = true

theorem hasObject_iff_headings : HasObject emitted name ↔
    ∃ definition ∈ headings emitted, isObjectNamed name definition = true := by
  simp only [mem_headings, HasObject]
  constructor
  · rintro ⟨origin, ho, hnamed⟩
    exact ⟨_, ⟨origin, ho, rfl⟩, by rwa [isObjectNamed_heading]⟩
  · rintro ⟨_, ⟨origin, ho, rfl⟩, hnamed⟩
    exact ⟨origin, ho, by rwa [isObjectNamed_heading] at hnamed⟩

theorem hasObject_append {before after : List Origin} :
    HasObject (before ++ after) name ↔ HasObject before name ∨ HasObject after name := by
  simp only [HasObject, List.mem_append, or_and_right, exists_or]

/-- Merging loses no name of an object type. -/
theorem hasObject_foldl (h : HasObject definitions name) : HasObject (definitions.foldl (emit roots) []) name := by
  induction definitions using List.reverseRecOn with
  | nil => exact h
  | append_singleton definitions next ih =>
    rw [List.foldl_append, List.foldl_cons, List.foldl_nil, hasObject_iff_headings]
    rcases headings_emit roots (definitions.foldl (emit roots) []) next with he | ⟨he, other, hnext, hold⟩
    · rw [he, ← hasObject_iff_headings, hasObject_append]
      exact (hasObject_append.1 h).imp_left ih
    · rw [he, ← hasObject_iff_headings]
      rcases hasObject_append.1 h with h | ⟨last, hmem, hnamed⟩
      · exact ih h
      · obtain rfl := List.mem_singleton.1 hmem
        obtain ⟨type, htype, rfl, -⟩ := isObjectNamed_iff.1 hnamed
        obtain ⟨same, hsame, rfl, -⟩ := isObjectNamed_iff.1 hnext
        rw [htype] at hsame
        cases hsame
        exact hold

/-- An object type with the name of a root is appended only where no earlier one takes it in. -/
theorem not_hasObject_of_emit (h : emit roots emitted next = emitted ++ [next]) (hname : name ∈ roots)
    (hnext : isObjectNamed name next.2 = true) : ¬ HasObject emitted name := by
  rintro ⟨old, hold, hnamed⟩
  cases hparts : objectParts? next.2 with
  | none => simp [isObjectNamed, hparts] at hnext
  | some parts =>
    obtain ⟨same, interfaces, fields⟩ := parts
    obtain rfl : same = name := by simpa [isObjectNamed, hparts] using hnext
    obtain ⟨index, hindex⟩ : ∃ index, emitted.findIdx? (fun origin => roots.contains same &&
        isObjectNamed same origin.2) = some index := by
      rw [← Option.isSome_iff_exists, List.findIdx?_isSome, List.any_eq_true]
      exact ⟨old, hold, by simp [hname, hnamed]⟩
    rw [emit, hparts] at h
    dsimp only at h
    rw [hindex] at h
    simpa using congrArg List.length h

/-- What is merged comes from a definition of the same file, which differs in fields and interfaces at most. It is
the first one where it is an object type with the name of a root. -/
def ComesFrom (roots : List String) (definitions : List Origin) (origin : Origin) : Prop :=
  ∃ before old after, definitions = before ++ old :: after ∧ old.1 = origin.1 ∧ heading old.2 = heading origin.2 ∧
    ∀ name ∈ roots, isObjectNamed name old.2 = true → ¬ HasObject before name

theorem ComesFrom.append (h : ComesFrom roots definitions origin) (later : List Origin) :
    ComesFrom roots (definitions ++ later) origin := by
  obtain ⟨before, old, after, rfl, h⟩ := h
  exact ⟨before, old, after ++ later, by simp, h⟩

/-- Each definition of a document comes from one of those that were merged. -/
theorem comesFrom_foldl : ∀ origin ∈ definitions.foldl (emit roots) [], ComesFrom roots definitions origin := by
  induction definitions using List.reverseRecOn with
  | nil => simp
  | append_singleton definitions next ih =>
    rw [List.foldl_append, List.foldl_cons, List.foldl_nil]
    intro origin ho
    rcases emit_cases roots (definitions.foldl (emit roots) []) next with
      he | ⟨_, interfaces, fields, index, -, -, -, -, he⟩
    · rw [he] at ho
      rcases List.mem_append.1 ho with ho | ho
      · exact (ih origin ho).append _
      · obtain rfl := List.mem_singleton.1 ho
        refine ⟨definitions, origin, [], rfl, rfl, rfl, fun name hname hnamed hbefore => ?_⟩
        exact not_hasObject_of_emit he hname hnamed (hasObject_foldl hbefore)
    · rw [he] at ho
      obtain ⟨place, hplace⟩ := List.getElem?_of_mem ho
      rw [List.getElem?_modify] at hplace
      obtain ⟨old, hold, hmerged⟩ := Option.map_eq_some_iff.1 hplace
      obtain ⟨before, first, after, hsplit, hfile, hheading, hfirst⟩ :=
        (ih old (List.mem_of_getElem? hold)).append [next]
      refine ⟨before, first, after, hsplit, ?_⟩
      split at hmerged <;> subst hmerged
      · exact ⟨hfile, hheading.trans (heading_mergeObject _ _ _).symm, hfirst⟩
      · exact ⟨hfile, hheading, hfirst⟩

/-! ## The way back -/

/-- Segments that tell where the definitions of a text are: one after the other, each over the lines that its
definition is printed as, with one empty line between them and none around them. -/
structure Mapped (source : Source) (origins : List Origin) : Prop where
  contents : source.contents = "\n".intercalate (origins.map (·.2.print))
  segments : List.Forall₂ (fun segment origin => segment.file = origin.1 ∧ segment.position = positionOf origin.2 ∧
    segment.lineCount = origin.lines.length ∧ segment.linesIn (Text.lines source.contents.toList) = origin.lines)
    source.segments origins
  first : ∀ segment, source.segments.head? = some segment → segment.startLine = 1
  gaps : ∀ number segment next, source.segments[number]? = some segment → source.segments[number + 1]? = some next →
    (Text.lines source.contents.toList)[segment.startLine + segment.lineCount - 1]? = some [] ∧
      next.startLine = segment.startLine + segment.lineCount + 1
  last : ∀ segment, source.segments.getLast? = some segment →
    segment.startLine + segment.lineCount = (Text.lines source.contents.toList).length + 1

/-- A selected definition is an object type with a name. -/
def IsObject (files : List SchemaFile) (name : String) (s : Selected) : Prop :=
  ∃ definition, s.definition? files = some definition ∧ isObjectNamed name definition = true

/-- The names of types whose selected definitions are merged. -/
def selectedRoots (files : List SchemaFile) (selected : List Selected) : List String :=
  rootNames (selected.filterMap (·.definition? files))

/-- A definition was selected; among object types with the name of a root it was the first one. -/
def SelectedFirst (files : List SchemaFile) (selected : List Selected) (s : Selected) : Prop :=
  ∃ before after, selected = before ++ s :: after ∧ ∀ name ∈ selectedRoots files selected,
    IsObject files name s → ∀ earlier ∈ before, ¬ IsObject files name earlier

theorem lines_combine (files : List SchemaFile) (selected : List Selected) :
    Text.lines (Source.combine files selected).contents.toList = layout (mergedOrigins files selected) := by
  rw [combine_eq]
  exact lines_intercalate _

theorem mapped_combine (files : List SchemaFile) (selected : List Selected) :
    Mapped (Source.combine files selected) (mergedOrigins files selected) := by
  have hlines := lines_combine files selected
  have hsegments : (Source.combine files selected).segments = segmentsFrom ([] : List (List Char)).length.succ
      (mergedOrigins files selected) := by
    rw [combine_eq]
    rfl
  constructor
  case contents => rw [combine_eq]
  case segments =>
    rw [hlines, hsegments]
    exact linesIn_segmentsFrom _ []
  case first =>
    rw [hsegments]
    cases mergedOrigins files selected with
    | nil => simp [segmentsFrom]
    | cons origin others => simp [segmentsFrom]
  case gaps =>
    rw [hlines, hsegments]
    exact fun number segment next h hnext => gap_segmentsFrom h hnext
  case last =>
    rw [hlines, hsegments]
    exact fun segment h => last_segmentsFrom h

/-- Every line of a segment leads to it, and any line past the end to the last one. -/
theorem locate_combine (files : List SchemaFile) (selected : List Selected) :
    (∀ segment ∈ (Source.combine files selected).segments, ∀ position : Position, segment.Holds position.line →
      (Source.combine files selected).locate position = some segment) ∧
    ∀ position : Position, (Text.lines (Source.combine files selected).contents.toList).length < position.line →
      (Source.combine files selected).locate position = (Source.combine files selected).segments.getLast? := by
  constructor
  · intro segment hs position h
    rw [combine_eq] at hs ⊢
    rw [Source.locate, find?_segmentsFrom hs h]
    rfl
  · intro position h
    have hnone : (Source.combine files selected).segments.find? (fun segment =>
        position.line < segment.startLine + segment.lineCount) = none := by
      rw [List.find?_eq_none]
      intro segment hs
      rw [combine_eq] at hs
      have hend := end_segmentsFrom hs
      rw [← lines_combine] at hend
      simp only [decide_eq_true_eq]
      omega
    rw [Source.locate, hnone]
    rfl

theorem definition?_eq_some_iff {s : Selected} {definition : Definition} : s.definition? files = some definition ↔
    ∃ file whole, files[s.file]? = some file ∧ file.definitions[s.definition]? = some whole ∧
      restrict s.fields whole = definition := by
  simp [Selected.definition?, Option.bind_eq_some_iff]

theorem selectedRoots_eq (files : List SchemaFile) (selected : List Selected) : selectedRoots files selected =
    rootNames ((selected.filterMap fun s => (s.definition? files).map (s.file, ·)).map (·.2)) := by
  rw [selectedRoots, List.map_filterMap]
  simp only [Option.map_map, Function.comp_def, Option.map_id']

/-- Each definition that is emitted was selected, where it is merged as the first one of its name. -/
theorem exists_selected_of_mem (h : origin ∈ mergedOrigins files selected) : ∃ s file definition,
    SelectedFirst files selected s ∧ s.file = origin.1 ∧ files[s.file]? = some file ∧
      file.definitions[s.definition]? = some definition ∧
      heading (restrict s.fields definition) = heading origin.2 := by
  obtain ⟨first, old, last, hsplit, hfile, hheading, hfirst⟩ := comesFrom_foldl origin h
  obtain ⟨before, rest, rfl, rfl, hrest⟩ := List.filterMap_eq_append_iff.1 hsplit
  obtain ⟨skipped, s, after, rfl, hskipped, hs, -⟩ := List.filterMap_eq_cons_iff.1 hrest
  obtain ⟨restricted, hdefinition, rfl⟩ := Option.map_eq_some_iff.1 hs
  obtain ⟨file, definition, hf, hd, rfl⟩ := definition?_eq_some_iff.1 hdefinition
  refine ⟨s, file, definition, ⟨before ++ skipped, after, by simp, fun name hname hobject earlier hearlier => ?_⟩,
    hfile, hf, hd, hheading⟩
  rintro ⟨other, hother, hnamed⟩
  obtain ⟨same, hsame, hobject⟩ := hobject
  obtain rfl := Option.some.inj (hdefinition.symm.trans hsame)
  rcases List.mem_append.1 hearlier with hearlier | hearlier
  · rw [selectedRoots_eq] at hname
    refine hfirst name hname hobject ⟨(earlier.file, other), ?_, hnamed⟩
    exact List.mem_filterMap.2 ⟨earlier, hearlier, by rw [hother]; rfl⟩
  · have hnone := hskipped earlier hearlier
    rw [hother] at hnone
    cases hnone

/-- The segments of a combined document tell where its definitions are. A place in the lines of a segment, or past the
end, leads to the segment or the last one, and an error at a place in a segment is reported in the file that its
definition was selected from, at its position there. Of merged definitions the first one that was selected counts. -/
theorem combine_mapped (files : List SchemaFile) (selected : List Selected) :
    Mapped (Source.combine files selected) (mergedOrigins files selected) ∧
    (∀ segment ∈ (Source.combine files selected).segments, ∀ position : Position, segment.Holds position.line →
      (Source.combine files selected).locate position = some segment) ∧
    (∀ position : Position, (Text.lines (Source.combine files selected).contents.toList).length < position.line →
      (Source.combine files selected).locate position = (Source.combine files selected).segments.getLast?) ∧
    ∀ (number : Nat) (segment : Segment) (origin : Origin),
      (Source.combine files selected).segments[number]? = some segment →
      (mergedOrigins files selected)[number]? = some origin → ∃ s file definition,
        SelectedFirst files selected s ∧ s.file = origin.1 ∧ files[s.file]? = some file ∧
        file.definitions[s.definition]? = some definition ∧
        heading (restrict s.fields definition) = heading origin.2 ∧
        ∀ position : Position, segment.Holds position.line → ∀ title help,
          (Source.combine files selected).errorAt title (some position) help =
            .inFile title file.path file.contents (some (positionOf definition)) help := by
  obtain ⟨hlocate, hpast⟩ := locate_combine files selected
  refine ⟨mapped_combine files selected, hlocate, hpast, fun number segment origin hsegment horigin => ?_⟩
  obtain ⟨s, file, definition, hfirst, hfile, hf, hd, hheading⟩ := exists_selected_of_mem (List.mem_of_getElem? horigin)
  refine ⟨s, file, definition, hfirst, hfile, hf, hd, hheading, fun position hholds title help => ?_⟩
  obtain ⟨hsfile, hsposition, -⟩ := get_of_forall₂ (mapped_combine files selected).segments hsegment horigin
  rw [← hfile] at hsfile
  rw [← positionOf_heading, ← hheading, positionOf_heading, positionOf_restrict] at hsposition
  have hlocated := hlocate segment (List.mem_of_getElem? hsegment) position hholds
  simp [Source.errorAt, hlocated, files_combine, hsfile, hsposition, hf]

/-- A root in two files, and a type with a description of two lines. -/
def shelfFiles : List SchemaFile :=
  let query (line : Nat) (field : String) : Definition :=
    .type ⟨⟨line, 1⟩, none, "Query", [], .object [] [⟨none, field, [], .named "Book", []⟩]⟩
  [⟨⟨"a"⟩, ["a"], "# import * from \"b\"\ntype Query \x7b first: Book \x7d\n",
      [query 2 "first"], [⟨1, .wholeFile, ⟨1, 1⟩⟩]⟩,
    ⟨⟨"b"⟩, ["b"], "\"\"\"\nOf\npaper\n\"\"\"\ntype Book\ntype Query \x7b last: Book \x7d\n",
      [.type ⟨⟨5, 1⟩, some "Of\npaper", "Book", [], .object [] []⟩, query 6 "last"], []⟩]

def shelfSelected : List Selected := [⟨0, 0, .all⟩, ⟨1, 0, .all⟩, ⟨1, 1, .all⟩]

/-- A field from the second file stands in the first segment; the second one has the description in it. -/
theorem shelfFiles_mapped : (Source.combine shelfFiles shelfSelected).locate ⟨3, 1⟩ = some ⟨0, 1, 4, ⟨2, 1⟩⟩ ∧
    (Source.combine shelfFiles shelfSelected).locate ⟨9, 1⟩ = some ⟨1, 6, 5, ⟨5, 1⟩⟩ ∧
    (Source.combine shelfFiles shelfSelected).locate ⟨11, 1⟩ =
      (Source.combine shelfFiles shelfSelected).segments.getLast? := by
  have hsegments : (Source.combine shelfFiles shelfSelected).segments = [⟨0, 1, 4, ⟨2, 1⟩⟩, ⟨1, 6, 5, ⟨5, 1⟩⟩] := by
    decide +kernel
  have hlines : (Text.lines (Source.combine shelfFiles shelfSelected).contents.toList).length = 10 := by decide +kernel
  obtain ⟨-, hlocate, hpast, -⟩ := combine_mapped shelfFiles shelfSelected
  rw [hsegments] at hlocate
  refine ⟨hlocate _ (by simp) _ ?_, hlocate _ (by simp) _ ?_, hpast _ (by rw [hlines]; decide)⟩
  · simp [Segment.Holds]
  · simp [Segment.Holds]

end Import

end SchemaFragments
