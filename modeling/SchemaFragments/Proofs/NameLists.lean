import SchemaFragments.Proofs.Segments
/-!
# Name lists of directives

What a directive without `*` asks for can be said item by item: a type is asked for if some item of the list names
it, and a field of it is kept if some item for that type keeps it. So neither the order of the items nor their
number matters.
-/

namespace SchemaFragments.Import

variable {line rest : List Char} {directive : Directive} {types : List (String × FieldFilter)} {name type : String}
  {filter : FieldFilter} {P : FieldFilter → Prop}

/-! ## Items together -/

/-- What holds of merged filters if it holds of one of them. -/
def Joins (P : FieldFilter → Prop) : Prop := ∀ a b : FieldFilter, P (a.merge b) ↔ P a ∨ P b

theorem joins_true : Joins fun _ => True := fun _ _ => by simp

theorem joins_keeps (field : String) : Joins fun filter => filter.keeps field = true := fun _ _ => keeps_merge

/-- Some types with their filters ask for a type, with a filter of a class. -/
def Asks (P : FieldFilter → Prop) (types : List (String × FieldFilter)) (name : String) : Prop :=
  ∃ filter, (name, filter) ∈ types ∧ P filter

/-- A selection asks for a type, with a filter of a class. -/
def Selection.AsksOf (P : FieldFilter → Prop) (name : String) (selection : Selection) : Prop :=
  ∃ types, selection = .types types ∧ Asks P types name

/-- What a directive can do: ask for anything, for the whole file, or for a type with a filter of a class. -/
inductive Request : (Selection → Prop) → Prop
  | anything : Request fun _ => True
  | wholeFile : Request (· = .wholeFile)
  | type {P : FieldFilter → Prop} (hP : Joins P) (name : String) : Request (Selection.AsksOf P name)

theorem asks_addType (hP : Joins P) :
    Asks P (addType type filter types) name ↔ (type = name ∧ P filter) ∨ Asks P types name := by
  have hcons (first : String × FieldFilter) (types : List (String × FieldFilter)) :
      Asks P (first :: types) name ↔ (first.1 = name ∧ P first.2) ∨ Asks P types name := by
    constructor
    · rintro ⟨filter, hm, hp⟩
      rcases List.mem_cons.1 hm with rfl | hm
      · exact .inl ⟨rfl, hp⟩
      · exact .inr ⟨filter, hm, hp⟩
    · rintro (⟨rfl, hp⟩ | ⟨filter, hm, hp⟩)
      · exact ⟨first.2, .head _, hp⟩
      · exact ⟨filter, .tail _ hm, hp⟩
  induction types with
  | nil => exact hcons (type, filter) []
  | cons first types ih =>
    obtain ⟨other, kept⟩ := first
    rw [addType]
    split
    · rename_i he
      subst he
      rw [hcons, hcons, hP]
      tauto
    · rw [hcons, hcons]
      tauto

theorem asks_foldl (hP : Joins P) (items : List (List Char)) (types : List (String × FieldFilter)) (name : String) :
    Asks P (items.foldl (fun types item => addType (readItem item).1 (readItem item).2 types) types) name ↔
      Asks P types name ∨ ∃ item ∈ items, (readItem item).1 = name ∧ P (readItem item).2 := by
  induction items generalizing types with
  | nil => simp
  | cons item items ih =>
    rw [List.foldl_cons, ih, asks_addType hP, List.exists_mem_cons_iff]
    tauto

/-! ## Lines -/

/-- The items of the list of names in a directive. -/
def listedNames (line : List Char) : List (List Char) :=
  match (afterKeyword line).bind fun rest =>
      cutWord "from".toList.reverse (Text.trim (rest.takeWhile (!isQuote ·))).reverse with
  | some names => items names.reverse
  | none => []

theorem readHead_eq_types {head : List Char} (h : readHead head = some (.types types)) :
    ∃ names, cutWord "from".toList.reverse (Text.trim head).reverse = some names ∧
      types = (items names.reverse).foldl (fun types item => addType (readItem item).1 (readItem item).2 types) [] := by
  unfold readHead at h
  dsimp only at h
  split at h
  · cases h
  · obtain ⟨names, hnames, hselection⟩ := Option.map_eq_some_iff.1 h
    refine ⟨names, hnames, ?_⟩
    unfold readSelection at hselection
    dsimp only at hselection
    split at hselection
    · cases hselection
    · exact (Selection.types.inj hselection).symm

/-- What it takes for a line to be a directive. -/
theorem readDirective_eq_some_iff : readDirective line = some directive ↔
    ∃ rest quote quoted path back selection, afterKeyword line = some rest ∧
      (rest.head?.any fun c => Text.isBlank c || isQuote c) = true ∧
      rest.dropWhile (!isQuote ·) = quote :: quoted ∧
      Text.cutAtLast (· == quote) quoted = some (path, back) ∧ path ≠ [] ∧
      readHead (rest.takeWhile (!isQuote ·)) = some selection ∧
      directive = ⟨String.ofList path, Text.byteLength (line.take (line.length - quoted.length)) + 1, selection⟩ := by
  constructor
  · intro h
    unfold readDirective at h
    obtain ⟨rest, hrest, h⟩ := Option.bind_eq_some_iff.1 h
    split at h
    · cases h
    · rename_i hhead
      split at h
      · cases h
      · rename_i quote quoted hquote
        obtain ⟨⟨path, back⟩, hpath, h⟩ := Option.bind_eq_some_iff.1 h
        dsimp only at h
        split at h
        · cases h
        · rename_i hne
          obtain ⟨selection, hselection, h⟩ := Option.bind_eq_some_iff.1 h
          exact ⟨rest, quote, quoted, path, back, selection, hrest, by simpa using hhead, hquote, hpath,
            by simpa using hne, hselection, (Option.some.inj h).symm⟩
  · rintro ⟨rest, quote, quoted, path, back, selection, hrest, hhead, hquote, hpath, hne, hselection, rfl⟩
    unfold readDirective
    simp [hrest, hhead, hquote, hpath, hne, hselection]

theorem exists_head_of_readDirective (h : readDirective line = some directive) :
    ∃ rest, afterKeyword line = some rest ∧ readHead (rest.takeWhile (!isQuote ·)) = some directive.selection := by
  obtain ⟨rest, _, _, _, _, _, hrest, -, -, -, -, hselection, rfl⟩ := readDirective_eq_some_iff.1 h
  exact ⟨rest, hrest, hselection⟩

/-- A directive asks for a type if it lists an item for it. -/
theorem asksOf_iff (h : readDirective line = some directive) (hnames : directive.selection ≠ .wholeFile) (hP : Joins P) :
    directive.selection.AsksOf P name ↔ ∃ item ∈ listedNames line, (readItem item).1 = name ∧ P (readItem item).2 := by
  obtain ⟨rest, hrest, hhead⟩ := exists_head_of_readDirective h
  cases htypes : directive.selection with
  | wholeFile => exact absurd htypes hnames
  | types types =>
    rw [htypes] at hhead
    obtain ⟨names, hlist, rfl⟩ := readHead_eq_types hhead
    have hlisted : listedNames line = items names.reverse := by
      rw [listedNames, hrest, Option.bind_some, hlist]
    have hasks := asks_foldl hP (items names.reverse) [] name
    rw [hlisted]
    constructor
    · rintro ⟨types, htypes, ha⟩
      obtain rfl := Selection.types.inj htypes
      exact (hasks.1 ha).resolve_left (by simp [Asks])
    · exact fun hitem => ⟨_, rfl, hasks.2 (.inr hitem)⟩

/-! ## Texts -/

theorem eq_append_of_cutWord {word text : List Char} (h : cutWord word text = some rest) : text = word ++ rest := by
  fun_induction cutWord word text with
  | case1 text => exact Option.some.inj h
  | case2 => cases h
  | case3 c word text ih => rw [ih h, List.cons_append]
  | case4 => cases h

/-- A directive is a comment. -/
theorem head_trim_of_readDirective (h : readDirective line = some directive) : (Text.trim line).head? = some '#' := by
  obtain ⟨_, hkeyword, -⟩ := exists_head_of_readDirective h
  obtain ⟨comment, hcomment, -⟩ := Option.bind_eq_some_iff.1 hkeyword
  rw [Text.trim, eq_append_of_cutWord hcomment, Text.trimEnd, List.cons_append, List.nil_append, List.reverse_cons,
    List.dropWhile_append]
  split
  · rfl
  · rw [List.reverse_append]
    rfl

theorem map_snd_directives (text : String) :
    (directives text).map (·.2) = (Text.lines text.toList).filterMap readDirective := by
  have hzip (lines : List (List Char)) (start : Nat) :
      (lines.zipIdx start).filterMap (fun numbered => readDirective numbered.1) = lines.filterMap readDirective := by
    induction lines generalizing start with
    | nil => rfl
    | cons line lines ih =>
      rw [List.zipIdx_cons, List.filterMap_cons, List.filterMap_cons, ih]
  rw [directives, List.map_filterMap, ← hzip _ 0]
  congr 1
  funext ⟨line, index⟩
  rw [Option.map_map]
  exact Option.map_id' ..

/-- Whether a text holds definitions does not depend on its directives. -/
theorem holdsDefinitions_congr {text text' : String} {front lines lines' back : List (List Char)}
    (h : Text.lines text.toList = front ++ lines ++ back) (h' : Text.lines text'.toList = front ++ lines' ++ back)
    (hlines : ∀ line ∈ lines ++ lines', (readDirective line).isSome) : holdsDefinitions text' = holdsDefinitions text := by
  have hnone {lines : List (List Char)} (hd : ∀ line ∈ lines, (readDirective line).isSome) :
      (lines.map Text.trim).any (fun line => !line.isEmpty && line.head? != some '#') = false := by
    rw [List.any_map, List.any_eq_false]
    intro line hl
    obtain ⟨directive, hdirective⟩ := Option.isSome_iff_exists.1 (hd line hl)
    simp [head_trim_of_readDirective hdirective]
  unfold holdsDefinitions
  rw [h, h']
  simp only [List.map_append, List.any_append, hnone fun line hl => hlines line (List.mem_append_left _ hl),
    hnone fun line hl => hlines line (List.mem_append_right _ hl)]

end SchemaFragments.Import
