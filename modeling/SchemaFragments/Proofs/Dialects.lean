import SchemaFragments.Proofs.FragmentBodies
/-!
# Fragments in both dialects

Bodies hold names, braces, dots and white space only, so that they can stand in a document or in a template
literal as they are. From either rendering the names and bodies of all fragments are read back, in their order.
-/

namespace SchemaFragments

open Document

/-! ## Readers -/

/-- What is neither blank nor a comment, of the lines of a document. -/
def isKept (line : List Char) : Bool :=
  match line.dropWhile Char.isWhitespace with
  | [] | '#' :: _ => false
  | _ => true

/-- The lines that are left of a document without its comments and blank lines. -/
def keptLines (text : List Char) : List (List Char) := (Text.splitAt '\n' text).filter isKept

def unlines (lines : List (List Char)) : List Char := lines.flatMap (· ++ ['\n'])

/-- Gathers lines up to closing braces at the left margin. -/
def gatherBodies (held : List (List Char)) : List (List Char) → List (List (List Char))
  | [] => if held.isEmpty then [] else [held]
  | line :: lines =>
    if line = ['\x7d'] then (held ++ [line]) :: gatherBodies [] lines else gatherBodies (held ++ [line]) lines

/-- The binding and the body of a fragment, from the lines of its body: its name is the second word. -/
def readBinding (lines : List (List Char)) : String × String :=
  (String.ofList (((Text.splitAt ' ' (lines.headD []))[1]?).getD []) ++ "Fragment", String.ofList (unlines lines))

/-- Reads the bindings and bodies that a document is about. -/
def readDocument (text : List Char) : List (String × String) := (gatherBodies [] (keptLines text)).map readBinding

/-- Reads a template literal behind its opening backtick: its value, and what follows it. There is none where the
literal is not closed, or where it holds an escape or a substitution. -/
def readTemplate : List Char → Option (List Char × List Char)
  | [] => none
  | c :: rest =>
    if c = '`' then some ([], rest)
    else if c = '\\' ∨ c = '$' ∧ rest.head? = some '\x7b' then none
    else if c = '\r' then
      -- a line end is a line feed in the value, however it is written
      if rest.head? = some '\n' then readTemplate rest
      else (readTemplate rest).map fun (value, after) => ('\n' :: value, after)
    else (readTemplate rest).map fun (value, after) => (c :: value, after)

def isLineEnd (c : Char) : Bool := c == '\n' || c == '\r' || c == '\u2028' || c == '\u2029'

/-- Reads the export of a constant that is bound to a template literal, up to the end of the line. -/
def readConstant (text : List Char) : Option (String × String × List Char) := do
  let rest ← text.dropPrefix? "export const ".toList
  let name := rest.takeWhile isNameChar
  let rest ← (rest.dropWhile isNameChar).dropPrefix? " = `".toList
  let (value, rest) ← readTemplate rest
  if isNameText name ∧ rest.head?.all isLineEnd then some (String.ofList name, String.ofList value, rest) else none

/-- An exported constant of a module, or the rest of the module where it holds anything else. -/
inductive ModuleItem where
  | constant (name value : String)
  | other (text : String)
deriving DecidableEq, Repr

theorem readTemplate_length {text value rest : List Char} (h : readTemplate text = some (value, rest)) :
    rest.length < text.length := by
  fun_induction readTemplate text generalizing value rest with
  | case1 => cases h
  | case2 => cases h; simp
  | case3 => cases h
  | case4 rest _ _ _ ih => exact Nat.lt_succ_of_lt (ih h)
  | case5 rest _ _ _ ih | case6 c rest _ _ _ ih =>
    obtain ⟨⟨value', rest'⟩, hread, he⟩ := Option.map_eq_some_iff.1 h
    cases he
    exact Nat.lt_succ_of_lt (ih hread)

theorem readConstant_length {text rest : List Char} {name value : String}
    (h : readConstant text = some (name, value, rest)) : rest.length < text.length := by
  simp only [readConstant, bind, Option.bind_eq_some_iff] at h
  obtain ⟨first, hfirst, second, hsecond, ⟨value', third⟩, hthird, h⟩ := h
  obtain ⟨before, rfl, -⟩ := List.dropPrefix?_eq_some_iff.1 hfirst
  obtain ⟨between, hdrop, -⟩ := List.dropPrefix?_eq_some_iff.1 hsecond
  have hle : (first.dropWhile isNameChar).length ≤ first.length := (List.dropWhile_suffix _).length_le
  have hlt := readTemplate_length hthird
  rw [hdrop] at hle
  simp only [List.length_append] at hle ⊢
  dsimp only at h
  split at h <;> cases h
  omega

/-- Reads the exported constants of a module. White space and comments between them say nothing. -/
def readModule : List Char → List ModuleItem
  | [] => []
  | c :: rest =>
    if c.isWhitespace then readModule rest
    else if c = '/' ∧ rest.head? = some '/' then readModule (rest.dropWhile (!isLineEnd ·))
    else match _ : readConstant (c :: rest) with
      | some (name, value, after) => .constant name value :: readModule after
      | none => [.other (String.ofList (c :: rest))]
termination_by text => text.length
decreasing_by
  · exact Nat.lt_succ_self _
  · exact Nat.lt_succ_of_le (List.dropWhile_suffix _).length_le
  · exact readConstant_length ‹_›

/-! ## What bodies are made of -/

/-- The characters of the lines of bodies: those of names, and some that end no line and no template literal. -/
def isBodyChar (c : Char) : Bool := isNameChar c || [' ', '.', '\x7b', '\x7d'].contains c

/-- The lines of a body. -/
def bodyLines (name type : String) (selections : List FieldSelection) : List (List Char) :=
  ("fragment " ++ name ++ " on " ++ type ++ " \x7b").toList :: (selections.flatMap FieldSelection.lines ++ [['\x7d']])

/-- A selection whose field has a name of the language. -/
structure FieldSelection.WellNamed (selection : FieldSelection) : Prop where
  field : IsName selection.field
  named : selection.Named

/-- A fragment as compiling leaves it: its body says which fields of well known names it selects. -/
structure Fragment.Readable (fragment : Fragment) (selections : List FieldSelection) : Prop where
  name : IsName fragment.name
  type : IsName fragment.typeName
  wellNamed : ∀ selection ∈ selections, selection.WellNamed
  body : fragment.body = bodyText fragment.name fragment.typeName selections

theorem Document.IsName.append {name ending : String} (h : IsName name) (hc : ∀ c ∈ ending.toList, isNameChar c = true) :
    IsName (name ++ ending) := by
  obtain ⟨first, rest, he, hs, hr⟩ := h
  refine ⟨first, rest ++ ending.toList, by simp [he], hs, fun c hm => ?_⟩
  exact (List.mem_append.1 hm).elim (hr c) (hc c)

theorem isName_selection {document : List Definition} {variant : Variant} {fields : List Document.Field}
    (hf : ∀ field ∈ fields, IsName field.name) {selection : FieldSelection}
    (h : selection ∈ selectionsOf document variant fields) : IsName selection.field := by
  rcases FieldSelection.mem_orTypeName h with rfl | h
  · decide
  · obtain ⟨field, hm, hs⟩ := List.mem_filterMap.1 h
    rcases selectionOf_plain_or_relation hs with rfl | ⟨-, nested, -, rfl⟩
    · exact hf field hm
    · exact hf field hm

theorem exists_readable_of_parse {text : String} {schema : Schema} (h : Schema.parse text = .ok schema)
    {fragment : Fragment} (hm : fragment ∈ (FragmentSet.ofSchema schema).all) :
    ∃ selections, fragment.Readable selections := by
  obtain ⟨variant, type, ht, rfl⟩ := FragmentSet.mem_all_ofSchema.1 hm
  obtain ⟨document, declared, hdocument, hd, h⟩ := Schema.exists_document_of_parse h
  have hn : ∀ type ∈ declared.types, WellNamed type := by
    intro type ht
    rw [(Declarations.ofDocument_ok hd).1] at ht
    obtain ⟨definition, hm, ht⟩ := Declarations.mem_typesOf ht
    exact wellNamed_of_parse hdocument hm ht
  obtain ⟨definition, hdefinition, interfaces, fields, hb, rfl⟩ := exists_declared_of_candidate hd h ht
  obtain ⟨hname, hfields⟩ := hn definition hdefinition
  rw [hb] at hfields
  have hfield : ∀ field ∈ fields, IsName field.name := fun field hf => hfields _ (List.mem_map_of_mem hf)
  exact ⟨selectionsOf document variant fields, hname.append variant.isNameChar_of_mem_nameEnding, hname,
    fun selection hs => ⟨isName_selection hfield hs, named_selection hd hn hfield hs⟩, bodyOf_link hd⟩

theorem all_isBodyChar {chars : List Char} (h : ∀ c ∈ chars, isNameChar c = true) : chars.all isBodyChar = true :=
  List.all_eq_true.2 fun c hc => by rw [isBodyChar, h c hc, Bool.true_or]

namespace FieldSelection

theorem WellNamed.spread {field spread : String} (h : WellNamed (.relation field spread)) :
    ∀ c ∈ spread.toList, isNameChar c = true := h.named.2 spread rfl

theorem toList_text (selection : FieldSelection) :
    ("  " ++ selection.text ++ "\n").toList = unlines selection.lines := by
  cases selection <;> simp [text, lines, unlines]

theorem all_isBodyChar_lines {selection : FieldSelection} (h : selection.WellNamed) :
    ∀ line ∈ selection.lines, line.all isBodyChar = true := by
  have hplain : isBodyChar ' ' = true ∧ isBodyChar '.' = true ∧ isBodyChar '\x7b' = true ∧ isBodyChar '\x7d' = true := by
    decide
  have hfield := all_isBodyChar h.field.all
  cases selection with
  | plain name =>
    rw [field] at hfield
    simp only [lines, List.forall_mem_singleton, List.all_cons, hplain, hfield, Bool.and_self]
  | relation name spread =>
    rw [field] at hfield
    simp only [lines, List.forall_mem_cons, List.all_cons, List.all_append, List.all_nil, hplain, hfield,
      all_isBodyChar h.spread, Bool.and_self, List.not_mem_nil, IsEmpty.forall_iff, implies_true, and_self]

end FieldSelection

theorem toList_bodyText (name type : String) (selections : List FieldSelection) :
    (bodyText name type selections).toList = unlines (bodyLines name type selections) := by
  have hselections : (String.join (selections.map fun selection => "  " ++ selection.text ++ "\n")).toList =
      unlines (selections.flatMap FieldSelection.lines) := by
    induction selections with
    | nil => rfl
    | cons selection selections ih =>
      rw [List.map_cons, String.join_cons, String.toList_append, ih, FieldSelection.toList_text, List.flatMap_cons,
        unlines, unlines, unlines, List.flatMap_append]
  rw [bodyText, String.toList_append, String.toList_append, hselections]
  simp [bodyLines, unlines]

namespace Fragment

variable {fragment : Fragment} {selections : List FieldSelection}

theorem Readable.toList_body (h : fragment.Readable selections) :
    fragment.body.toList = unlines (bodyLines fragment.name fragment.typeName selections) := by
  rw [h.body, toList_bodyText]

theorem Readable.all_isBodyChar_lines (h : fragment.Readable selections) :
    ∀ line ∈ bodyLines fragment.name fragment.typeName selections, line.all isBodyChar = true := by
  intro line hl
  rcases List.mem_cons.1 hl with rfl | hl
  · have hname := all_isBodyChar h.name.all
    have htype := all_isBodyChar h.type.all
    have hwords : "fragment ".toList.all isBodyChar = true ∧ " on ".toList.all isBodyChar = true ∧
        " \x7b".toList.all isBodyChar = true := by decide
    simp only [String.toList_append, List.all_append, hname, htype, hwords, Bool.and_self]
  · rcases List.mem_append.1 hl with hl | hl
    · obtain ⟨selection, hs, hl⟩ := List.mem_flatMap.1 hl
      exact FieldSelection.all_isBodyChar_lines (h.wellNamed selection hs) line hl
    · rw [List.mem_singleton.1 hl]
      decide

theorem Readable.notMem_lines (h : fragment.Readable selections) :
    ∀ line ∈ bodyLines fragment.name fragment.typeName selections, '\n' ∉ line := by
  intro line hl hc
  exact absurd (List.all_eq_true.1 (h.all_isBodyChar_lines line hl) _ hc) (by decide)

/-- No body holds a backtick, a backslash, a dollar sign or a carriage return. -/
theorem Readable.mem_body (h : fragment.Readable selections) {c : Char} (hc : c ∈ fragment.body.toList) :
    c ≠ '`' ∧ c ≠ '\\' ∧ c ≠ '$' ∧ c ≠ '\r' := by
  rw [h.toList_body] at hc
  obtain ⟨line, hl, hc⟩ := List.mem_flatMap.1 hc
  rcases List.mem_append.1 hc with hc | hc
  · have hbody := List.all_eq_true.1 (h.all_isBodyChar_lines line hl) c hc
    refine ⟨?_, ?_, ?_, ?_⟩ <;> rintro rfl <;> exact absurd hbody (by decide)
  · rw [List.mem_singleton.1 hc]
    decide

/-! ## Reading the document back -/

theorem isKept_append (spaces : List Char) {c : Char} (hs : spaces.all Char.isWhitespace = true)
    (hc : c.isWhitespace = false ∧ c ≠ '#') (rest : List Char) : isKept (spaces ++ c :: rest) = true := by
  have htrimmed : (spaces ++ c :: rest).dropWhile Char.isWhitespace = c :: rest := by
    rw [List.dropWhile_append_of_pos (List.all_eq_true.1 hs), List.dropWhile_cons_of_neg (by simp [hc.1])]
  rw [isKept, htrimmed]
  split
  · contradiction
  · rename_i he
    exact absurd (List.cons.inj he).1 hc.2
  · rfl

theorem isKept_name {name : String} (h : IsName name) (rest : List Char) :
    isKept (' ' :: ' ' :: (name.toList ++ rest)) = true := by
  obtain ⟨first, others, he, hfirst, -⟩ := h
  rw [he]
  refine isKept_append [' ', ' '] (by decide) ⟨?_, ?_⟩ _
  · simp only [Char.isWhitespace, Bool.or_eq_false_iff, decide_eq_false_iff_not]
    refine ⟨⟨⟨?_, ?_⟩, ?_⟩, ?_⟩ <;> rintro rfl <;> exact absurd hfirst (by decide)
  · rintro rfl
    exact absurd hfirst (by decide)

theorem Readable.isKept_lines (h : fragment.Readable selections) :
    ∀ line ∈ bodyLines fragment.name fragment.typeName selections, isKept line = true := by
  intro line hl
  rcases List.mem_cons.1 hl with rfl | hl
  · simp only [String.toList_append]
    exact isKept_append [] (c := 'f') (by decide) (by decide) _
  · rcases List.mem_append.1 hl with hl | hl
    · obtain ⟨selection, hs, hl⟩ := List.mem_flatMap.1 hl
      have hfield := (h.wellNamed selection hs).field
      cases selection with
      | plain name =>
        have hkept := isKept_name hfield []
        rw [List.append_nil] at hkept
        rwa [List.mem_singleton.1 hl]
      | relation name spread =>
        simp only [FieldSelection.lines, List.mem_cons, List.not_mem_nil, or_false] at hl
        rcases hl with rfl | rfl | rfl
        · exact isKept_name hfield [' ', '\x7b']
        · exact isKept_append [' ', ' ', ' ', ' '] (by decide) (by decide) _
        · decide
    · rw [List.mem_singleton.1 hl]
      decide

end Fragment

theorem splitAt_unlines {lines : List (List Char)} (h : ∀ line ∈ lines, '\n' ∉ line) (rest : List Char) :
    Text.splitAt '\n' (unlines lines ++ rest) = lines ++ Text.splitAt '\n' rest := by
  induction lines with
  | nil => rfl
  | cons line lines ih =>
    obtain ⟨hline, hlines⟩ := List.forall_mem_cons.1 h
    have hfirst : unlines (line :: lines) ++ rest = line ++ '\n' :: (unlines lines ++ rest) := by
      simp [unlines]
    rw [hfirst, splitAt_append hline, ih hlines, List.cons_append]

/-- All lines of a body are kept, whatever follows it. -/
theorem contributes_keptLines {fragment : Fragment} {selections : List FieldSelection}
    (h : fragment.Readable selections) :
    Contributes keptLines fragment.body (bodyLines fragment.name fragment.typeName selections) := by
  intro rest
  rw [h.toList_body, keptLines, splitAt_unlines h.notMem_lines, List.filter_append,
    List.filter_eq_self.2 h.isKept_lines, keptLines]

theorem contributes_no_line (line : String) (hn : '\n' ∉ line.toList) (h : isKept line.toList = false) :
    Contributes keptLines (line ++ "\n") [] := by
  intro rest
  have htext : (line ++ "\n").toList ++ rest = line.toList ++ '\n' :: rest := by simp
  rw [htext, keptLines, splitAt_append hn, List.filter_cons_of_neg (by simp [h])]
  rfl

/-- What is left of a document are the lines of the bodies. -/
theorem keptLines_render {fragments : FragmentSet}
    (h : ∀ fragment ∈ fragments.all, ∃ selections, fragment.Readable selections) :
    keptLines (fragments.render .graphql).toList = fragments.all.flatMap (keptLines ·.body.toList) := by
  refine (Contributes.render (contributes_no_line "" (by decide) rfl) (fun line hm => ?_)
    fun fragment hm => ?_).eq rfl
  · refine contributes_no_line _ ?_ ?_
    · simpa [Dialect.commentMark] using (FragmentSet.notMem_commentLines line hm).1
    · simp [Dialect.commentMark, isKept, show '#'.isWhitespace = false by decide]
  · obtain ⟨selections, hs⟩ := h fragment hm
    exact (contributes_keptLines hs).self rfl

/-! ### Bindings and bodies -/

theorem gatherBodies_append {lines : List (List Char)} (h : ['\x7d'] ∉ lines) (held rest : List (List Char)) :
    gatherBodies held (lines ++ ['\x7d'] :: rest) = (held ++ lines ++ [['\x7d']]) :: gatherBodies [] rest := by
  induction lines generalizing held with
  | nil => rw [List.nil_append, gatherBodies, if_pos rfl, List.append_nil]
  | cons line lines ih =>
    obtain ⟨hline, hlines⟩ := not_or.1 (mt List.mem_cons.2 h)
    rw [List.cons_append, gatherBodies, if_neg (Ne.symm hline), ih hlines]
    simp

namespace Fragment

variable {fragment : Fragment} {selections : List FieldSelection}

theorem notMem_selection_lines (selections : List FieldSelection) (name type : String) :
    ['\x7d'] ∉ ("fragment " ++ name ++ " on " ++ type ++ " \x7b").toList :: selections.flatMap FieldSelection.lines := by
  intro h
  rcases List.mem_cons.1 h with h | h
  · simp at h
  · obtain ⟨selection, -, h⟩ := List.mem_flatMap.1 h
    cases selection <;> simp [FieldSelection.lines] at h

/-- The lines of bodies fall into those of each. -/
theorem gatherBodies_lines {fragments : List Fragment}
    (h : ∀ fragment ∈ fragments, ∃ selections, fragment.Readable selections) :
    gatherBodies [] (fragments.flatMap (keptLines ·.body.toList)) = fragments.map (keptLines ·.body.toList) := by
  induction fragments with
  | nil => rfl
  | cons fragment fragments ih =>
    obtain ⟨⟨selections, hs⟩, hothers⟩ := List.forall_mem_cons.1 h
    rw [List.flatMap_cons, List.map_cons, (contributes_keptLines hs).eq rfl, bodyLines, ← List.cons_append,
      List.append_assoc, List.singleton_append, gatherBodies_append (notMem_selection_lines selections _ _),
      List.nil_append, ih hothers]

/-- The binding of a fragment and its body are read back from the lines of its body. -/
theorem Readable.readBinding (h : fragment.Readable selections) :
    readBinding (keptLines fragment.body.toList) = (fragment.bindingName, fragment.body) := by
  have hname : ' ' ∉ fragment.name.toList := notMem_of_isNameChar h.name.all (by decide)
  have hhead : (bodyLines fragment.name fragment.typeName selections).headD [] =
      "fragment".toList ++ ' ' :: (fragment.name.toList ++ ' ' :: ("on ".toList ++ fragment.typeName.toList ++
        " \x7b".toList)) := by
    simp [bodyLines]
  rw [(contributes_keptLines h).eq rfl, SchemaFragments.readBinding, ← h.toList_body, hhead,
    splitAt_append (by decide), splitAt_append hname]
  simp [bindingName]

end Fragment

theorem readDocument_render {fragments : FragmentSet}
    (h : ∀ fragment ∈ fragments.all, ∃ selections, fragment.Readable selections) :
    readDocument (fragments.render .graphql).toList =
      fragments.all.map fun fragment => (fragment.bindingName, fragment.body) := by
  rw [readDocument, keptLines_render h, Fragment.gatherBodies_lines h, List.map_map]
  refine List.map_congr_left fun fragment hm => ?_
  obtain ⟨selections, hs⟩ := h fragment hm
  exact hs.readBinding

/-- What is left of a document without its comments and blank lines. -/
theorem unlines_keptLines_render {fragments : FragmentSet}
    (h : ∀ fragment ∈ fragments.all, ∃ selections, fragment.Readable selections) :
    String.ofList (unlines (keptLines (fragments.render .graphql).toList)) =
      String.join (fragments.all.map (·.body)) := by
  rw [← String.toList_inj, String.toList_ofList, String.toList_join, List.flatMap_map, keptLines_render h, unlines,
    List.flatMap_assoc]
  refine List.flatMap_congr fun fragment hm => ?_
  obtain ⟨selections, hs⟩ := h fragment hm
  rw [(contributes_keptLines hs).eq rfl, ← unlines, hs.toList_body]

/-! ## Reading the module back -/

theorem readTemplate_append {body : List Char} (h : ∀ c ∈ body, c ≠ '`' ∧ c ≠ '\\' ∧ c ≠ '$' ∧ c ≠ '\r')
    (rest : List Char) : readTemplate (body ++ '`' :: rest) = some (body, rest) := by
  induction body with
  | nil => rw [List.nil_append, readTemplate, if_pos rfl]
  | cons c body ih =>
    obtain ⟨⟨hbacktick, hbackslash, hdollar, hreturn⟩, hbody⟩ := List.forall_mem_cons.1 h
    rw [List.cons_append, readTemplate, if_neg hbacktick, if_neg (by simp [hbackslash, hdollar]), if_neg hreturn,
      ih hbody]
    rfl

theorem readModule_blank {c : Char} (h : c.isWhitespace = true) (rest : List Char) :
    readModule (c :: rest) = readModule rest := by
  rw [readModule, if_pos h]

theorem readModule_comment {line : List Char} (h : line.all (!isLineEnd ·) = true) (rest : List Char) :
    readModule ('/' :: '/' :: (line ++ '\n' :: rest)) = readModule rest := by
  have hskip : ('/' :: (line ++ '\n' :: rest)).dropWhile (!isLineEnd ·) = '\n' :: rest := by
    rw [List.dropWhile_cons_of_pos (by decide), List.dropWhile_append_of_pos (List.all_eq_true.1 h),
      List.dropWhile_cons_of_neg (by decide)]
  rw [readModule, if_neg (by decide), if_pos ⟨rfl, rfl⟩, hskip, readModule_blank (by decide)]

theorem readConstant_append {name : String} (hname : IsName name) {body : List Char}
    (hbody : ∀ c ∈ body, c ≠ '`' ∧ c ≠ '\\' ∧ c ≠ '$' ∧ c ≠ '\r') (rest : List Char) :
    readConstant ("export const ".toList ++ (name.toList ++ (" = `".toList ++ (body ++ '`' :: '\n' :: rest)))) =
      some (name, String.ofList body, '\n' :: rest) := by
  have hprefix (before after : List Char) : (before ++ after).dropPrefix? before = some after :=
    List.dropPrefix?_eq_some_iff.2 ⟨before, rfl, beq_self_eq_true _⟩
  have htake : (name.toList ++ (" = `".toList ++ (body ++ '`' :: '\n' :: rest))).takeWhile isNameChar = name.toList := by
    rw [List.takeWhile_append_of_pos hname.all]
    simp [show isNameChar ' ' = false by decide]
  have hdrop : (name.toList ++ (" = `".toList ++ (body ++ '`' :: '\n' :: rest))).dropWhile isNameChar =
      " = `".toList ++ (body ++ '`' :: '\n' :: rest) := by
    rw [List.dropWhile_append_of_pos hname.all]
    simp [show isNameChar ' ' = false by decide]
  simp only [readConstant, bind, hprefix, Option.bind_some, htake, hdrop, readTemplate_append hbody,
    isNameText_iff.2 hname, List.head?_cons, Option.all_some, isLineEnd, beq_self_eq_true, Bool.true_or, and_self,
    if_true, String.ofList_toList]

theorem readModule_constant {text rest : List Char} {name value : String}
    (h : readConstant text = some (name, value, rest)) : readModule text = .constant name value :: readModule rest := by
  obtain ⟨after, hafter, -⟩ := Option.bind_eq_some_iff.1 h
  obtain ⟨keyword, rfl, hkeyword⟩ := List.dropPrefix?_eq_some_iff.1 hafter
  -- the text of an export starts with neither white space nor a comment
  obtain rfl := eq_of_beq hkeyword
  obtain ⟨tail, htail⟩ : ∃ tail, "export const ".toList ++ after = 'e' :: tail := ⟨_, rfl⟩
  rw [htail] at h ⊢
  rw [readModule, if_neg (by decide), if_neg (by simp)]
  split
  · rename_i he
    cases he.symm.trans h
    rfl
  · rename_i he
    cases he.symm.trans h

theorem contributes_constant {fragment : Fragment} {selections : List FieldSelection}
    (h : fragment.Readable selections) : Contributes readModule (FragmentSet.renderFragment .module fragment)
      [.constant fragment.bindingName fragment.body] := by
  intro rest
  have hbinding : IsName fragment.bindingName :=
    h.name.append (List.all_eq_true.1 (show "Fragment".toList.all isNameChar = true by decide))
  have htext : (FragmentSet.renderFragment .module fragment).toList ++ rest = "export const ".toList ++
      (fragment.bindingName.toList ++ (" = `".toList ++ (fragment.body.toList ++ '`' :: '\n' :: rest))) := by
    show ("export const " ++ _ ++ " = `" ++ fragment.body ++ "`\n").toList ++ rest = _
    simp only [String.toList_append, List.append_assoc]
    rfl
  rw [htext, readModule_constant (readConstant_append hbinding (fun c => h.mem_body) rest),
    readModule_blank (by decide), String.ofList_toList]
  rfl

/-- A module holds the constants of the fragments, each with its body, and nothing else. -/
theorem readModule_render {fragments : FragmentSet}
    (h : ∀ fragment ∈ fragments.all, ∃ selections, fragment.Readable selections) :
    readModule (fragments.render .module).toList =
      fragments.all.map fun fragment => .constant fragment.bindingName fragment.body := by
  rw [List.map_eq_flatMap]
  refine (Contributes.render (fun rest => readModule_blank (by decide) rest) (fun line hm rest => ?_)
    fun fragment hm => ?_).eq (by rw [readModule])
  · have hline : (' ' :: line.toList).all (!isLineEnd ·) = true := by
      revert line
      decide +kernel
    have htext : (Dialect.module.commentMark ++ " " ++ line ++ "\n").toList ++ rest =
        '/' :: '/' :: ((' ' :: line.toList) ++ '\n' :: rest) := by
      simp [Dialect.commentMark]
    rw [htext, readModule_comment hline]
    rfl
  · obtain ⟨selections, hs⟩ := h fragment hm
    exact contributes_constant hs

/-! ## Both dialects -/

/-- A text that compiles in one dialect compiles to the same fragments in both. Without comments and blank lines the
document is the bodies of the standard fragments, then of those without relations, then of the deep ones. The module
exports these bodies, each under the name of its fragment and `Fragment`, and nothing else. So from either rendering
the same bindings and bodies are read. -/
theorem compile_dialects {text : String} {dialect : Dialect} {compiled : Compiled}
    (h : compile text dialect = .ok compiled) : ∃ document module,
      compile text .graphql = .ok ⟨compiled.fragments, document⟩ ∧
      compile text .module = .ok ⟨compiled.fragments, module⟩ ∧
      String.ofList (unlines (keptLines document.toList)) = String.join (compiled.fragments.all.map (·.body)) ∧
      readModule module.toList =
        compiled.fragments.all.map (fun fragment => .constant (fragment.name ++ "Fragment") fragment.body) ∧
      readDocument document.toList =
        compiled.fragments.all.map (fun fragment => (fragment.name ++ "Fragment", fragment.body)) ∧
      (∀ fragment ∈ compiled.fragments.all,
        '`' ∉ fragment.body.toList ∧ '\\' ∉ fragment.body.toList ∧ '$' ∉ fragment.body.toList) ∧
      ∀ line ∈ FragmentSet.commentLines, '`' ∉ line.toList := by
  obtain ⟨schema, hs, rfl⟩ := compile_eq_ok h
  have hreadable : ∀ fragment ∈ (FragmentSet.ofSchema schema).all, ∃ selections, fragment.Readable selections :=
    fun _ hm => exists_readable_of_parse hs hm
  refine ⟨_, _, compile_of_parse hs .graphql, compile_of_parse hs .module, unlines_keptLines_render hreadable,
    readModule_render hreadable, readDocument_render hreadable, fun fragment hm => ?_, by decide +kernel⟩
  obtain ⟨selections, hselections⟩ := hreadable fragment hm
  exact ⟨fun hc => (hselections.mem_body hc).1 rfl, fun hc => (hselections.mem_body hc).2.1 rfl,
    fun hc => (hselections.mem_body hc).2.2.1 rfl⟩

/-- Two types that refer to each other, one of them to nothing else. -/
def tagText : String := "type Tag \x7b id: ID posts: [Post] \x7d type Post \x7b tag: Tag \x7d"

def tagBindings : List (String × String) :=
  [("TagFragment", "fragment Tag on Tag \x7b\n  id\n  posts \x7b\n    ...PostNoNesting\n  \x7d\n\x7d\n"),
    ("PostFragment", "fragment Post on Post \x7b\n  tag \x7b\n    ...TagNoNesting\n  \x7d\n\x7d\n"),
    ("TagNoNestingFragment", "fragment TagNoNesting on Tag \x7b\n  id\n\x7d\n"),
    ("PostNoNestingFragment", "fragment PostNoNesting on Post \x7b\n  __typename\n\x7d\n"),
    ("TagDeepNestingFragment",
      "fragment TagDeepNesting on Tag \x7b\n  id\n  posts \x7b\n    ...PostDeepNesting\n  \x7d\n\x7d\n"),
    ("PostDeepNestingFragment",
      "fragment PostDeepNesting on Post \x7b\n  tag \x7b\n    ...TagDeepNesting\n  \x7d\n\x7d\n")]

theorem tagText_dialects : ∃ fragments document module,
    compile tagText .graphql = .ok ⟨fragments, document⟩ ∧ compile tagText .module = .ok ⟨fragments, module⟩ ∧
      String.ofList (unlines (keptLines document.toList)) = String.join (tagBindings.map (·.2)) ∧
      readDocument document.toList = tagBindings ∧
      readModule module.toList = tagBindings.map fun binding => .constant binding.1 binding.2 := by
  have hrun : (compile tagText .graphql).toOption.any (fun compiled => decide
      (compiled.fragments.all.map (fun fragment => (fragment.name ++ "Fragment", fragment.body)) = tagBindings)) = true := by
    simp only [compile, FragmentSet.ofSchema, Schema.candidates_eq]
    decide +kernel
  obtain ⟨compiled, h, hbindings⟩ := exists_ok_of_any hrun
  obtain ⟨document, module, hdocument, hmodule, hkept, hconstants, hread, -, -⟩ := compile_dialects h
  rw [of_decide_eq_true hbindings] at hread
  refine ⟨compiled.fragments, document, module, hdocument, hmodule, ?_, hread, ?_⟩
  · rw [hkept, ← of_decide_eq_true hbindings, List.map_map]
    rfl
  · rw [hconstants, ← of_decide_eq_true hbindings, List.map_map]
    rfl

end SchemaFragments
