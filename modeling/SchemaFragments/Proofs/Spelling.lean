import SchemaFragments.Proofs.Lexing
/-!
# Printed definitions spell their words

The printers write the words of what they print, in order, with nothing but spaces, line ends and commas
around them.
-/

namespace SchemaFragments.Document

/-- A text writes words in front of anything that ends the last of them. -/
def Writes (text : List Char) (words : List Word) : Prop :=
  ∀ (rest : List Char) (others : List Word), Ends rest → Spells rest others →
    Spells (text ++ rest) (words ++ others)

/-- A text writes words in front of anything. -/
def Finishes (text : List Char) (words : List Word) : Prop :=
  ∀ (rest : List Char) (others : List Word), Spells rest others → Spells (text ++ rest) (words ++ others)

variable {text more : List Char} {words others : List Word}

theorem Ends.append (h : Ends text) (hmore : Ends more) : Ends (text ++ more) := by
  cases text with
  | nil => exact hmore
  | cons c text => exact h

theorem ends_nil : Ends [] := by simp [Ends]

theorem ends_cons {c : Char} (h : endsNumber c = true) : Ends (c :: text) := by
  simpa [Ends] using h

theorem writes_nil : Writes [] [] := fun _ _ _ hrest => hrest

theorem finishes_nil : Finishes [] [] := fun _ _ hrest => hrest

theorem writes_word (word : Word) : Writes word.text [word] := fun _ _ hends hrest =>
  .word (fun _ => hends) hrest

theorem Writes.append (h : Writes text words) (hmore : Writes more others) (hends : Ends more) :
    Writes (text ++ more) (words ++ others) := by
  intro rest behind hrest hspells
  rw [List.append_assoc, List.append_assoc]
  exact h _ _ (hends.append hrest) (hmore _ _ hrest hspells)

/-- A word that needs an end gets it from what comes next. -/
theorem Writes.finish (h : Writes text words) (hmore : Finishes more others) (hends : Ends more)
    (hne : more ≠ []) : Finishes (text ++ more) (words ++ others) := by
  intro rest behind hspells
  rw [List.append_assoc, List.append_assoc]
  refine h _ _ ?_ (hmore _ _ hspells)
  cases more with
  | nil => exact absurd rfl hne
  | cons c more => exact hends

theorem Finishes.append (h : Finishes text words) (hmore : Finishes more others) :
    Finishes (text ++ more) (words ++ others) := by
  intro rest behind hspells
  rw [List.append_assoc, List.append_assoc]
  exact h _ _ (hmore _ _ hspells)

theorem Finishes.append_writes (h : Finishes text words) (hmore : Writes more others) :
    Writes (text ++ more) (words ++ others) := by
  intro rest behind hrest hspells
  rw [List.append_assoc, List.append_assoc]
  exact h _ _ (hmore _ _ hrest hspells)

theorem Spells.punct (c : Char) (h : Spells text words) : Spells (c :: text) (.punct c :: words) :=
  have hclosed : (Word.punct c).isClosed = false → Ends text := fun h => by cases h
  h.word hclosed

theorem Writes.punct (c : Char) (h : Writes text words) : Writes (c :: text) (.punct c :: words) :=
  fun _ _ hends hrest => (h _ _ hends hrest).punct c

theorem Finishes.punct (c : Char) (h : Finishes text words) : Finishes (c :: text) (.punct c :: words) :=
  fun _ _ hrest => (h _ _ hrest).punct c

theorem Writes.space (h : Writes text words) : Writes (' ' :: text) words :=
  fun _ _ hends hrest => .gap (by decide) (h _ _ hends hrest)

theorem Writes.comma (h : Writes text words) : Writes (',' :: text) words :=
  fun _ _ hends hrest => .gap (by decide) (h _ _ hends hrest)

theorem Finishes.space (h : Finishes text words) : Finishes (' ' :: text) words :=
  fun _ _ hrest => .gap (by decide) (h _ _ hrest)

theorem Finishes.line (h : Finishes text words) : Finishes ('\n' :: text) words :=
  fun _ _ hrest => .gap (by decide) (h _ _ hrest)

theorem finishes_indentation (depth : Nat) : Finishes (indentation depth).toList [] := by
  rw [indentation, String.toList_ofList]
  induction depth with
  | zero => exact finishes_nil
  | succ depth ih => exact ih.space

theorem writes_name (name : String) : Writes name.toList [.name name] := writes_word (.name name)

/-- Texts with commas between them. -/
theorem writes_intercalate_cons {first : String} {texts : List String} (h : Writes first.toList words)
    (htexts : Writes (", ".intercalate texts).toList others) :
    Writes (", ".intercalate (first :: texts)).toList (words ++ others) := by
  cases texts with
  | nil =>
    have hnil : (", ".intercalate []).toList = [] := by simp
    rw [hnil] at htexts
    rw [String.intercalate_singleton, ← List.append_nil first.toList]
    exact h.append htexts ends_nil
  | cons second texts =>
    simp only [String.intercalate_cons_cons, String.toList_append, String.reduceToList, List.append_assoc,
      List.cons_append, List.nil_append]
    exact h.append htexts.space.comma (ends_cons rfl)

/-! ## Values and types -/

mutual

theorem writes_value (depth : Nat) : (value : Value) → Writes (printValue depth value).toList (value.words depth)
  | .variable name => by
    simp only [printValue, String.toList_append, String.reduceToList, List.cons_append, List.nil_append]
    exact (writes_name name).punct '$'
  | .int value => writes_word (.int value)
  | .float value => writes_word (.float value)
  | .string text => writes_word (.string depth text)
  | .boolean value => by
    cases value <;> exact writes_name _
  | .null => writes_name "null"
  | .enum name => writes_name name
  | .list items => by
    simp only [printValue, String.toList_append, String.reduceToList, List.cons_append, List.nil_append]
    exact ((writes_items depth items).append (writes_nil.punct ']') (ends_cons rfl)).punct '['
  | .object entries => by
    simp only [printValue, String.toList_append, String.reduceToList, List.cons_append, List.nil_append]
    exact ((writes_entries depth entries).append (writes_nil.punct '\x7d') (ends_cons rfl)).punct '\x7b'

theorem writes_items (depth : Nat) : (items : List Value) →
    Writes (", ".intercalate (printItems depth items)).toList (itemsWords depth items)
  | [] => writes_nil
  | item :: rest => writes_intercalate_cons (writes_value depth item) (writes_items depth rest)

theorem writes_entries (depth : Nat) : (entries : List (String × Value)) →
    Writes (", ".intercalate (printEntries depth entries)).toList (entriesWords depth entries)
  | [] => writes_nil
  | (key, value) :: rest => by
    have hentry : Writes (key ++ ": " ++ printValue depth value).toList
        (.name key :: .punct ':' :: value.words depth) := by
      simp only [String.toList_append, String.reduceToList, List.append_assoc, List.cons_append, List.nil_append]
      exact (writes_name key).append ((writes_value depth value).space.punct ':') (ends_cons rfl)
    exact writes_intercalate_cons hentry (writes_entries depth rest)

end

theorem writes_type (type : TypeRef) : Writes (printType type).toList type.words := by
  induction type with
  | named name => exact writes_name name
  | list inner ih =>
    simp only [printType, String.toList_append, String.reduceToList, List.cons_append, List.nil_append]
    exact (ih.append (writes_nil.punct ']') (ends_cons rfl)).punct '['
  | nonNull inner ih =>
    simp only [printType, String.toList_append, String.reduceToList]
    exact ih.append (writes_nil.punct '!') (ends_cons rfl)

/-! ## Directives and arguments -/

/-- Texts in parentheses, or none at all. -/
theorem writes_parenthesized {α : Type} {items : List α} {wordsOf : α → List Word} {inner : String}
    (h : Writes inner.toList (items.flatMap wordsOf)) :
    Writes (if items.isEmpty then "" else "(" ++ inner ++ ")").toList (bracketed '(' ')' wordsOf items) := by
  rw [bracketed]
  split
  · exact writes_nil
  · simp only [String.toList_append, String.reduceToList, List.cons_append, List.nil_append]
    exact (h.append (writes_nil.punct ')') (ends_cons rfl)).punct '('

theorem ends_parenthesized (nothing : Bool) (inner : String) :
    Ends (if nothing then "" else "(" ++ inner ++ ")").toList := by
  cases nothing with
  | true => exact ends_nil
  | false =>
    simp only [Bool.false_eq_true, if_false, String.toList_append, String.reduceToList, List.cons_append]
    exact ends_cons rfl

theorem writes_directive (depth : Nat) (directive : Directive) :
    Writes (printDirective depth directive).toList (directive.words depth) := by
  have harguments := writes_entries depth directive.arguments
  rw [entriesWords_eq] at harguments
  simp only [printDirective, String.toList_append, String.reduceToList, List.cons_append, List.nil_append]
  exact (((writes_name directive.name).append (writes_parenthesized harguments)
    (ends_parenthesized _ _)).punct '@').space

theorem ends_directives (depth : Nat) (directives : List Directive) :
    Ends (printDirectives depth directives).toList := by
  cases directives with
  | nil => exact ends_nil
  | cons directive directives =>
    simp only [printDirectives, List.map_cons, String.join_cons, printDirective, String.toList_append,
      String.reduceToList, List.cons_append]
    exact ends_cons rfl

theorem writes_directives (depth : Nat) (directives : List Directive) :
    Writes (printDirectives depth directives).toList (directivesWords depth directives) := by
  induction directives with
  | nil => exact writes_nil
  | cons directive directives ih =>
    have hends := ends_directives depth directives
    simp only [printDirectives, directivesWords] at ih hends ⊢
    simp only [List.map_cons, String.join_cons, String.toList_append, List.flatMap_cons]
    exact (writes_directive depth directive).append ih hends

theorem finishes_description (depth : Nat) (description : Option String) :
    Finishes (printDescription depth description).toList (descriptionWords depth description) := by
  cases description with
  | none => exact finishes_nil
  | some text =>
    simp only [printDescription, String.toList_append, String.reduceToList, List.append_assoc]
    exact (finishes_indentation depth).append ((writes_word (.string depth text)).finish
      finishes_nil.line (ends_cons rfl) (by simp))

theorem finishes_inlineDescription (depth : Nat) (description : Option String) :
    Finishes (printInlineDescription depth description).toList (descriptionWords depth description) := by
  cases description with
  | none => exact finishes_nil
  | some text =>
    simp only [printInlineDescription, String.toList_append, String.reduceToList]
    exact (writes_word (.string depth text)).finish finishes_nil.space (ends_cons rfl) (by simp)

/-- The text of a default value with the equals sign in front of it. -/
theorem writes_default (depth : Nat) (default : Option Value) :
    Writes (match default with
      | some value => " = " ++ printValue depth value
      | none => "").toList (defaultWords depth default) := by
  cases default with
  | none => exact writes_nil
  | some value =>
    simp only [String.toList_append, String.reduceToList, List.cons_append, List.nil_append]
    exact ((writes_value depth value).space.punct '=').space

theorem writes_inputValue (depth : Nat) (input : InputValue) :
    Writes (printInputValue depth input).toList (input.words depth) := by
  simp only [printInputValue, String.toList_append, String.reduceToList, List.append_assoc, List.cons_append,
    List.nil_append]
  refine (finishes_inlineDescription depth input.description).append_writes ((writes_name input.name).append
    (((writes_type input.type).append ((writes_default depth input.default).append
      (writes_directives depth input.directives) (ends_directives _ _)) ?_).space.punct ':') (ends_cons rfl))
  refine Ends.append ?_ (ends_directives _ _)
  cases input.default with
  | none => exact ends_nil
  | some value =>
    simp only [String.toList_append, String.reduceToList, List.cons_append]
    exact ends_cons rfl

/-! ## Parts of definitions -/

theorem writes_intercalate {α : Type} {print : α → String} {wordsOf : α → List Word} (items : List α)
    (h : ∀ item, Writes (print item).toList (wordsOf item)) :
    Writes (", ".intercalate (items.map print)).toList (items.flatMap wordsOf) := by
  induction items with
  | nil => exact writes_nil
  | cons item items ih => exact writes_intercalate_cons (h item) ih

theorem writes_arguments (depth : Nat) (arguments : List InputValue) :
    Writes (printArguments depth arguments).toList (argumentsWords depth arguments) :=
  writes_parenthesized (writes_intercalate arguments (writes_inputValue depth))

/-- Directives up to the end of their line. -/
theorem finishes_directives (depth : Nat) (directives : List Directive) :
    Finishes ((printDirectives depth directives).toList ++ ['\n']) (directivesWords depth directives) := by
  simpa using (writes_directives depth directives).finish finishes_nil.line (ends_cons rfl) (by simp)

theorem ends_directives_line (depth : Nat) (directives : List Directive) :
    Ends ((printDirectives depth directives).toList ++ ['\n']) :=
  (ends_directives depth directives).append (ends_cons rfl)

theorem finishes_field (depth : Nat) (field : Field) :
    Finishes (printField depth field).toList (field.words depth) := by
  have htype := (writes_type field.type).finish (finishes_directives depth field.directives)
    (ends_directives_line _ _) (by simp)
  have harguments := (writes_arguments depth field.arguments).finish (htype.space.punct ':') (ends_cons rfl)
    (by simp)
  have hname := (writes_name field.name).finish harguments
    ((ends_parenthesized _ _).append (ends_cons rfl)) (by simp)
  simp only [printField, String.toList_append, String.reduceToList, List.append_assoc, List.cons_append,
    List.nil_append]
  exact (finishes_description depth field.description).append ((finishes_indentation depth).append hname)

theorem finishes_enumValue (depth : Nat) (value : EnumValue) :
    Finishes (printEnumValue depth value).toList (value.words depth) := by
  have hname := (writes_name value.name).finish (finishes_directives depth value.directives)
    (ends_directives_line _ _) (by simp)
  simp only [printEnumValue, String.toList_append, String.reduceToList, List.append_assoc]
  exact (finishes_indentation depth).append ((finishes_inlineDescription depth value.description).append hname)

theorem finishes_inputField (depth : Nat) (field : InputValue) :
    Finishes (printInputField depth field).toList (field.words depth) := by
  have hfield := (writes_inputValue depth field).finish finishes_nil.line (ends_cons rfl) (by simp)
  rw [List.append_nil] at hfield
  simp only [printInputField, String.toList_append, String.reduceToList, List.append_assoc]
  exact (finishes_indentation depth).append hfield

theorem finishes_join {α : Type} {print : α → String} {wordsOf : α → List Word} (items : List α)
    (h : ∀ item, Finishes (print item).toList (wordsOf item)) :
    Finishes (String.join (items.map print)).toList (items.flatMap wordsOf) := by
  induction items with
  | nil => exact finishes_nil
  | cons item items ih =>
    simp only [List.map_cons, String.join_cons, String.toList_append, List.flatMap_cons]
    exact (h item).append ih

/-- Items in braces up to the end of the line of the last brace, or just a line end. -/
theorem finishes_block {α : Type} {print : Nat → α → String} {wordsOf : Nat → α → List Word} (items : List α)
    (h : ∀ item, Finishes (print indentStep item).toList (wordsOf indentStep item)) :
    Finishes (printBlock print items).toList (blockWords wordsOf items) := by
  rw [printBlock, blockWords, bracketed]
  split
  · exact finishes_nil.line
  · simp only [String.toList_append, String.reduceToList, List.cons_append, List.nil_append]
    exact (((finishes_join items h).append (finishes_nil.line.punct '\x7d')).line.punct '\x7b').space

theorem ends_block {α : Type} (print : Nat → α → String) (items : List α) :
    Ends (printBlock print items).toList ∧ (printBlock print items).toList ≠ [] := by
  rw [printBlock]
  split
  · exact ⟨ends_cons rfl, by simp⟩
  · simp only [String.toList_append, String.reduceToList, List.append_assoc, List.cons_append]
    exact ⟨ends_cons rfl, by simp⟩

theorem writes_moreNames (separator : Char) (text : String) (htext : text.toList = [' ', separator, ' '])
    (first : String) (rest : List String) :
    Writes (text.intercalate (first :: rest)).toList
      (.name first :: rest.flatMap fun name => [.punct separator, .name name]) := by
  induction rest generalizing first with
  | nil =>
    rw [String.intercalate_singleton]
    exact writes_name first
  | cons second rest ih =>
    simp only [String.intercalate_cons_cons, String.toList_append, htext, List.append_assoc, List.cons_append,
      List.nil_append, List.flatMap_cons]
    exact (writes_name first).append ((ih second).space.punct separator).space (ends_cons rfl)

theorem writes_interfaces (interfaces : List String) :
    Writes (printInterfaces interfaces).toList (interfacesWords interfaces) ∧
      Ends (printInterfaces interfaces).toList := by
  cases interfaces with
  | nil => exact ⟨writes_nil, ends_nil⟩
  | cons first rest =>
    have hnames := writes_moreNames '&' " & " rfl first rest
    simp only [printInterfaces, List.isEmpty_cons, Bool.false_eq_true, if_false, String.toList_append,
      String.reduceToList, List.cons_append, List.nil_append]
    refine ⟨?_, ends_cons rfl⟩
    exact ((writes_name "implements").append hnames.space (ends_cons rfl)).space

theorem finishes_members (members : List String) :
    Finishes ((printMembers members).toList ++ ['\n']) (membersWords members) ∧
      Ends ((printMembers members).toList ++ ['\n']) := by
  cases members with
  | nil => exact ⟨finishes_nil.line, ends_cons rfl⟩
  | cons first rest =>
    have hnames := (writes_moreNames '|' " | " rfl first rest).finish finishes_nil.line (ends_cons rfl) (by simp)
    rw [List.append_nil] at hnames
    simp only [printMembers, List.isEmpty_cons, Bool.false_eq_true, if_false, String.toList_append,
      String.reduceToList, List.cons_append, List.nil_append]
    exact ⟨(hnames.space.punct '=').space, ends_cons rfl⟩

/-! ## Definitions -/

theorem writes_header (keyword : String) (type : TypeDefinition) (interfaces : List String) :
    Writes (printHeader keyword type interfaces).toList (headerWords keyword type interfaces) := by
  obtain ⟨hinterfaces, hends⟩ := writes_interfaces interfaces
  have hdirectives := hinterfaces.append (writes_directives 0 type.directives) (ends_directives _ _)
  have hname := (writes_name type.name).append hdirectives (hends.append (ends_directives _ _))
  simp only [printHeader, String.toList_append, String.reduceToList, List.append_assoc, List.cons_append,
    List.nil_append]
  exact (writes_name keyword).append hname.space (ends_cons rfl)

theorem finishes_body (type : TypeDefinition) : Finishes (printBody type).toList (bodyWords type) := by
  -- four of the categories differ in nothing but keyword, interfaces and items
  have hblock (keyword : String) (interfaces : List String) {α : Type} {print : Nat → α → String}
      {wordsOf : Nat → α → List Word} (items : List α)
      (h : ∀ item, Finishes (print indentStep item).toList (wordsOf indentStep item)) :
      Finishes (printHeader keyword type interfaces ++ printBlock print items).toList
        (headerWords keyword type interfaces ++ blockWords wordsOf items) := by
    rw [String.toList_append]
    obtain ⟨hends, hne⟩ := ends_block print items
    exact (writes_header keyword type interfaces).finish (finishes_block items h) hends hne
  rw [printBody, bodyWords]
  cases type.body with
  | scalar =>
    simp only [String.toList_append, String.reduceToList]
    simpa using (writes_header "scalar" type []).finish finishes_nil.line (ends_cons rfl) (by simp)
  | object interfaces fields => exact hblock "type" interfaces fields (finishes_field indentStep)
  | interface interfaces fields => exact hblock "interface" interfaces fields (finishes_field indentStep)
  | union members =>
    obtain ⟨hmembers, hends⟩ := finishes_members members
    simp only [String.toList_append, String.reduceToList, List.append_assoc]
    exact (writes_header "union" type []).finish hmembers hends (by simp)
  | enum values => exact hblock "enum" [] values (finishes_enumValue indentStep)
  | inputObject fields => exact hblock "input" [] fields (finishes_inputField indentStep)

theorem finishes_type (type : TypeDefinition) : Finishes type.print.toList type.words := by
  rw [TypeDefinition.print, String.toList_append]
  exact (finishes_description 0 type.description).append (finishes_body type)

theorem finishes_root (schema : SchemaDefinition) (operation : Operation) :
    Finishes (printRoot schema operation).toList (rootWords schema operation) := by
  rw [printRoot, rootWords]
  cases schema.root operation with
  | none => exact finishes_nil
  | some name =>
    have hname := (writes_name name).finish finishes_nil.line (ends_cons rfl) (by simp)
    simp only [String.toList_append, String.reduceToList, List.append_assoc, List.cons_append, List.nil_append]
    exact (finishes_indentation indentStep).append ((writes_name operation.keyword).finish
      (hname.space.punct ':') (ends_cons rfl) (by simp))

theorem finishes_schema (schema : SchemaDefinition) : Finishes schema.print.toList schema.words := by
  -- from the back, since every text says what may come behind it
  have hroots := (finishes_join Operation.all (finishes_root schema)).append (finishes_nil.line.punct '\x7d')
  have hdirectives := (writes_directives 0 schema.directives).finish (hroots.line.punct '\x7b').space
    (ends_cons rfl) (by simp)
  simp only [SchemaDefinition.print, String.toList_append, String.reduceToList, List.append_assoc,
    List.cons_append, List.nil_append]
  exact (writes_name "schema").finish hdirectives ((ends_directives _ _).append (ends_cons rfl)) (by simp)

end SchemaFragments.Document
