import SchemaFragments.Proofs.Lexing
/-!
# Regular definitions

What the grammar makes sure of in the definitions it gives: names are names of the language, integers have
64 bits, variables stand in arguments of directives only, no modifier of a type is doubled, and with all
brackets of the definition no more are open than allowed. The words of a regular definition are well formed
and nest.
-/

namespace SchemaFragments.Document

/-! ## Values and types -/

mutual

/-- A value with some brackets open around it. -/
def Value.Regular (allowed : Bool) (depth : Nat) : Value → Prop
  | .variable name => allowed = true ∧ IsName name
  | .int value => leastInt ≤ value ∧ value ≤ greatestInt
  | .float _ | .string _ | .boolean _ | .null => True
  | .enum name => IsName name
  | .list items => depth < nestingLimit ∧ RegularItems allowed (depth + 1) items
  | .object entries => depth < nestingLimit ∧ RegularEntries allowed (depth + 1) entries

def RegularItems (allowed : Bool) (depth : Nat) : List Value → Prop
  | [] => True
  | item :: rest => item.Regular allowed depth ∧ RegularItems allowed depth rest

def RegularEntries (allowed : Bool) (depth : Nat) : List (String × Value) → Prop
  | [] => True
  | (key, value) :: rest => (IsName key ∧ value.Regular allowed depth) ∧ RegularEntries allowed depth rest

end

def RegularEntry (allowed : Bool) (depth : Nat) (entry : String × Value) : Prop :=
  IsName entry.1 ∧ entry.2.Regular allowed depth

theorem regularItems_iff {allowed : Bool} {depth : Nat} {items : List Value} :
    RegularItems allowed depth items ↔ ∀ item ∈ items, item.Regular allowed depth := by
  induction items with
  | nil => simp [RegularItems]
  | cons item items ih => simp [RegularItems, ih]

theorem regularEntries_iff {allowed : Bool} {depth : Nat} {entries : List (String × Value)} :
    RegularEntries allowed depth entries ↔ ∀ entry ∈ entries, RegularEntry allowed depth entry := by
  induction entries with
  | nil => simp [RegularEntries]
  | cons entry entries ih => simp [RegularEntries, RegularEntry, ih]

def TypeRef.isNonNull : TypeRef → Bool
  | .nonNull _ => true
  | .named _ | .list _ => false

def TypeRef.Regular (depth : Nat) : TypeRef → Prop
  | .named name => IsName name
  | .list inner => depth < nestingLimit ∧ inner.Regular (depth + 1)
  | .nonNull inner => inner.isNonNull = false ∧ inner.Regular depth

/-! ## Parts of definitions -/

structure Directive.Regular (depth : Nat) (directive : Directive) : Prop where
  name : IsName directive.name
  arguments : ∀ entry ∈ directive.arguments, RegularEntry true (depth + 1) entry

structure InputValue.Regular (depth : Nat) (input : InputValue) : Prop where
  name : IsName input.name
  type : input.type.Regular depth
  default : ∀ value ∈ input.default, value.Regular false depth
  directives : ∀ directive ∈ input.directives, directive.Regular depth

structure Field.Regular (depth : Nat) (field : Field) : Prop where
  name : IsName field.name
  arguments : ∀ input ∈ field.arguments, input.Regular (depth + 1)
  type : field.type.Regular depth
  directives : ∀ directive ∈ field.directives, directive.Regular depth

structure EnumValue.Regular (depth : Nat) (value : EnumValue) : Prop where
  name : IsName value.name
  directives : ∀ directive ∈ value.directives, directive.Regular depth

/-! ## Definitions -/

def TypeBody.Regular : TypeBody → Prop
  | .scalar => True
  | .object interfaces fields | .interface interfaces fields =>
    (∀ name ∈ interfaces, IsName name) ∧ ∀ field ∈ fields, field.Regular 1
  | .union members => ∀ name ∈ members, IsName name
  | .enum values => ∀ value ∈ values, value.Regular 1
  | .inputObject fields => ∀ field ∈ fields, field.Regular 1

structure TypeDefinition.Regular (type : TypeDefinition) : Prop where
  name : IsName type.name
  directives : ∀ directive ∈ type.directives, directive.Regular 0
  body : type.body.Regular

structure SchemaDefinition.Regular (schema : SchemaDefinition) : Prop where
  directives : ∀ directive ∈ schema.directives, directive.Regular 0
  roots : ∀ operation, ∀ name ∈ schema.root operation, IsName name

def Definition.Regular : Definition → Prop
  | .schema definition => definition.Regular
  | .type definition => definition.Regular
  | .extension _ | .directive _ => True

/-! ## Their words -/

/-- Words are well formed, and their brackets are closed again and not too many. -/
def Fits (depth : Nat) (words : List Word) : Prop :=
  (∀ word ∈ words, word.WellFormed) ∧ ∀ others, Nests depth others → Nests depth (words ++ others)

variable {depth : Nat} {words others : List Word}

theorem two_lt_nestingLimit : 2 < nestingLimit := Nat.le_of_ble_eq_true rfl

theorem one_lt_nestingLimit : 1 < nestingLimit := Nat.lt_of_succ_lt two_lt_nestingLimit

theorem zero_lt_nestingLimit : 0 < nestingLimit := Nat.lt_of_succ_lt one_lt_nestingLimit

theorem fits_nil : Fits depth [] := ⟨by simp, fun _ h => h⟩

theorem Fits.append (h : Fits depth words) (hothers : Fits depth others) : Fits depth (words ++ others) := by
  refine ⟨?_, fun rest hrest => ?_⟩
  · simp only [List.mem_append]
    rintro word (hw | hw)
    · exact h.1 word hw
    · exact hothers.1 word hw
  · rw [List.append_assoc]
    exact h.2 _ (hothers.2 _ hrest)

theorem fits_word (word : Word) (h : word.WellFormed) (hopen : word.openAfter depth = some depth) :
    Fits depth [word] :=
  ⟨by simpa using h, fun _ hrest => ⟨depth, hopen, hrest⟩⟩

theorem Fits.name {name : String} (h : IsName name) (hothers : Fits depth others) :
    Fits depth (.name name :: others) :=
  (fits_word (.name name) h rfl).append hothers

/-- A punctuator that is no bracket. -/
def isMark (c : Char) : Bool := isPunctuator c && !isOpening c && !isClosing c

theorem openAfter_of_isMark {c : Char} (h : isMark c = true) : openAfter depth c = some depth := by
  simp only [isMark, Bool.and_eq_true, Bool.not_eq_true'] at h
  simp [openAfter, h]

theorem Fits.mark {c : Char} (h : isMark c = true) (hothers : Fits depth others) :
    Fits depth (.punct c :: others) := by
  refine (fits_word (.punct c) ?_ (openAfter_of_isMark h)).append hothers
  simp only [isMark, Bool.and_eq_true] at h
  exact h.1.1

/-- An opening bracket and one that closes. -/
def isPair (opening closing : Char) : Bool := isOpening opening && isClosing closing && !isOpening closing

theorem Fits.brackets {opening closing : Char} (hpair : isPair opening closing = true)
    (hdepth : depth < nestingLimit) (h : Fits (depth + 1) words) :
    Fits depth (.punct opening :: (words ++ [.punct closing])) := by
  simp only [isPair, Bool.and_eq_true, Bool.not_eq_true'] at hpair
  obtain ⟨⟨hopening, hclosing⟩, hother⟩ := hpair
  refine ⟨?_, fun rest hrest => ?_⟩
  · simp only [List.mem_cons, List.mem_append, List.not_mem_nil, or_false]
    rintro word (rfl | hw | rfl)
    · simp [Word.WellFormed, isPunctuator, hopening]
    · exact h.1 word hw
    · simp [Word.WellFormed, isPunctuator, hclosing]
  · refine ⟨depth + 1, by simp [Word.openAfter, openAfter, hopening, hdepth], ?_⟩
    show Nests (depth + 1) (words ++ [.punct closing] ++ rest)
    rw [List.append_assoc]
    exact h.2 _ ⟨depth, by simp [Word.openAfter, openAfter, hclosing, hother], hrest⟩

theorem fits_flatMap {α : Type} {items : List α} {wordsOf : α → List Word}
    (h : ∀ item ∈ items, Fits depth (wordsOf item)) : Fits depth (items.flatMap wordsOf) := by
  induction items with
  | nil => exact fits_nil
  | cons item items ih =>
    obtain ⟨hitem, hitems⟩ := List.forall_mem_cons.1 h
    exact hitem.append (ih hitems)

theorem fits_bracketed {α : Type} {opening closing : Char} {items : List α} {wordsOf : α → List Word}
    (hpair : isPair opening closing = true) (hdepth : depth < nestingLimit)
    (h : ∀ item ∈ items, Fits (depth + 1) (wordsOf item)) :
    Fits depth (bracketed opening closing wordsOf items) := by
  rw [bracketed]
  split
  · exact fits_nil
  · exact (fits_flatMap h).brackets hpair hdepth

mutual

theorem Value.Regular.fits (indent : Nat) {allowed : Bool} {depth : Nat} :
    {value : Value} → value.Regular allowed depth → Fits depth (value.words indent)
  | .variable _, h => (fits_nil.name h.2).mark rfl
  | .int _, h => fits_word _ h rfl
  | .float _, _ => fits_word _ trivial rfl
  | .string _, _ => fits_word _ trivial rfl
  | .boolean value, _ => by
    cases value
    · exact fits_nil.name (isNameText_iff.1 rfl)
    · exact fits_nil.name (isNameText_iff.1 rfl)
  | .null, _ => fits_nil.name (isNameText_iff.1 rfl)
  | .enum _, h => fits_nil.name h
  | .list _, h => (fits_items indent h.2).brackets rfl h.1
  | .object _, h => (fits_entries indent h.2).brackets rfl h.1

theorem fits_items (indent : Nat) {allowed : Bool} {depth : Nat} :
    {items : List Value} → RegularItems allowed depth items → Fits depth (itemsWords indent items)
  | [], _ => fits_nil
  | _ :: _, h => (h.1.fits indent).append (fits_items indent h.2)

theorem fits_entries (indent : Nat) {allowed : Bool} {depth : Nat} :
    {entries : List (String × Value)} → RegularEntries allowed depth entries →
      Fits depth (entriesWords indent entries)
  | [], _ => fits_nil
  | (_, _) :: _, h => (((h.1.2.fits indent).append (fits_entries indent h.2)).mark rfl).name h.1.1

end

theorem RegularEntry.fits (indent : Nat) {allowed : Bool} {entry : String × Value}
    (h : RegularEntry allowed depth entry) : Fits depth (entryWords indent entry) :=
  ((h.2.fits indent).mark rfl).name h.1

theorem TypeRef.Regular.fits {type : TypeRef} (h : type.Regular depth) : Fits depth type.words := by
  induction type generalizing depth with
  | named name => exact fits_nil.name h
  | list inner ih => exact (ih h.2).brackets rfl h.1
  | nonNull inner ih => exact (ih h.2).append (fits_nil.mark rfl)

theorem Directive.Regular.fits (indent : Nat) {directive : Directive} (h : directive.Regular depth)
    (hdepth : depth < nestingLimit) : Fits depth (directive.words indent) :=
  ((fits_bracketed rfl hdepth fun entry he => (h.arguments entry he).fits indent).name h.name).mark rfl

theorem fits_directives (indent : Nat) {directives : List Directive} (hdepth : depth < nestingLimit)
    (h : ∀ directive ∈ directives, directive.Regular depth) : Fits depth (directivesWords indent directives) :=
  fits_flatMap fun directive hd => (h directive hd).fits indent hdepth

theorem fits_description (indent : Nat) (description : Option String) :
    Fits depth (descriptionWords indent description) := by
  cases description with
  | none => exact fits_nil
  | some text => exact fits_word _ trivial rfl

theorem InputValue.Regular.fits (indent : Nat) {input : InputValue} (h : input.Regular depth)
    (hdepth : depth < nestingLimit) : Fits depth (input.words indent) := by
  have hdefault : Fits depth (defaultWords indent input.default) := by
    cases hvalue : input.default with
    | none => exact fits_nil
    | some value => exact ((h.default value hvalue).fits indent).mark rfl
  exact (fits_description indent input.description).append (((h.type.fits.append
    (hdefault.append (fits_directives indent hdepth h.directives))).mark rfl).name h.name)

theorem Field.Regular.fits (indent : Nat) {field : Field} (h : field.Regular depth)
    (hdepth : depth + 1 < nestingLimit) : Fits depth (field.words indent) := by
  have harguments : Fits depth (argumentsWords indent field.arguments) :=
    fits_bracketed rfl (Nat.lt_of_succ_lt hdepth) fun input hi => (h.arguments input hi).fits indent hdepth
  exact (fits_description indent field.description).append ((harguments.append ((h.type.fits.append
    (fits_directives indent (Nat.lt_of_succ_lt hdepth) h.directives)).mark rfl)).name h.name)

theorem EnumValue.Regular.fits (indent : Nat) {value : EnumValue} (h : value.Regular depth)
    (hdepth : depth < nestingLimit) : Fits depth (value.words indent) :=
  (fits_description indent value.description).append ((fits_directives indent hdepth h.directives).name h.name)

theorem fits_block {α : Type} {wordsOf : Nat → α → List Word} {items : List α}
    (h : ∀ item ∈ items, Fits 1 (wordsOf indentStep item)) : Fits 0 (blockWords wordsOf items) :=
  fits_bracketed rfl zero_lt_nestingLimit h

theorem fits_separated {front : Word} {separator : Char} {names : List String} (hseparator : isMark separator = true)
    (hfront : Fits depth [front]) (h : ∀ name ∈ names, IsName name) :
    Fits depth (separatedWords front separator names) := by
  cases names with
  | nil => exact fits_nil
  | cons first rest =>
    obtain ⟨hfirst, hrest⟩ := List.forall_mem_cons.1 h
    exact hfront.append (.name hfirst (fits_flatMap fun name hn =>
      (fits_nil.name (hrest name hn)).mark hseparator))

theorem fits_header {keyword : String} {type : TypeDefinition} {interfaces : List String}
    (hkeyword : IsName keyword) (h : type.Regular) (hinterfaces : ∀ name ∈ interfaces, IsName name) :
    Fits 0 (headerWords keyword type interfaces) := by
  have himplements : IsName "implements" := isNameText_iff.1 rfl
  exact (((fits_separated rfl (fits_nil.name himplements) hinterfaces).append
    (fits_directives 0 zero_lt_nestingLimit h.directives)).name h.name).name hkeyword

theorem TypeDefinition.Regular.fits {type : TypeDefinition} (h : type.Regular) : Fits 0 type.words := by
  refine (fits_description 0 type.description).append ?_
  have hbody := h.body
  rw [bodyWords]
  cases hb : type.body with
  | scalar => exact fits_header (isNameText_iff.1 rfl) h (by simp)
  | object interfaces fields =>
    rw [hb] at hbody
    exact (fits_header (isNameText_iff.1 rfl) h hbody.1).append
      (fits_block fun field hf => (hbody.2 field hf).fits _ two_lt_nestingLimit)
  | interface interfaces fields =>
    rw [hb] at hbody
    exact (fits_header (isNameText_iff.1 rfl) h hbody.1).append
      (fits_block fun field hf => (hbody.2 field hf).fits _ two_lt_nestingLimit)
  | union members =>
    rw [hb] at hbody
    exact (fits_header (isNameText_iff.1 rfl) h (by simp)).append
      (fits_separated rfl (fits_nil.mark rfl) hbody)
  | enum values =>
    rw [hb] at hbody
    exact (fits_header (isNameText_iff.1 rfl) h (by simp)).append
      (fits_block fun value hv => (hbody value hv).fits _ one_lt_nestingLimit)
  | inputObject fields =>
    rw [hb] at hbody
    exact (fits_header (isNameText_iff.1 rfl) h (by simp)).append
      (fits_block fun field hf => (hbody field hf).fits _ one_lt_nestingLimit)

theorem isName_keyword (operation : Operation) : IsName operation.keyword := by
  cases operation
  · exact isNameText_iff.1 rfl
  · exact isNameText_iff.1 rfl
  · exact isNameText_iff.1 rfl

theorem SchemaDefinition.Regular.fits {schema : SchemaDefinition} (h : schema.Regular) : Fits 0 schema.words := by
  have hroots : Fits 1 (Operation.all.flatMap (rootWords schema)) := by
    refine fits_flatMap fun operation _ => ?_
    rw [rootWords]
    cases hroot : schema.root operation with
    | none => exact fits_nil
    | some name => exact ((fits_nil.name (h.roots operation name hroot)).mark rfl).name (isName_keyword operation)
  exact ((fits_directives 0 zero_lt_nestingLimit h.directives).append (hroots.brackets rfl zero_lt_nestingLimit)).name
    (isNameText_iff.1 rfl)

theorem Definition.Regular.fits {definition : Definition} (h : definition.Regular) : Fits 0 definition.words := by
  cases definition with
  | schema definition => exact SchemaDefinition.Regular.fits h
  | type definition => exact TypeDefinition.Regular.fits h
  | extension | directive => exact fits_nil

end SchemaFragments.Document
