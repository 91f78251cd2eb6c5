import SchemaFragments.Import.Selected
import SchemaFragments.Proofs.BlockStrings
import SchemaFragments.Proofs.Literals
import SchemaFragments.Proofs.Readers
import SchemaFragments.Proofs.Regular
/-!
# Reading printed definitions

The grammar takes the tokens of a printed definition as what was printed: if it is regular and its words
have values, a definition is read that differs in nothing but positions, descriptions, directives and
default values.
-/

namespace SchemaFragments.Document

open SchemaFragments.Document.Parser Number

/-! ## What is kept -/

/-- An input value without all that reading its text again may change. -/
def InputValue.bare (input : InputValue) : InputValue := ⟨none, input.name, input.type, none, []⟩

def Field.bare (field : Field) : Field :=
  ⟨none, field.name, field.arguments.map InputValue.bare, field.type, []⟩

def EnumValue.bare (value : EnumValue) : EnumValue := ⟨none, value.name, []⟩

def TypeBody.bare : TypeBody → TypeBody
  | .scalar => .scalar
  | .object interfaces fields => .object interfaces (fields.map Field.bare)
  | .interface interfaces fields => .interface interfaces (fields.map Field.bare)
  | .union members => .union members
  | .enum values => .enum (values.map EnumValue.bare)
  | .inputObject fields => .inputObject (fields.map InputValue.bare)

def TypeDefinition.bare (type : TypeDefinition) : TypeDefinition := ⟨⟨0, 0⟩, none, type.name, [], type.body.bare⟩

def SchemaDefinition.bare (schema : SchemaDefinition) : SchemaDefinition :=
  ⟨⟨0, 0⟩, [], schema.query, schema.mutation, schema.subscription⟩

/-- A combined definition without positions, descriptions, directives and default values. -/
def Definition.bare : Definition → Definition
  | .schema definition => .schema definition.bare
  | .type definition => .type definition.bare
  | definition => definition

/-! ## Values -/

section Values

variable {avoid : Token → Bool}

theorem reads_stringText {depth : Nat} {text : String} (h : (Word.string depth text).HasValue)
    (position : Position) :
    Reads nothing [] (stringText ((Word.string depth text).token position)) fun _ => True := by
  have htext : String.ofList (Word.string depth text).text = printString depth text := String.ofList_toList
  simp only [stringText, Word.token, Word.kind, htext]
  cases hblock : fitsBlock text.toList with
  | true =>
    obtain ⟨decoded, hdecoded⟩ :=
      Option.isSome_iff_exists.1 ((isSome_decodeBlockString_blockText depth text).2 (h hblock))
    simp only [if_true, innerText_block hblock, hdecoded]
    exact reads_pure trivial
  | false =>
    obtain ⟨decoded, hdecoded⟩ := decodes_escaped text.toList
    simp only [Bool.false_eq_true, if_false, reduceCtorEq, innerText_quoted hblock, hdecoded]
    exact reads_pure trivial

theorem isString_token (depth : Nat) (text : String) (position : Position) :
    isString ((Word.string depth text).token position) = true := by
  simp only [isString, Word.token, Word.kind]
  split <;> rfl

theorem reads_string {depth : Nat} {text : String} (h : (Word.string depth text).HasValue) :
    Reads nothing [.string depth text] string fun _ => True := by
  refine Reads.next (reads_token (isString_token depth text)) fun token his => ?_
  obtain ⟨position, rfl⟩ := his
  exact reads_stringText h position

theorem reads_description (depth : Nat) (description : Option String)
    (h : ∀ word ∈ descriptionWords depth description, word.HasValue) :
    Reads isString (descriptionWords depth description) Document.description fun _ => True := by
  cases description with
  | none => exact (reads_nothing _).mono fun _ _ => trivial
  | some text =>
    have hvalue := reads_string (h _ (List.mem_singleton.2 rfl))
    exact ((reads_perhaps _ ⟨_, _, rfl, isString_token depth text⟩ hvalue).weaken (by simp [nothing])).mono
      fun _ _ => trivial

theorem reads_intValue (word : Word) {n : Int} (h : WritesInteger word.text n)
    (hbounds : leastInt ≤ n ∧ n ≤ greatestInt) (position : Position) :
    Reads nothing [] (intValue (word.token position)) fun _ => True := by
  have hnumber : integerOfText (word.token position).text.toList = n := by
    rw [Word.token, String.toList_ofList, integerOfText_eq h]
  simp only [intValue, hnumber]
  rw [if_neg (by omega), if_neg (by omega)]
  exact reads_pure trivial

theorem reads_floatValue (word : Word) (h : (readBinary64 word.text).isSome = true) (position : Position) :
    Reads nothing [] (floatValue (word.token position)) fun _ => True := by
  obtain ⟨value, hvalue⟩ := Option.isSome_iff_exists.1 h
  simp only [floatValue, Word.token, String.toList_ofList, hvalue]
  exact reads_pure trivial

theorem isLeaf_token {word : Word} (h : word.isClosed = false) (position : Position) :
    isLeaf (word.token position) = true := by
  rw [isLeaf, bne_iff_ne]
  intro hkind
  obtain ⟨c, rfl⟩ := Word.kind_eq_punctuator hkind
  cases h

/-- A value that is a single word. -/
theorem reads_leaf {word : Word} (hform : word.WellFormed) (hvalue : word.HasValue)
    (hopen : word.isClosed = false) : Reads nothing [word] leafValue fun _ => True := by
  refine Reads.next (reads_token (isLeaf_token hopen)) fun token his => ?_
  obtain ⟨position, rfl⟩ := his
  cases word with
  | punct c => cases hopen
  | name text => exact reads_pure trivial
  | int n => exact reads_intValue (.int n) (writesInteger_toString n) hform position
  | float value =>
    cases value with
    | infinite negative => exact reads_pure trivial
    | finite negative mantissa exponent =>
      cases hwhole : writtenWhole? (.finite negative mantissa exponent) with
      | some n =>
        -- written without a point, so the token is one of an integer
        have hkind : ((Word.float (.finite negative mantissa exponent)).token position).kind = .int := by
          simp [Word.token, Word.kind, Binary64.isFinite, hwhole]
        simp only [hkind]
        exact reads_intValue (.float (.finite negative mantissa exponent)) (writesInteger_float hwhole)
          (hvalue n hwhole) position
      | none =>
        have hkind : ((Word.float (.finite negative mantissa exponent)).token position).kind = .float := by
          simp [Word.token, Word.kind, Binary64.isFinite, hwhole]
        obtain ⟨whole, fraction, hnumeral, -, hdigits, htext⟩ := write_point hwhole
        simp only [hkind]
        refine reads_floatValue (.float (.finite negative mantissa exponent)) ?_ position
        rw [Word.text, htext]
        exact readBinary64_point negative hnumeral hdigits
  | string depth text =>
    have hstring : Reads nothing [] (do
        return Value.string (← stringText ((Word.string depth text).token position))) fun _ => True :=
      (reads_stringText hvalue position).end fun _ _ => trivial
    cases hblock : fitsBlock text.toList with
    | true =>
      have hkind : ((Word.string depth text).token position).kind = .blockString := by
        simp [Word.token, Word.kind, hblock]
      simp only [hkind]
      exact hstring
    | false =>
      have hkind : ((Word.string depth text).token position).kind = .string := by
        simp [Word.token, Word.kind, hblock]
      simp only [hkind]
      exact hstring

theorem startsValue_token {word : Word} {allowed : Bool} (h : word.isClosed = false) (position : Position) :
    startsValue allowed (word.token position) = true := by
  simp [startsValue, isLeaf_token h position]

theorem begins_value {allowed : Bool} {depth : Nat} (indent : Nat) :
    {value : Value} → value.Regular allowed depth → Begins (startsValue allowed) true (value.words indent)
  | .variable _, h => ⟨_, _, rfl, fun _ => by rw [h.1]; rfl⟩
  | .list _, _ | .object _, _ => ⟨_, _, rfl, fun _ => by cases allowed <;> rfl⟩
  | .int _, _ | .float _, _ | .string _, _ | .boolean _, _ | .null, _ | .enum _, _ =>
    ⟨_, _, rfl, startsValue_token rfl⟩

theorem reads_value_leaf {word : Word} {allowed : Bool} {fuel : Nat} (hform : word.WellFormed)
    (hvalue : word.HasValue) (hopen : word.isClosed = false) :
    Reads nothing [word] (value allowed (fuel + 1)) fun _ => True := by
  have hclear (text : String) : Clear (isPunct text) nothing [word] := by
    refine Begins.clear ⟨_, _, rfl, fun position => ?_⟩
    have hleaf := isLeaf_token hopen position
    simp only [isLeaf, bne_iff_ne] at hleaf
    simp [isPunct, hleaf]
  refine reads_at_false (hclear "[") (reads_at_false (hclear "\x7b") (reads_at_false (hclear "$") ?_))
  simp only [Bool.and_false, Bool.false_eq_true, if_false]
  exact reads_leaf hform hvalue hopen

mutual

/-- A value is read where enough brackets may still be open for all of it. -/
theorem reads_value (indent fuel : Nat) {allowed : Bool} {depth : Nat} (hdepth : depth ≤ nestingLimit)
    (hfuel : nestingLimit < fuel + depth) : {value : Value} → value.Regular allowed depth →
      (∀ word ∈ value.words indent, word.HasValue) →
      Reads nothing (value.words indent) (Document.value allowed fuel) fun _ => True := by
  -- fuel is left at every depth that a regular value can have
  obtain ⟨fuel, rfl⟩ : ∃ n, fuel = n + 1 := ⟨fuel - 1, by omega⟩
  intro value h hvalues
  match value, h with
  | .variable name, h =>
    obtain ⟨rfl, -⟩ := h
    refine reads_at_false (Begins.clear ⟨_, _, rfl, fun _ => rfl⟩) (reads_at_false
      (Begins.clear ⟨_, _, rfl, fun _ => rfl⟩) (reads_at_true ⟨_, _, rfl, fun _ => rfl⟩ ?_))
    exact Reads.next (reads_punct rfl) fun _ _ => (reads_name name).end fun _ _ => trivial
  | .list items, h =>
    have hitems := reads_items indent fuel h.1 (by omega) h.2 fun word hw =>
      hvalues word (by simp [Value.words, hw])
    have hbegins := fun item hi => begins_value indent (regularItems_iff.1 h.2 item hi)
    have hmany := reads_many _ hitems hbegins fun item hi => (hbegins item hi).nothing
    rw [Value.words, itemsWords_eq]
    refine reads_at_true ⟨_, _, rfl, fun _ => rfl⟩ (Reads.next (reads_punct rfl) fun _ _ => hmany.bind (fun _ _ =>
      Reads.next (reads_punct rfl) fun _ _ => reads_pure trivial) (Begins.clear ⟨_, _, rfl, fun _ => ?_⟩))
    cases allowed <;> rfl
  | .object entries, h =>
    have hentries := reads_entries indent fuel h.1 (by omega) h.2 fun word hw =>
      hvalues word (by simp [Value.words, hw])
    have hmany := reads_many isName hentries (fun entry _ => ⟨_, _, rfl, fun _ => rfl⟩)
      fun entry _ => ⟨_, _, rfl, fun _ => rfl⟩
    rw [Value.words, entriesWords_eq]
    exact reads_at_false (Begins.clear ⟨_, _, rfl, fun _ => rfl⟩) (reads_at_true ⟨_, _, rfl, fun _ => rfl⟩
      (Reads.next (reads_punct rfl) fun _ _ => hmany.bind
        (fun _ _ => Reads.next (reads_punct rfl) fun _ _ => reads_pure trivial)
        (Begins.clear ⟨_, _, rfl, fun _ => rfl⟩)))
  | .int _, h | .float _, h | .string _, h | .boolean _, h | .null, h | .enum _, h =>
    exact reads_value_leaf ((h.fits indent).1 _ (List.mem_singleton.2 rfl))
      (hvalues _ (List.mem_singleton.2 rfl)) rfl

theorem reads_items (indent fuel : Nat) {allowed : Bool} {depth : Nat} (hdepth : depth < nestingLimit)
    (hfuel : nestingLimit < fuel + (depth + 1)) : {items : List Value} → RegularItems allowed (depth + 1) items →
      (∀ word ∈ itemsWords indent items, word.HasValue) →
      ∀ item ∈ items, Reads nothing (item.words indent) (Document.value allowed fuel) fun _ => True
  | [], _, _ => by simp
  | item :: rest, h, hvalues => by
    simp only [itemsWords, List.mem_append] at hvalues
    exact List.forall_mem_cons.2 ⟨reads_value indent fuel hdepth hfuel h.1 fun word hw => hvalues word (.inl hw),
      reads_items indent fuel hdepth hfuel h.2 fun word hw => hvalues word (.inr hw)⟩

theorem reads_entries (indent fuel : Nat) {allowed : Bool} {depth : Nat} (hdepth : depth < nestingLimit)
    (hfuel : nestingLimit < fuel + (depth + 1)) :
    {entries : List (String × Value)} → RegularEntries allowed (depth + 1) entries →
      (∀ word ∈ entriesWords indent entries, word.HasValue) →
      ∀ entry ∈ entries, Reads nothing (entryWords indent entry) (do
        let key ← name
        punct ":"
        return (key, ← Document.value allowed fuel)) fun _ => True
  | [], _, _ => by simp
  | (key, value) :: rest, h, hvalues => by
    simp only [entriesWords, List.mem_cons, List.mem_append] at hvalues
    have hvalue := reads_value indent fuel hdepth hfuel h.1.2 fun word hw => hvalues word (.inr (.inr (.inl hw)))
    refine List.forall_mem_cons.2 ⟨?_, reads_entries indent fuel hdepth hfuel h.2 fun word hw =>
      hvalues word (.inr (.inr (.inr hw)))⟩
    exact (reads_name key).next fun _ _ => Reads.next (reads_punct rfl) fun _ _ => hvalue.end fun _ _ => trivial

end

end Values

/-! ## Types and directives -/

/-- A type in front of the mark that makes it non-null. -/
def unmarkedType (depth : Nat) : Parser TypeRef := do
  if ← atToken (isPunct "[") then
    punct "["
    let inner ← typeRef depth
    punct "]"
    return .list inner
  else return .named (← name)

variable {depth fuel : Nat} {type : TypeRef}

theorem reads_unmarked {words : List Word} (h : Reads nothing words (unmarkedType fuel) (· = type)) :
    Reads (isPunct "!") words (typeRef (fuel + 1)) (· = type) := by
  rw [← List.append_nil words]
  refine h.bind (fun inner hinner => (reads_nothing _).skip (fun marked hmarked => ?_) (clear_nil fun _ => id))
    clear_nothing
  rw [hmarked]
  exact reads_pure hinner

theorem reads_marked {words : List Word} (h : Reads nothing words (unmarkedType fuel) (· = type)) :
    Reads nothing (words ++ [.punct '!']) (typeRef (fuel + 1)) (· = .nonNull type) := by
  refine h.bind (fun inner hinner => ?_) clear_nothing
  have hmark := reads_perhaps (isPunct "!") ⟨_, _, rfl, fun _ => rfl⟩
    (reads_punct rfl : Reads nothing [.punct '!'] (punct "!") fun _ => True)
  refine hmark.next fun marked hmarked => ?_
  obtain ⟨_, rfl, -⟩ := hmarked
  exact reads_pure (congrArg TypeRef.nonNull hinner)

/-- A type without a mark and one with it. -/
theorem reads_type_or_unmarked (fuel : Nat) (hdepth : depth ≤ nestingLimit) (hfuel : nestingLimit < fuel + 1 + depth)
    (h : type.Regular depth) :
    Reads (isPunct "!") type.words (typeRef (fuel + 1)) (· = type) ∧
      (type.isNonNull = false → Reads nothing type.words (unmarkedType fuel) (· = type)) := by
  induction type generalizing depth fuel with
  | named name =>
    have hname : Reads nothing [.name name] (unmarkedType fuel) (· = .named name) :=
      reads_at_false (Begins.clear ⟨_, _, rfl, fun _ => rfl⟩) ((reads_name name).end fun _ hn => congrArg _ hn)
    exact ⟨reads_unmarked hname, fun _ => hname⟩
  | list inner ih =>
    obtain ⟨fuel, rfl⟩ : ∃ n, fuel = n + 1 := ⟨fuel - 1, by have := h.1; omega⟩
    have hinner : Reads (isPunct "!") inner.words (typeRef (fuel + 1)) (· = inner) :=
      (ih fuel (Nat.succ_le_of_lt h.1) (by omega) h.2).1
    have hlist : Reads nothing (TypeRef.list inner).words (unmarkedType (fuel + 1)) (· = .list inner) := by
      refine reads_at_true ⟨_, _, rfl, fun _ => rfl⟩ (Reads.next (reads_punct rfl) fun _ _ => hinner.bind
        (fun type htype => Reads.next (reads_punct rfl) fun _ _ => reads_pure (congrArg _ htype))
        (Begins.clear ⟨_, _, rfl, fun _ => rfl⟩))
    exact ⟨reads_unmarked hlist, fun _ => hlist⟩
  | nonNull inner ih =>
    have hinner := (ih fuel hdepth hfuel h.2).2 h.1
    exact ⟨(reads_marked hinner).weaken (by simp [nothing]), fun hnot => by cases hnot⟩

theorem reads_type (hdepth : depth < nestingLimit) (hpositive : 0 < depth) (h : type.Regular depth) :
    Reads (isPunct "!") type.words (typeRef nestingLimit) (· = type) := by
  obtain ⟨fuel, hfuel⟩ := Nat.exists_eq_succ_of_ne_zero zero_lt_nestingLimit.ne'
  rw [hfuel]
  exact (reads_type_or_unmarked fuel (by omega) (by omega) h).1

section Parts

variable {depth : Nat} (indent : Nat)

theorem reads_directiveUse {directive : Directive} (h : directive.Regular depth) (hdepth : depth < nestingLimit)
    (hvalues : ∀ word ∈ directive.words indent, word.HasValue) :
    Reads (isPunct "(") (directive.words indent) directiveUse fun _ => True := by
  have hentries := reads_entries indent nestingLimit hdepth (Nat.lt_add_of_pos_right (Nat.succ_pos depth))
    (regularEntries_iff.2 h.arguments) fun word hw => by
      rw [entriesWords_eq, List.mem_flatMap] at hw
      obtain ⟨entry, hentry, hword⟩ := hw
      exact hvalues word (.tail _ (.tail _ (mem_bracketed hentry hword)))
  have harguments := reads_bracketed isName '(' ')' rfl rfl hentries
    (fun entry _ => ⟨_, _, rfl, fun _ => rfl⟩) (fun entry _ => ⟨_, _, rfl, fun _ => rfl⟩) fun _ => rfl
  exact Reads.next (reads_punct rfl) fun _ _ => (reads_name directive.name).next fun _ _ =>
    harguments.end fun _ _ => trivial

theorem reads_directives {directives : List Directive} (hdepth : depth < nestingLimit)
    (h : ∀ directive ∈ directives, directive.Regular depth)
    (hvalues : ∀ word ∈ directivesWords indent directives, word.HasValue) :
    Reads (fun token => isPunct "@" token || isPunct "(" token) (directivesWords indent directives)
      Document.directives fun _ => True := by
  refine (reads_many _ (R := fun _ _ => True) (fun directive hd => ?_) (fun directive _ => ⟨_, _, rfl, fun _ => rfl⟩)
    (fun directive _ => ⟨_, _, rfl, fun _ => rfl⟩)).mono fun _ _ => trivial
  exact reads_directiveUse indent (h directive hd) hdepth fun word hw =>
    hvalues word (List.mem_flatMap.2 ⟨directive, hd, hw⟩)

theorem clear_directives {avoid after : Token → Bool} {directives : List Directive}
    (h : ∀ position, avoid ((Word.punct '@').token position) = false)
    (hafter : ∀ token, avoid token = true → after token = true) :
    Clear avoid after (directivesWords indent directives) :=
  clear_flatMap (fun _ _ => ⟨_, _, rfl, h⟩) hafter

/-! ## Input values and fields -/

/-- What could go on with a part of a definition after its type or its directives. -/
def joins (token : Token) : Bool :=
  isPunct "!" token || isPunct "=" token || isPunct "@" token || isPunct "(" token

theorem reads_directives_of_part {directives : List Directive} (hdepth : depth < nestingLimit)
    (h : ∀ directive ∈ directives, directive.Regular depth)
    (hvalues : ∀ word ∈ directivesWords indent directives, word.HasValue) :
    Reads joins (directivesWords indent directives) Document.directives fun _ => True :=
  (reads_directives indent hdepth h hvalues).weaken (by simp +contextual [joins, or_imp])

theorem reads_default {default : Option Value} (hdepth : depth < nestingLimit) (hpositive : 0 < depth)
    (h : ∀ value ∈ default, value.Regular false depth)
    (hvalues : ∀ word ∈ defaultWords indent default, word.HasValue) :
    Reads (isPunct "=") (defaultWords indent default) (perhaps (isPunct "=") (do
      punct "="
      value false nestingLimit)) fun _ => True := by
  cases default with
  | none => exact (reads_nothing _).mono fun _ _ => trivial
  | some value =>
    have hvalue := reads_value indent nestingLimit (Nat.le_of_lt hdepth) (by omega) (h value rfl)
      fun word hw => hvalues word (.tail _ hw)
    refine ((reads_perhaps _ ⟨_, _, rfl, fun _ => rfl⟩ (Reads.next (reads_punct rfl) fun _ _ => hvalue)).weaken
      (by simp [nothing])).mono fun _ _ => trivial

theorem reads_inputValue {input : InputValue} (hdepth : depth < nestingLimit) (hpositive : 0 < depth)
    (h : input.Regular depth) (hvalues : ∀ word ∈ input.words indent, word.HasValue) :
    Reads joins (input.words indent) inputValue fun value => value.bare = input.bare := by
  simp only [InputValue.words, List.mem_append, List.mem_cons] at hvalues
  have hdescription := reads_description indent input.description
    fun word hw => hvalues word (.inl hw)
  have hdefault := reads_default indent hdepth hpositive h.default
    fun word hw => hvalues word (.inr (.inr (.inr (.inr (.inl hw)))))
  have hdirectives := reads_directives_of_part indent hdepth h.directives
    fun word hw => hvalues word (.inr (.inr (.inr (.inr (.inr hw)))))
  refine hdescription.bind (fun _ _ => (reads_name input.name).next fun called hcalled =>
    Reads.next (reads_punct rfl) fun _ _ => (reads_type hdepth hpositive h.type).bind (fun type htype =>
      hdefault.bind (fun default _ => hdirectives.end fun directives _ => ?_) ?_) ?_)
    (Begins.clear ⟨_, _, rfl, fun _ => rfl⟩)
  · rw [InputValue.bare, InputValue.bare, hcalled, htype]
  · exact clear_directives indent (fun _ => rfl) (by simp +contextual [joins])
  · refine Clear.append ?_ (clear_directives indent (fun _ => rfl) (by simp +contextual [joins]))
    cases input.default with
    | none => exact clear_nil fun _ => id
    | some value => exact Begins.clear ⟨_, _, rfl, fun _ => rfl⟩

/-- What has a description starts with it, or with its name. -/
theorem begins_described {accepts : Token → Bool} {answer : Bool} (description : Option String) (name : String)
    (words : List Word) (hstring : ∀ text position, accepts ((Word.string indent text).token position) = answer)
    (hname : ∀ position, accepts ((Word.name name).token position) = answer) :
    Begins accepts answer (descriptionWords indent description ++ .name name :: words) := by
  cases description with
  | none => exact ⟨_, _, rfl, hname⟩
  | some text => exact ⟨_, _, rfl, hstring text⟩

theorem isPunct_string (mark text : String) (position : Position) :
    isPunct mark ((Word.string indent text).token position) = false := by
  have hopen : (Word.string indent text).isClosed = false := rfl
  have hleaf := isLeaf_token hopen position
  rw [isLeaf, bne_iff_ne] at hleaf
  simp [isPunct, hleaf]

theorem startsDescribed_string (text : String) (position : Position) :
    startsDescribed ((Word.string indent text).token position) = true := by
  simp [startsDescribed, isString_token]

theorem joins_string (text : String) (position : Position) :
    joins ((Word.string indent text).token position) = false := by
  simp [joins, isPunct_string]

theorem map_bare_eq {α : Type} {bare : α → α} {items values : List α}
    (h : List.Forall₂ (fun item value => bare value = bare item) items values) :
    values.map bare = items.map bare := by
  induction h with
  | nil => rfl
  | cons hbare _ ih => rw [List.map_cons, List.map_cons, hbare, ih]

theorem reads_arguments {arguments : List InputValue} (hdepth : depth + 1 < nestingLimit)
    (h : ∀ input ∈ arguments, input.Regular (depth + 1))
    (hvalues : ∀ word ∈ argumentsWords indent arguments, word.HasValue) :
    Reads (isPunct "(") (argumentsWords indent arguments) Document.arguments
      fun values => values.map InputValue.bare = arguments.map InputValue.bare := by
  refine (reads_bracketed startsDescribed _ _ rfl rfl (fun input hi => reads_inputValue indent hdepth
    (Nat.succ_pos depth) (h input hi) fun word hw => hvalues word (mem_bracketed hi hw))
    (fun input _ => begins_described indent _ _ _ (startsDescribed_string indent) fun _ => rfl)
    (fun input _ => begins_described indent _ _ _ (joins_string indent) fun _ => rfl) fun _ => rfl).end
      fun found hfound => map_bare_eq hfound

theorem reads_field {field : Field} (hdepth : depth + 1 < nestingLimit) (hpositive : 0 < depth)
    (h : field.Regular depth) (hvalues : ∀ word ∈ field.words indent, word.HasValue) :
    Reads joins (field.words indent) Document.field fun value => value.bare = field.bare := by
  simp only [Field.words, List.mem_append, List.mem_cons] at hvalues
  have hdescription := reads_description indent field.description
    fun word hw => hvalues word (.inl hw)
  have harguments := reads_arguments indent hdepth h.arguments
    fun word hw => hvalues word (.inr (.inr (.inl hw)))
  have hdirectives := reads_directives_of_part indent (Nat.lt_of_succ_lt hdepth) h.directives
    fun word hw => hvalues word (.inr (.inr (.inr (.inr (.inr hw)))))
  refine hdescription.bind (fun _ _ => (reads_name field.name).next fun called hcalled =>
    harguments.bind (fun arguments harguments => Reads.next (reads_punct rfl) fun _ _ =>
      (reads_type (Nat.lt_of_succ_lt hdepth) hpositive h.type).bind (fun type htype =>
        hdirectives.end fun directives _ => ?_)
        (clear_directives indent (fun _ => rfl) (by simp +contextual [joins])))
      (Begins.clear ⟨_, _, rfl, fun _ => rfl⟩)) (Begins.clear ⟨_, _, rfl, fun _ => rfl⟩)
  rw [Field.bare, Field.bare, hcalled, htype, harguments]

theorem reads_enumValue {value : EnumValue} (hdepth : depth < nestingLimit) (h : value.Regular depth)
    (hvalues : ∀ word ∈ value.words indent, word.HasValue) :
    Reads joins (value.words indent) enumValue fun read => read.bare = value.bare := by
  simp only [EnumValue.words, List.mem_append, List.mem_cons] at hvalues
  have hdescription := reads_description indent value.description
    fun word hw => hvalues word (.inl hw)
  have hdirectives := reads_directives_of_part indent hdepth h.directives fun word hw => hvalues word (.inr (.inr hw))
  refine hdescription.bind (fun _ _ => (reads_name value.name).next fun called hcalled =>
    hdirectives.end fun directives _ => ?_) (Begins.clear ⟨_, _, rfl, fun _ => rfl⟩)
  rw [EnumValue.bare, EnumValue.bare, hcalled]

/-! ## Definitions -/

theorem reads_block {α : Type} {item : Parser α} {items : List α} {wordsOf : Nat → α → List Word} {bare : α → α}
    (hitem : ∀ x ∈ items, Reads joins (wordsOf indentStep x) item fun value => bare value = bare x)
    (hstarts : ∀ x ∈ items, Begins startsDescribed true (wordsOf indentStep x))
    (hinner : ∀ x ∈ items, Begins joins false (wordsOf indentStep x)) :
    Reads (isPunct "\x7b") (blockWords wordsOf items) (block item)
      fun values => values.map bare = items.map bare :=
  (reads_bracketed _ _ _ rfl rfl hitem hstarts hinner fun _ => rfl).end fun _ hfound => map_bare_eq hfound

theorem reads_interfaces (interfaces : List String) :
    Reads (fun token => isKeyword "implements" token || isPunct "&" token) (interfacesWords interfaces)
      Document.interfaces (· = interfaces) := by
  cases interfaces with
  | nil =>
    refine Reads.end (P := (· = none)) ((reads_nothing (isKeyword "implements")).weaken ?_) ?_
    · simp +contextual
    · rintro _ rfl
      rfl
  | cons first rest =>
    have hnames := reads_separated (c := '&') rfl first rest
    refine ((reads_perhaps _ ⟨_, _, rfl, fun _ => rfl⟩ (Reads.next (reads_discard (reads_token fun _ => rfl))
      fun _ _ => hnames)).weaken (by simp +contextual)).end fun found hfound => ?_
    obtain ⟨names, rfl, hnames⟩ := hfound
    exact hnames

theorem reads_members (members : List String) :
    Reads (fun token => isPunct "=" token || isPunct "|" token) (membersWords members)
      Document.members (· = members) := by
  cases members with
  | nil =>
    refine Reads.end (P := (· = none)) ((reads_nothing (isPunct "=")).weaken ?_) ?_
    · simp +contextual
    · rintro _ rfl
      rfl
  | cons first rest =>
    have hnames := reads_separated (c := '|') rfl first rest
    refine ((reads_perhaps _ ⟨_, _, rfl, fun _ => rfl⟩ (Reads.next (reads_punct rfl) fun _ _ => hnames)).weaken
      (by simp +contextual)).end fun found hfound => ?_
    obtain ⟨names, rfl, hnames⟩ := hfound
    exact hnames

/-- What could go on with a definition that could have ended. -/
def continues (token : Token) : Bool :=
  isPunct "@" token || isPunct "(" token || isPunct "\x7b" token || isPunct "=" token || isPunct "|" token ||
    isPunct "&" token || isKeyword "implements" token

theorem reads_header {keyword called : String} (kind : TypeKind) {β : Type} {next : Token → String → Parser β}
    {words : List Word} {Q : β → Prop}
    (hkeyword : ∀ position, typeKeyword? ((Word.name keyword).token position) = some kind)
    (h : ∀ position, Reads continues words (next ((Word.name keyword).token position) called) Q) :
    Reads continues (.name keyword :: .name called :: words) (do
      let first ← token fun token => (typeKeyword? token).isSome
      let called ← name
      next first called) Q := by
  refine Reads.next (reads_token fun position => by rw [hkeyword]; rfl) fun first his =>
    (reads_name called).next fun name hname => ?_
  obtain ⟨position, rfl⟩ := his
  rw [hname]
  exact h position

theorem clear_block {α : Type} {avoid after : Token → Bool} {wordsOf : Nat → α → List Word} {items : List α}
    (h : ∀ position, avoid ((Word.punct '\x7b').token position) = false)
    (hafter : ∀ token, avoid token = true → after token = true) :
    Clear avoid after (blockWords wordsOf items) := by
  rw [blockWords, bracketed]
  split
  · exact clear_nil hafter
  · exact Begins.clear ⟨_, _, rfl, h⟩

/-- Directives and a block of items after them. -/
theorem reads_directivesBlock {α β : Type} {item : Parser α} {items : List α} {wordsOf : Nat → α → List Word}
    {bare : α → α} {uses : List Directive} {make : List Directive → List α → β} {Q : β → Prop}
    (hdirectives : Reads (fun token => isPunct "@" token || isPunct "(" token) (directivesWords 0 uses)
      directives fun _ => True)
    (hblock : Reads (isPunct "\x7b") (blockWords wordsOf items) (block item)
      fun values => values.map bare = items.map bare)
    (hq : ∀ directives values, values.map bare = items.map bare → Q (make directives values)) :
    Reads continues (directivesWords 0 uses ++ blockWords wordsOf items) (do
      let directives ← directives
      return make directives (← block item)) Q :=
  hdirectives.bind (fun directives _ => (hblock.weaken (by simp +contextual [continues])).end
    fun values hvalues => hq directives values hvalues)
    (clear_block (fun _ => rfl) (by simp +contextual [continues]))

/-- Interfaces, directives and a block of fields after them. -/
theorem reads_fieldsType {β : Type} {interfaces : List String} {fields : List Field} {uses : List Directive}
    {make : List String → List Directive → List Field → β} {Q : β → Prop}
    (huses : ∀ directive ∈ uses, directive.Regular 0)
    (hfields : ∀ field ∈ fields, field.Regular 1)
    (hvalues : ∀ word ∈ directivesWords 0 uses ++ blockWords Field.words fields, word.HasValue)
    (hq : ∀ directives values, values.map Field.bare = fields.map Field.bare →
      Q (make interfaces directives values)) :
    Reads continues (interfacesWords interfaces ++ (directivesWords 0 uses ++ blockWords Field.words fields)) (do
      let interfaces ← Document.interfaces
      let directives ← directives
      return make interfaces directives (← block field)) Q := by
  simp only [List.mem_append] at hvalues
  have hdirectives := reads_directives 0 zero_lt_nestingLimit huses fun word hw => hvalues word (.inl hw)
  have hblock : Reads (isPunct "\x7b") (blockWords Field.words fields) (block field)
      fun values => values.map Field.bare = fields.map Field.bare := reads_block
    (fun field hf => reads_field _ two_lt_nestingLimit Nat.one_pos (hfields field hf) fun word hw =>
      hvalues word (.inr (mem_bracketed hf hw)))
    (fun field _ => begins_described _ _ _ _ (startsDescribed_string _) fun _ => rfl)
    (fun field _ => begins_described _ _ _ _ (joins_string _) fun _ => rfl)
  refine (reads_interfaces interfaces).bind (fun names hnames => ?_) ((clear_directives _ (fun _ => rfl)
    fun _ => id).append (clear_block (fun _ => rfl) (by simp +contextual [continues, or_imp])))
  rw [hnames]
  exact reads_directivesBlock hdirectives hblock hq

theorem reads_typeDefinition {type : TypeDefinition} (h : type.Regular)
    (hvalues : ∀ word ∈ bodyWords type, word.HasValue) (description : Option String) :
    Reads continues (bodyWords type) (typeDefinition description) fun value => value.bare = type.bare := by
  obtain ⟨position, description', called, uses, body⟩ := type
  obtain ⟨-, huses, hbody⟩ := h
  have hdirectives (hvalues : ∀ word ∈ directivesWords 0 uses, word.HasValue) :=
    reads_directives 0 zero_lt_nestingLimit huses hvalues
  cases body with
  | scalar =>
    refine reads_header .scalar (fun _ => rfl) fun position => ?_
    exact ((hdirectives fun word hw => hvalues word (.tail _ (.tail _ hw))).weaken
      (by simp +contextual [continues])).end fun _ _ => rfl
  | object interfaces fields =>
    simp only [bodyWords, headerWords, List.cons_append, List.append_assoc] at hvalues ⊢
    refine reads_header .object (fun _ => rfl) fun position => ?_
    refine reads_fieldsType huses hbody.2 (fun word hw => hvalues word (.tail _ (.tail _
      (List.mem_append_right _ hw)))) fun directives values hfields => ?_
    simp only [TypeDefinition.bare, TypeBody.bare, hfields]
  | interface interfaces fields =>
    simp only [bodyWords, headerWords, List.cons_append, List.append_assoc] at hvalues ⊢
    refine reads_header .interface (fun _ => rfl) fun position => ?_
    refine reads_fieldsType huses hbody.2 (fun word hw => hvalues word (.tail _ (.tail _
      (List.mem_append_right _ hw)))) fun directives values hfields => ?_
    simp only [TypeDefinition.bare, TypeBody.bare, hfields]
  | union members =>
    simp only [bodyWords, headerWords, List.cons_append] at hvalues ⊢
    refine reads_header .union (fun _ => rfl) fun position => ?_
    refine (hdirectives fun word hw => hvalues word (.tail _ (.tail _ (List.mem_append_left _ hw)))).bind
      (fun _ _ => ((reads_members members).weaken (by simp +contextual [continues, or_imp])).end
        fun names hnames => ?_) ?_
    · simp only [TypeDefinition.bare, TypeBody.bare, hnames]
    · cases members with
      | nil => exact clear_nil (by simp +contextual [continues])
      | cons first rest => exact Begins.clear ⟨_, _, rfl, fun _ => rfl⟩
  | enum values =>
    simp only [bodyWords, headerWords, List.cons_append] at hvalues ⊢
    refine reads_header .enum (fun _ => rfl) fun position => ?_
    refine reads_directivesBlock (hdirectives fun word hw => hvalues word (.tail _ (.tail _
      (List.mem_append_left _ hw)))) (reads_block (fun value hv => reads_enumValue _ one_lt_nestingLimit
        (hbody value hv) fun word hw => hvalues word (.tail _ (.tail _ (List.mem_append_right _
          (mem_bracketed hv hw)))))
        (fun _ _ => begins_described _ _ _ _ (startsDescribed_string _) fun _ => rfl)
        (fun _ _ => begins_described _ _ _ _ (joins_string _) fun _ => rfl)) fun directives read hread => ?_
    simp only [TypeDefinition.bare, TypeBody.bare, hread]
  | inputObject fields =>
    simp only [bodyWords, headerWords, List.cons_append] at hvalues ⊢
    refine reads_header .inputObject (fun _ => rfl) fun position => ?_
    refine reads_directivesBlock (hdirectives fun word hw => hvalues word (.tail _ (.tail _
      (List.mem_append_left _ hw)))) (reads_block (fun field hf => reads_inputValue _ one_lt_nestingLimit
        Nat.one_pos (hbody field hf) fun word hw => hvalues word (.tail _ (.tail _ (List.mem_append_right _
          (mem_bracketed hf hw)))))
        (fun _ _ => begins_described _ _ _ _ (startsDescribed_string _) fun _ => rfl)
        (fun _ _ => begins_described _ _ _ _ (joins_string _) fun _ => rfl)) fun directives read hread => ?_
    simp only [TypeDefinition.bare, TypeBody.bare, hread]

/-- The operations a schema definition names a root for, with these. -/
def namedRoots (schema : SchemaDefinition) : List (Operation × String) :=
  Operation.all.filterMap fun operation => (schema.root operation).map (operation, ·)

def namedRootWords (root : Operation × String) : List Word := [.name root.1.keyword, .punct ':', .name root.2]

theorem flatMap_rootWords (schema : SchemaDefinition) :
    Operation.all.flatMap (rootWords schema) = (namedRoots schema).flatMap namedRootWords := by
  obtain ⟨position, directives, query, mutation, subscription⟩ := schema
  cases query <;> cases mutation <;> cases subscription <;> rfl

theorem namedRoots_nodup (schema : SchemaDefinition) : ((namedRoots schema).map (·.1)).Nodup := by
  obtain ⟨position, directives, query, mutation, subscription⟩ := schema
  cases query <;> cases mutation <;> cases subscription <;>
    simp [namedRoots, Operation.all, SchemaDefinition.root]

theorem find?_namedRoots (schema : SchemaDefinition) (operation : Operation) :
    ((namedRoots schema).find? (·.1 == operation)).map (·.2) = schema.root operation := by
  obtain ⟨position, directives, query, mutation, subscription⟩ := schema
  cases query <;> cases mutation <;> cases subscription <;> cases operation <;> rfl

/-- What is read for a root. -/
def ReadsRoot (root : Operation × String) (read : Token × String) : Prop :=
  read.1.text = root.1.keyword ∧ read.2 = root.2

theorem operation?_keyword (operation : Operation) : operation? operation.keyword = some operation := by
  cases operation <;> rfl

theorem keyword_beq (a b : Operation) : (a.keyword == b.keyword) = (a == b) := by
  cases a <;> cases b <;> rfl

theorem rootComplaints_eq_nil {named : List (Operation × String)} {roots : List (Token × String)}
    {seen : List Operation} (h : List.Forall₂ ReadsRoot named roots) (hnodup : (named.map (·.1)).Nodup)
    (hseen : ∀ root ∈ named, root.1 ∉ seen) : rootComplaints seen roots = [] := by
  induction h generalizing seen with
  | nil => rfl
  | @cons root read named roots hread _ ih =>
    rw [List.map_cons, List.nodup_cons] at hnodup
    obtain ⟨hfirst, hothers⟩ := List.forall_mem_cons.1 hseen
    rw [rootComplaints, hread.1, operation?_keyword]
    simp only [List.contains_eq_mem, hfirst, decide_false, Bool.false_eq_true, if_false]
    refine ih hnodup.2 fun other hother hmem => ?_
    rcases List.mem_cons.1 hmem with heq | hmem
    · exact hnodup.1 (heq ▸ List.mem_map_of_mem hother)
    · exact hothers other hother hmem

theorem firstRoot_eq {named : List (Operation × String)} {roots : List (Token × String)}
    (h : List.Forall₂ ReadsRoot named roots) (operation : Operation) :
    firstRoot roots operation = (named.find? (·.1 == operation)).map (·.2) := by
  induction h with
  | nil => rfl
  | @cons root read named roots hread _ ih =>
    simp only [firstRoot, List.find?_cons, hread.1, keyword_beq] at ih ⊢
    cases root.1 == operation with
    | true => simp [hread.2]
    | false => exact ih

theorem reads_schemaDefinition {schema : SchemaDefinition} (h : schema.Regular)
    (hvalues : ∀ word ∈ schema.words, word.HasValue) :
    Reads continues schema.words schemaDefinition fun value => value.bare = schema.bare := by
  have hdirectives := reads_directives 0 zero_lt_nestingLimit h.directives fun word hw =>
    hvalues word (.tail _ (List.mem_append_left _ hw))
  have hroot (root : Operation × String) : Reads nothing (namedRootWords root) (do
      let operation ← token isName
      punct ":"
      return (operation, ← name)) (ReadsRoot root) := by
    refine Reads.next (reads_token fun _ => rfl) fun operation his => Reads.next (reads_punct rfl) fun _ _ =>
      (reads_name root.2).end fun text htext => ⟨?_, htext⟩
    obtain ⟨position, rfl⟩ := his
    exact String.ofList_toList
  have hroots : Reads _ ((namedRoots schema).flatMap namedRootWords) _ _ :=
    reads_many isName (fun root _ => hroot root) (fun root _ => ⟨_, _, rfl, fun _ => rfl⟩)
      (fun root _ => ⟨_, _, rfl, fun _ => rfl⟩)
  rw [SchemaDefinition.words, flatMap_rootWords]
  refine Reads.next (reads_token fun _ => rfl) fun first _ => hdirectives.bind (fun directives _ =>
    Reads.next (reads_punct rfl) fun _ _ => hroots.bind (fun roots hroots => Reads.next (reads_punct rfl) fun _ _ => ?_)
      (Begins.clear ⟨_, _, rfl, fun _ => rfl⟩)) (Begins.clear ⟨_, _, rfl, fun _ => rfl⟩)
  have hcomplaints : rootComplaints [] roots = [] :=
    rootComplaints_eq_nil hroots (namedRoots_nodup schema) (by simp)
  -- nothing is left but the three roots, each found under its own keyword
  simp only [hcomplaints, List.isEmpty_nil, if_true]
  refine reads_pure ?_
  simp only [SchemaDefinition.bare, firstRoot_eq hroots, find?_namedRoots]
  rfl

/-- A type definition without its description starts with its keyword. -/
theorem begins_body {accepts : Token → Bool} {answer : Bool} (type : TypeDefinition)
    (h : ∀ keyword ∈ typeKeywords.map (·.1), ∀ position,
      accepts ((Word.name keyword).token position) = answer) : Begins accepts answer (bodyWords type) := by
  obtain ⟨position, description, called, directives, body⟩ := type
  cases body
  all_goals exact ⟨_, _, rfl, h _ (by decide)⟩

theorem begins_type {accepts : Token → Bool} {answer : Bool} (type : TypeDefinition)
    (hstring : ∀ text position, accepts ((Word.string 0 text).token position) = answer)
    (h : ∀ keyword ∈ typeKeywords.map (·.1), ∀ position,
      accepts ((Word.name keyword).token position) = answer) : Begins accepts answer type.words := by
  rw [TypeDefinition.words]
  cases type.description with
  | none => exact begins_body type h
  | some text => exact ⟨_, _, rfl, hstring text⟩

theorem isKeyword_string (keyword text : String) (position : Position) :
    isKeyword keyword ((Word.string indent text).token position) = false := by
  simp only [isKeyword, Word.token, Word.kind]
  split <;> rfl

theorem continues_string (text : String) (position : Position) :
    continues ((Word.string indent text).token position) = false := by
  simp [continues, isPunct_string, isKeyword_string]

/-- What does not start with a type keyword. -/
theorem forall_typeKeywords {p : String → Prop} :
    (∀ keyword ∈ typeKeywords.map (·.1), p keyword) ↔
      p "scalar" ∧ p "type" ∧ p "interface" ∧ p "union" ∧ p "enum" ∧ p "input" := by
  simp [typeKeywords]

open Import in
theorem reads_definition {definition : Definition} (hselectable : isSelectable definition = true)
    (h : definition.Regular) (hvalues : ∀ word ∈ definition.words, word.HasValue) :
    Reads continues definition.words Document.definition fun value => value.bare = definition.bare := by
  cases definition with
  | schema schema =>
    refine reads_at_true ⟨_, _, rfl, fun _ => rfl⟩ ?_
    exact (reads_schemaDefinition h hvalues).end fun _ hv => congrArg Definition.schema hv
  | type type =>
    have hdescription := reads_description 0 type.description
      fun word hw => hvalues word (List.mem_append_left _ hw)
    have htype := reads_typeDefinition h fun word hw => hvalues word (List.mem_append_right _ hw)
    -- neither `schema` nor `extend` in front of the description, nor `directive` behind it
    refine reads_at_false (begins_type type (isKeyword_string 0 _) ?_).clear
      (reads_at_false (begins_type type (isKeyword_string 0 _) ?_).clear (hdescription.bind
        (fun description _ => reads_at_false (begins_body type ?_).clear
          (reads_at_true (begins_body type ?_) ((htype description).end fun _ hv =>
            congrArg Definition.type hv))) (begins_body type ?_).clear))
    all_goals
      rw [forall_typeKeywords]
      exact ⟨fun _ => rfl, fun _ => rfl, fun _ => rfl, fun _ => rfl, fun _ => rfl, fun _ => rfl⟩
  | extension | directive => cases hselectable

theorem startsDefinition_string (text : String) (position : Position) :
    startsDefinition ((Word.string indent text).token position) = true := by
  simp [startsDefinition, isString_token]

/-- A definition starts with what starts one, and so ends the one before it. -/
theorem begins_definition {definition : Definition} (h : Import.isSelectable definition = true) :
    Begins startsDefinition true definition.words ∧ Begins continues false definition.words := by
  cases definition with
  | schema schema => exact ⟨⟨_, _, rfl, fun _ => rfl⟩, ⟨_, _, rfl, fun _ => rfl⟩⟩
  | type type =>
    refine ⟨begins_type type (startsDefinition_string 0) ?_, begins_type type (continues_string 0) ?_⟩
    all_goals
      rw [forall_typeKeywords]
      exact ⟨fun _ => rfl, fun _ => rfl, fun _ => rfl, fun _ => rfl, fun _ => rfl, fun _ => rfl⟩
  | extension | directive => cases h

end Parts

/-! ## Documents -/

def documentWords (document : List Definition) : List Word := document.flatMap Definition.words

theorem definitions_eq_ok {document : List Definition} {tokens : List Token} (hne : document ≠ [])
    (hselectable : ∀ definition ∈ document, Import.isSelectable definition = true)
    (h : ∀ definition ∈ document, definition.Regular)
    (hvalues : ∀ word ∈ documentWords document, word.HasValue)
    (htokens : List.Forall₂ Word.Is (documentWords document) tokens) :
    ∃ read, definitions tokens = .ok (read, []) ∧ read.map Definition.bare = document.map Definition.bare := by
  have hmany := reads_many1 startsDefinition hne
    (fun definition hd => reads_definition (hselectable definition hd) (h definition hd)
      fun word hw => hvalues word (List.mem_flatMap.2 ⟨definition, hd, hw⟩))
    (fun definition hd => (begins_definition (hselectable definition hd)).1)
    (fun definition hd => (begins_definition (hselectable definition hd)).2)
  have hread : Reads (fun _ => true) (documentWords document) definitions
      fun read => read.map Definition.bare = document.map Definition.bare := by
    unfold documentWords definitions
    rw [← List.append_nil (document.flatMap Definition.words)]
    exact hmany.bind (fun read hread => reads_at_false (clear_nil fun _ => id)
      (reads_pure (map_bare_eq hread))) (clear_nil fun _ _ => rfl)
  obtain ⟨read, hdefinitions, hbare⟩ := hread tokens [] htokens rfl
  rw [List.append_nil] at hdefinitions
  exact ⟨read, hdefinitions, hbare⟩

/-- A text that spells regular definitions is read as these, if all their words are read. -/
theorem parse_of_spells {document : List Definition} {text : String} (hne : document ≠ [])
    (hselectable : ∀ definition ∈ document, Import.isSelectable definition = true)
    (h : ∀ definition ∈ document, definition.Regular)
    (hspells : Spells text.toList (documentWords document))
    (hwords : ∀ word ∈ documentWords document, word.HasToken ∧ word.HasValue) :
    ∃ read, parse text = .ok read ∧ read.map Definition.bare = document.map Definition.bare := by
  have hfits : Fits 0 (documentWords document) := fits_flatMap fun definition hd => (h definition hd).fits
  have hnests : Nests 0 (documentWords document) := by simpa using hfits.2 [] trivial
  obtain ⟨hiff, htokens⟩ := tokensFrom_spells hspells hfits.1 0 ⟨1, 1⟩
  have hfault : (tokens text).fault = none := hiff.2 ⟨hnests, fun word hw => (hwords word hw).1⟩
  obtain ⟨read, hread, hbare⟩ := definitions_eq_ok hne hselectable h (fun word hw => (hwords word hw).2)
    (htokens hfault)
  exact ⟨read, by simp [parse, hfault, show definitions (tokens text).list = .ok (read, []) from hread], hbare⟩

end SchemaFragments.Document
